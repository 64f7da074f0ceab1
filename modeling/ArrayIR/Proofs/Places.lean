/-
  ArrayIR.Proofs.Places — the positions of an array and the cells they are at.

  A position has a coordinate for each axis, within the extent of the axis (`Within`),
  and is at the cell that the strides take it to (`View.address`). The positions that
  `places` lists are those within the shape (`mem_places`); the elements of a view are
  those at its positions in that order (`View.elements_eq_map`).

  An index takes each position of the region it selects to a position of the view,
  different ones to different ones and each to the same cell (`View.resolve_locates`).
  In a row-major array different positions are different cells of the buffer, and
  there is a cell for each of them (`rowMajor_lt`, `rowMajor_inj`).
-/

import ArrayIR.Proofs.Region
import ArrayIR.Proofs.Success
import Mathlib.Data.List.Nodup

namespace ArrayIR

/-! ## Positions of a shape -/

/-- A position of a shape: a coordinate for each axis, within its extent. -/
def Within : List Int → List Int → Prop
  | [], [] => True
  | d :: ds, i :: is => (0 ≤ i ∧ i < d) ∧ Within ds is
  | _, _ => False

instance Within.decide : ∀ ds is : List Int, Decidable (Within ds is)
  | [], [] => inferInstanceAs (Decidable True)
  | d :: ds, i :: is =>
    have := Within.decide ds is
    inferInstanceAs (Decidable ((0 ≤ i ∧ i < d) ∧ Within ds is))
  | [], _ :: _ | _ :: _, [] => inferInstanceAs (Decidable False)

variable {is ds js : List Int} {v : View}

theorem mem_places : is ∈ places ds ↔ Within ds is := by
  induction ds generalizing is with
  | nil => cases is <;> simp [places, Within]
  | cons d ds ih =>
    cases is with
    | nil => simp [places, Within]
    | cons i is =>
      simp only [places, List.mem_flatMap, List.mem_range, List.mem_map, List.cons.injEq, ih, Within]
      constructor
      · rintro ⟨k, hk, js, hjs, rfl, rfl⟩
        exact ⟨by omega, hjs⟩
      · rintro ⟨hi, his⟩
        exact ⟨i.toNat, by omega, is, his, by omega, rfl⟩

theorem Within.length (h : Within ds is) : is.length = ds.length := by
  induction ds generalizing is with
  | nil =>
    cases is with
    | nil => rfl
    | cons i is => exact h.elim
  | cons d ds ih =>
    cases is with
    | nil => exact h.elim
    | cons i is => simp [ih h.2]

theorem Within.append {es : List Int} (h : Within ds is) (h' : Within es js) : Within (ds ++ es) (is ++ js) := by
  induction ds generalizing is with
  | nil =>
    cases is with
    | nil => exact h'
    | cons i is => exact h.elim
  | cons d ds ih =>
    cases is with
    | nil => exact h.elim
    | cons i is => exact ⟨h.1, ih h.2⟩

theorem Within.of_append {es : List Int} (h : Within (ds ++ es) (is ++ js)) (hlen : is.length = ds.length) :
    Within ds is ∧ Within es js := by
  induction ds generalizing is with
  | nil =>
    obtain rfl := List.eq_nil_of_length_eq_zero hlen
    exact ⟨trivial, h⟩
  | cons d ds ih =>
    cases is with
    | nil => simp at hlen
    | cons i is =>
      obtain ⟨hi, hj⟩ := ih h.2 (by simpa using hlen)
      exact ⟨⟨h.1, hi⟩, hj⟩

theorem places_nodup (ds : List Int) : (places ds).Nodup := by
  induction ds with
  | nil => simp [places]
  | cons d ds ih =>
    rw [places, List.nodup_flatMap]
    refine ⟨fun i _ => ih.map fun p q h => (List.cons.inj h).2, ?_⟩
    refine List.nodup_range.imp_of_mem fun {i j} _ _ hij p hp hq => hij ?_
    obtain ⟨p', -, rfl⟩ := List.mem_map.mp hp
    obtain ⟨q', -, h⟩ := List.mem_map.mp hq
    have := (List.cons.inj h).1
    omega

theorem places_append (ds es : List Int) :
    places (ds ++ es) = (places ds).flatMap fun p => (places es).map (p ++ ·) := by
  induction ds with
  | nil => simp [places]
  | cons d ds ih =>
    simp only [List.cons_append, places, ih, List.map_flatMap, List.flatMap_assoc, List.map_map, List.flatMap_map]
    rfl

/-- What is there at the last coordinates, over and over again along the first ones. -/
theorem flatten_replicate_places {α : Type} (f : List Int → α) (ds es : List Int) :
    (List.replicate (positions ds) ((places es).map f)).flatten =
      (places (ds ++ es)).map fun p => f (p.drop ds.length) := by
  have block : ∀ p ∈ places ds, (places es).map (fun q => f ((p ++ q).drop ds.length)) = (places es).map f := by
    intro p hp
    rw [← (mem_places.mp hp).length]
    simp
  rw [places_append, List.map_flatMap, ← length_places]
  simp only [List.map_map, Function.comp_def]
  rw [List.flatMap_congr block, List.flatMap_def, List.map_const']

/-! ## Cells -/

theorem dot_append {ss ts : List Int} (h : is.length = ss.length) :
    dot (is ++ js) (ss ++ ts) = dot is ss + dot js ts := by
  induction is generalizing ss with
  | nil =>
    obtain rfl := List.eq_nil_of_length_eq_zero h.symm
    simp [dot]
  | cons i is ih =>
    cases ss with
    | nil => simp at h
    | cons s ss =>
      have hrest : dot (is ++ js) (ss ++ ts) = dot is ss + dot js ts := ih (by simpa using h)
      simp only [List.cons_append, dot, hrest]
      omega

/-- Strides beyond the coordinates do not matter. -/
theorem dot_zip {shape : List Int} (h : is.length ≤ shape.length) (strides : List Int) :
    dot is strides = dot is ((shape.zip strides).map (·.2)) := by
  induction is generalizing shape strides with
  | nil => simp [dot]
  | cons i is ih =>
    cases shape with
    | nil => simp at h
    | cons d ds =>
      cases strides with
      | nil => rfl
      | cons s ss =>
        have hrest : dot is ss = dot is ((ds.zip ss).map (·.2)) := ih (by simpa using h) ss
        simp only [List.zip_cons_cons, List.map_cons, dot, ← hrest]

namespace View

/-- The element at a position. -/
def element (v : View) (s : Store) (p : List Int) : Scalar := cellAt v.elt (s.cells v.buffer) (v.address p)

theorem elements_eq_map (v : View) (s : Store) : v.elements s = (places v.shape).map (v.element s) := by
  rw [elements, offsets_eq_map, List.map_map]
  rfl

theorem mem_offsets {o : Int} : o ∈ v.offsets ↔ ∃ p, Within v.shape p ∧ v.address p = o := by
  simp [offsets_eq_map, mem_places]

end View

/-- The element of a value at a position: a scalar has one, at no coordinates. -/
def Value.element? (s : Store) : Value → List Int → Option Scalar
  | .scalar x, [] => some x
  | .array v, p => some (v.element s p)
  | _, _ => none

/-! ## Row-major arrays -/

theorem extent_cons (d : Int) (ds : List Int) : extent (d :: ds) = d * extent ds := by
  have scaled : ∀ (a : Int) (ds : List Int), ds.foldl (· * ·) a = a * extent ds := by
    intro a ds
    induction ds generalizing a with
    | nil => simp [extent]
    | cons d ds ih =>
      have hcons : extent (d :: ds) = d * extent ds := by rw [extent, List.foldl_cons, ih, Int.one_mul]
      rw [List.foldl_cons, ih, hcons, Int.mul_assoc]
  rw [extent, List.foldl_cons, scaled, Int.one_mul]

/-- An axis moves by as many cells as there are positions of the axes after it. -/
theorem rowMajor_cons (d : Int) (ds : List Int) : rowMajor (d :: ds) = extent ds :: rowMajor ds := by
  induction ds generalizing d with
  | nil => rfl
  | cons e es ih => rw [rowMajor, ih e, List.head?_cons, Option.getD_some, extent_cons, Int.mul_comm]

theorem length_rowMajor (ds : List Int) : (rowMajor ds).length = ds.length := by
  induction ds with
  | nil => rfl
  | cons d ds ih => rw [rowMajor_cons, List.length_cons, ih, List.length_cons]

/-- There is a cell for every position. -/
theorem rowMajor_lt (h : Within ds is) : 0 ≤ dot is (rowMajor ds) ∧ dot is (rowMajor ds) < extent ds := by
  induction ds generalizing is with
  | nil =>
    cases is with
    | nil => decide
    | cons i is => exact h.elim
  | cons d ds ih =>
    cases is with
    | nil => exact h.elim
    | cons i is =>
      obtain ⟨⟨hi, hd⟩, his⟩ := h
      obtain ⟨hlo, hhi⟩ := ih his
      rw [rowMajor_cons, dot, extent_cons]
      have hfirst : 0 ≤ i * extent ds := Int.mul_nonneg hi (by omega)
      have hlast : (i + 1) * extent ds ≤ d * extent ds := Int.mul_le_mul_of_nonneg_right (by omega) (by omega)
      rw [Int.add_mul, Int.one_mul] at hlast
      omega

/-- Different positions are different cells. -/
theorem rowMajor_inj (hi : Within ds is) (hj : Within ds js)
    (h : dot is (rowMajor ds) = dot js (rowMajor ds)) : is = js := by
  induction ds generalizing is js with
  | nil =>
    rw [List.eq_nil_of_length_eq_zero hi.length, List.eq_nil_of_length_eq_zero hj.length]
  | cons d ds ih =>
    cases is with
    | nil => exact hi.elim
    | cons i is =>
      cases js with
      | nil => exact hj.elim
      | cons j js =>
        rw [rowMajor_cons, dot, dot] at h
        have hx := rowMajor_lt hi.2
        have hy := rowMajor_lt hj.2
        -- the first coordinate is the quotient by the number of the other positions
        have hquot : ∀ {a r : Int}, 0 ≤ r ∧ r < extent ds → (a * extent ds + r) / extent ds = a := by
          intro a r hr
          rw [Int.add_comm, Int.add_mul_ediv_right _ _ (by omega), Int.ediv_eq_zero_of_lt hr.1 hr.2, Int.zero_add]
        have hij : i = j := by rw [← hquot hx (a := i), h, hquot hy]
        subst hij
        rw [ih hi.2 hj.2 (by omega)]

/-! ## Regions -/

namespace View

/-- The extents of the axes along which the view moves: those that have a stride. -/
def extents (v : View) : List Int := (v.shape.zip v.strides).map (·.1)

/-- Different positions of the view are different cells, all of them inside the buffer. -/
structure OneToOne (v : View) (s : Store) : Prop where
  distinct : ∀ {p q : List Int}, Within v.extents p → Within v.extents q → v.address p = v.address q → p = q
  inside : ∀ {p : List Int}, Within v.extents p → 0 ≤ v.address p ∧ v.address p < (s.cells v.buffer).size

theorem extents_eq (h : v.strides.length = v.shape.length) : v.extents = v.shape :=
  List.map_fst_zip (Nat.le_of_eq h.symm)

/-- The position of an axis at which a component of an index finds position `k` of what it keeps. -/
def coordinate (dim : Int) (c : Value) (k : List Int) : Int :=
  match c with
  | .scalar x => (x.asInt.toOption.getD 0).toInt
  | .slice start _ step => clamp 0 dim ((start.map (·.toInt)).getD 0) + k.headD 0 * step.toInt
  | _ => 0

theorem clamp_bounds {lo hi i : Int} (h : lo ≤ hi) : lo ≤ clamp lo hi i ∧ clamp lo hi i ≤ hi := by
  unfold clamp
  split
  · omega
  · split <;> omega

variable {step dim stride : Int} {axis : Nat} {c idx : Value} {kept : List (Int × Int)} {region : View}

/-- A slice with room for position `k` ends beyond the `k`-th of its steps, within the axis. -/
theorem slice_room {a b k : Int} (hstep : 0 < step) (hk : 0 ≤ k)
    (h : k < (clamp (clamp 0 dim a) dim b - clamp 0 dim a + step - 1).tdiv step) :
    0 ≤ clamp 0 dim a + k * step ∧ clamp 0 dim a + k * step < dim := by
  have hprod : 0 ≤ k * step := Int.mul_nonneg hk (by omega)
  by_cases hdim : 0 ≤ dim
  · obtain ⟨hlo, hlo'⟩ := clamp_bounds (i := a) hdim
    obtain ⟨hhi, hhi'⟩ := clamp_bounds (i := b) hlo'
    rw [Int.tdiv_eq_ediv_of_nonneg (by omega)] at h
    have hle := (Int.le_ediv_iff_mul_le hstep).mp (Int.add_one_le_of_lt h)
    rw [Int.add_mul, Int.one_mul] at hle
    omega
  · -- along a negative extent there is no room at all
    exfalso
    have hempty : clamp (clamp 0 dim a) dim b - clamp 0 dim a ≤ 0 := by
      unfold clamp
      repeat' split
      all_goals omega
    rcases Int.lt_or_le (clamp (clamp 0 dim a) dim b - clamp 0 dim a + step - 1) 0 with hneg | hpos
    · have hquot := Int.tdiv_nonneg (Int.neg_nonneg_of_nonpos (Int.le_of_lt hneg)) (Int.le_of_lt hstep)
      rw [Int.neg_tdiv] at hquot
      omega
    · rw [Int.tdiv_eq_ediv_of_nonneg hpos, Int.ediv_eq_zero_of_lt hpos (by omega)] at h
      omega

/-- What a component does to an axis: an integer within its extent drops it, a slice keeps every `st`-th
position between its bounds. -/
theorem resolveAxis_ok (h : resolveAxis axis dim stride c = .ok (step, kept)) :
    (∃ x i, c = .scalar x ∧ x.asInt = .ok i ∧ (0 ≤ i.toInt ∧ i.toInt < dim) ∧ step = i.toInt * stride ∧ kept = []) ∨
    ∃ start stop st, c = .slice start stop st ∧ 0 < st.toInt ∧
      step = clamp 0 dim ((start.map (·.toInt)).getD 0) * stride ∧
      kept = [((clamp (clamp 0 dim ((start.map (·.toInt)).getD 0)) dim ((stop.map (·.toInt)).getD dim) -
        clamp 0 dim ((start.map (·.toInt)).getD 0) + st.toInt - 1).tdiv st.toInt, stride * st.toInt)] := by
  cases c with
  | scalar x =>
    obtain ⟨i, hi, h⟩ := except_bind_ok h
    dsimp only at h
    split at h
    · cases h
    · cases h
      exact .inl ⟨x, i, rfl, hi, by omega, rfl, rfl⟩
  | slice start stop st =>
    rw [resolveAxis] at h
    split at h
    · cases h
    · rename_i hst
      cases h
      have hpos : 0 < st.toInt := by
        have := Int64.not_le.mp hst
        simpa using Int64.lt_iff_toInt_lt.mp this
      exact .inr ⟨start, stop, st, rfl, hpos, rfl, rfl⟩
  | _ => cases h

/-- What a component keeps of an axis is found at positions of the axis. -/
theorem resolveAxis_locates (h : resolveAxis axis dim stride c = .ok (step, kept)) {k : List Int}
    (hk : Within (kept.map (·.1)) k) :
    (0 ≤ coordinate dim c k ∧ coordinate dim c k < dim) ∧
      coordinate dim c k * stride = step + dot k (kept.map (·.2)) := by
  obtain ⟨x, i, rfl, hx, hi, rfl, rfl⟩ | ⟨start, stop, st, rfl, hst, rfl, rfl⟩ := resolveAxis_ok h
  · have hc : coordinate dim (.scalar x) k = i.toInt := by simp [coordinate, hx, Except.toOption]
    obtain rfl := List.eq_nil_of_length_eq_zero hk.length
    rw [hc]
    exact ⟨hi, by simp [dot]⟩
  · cases k with
    | nil => exact hk.elim
    | cons i is =>
      obtain ⟨⟨hi, hlt⟩, his⟩ := hk
      obtain rfl := List.eq_nil_of_length_eq_zero his.length
      refine ⟨slice_room hst hi hlt, ?_⟩
      simp only [coordinate, List.headD_cons, dot, List.map_cons, List.map_nil, Int.add_mul, Int.add_zero]
      rw [Int.mul_assoc, Int.mul_comm st.toInt]

/-- Different positions that a component keeps are found at different ones. -/
theorem coordinate_inj (h : resolveAxis axis dim stride c = .ok (step, kept)) {k l : List Int}
    (hk : k.length = kept.length) (hl : l.length = kept.length)
    (heq : coordinate dim c k = coordinate dim c l) : k = l := by
  obtain ⟨x, i, rfl, -, -, -, rfl⟩ | ⟨start, stop, st, rfl, hst, -, rfl⟩ := resolveAxis_ok h
  · rw [List.eq_nil_of_length_eq_zero hk, List.eq_nil_of_length_eq_zero hl]
  · obtain ⟨i, rfl⟩ := List.length_eq_one_iff.mp hk
    obtain ⟨j, rfl⟩ := List.length_eq_one_iff.mp hl
    simp only [coordinate, List.headD_cons] at heq
    have : i = j := Int.eq_of_mul_eq_mul_right (by omega) (by omega : i * st.toInt = j * st.toInt)
    rw [this]

/-- How many axes a component keeps. -/
def width : Value → Nat
  | .slice _ _ _ => 1
  | _ => 0

theorem length_resolveAxis (h : resolveAxis axis dim stride c = .ok (step, kept)) : kept.length = width c := by
  obtain ⟨x, i, rfl, -, -, -, rfl⟩ | ⟨start, stop, st, rfl, -, -, rfl⟩ := resolveAxis_ok h <;> rfl

/-- The position of a view, given by its axes, at which an index finds a position of the region it selects. -/
def locate : List (Int × Int) → List Value → List Int → List Int
  | [], _, _ => []
  | _ :: _, [], q => q
  | (dim, _) :: axes, c :: cs, q => coordinate dim c (q.take (width c)) :: locate axes cs (q.drop (width c))

/-- A region is found at positions of the view, each at the same cell. -/
theorem resolveAxes_locates {axes : List (Int × Int)} {cs : List Value}
    (h : resolveAxes axis axes cs = .ok (step, kept)) {q : List Int} (hq : Within (kept.map (·.1)) q) :
    Within (axes.map (·.1)) (locate axes cs q) ∧
      dot (locate axes cs q) (axes.map (·.2)) = step + dot q (kept.map (·.2)) := by
  induction axes generalizing axis cs kept step q with
  | nil =>
    cases h
    obtain rfl := List.eq_nil_of_length_eq_zero hq.length
    exact ⟨trivial, rfl⟩
  | cons a axes ih =>
    obtain ⟨dim, stride⟩ := a
    cases cs with
    | nil =>
      cases h
      exact ⟨hq, (Int.zero_add _).symm⟩
    | cons c cs =>
      obtain ⟨⟨s1, k1⟩, h1, h⟩ := except_bind_ok h
      obtain ⟨⟨s2, k2⟩, h2, h⟩ := except_bind_ok h
      cases h
      have hw := length_resolveAxis h1
      have hlen : (q.take (width c)).length = (k1.map (·.1)).length := by
        have := hq.length
        simp only [List.length_map, List.length_append] at this
        rw [List.length_take, List.length_map]
        omega
      rw [← List.take_append_drop (width c) q, List.map_append] at hq
      obtain ⟨hq1, hq2⟩ := hq.of_append hlen
      obtain ⟨hin, hat⟩ := resolveAxis_locates h1 hq1
      obtain ⟨hins, hats⟩ := ih h2 hq2
      refine ⟨⟨hin, hins⟩, ?_⟩
      have hsplit : dot (q.take (width c) ++ q.drop (width c)) (k1.map (·.2) ++ k2.map (·.2)) = _ :=
        dot_append (by rw [hlen, List.length_map, List.length_map])
      rw [List.take_append_drop] at hsplit
      simp only [locate, List.map_cons, dot, List.map_append, hat, hats, hsplit]
      omega

/-- Different positions of a region are found at different ones. -/
theorem locate_inj {axes : List (Int × Int)} {cs : List Value} (h : resolveAxes axis axes cs = .ok (step, kept))
    {q r : List Int} (hq : q.length = kept.length) (hr : r.length = kept.length)
    (heq : locate axes cs q = locate axes cs r) : q = r := by
  induction axes generalizing axis cs kept step q r with
  | nil =>
    cases h
    rw [List.eq_nil_of_length_eq_zero hq, List.eq_nil_of_length_eq_zero hr]
  | cons a axes ih =>
    obtain ⟨dim, stride⟩ := a
    cases cs with
    | nil => exact heq
    | cons c cs =>
      obtain ⟨⟨s1, k1⟩, h1, h⟩ := except_bind_ok h
      obtain ⟨⟨s2, k2⟩, h2, h⟩ := except_bind_ok h
      cases h
      have hw := length_resolveAxis h1
      rw [List.length_append] at hq hr
      obtain ⟨hc, hcs⟩ := List.cons.inj heq
      have hfirst := coordinate_inj h1 (by rw [List.length_take]; omega) (by rw [List.length_take]; omega) hc
      have hrest := ih h2 (by rw [List.length_drop]; omega) (by rw [List.length_drop]; omega) hcs
      rw [← List.take_append_drop (width c) q, hfirst, hrest, List.take_append_drop]

/-- What an index makes of a view, axis by axis. -/
theorem resolve_ok (h : v.resolve idx = .ok region) :
    ∃ step kept, resolveAxes 0 (v.shape.zip v.strides) (components idx) = .ok (step, kept) ∧
      region = { v with shape := kept.map (·.1), strides := kept.map (·.2), offset := v.offset + step } := by
  unfold resolve at h
  dsimp only at h
  split at h
  · cases h
  · obtain ⟨⟨step, kept⟩, hk, h⟩ := except_bind_ok h
    cases h
    exact ⟨step, kept, hk, rfl⟩

theorem resolve_proper (h : v.resolve idx = .ok region) :
    region.elt = v.elt ∧ region.buffer = v.buffer ∧ region.strides.length = region.shape.length := by
  obtain ⟨step, kept, -, rfl⟩ := resolve_ok h
  exact ⟨rfl, rfl, by simp⟩

/-- The region as a value: without axes it is its one element. -/
def value (region : View) (s : Store) : Value :=
  if region.shape.isEmpty then .scalar (cellAt region.elt (s.cells region.buffer) region.offset) else .array region

theorem read_of_resolve (h : v.resolve idx = .ok region) (s : Store) : v.read s idx = .ok (region.value s) := by
  rw [read, h]
  show (if region.shape.isEmpty = true then _ else _) = _
  unfold value
  split <;> rfl

theorem shape_value (region : View) (s : Store) : (region.value s).shape = region.shape := by
  unfold value
  split
  · rename_i hempty
    exact (List.isEmpty_iff.mp hempty).symm
  · rfl

theorem element?_value {p : List Int} (hp : Within region.shape p) (s : Store) :
    (region.value s).element? s p = some (region.element s p) := by
  unfold value
  split
  · rename_i hempty
    rw [List.isEmpty_iff.mp hempty] at hp
    obtain rfl := List.eq_nil_of_length_eq_zero hp.length
    simp [Value.element?, element, address, dot]
  · rfl

/-- A region of a view is found at positions of the view: different ones at different ones, each at the same
cell. -/
theorem resolve_locates (h : v.resolve idx = .ok region) :
    ∃ f : List Int → List Int, (∀ q, Within region.shape q → Within v.extents (f q) ∧
      v.address (f q) = region.address q) ∧
      ∀ q r, Within region.shape q → Within region.shape r → f q = f r → q = r := by
  obtain ⟨step, kept, hk, rfl⟩ := resolve_ok h
  refine ⟨locate (v.shape.zip v.strides) (components idx), fun q hq => ?_, fun q r hq hr heq => ?_⟩
  · obtain ⟨hin, hat⟩ := resolveAxes_locates hk hq
    refine ⟨hin, ?_⟩
    have hstrides : dot (locate (v.shape.zip v.strides) (components idx) q) v.strides =
        dot (locate (v.shape.zip v.strides) (components idx) q) ((v.shape.zip v.strides).map (·.2)) :=
      dot_zip (by rw [hin.length, List.length_map, List.length_zip]; omega) v.strides
    simp only [address, hstrides, hat, Int.add_assoc]
  · exact locate_inj hk (by simpa using hq.length) (by simpa using hr.length) heq

theorem OneToOne.resolve {s : Store} (hv : v.OneToOne s) (h : v.resolve idx = .ok region) : region.OneToOne s := by
  obtain ⟨-, hb, hlen⟩ := resolve_proper h
  obtain ⟨f, hf, hinj⟩ := resolve_locates h
  have hext := extents_eq hlen
  constructor
  · intro p q hp hq heq
    rw [hext] at hp hq
    obtain ⟨hp', hap⟩ := hf p hp
    obtain ⟨hq', haq⟩ := hf q hq
    exact hinj p q hp hq (hv.distinct hp' hq' (by rw [hap, haq, heq]))
  · intro p hp
    rw [hext] at hp
    obtain ⟨hp', hap⟩ := hf p hp
    rw [hb, ← hap]
    exact hv.inside hp'

end View

end ArrayIR
