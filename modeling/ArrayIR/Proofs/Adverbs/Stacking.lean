/-
  ArrayIR.Proofs.Adverbs.Stacking — filling an array with results of one form.

  Results of one kind and shape are stacked in a new row-major array, each at the
  positions that start with its own coordinates (`View.Stacked`). Storing one result
  leaves the others as they are (`View.write_stacked`), so a loop that computes a result
  at every position and stores it there ends with all of them (`Adverb.loop_stacked`),
  whatever it computes them from, as long as that is not the array.
-/

import ArrayIR.Proofs.Adverbs.Beside
import ArrayIR.Proofs.Adverbs.Slices
import ArrayIR.Proofs.Casting
import ArrayIR.Proofs.Storing

namespace ArrayIR

/-! ## Values of one form -/

/-- A scalar of the kind, or an array of the element type and the shape. -/
def Value.HasForm (elt : ScalarTy) (shape : List Int) : Value → Prop
  | .scalar x => x.ty = elt ∧ shape = []
  | .array v => v.elt = elt ∧ v.shape = shape ∧ ∀ d ∈ shape, 0 ≤ d
  | _ => False

variable {w : Pairing} {idx first : Value}

namespace Value.HasForm

variable {elt : ScalarTy} {shape : List Int} {x y : Value}

theorem shape_eq (h : x.HasForm elt shape) : x.shape = shape := by
  cases x with
  | scalar z => exact h.2.symm
  | array v => exact h.2.1
  | _ => exact h.elim

theorem extents (h : x.HasForm elt shape) : ∀ d ∈ shape, 0 ≤ d := by
  cases x with
  | scalar z =>
    rw [h.2]
    exact fun _ hd => absurd hd List.not_mem_nil
  | array v => exact h.2.2
  | _ => exact h.elim

theorem takes (h : x.HasForm elt shape) {region : View} (hs : region.shape = shape) : region.Takes x := by
  cases x with
  | scalar z => trivial
  | array v =>
    have hsame : v.shape = region.shape := h.2.1.trans hs.symm
    have hsuffix : v.shape <:+ region.shape := hsame ▸ List.suffix_refl v.shape
    exact hsuffix
  | _ => exact h.elim

theorem alike (h : x.HasForm elt shape) (hxy : Likes .strict w x y) : y.HasForm elt shape := by
  cases x with
  | scalar z =>
    cases hxy
    exact h
  | array v =>
    obtain ⟨u, rfl, hu⟩ := hxy
    exact ⟨hu.elt ▸ h.1, hu.shape ▸ h.2.1, h.2.2⟩
  | _ => exact h.elim

end Value.HasForm

/-- Alike values have the same elements. -/
theorem Value.element?_alike {x y : Value} {s t : Store} (hst : Agree .strict w s t) (h : Likes .strict w x y)
    (p : List Int) : x.element? s p = y.element? t p := by
  cases x with
  | scalar z =>
    cases h
    cases p <;> rfl
  | array v =>
    obtain ⟨u, rfl, hu⟩ := h
    rcases hu.layout with ⟨hs, ho, hr⟩ | ⟨hloose, -⟩
    · simp only [Value.element?, View.element, View.address, hs, ho, hu.elt, hst.cells trivial hr]
    · exact hloose.elim
  | nothing | slice => cases h; rfl
  | tuple | buffer | closure => obtain ⟨_, rfl, -⟩ := h; rfl

/-! ## The array that is filled -/

namespace View

variable {u region : View} {s t t' : Store}

/-- A row-major array that starts with its buffer. -/
def rowMajorAt (elt : ScalarTy) (shape : List Int) (b : BufferId) : View := ⟨elt, b, shape, rowMajor shape, 0⟩

variable {shape : List Int} {want : List Int → List Int → Option Scalar} {done : List Int → Prop}

theorem rowMajorAt_oneToOne {elt : ScalarTy} {b : BufferId}
    (h : (t.cells b).size = (extent shape).toNat) : (rowMajorAt elt shape b).OneToOne t := by
  have hlen : (rowMajorAt elt shape b).strides.length = (rowMajorAt elt shape b).shape.length := length_rowMajor shape
  constructor
  · intro p q hp hq heq
    rw [extents_eq hlen] at hp hq
    exact rowMajor_inj hp hq (by simpa [address, rowMajorAt] using heq)
  · intro p hp
    rw [extents_eq hlen] at hp
    have hin : Within shape p := hp
    have hat := rowMajor_lt hin
    show 0 ≤ 0 + dot p (rowMajor shape) ∧ 0 + dot p (rowMajor shape) < (t.cells b).size
    rw [h]
    omega

theorem OneToOne.congr (h : u.OneToOne s) (hsize : (t.cells u.buffer).size = (s.cells u.buffer).size) : u.OneToOne t :=
  ⟨h.distinct, fun hp => hsize ▸ h.inside hp⟩

theorem shape_layer {d : Int} {ds : List Int} (hshape : u.shape = d :: ds)
    (hlen : u.strides.length = u.shape.length) (i : Int) :
    (u.layer 0 i).shape = ds ∧ (u.layer 0 i).strides.length = ds.length := by
  obtain ⟨s, ss, hs⟩ : ∃ s ss, u.strides = s :: ss := List.exists_cons_of_length_eq_add_one (by rw [hlen, hshape]; rfl)
  rw [hs, hshape] at hlen
  have hle : ds.length = ss.length := by simpa using hlen.symm
  simp only [layer, hs, hshape, List.zip_cons_cons, List.eraseIdx_zero, List.tail_cons,
    List.length_map, List.length_zip]
  exact ⟨List.map_fst_zip (Nat.le_of_eq hle), by omega⟩

/-- What is wanted is there, at all positions that start with coordinates that are done. -/
def Stacked (u : View) (shape : List Int) (want : List Int → List Int → Option Scalar) (done : List Int → Prop)
    (t : Store) : Prop :=
  ∀ pre p, done pre → Within shape p → some (u.element t (pre ++ p)) = (want pre p).map (·.convert u.elt)

theorem element_of_cells {p : List Int} (h0 : 0 ≤ u.address p)
    (h : (t'.cells u.buffer)[(u.address p).toNat]? = (t.cells u.buffer)[(u.address p).toNat]?) :
    u.element t' p = u.element t p := by
  have hneg : ¬ u.address p < 0 := by omega
  simp only [element, cellAt, if_neg hneg, h]

theorem size_filled (region : View) (t : Store) (y : Value) (b : BufferId) :
    ((region.filled t y).cells b).size = (t.cells b).size := by
  by_cases hb : b = region.buffer
  · rcases Nat.lt_or_ge b t.size with hlt | hge
    · rw [filled, hb, Store.cells_modify_self t _ (hb ▸ hlt), size_fill]
    · rw [Store.cells_of_size_le hge, Store.cells_of_size_le (by rwa [filled, Store.size_modify])]
  · rw [filled, Store.cells_modify_ne t _ hb]

theorem filled_oneToOne (hu : u.OneToOne t) (region : View) (y : Value) : u.OneToOne (region.filled t y) :=
  hu.congr (size_filled region t y u.buffer)

/-- Filling the positions that start with `pre` leaves the others as they are. -/
theorem filled_stacked (dims pre : List Int) {y : Value} (hu : u.OneToOne t) (hlen : u.strides.length = u.shape.length)
    (hshape : u.shape = dims ++ shape) (hpre : Within dims pre) (hregion : u.resolve idx = .ok region)
    (hrs : region.shape = shape) (hat : ∀ p, region.address p = u.address (pre ++ p)) (hys : y.shape = shape)
    (hy : region.Takes y) (hwant : ∀ p, Within shape p → y.element? t p = want pre p)
    (hdone : ∀ q, done q → Within dims q) (h : u.Stacked shape want done t) :
    u.Stacked shape want (fun q => done q ∨ q = pre) (region.filled t y) := by
  obtain ⟨helt, hbuf, hrlen⟩ := resolve_proper hregion
  have hplace : ∀ {q p}, Within dims q → Within shape p → Within u.extents (q ++ p) := by
    intro q p hq hp
    rw [extents_eq hlen, hshape]
    exact hq.append hp
  intro q p hq hp
  by_cases hqp : q = pre
  · subst hqp
    have hrank : p.length = y.rank := by rw [hp.length, Value.rank, hys]
    have hp' : Within region.shape ([] ++ p) := hrs.symm ▸ hp
    obtain ⟨z, hz, hnew⟩ := element_filled (hu.resolve hregion) hrlen hy hp' hrank
    have hsame : u.element (region.filled t y) (q ++ p) = region.element (region.filled t y) p := by
      simp only [element, helt, hbuf, hat]
    rw [hsame, ← hwant p hp, hz, ← helt]
    exact congrArg some hnew
  · have hq : done q := hq.resolve_right hqp
    have hin := hu.inside (hplace (hdone q hq) hp)
    have hkeep : u.element (region.filled t y) (q ++ p) = u.element t (q ++ p) := by
      refine element_of_cells hin.1 ((filled_onlyChanges region t y).cells _ _ fun _ hmem => hqp ?_)
      obtain ⟨p', hp', haddr⟩ := mem_offsets.mp hmem
      rw [hat, Int.toNat_of_nonneg hin.1] at haddr
      have heq := hu.distinct (hplace hpre (hrs ▸ hp')) (hplace (hdone q hq) hp) haddr
      exact (List.append_inj heq (by rw [hpre.length, (hdone q hq).length])).1.symm
    rw [hkeep]
    exact h q p hq hp

/-- Storing a value at the positions that start with `pre` leaves the others as they are. -/
theorem write_stacked (dims pre : List Int) {y : Value} (hu : u.OneToOne t) (hlen : u.strides.length = u.shape.length)
    (hshape : u.shape = dims ++ shape) (hpre : Within dims pre) (hregion : u.resolve idx = .ok region)
    (hrs : region.shape = shape) (hat : ∀ p, region.address p = u.address (pre ++ p)) (hy : y.HasForm u.elt shape)
    (hwant : ∀ p, Within shape p → y.element? t p = want pre p) (hdone : ∀ q, done q → Within dims q)
    (h : u.Stacked shape want done t) :
    ∃ f, u.write idx y t = .ok () (t.modify u.buffer f) ∧ u.OneToOne (t.modify u.buffer f) ∧
      u.Stacked shape want (fun q => done q ∨ q = pre) (t.modify u.buffer f) := by
  obtain ⟨-, hbuf, -⟩ := resolve_proper hregion
  have hfilled : region.filled t y =
      t.modify u.buffer (fill region.elt ((y.elements? t).getD []).toArray region.offsets) := by rw [filled, hbuf]
  refine ⟨_, hfilled ▸ write_of_resolve hregion (hy.takes hrs), hfilled ▸ filled_oneToOne hu region y, hfilled ▸ ?_⟩
  exact filled_stacked dims pre hu hlen hshape hpre hregion hrs hat hy.shape_eq (hy.takes hrs) hwant hdone h

/-- At the positions that start with `q` the array holds the elements that the value has in the store `t'`,
brought to the element type of the array: an element of this type is itself. -/
def HoldsAt (u : View) (t : Store) (q : List Int) (y : Value) (t' : Store) : Prop :=
  ∀ p, Within y.shape p → ∃ z, y.element? t' p = some z ∧ u.element t (q ++ p) = z.convert u.elt ∧
    (z.ty = u.elt → u.element t (q ++ p) = z)

theorem Stacked.holds (h : u.Stacked shape want done t) {q : List Int} (hq : done q) {y : Value} (hy : y.shape = shape)
    (hwant : ∀ p, want q p = y.element? t' p) : u.HoldsAt t q y t' := by
  intro p hp
  have hat := h q p hq (hy ▸ hp)
  rw [hwant] at hat
  obtain ⟨z, hz, hconvert⟩ := Option.map_eq_some_iff.mp hat.symm
  refine ⟨z, hz, hconvert.symm, fun hty => ?_⟩
  rw [← hconvert, ← hty, Scalar.convert_self]

theorem Stacked.mono {done' : List Int → Prop} (h : u.Stacked shape want done t)
    (hd : ∀ q, done' q → done q) : u.Stacked shape want done' t :=
  fun q p hq => h q p (hd q hq)

/-- What is there depends on the buffer alone. -/
theorem Stacked.congr (h : u.Stacked shape want done t)
    (hcells : t'.cells u.buffer = t.cells u.buffer) : u.Stacked shape want done t' := by
  intro q p hq hp
  rw [element, hcells]
  exact h q p hq hp

end View

/-- Room for values of one form is a new row-major array. -/
theorem Eval.alloc_eq {elt : ScalarTy} {shape : List Int} (h : first.HasForm elt shape) (ns : List Int64)
    (t : Store) : ∃ cells : Array Scalar, cells.size = (extent (ns.map (·.toInt) ++ shape)).toNat ∧
      alloc first (ns.map .int) t = .ok (.array (.rowMajorAt elt (ns.map (·.toInt) ++ shape) t.size))
        (t.alloc cells).2 := by
  have hns : (Value.asIntList (ns.map .int) : Except Error _) = .ok ns := by
    induction ns with
    | nil => rfl
    | cons n ns ih =>
      unfold Value.asIntList at ih ⊢
      rw [List.map_cons, List.mapM_cons, ih]
      rfl
  refine ⟨(List.replicate (extent (ns.map (·.toInt) ++ shape)).toNat (Scalar.zero elt)).toArray, by simp, ?_⟩
  rw [alloc, state_bind_of_ok (state_lift_of_ok hns t)]
  cases first with
  | scalar x =>
    obtain ⟨rfl, rfl⟩ := h
    rw [List.append_nil]
    rfl
  | array v =>
    obtain ⟨rfl, rfl, -⟩ := h
    rfl
  | _ => exact h.elim

/-- What room is made for a value is a new row-major array, if any. -/
theorem Eval.alloc_ok {r : Value} {n : Int64} {t t' : Store} (h : alloc first [.int n] t = .ok r t') :
    ∃ elt shape cells, r = .array (.rowMajorAt elt (n.toInt :: shape) t.size) ∧ t' = (t.alloc cells).2 := by
  cases first with
  | scalar x =>
    cases h
    exact ⟨_, _, _, rfl, rfl⟩
  | array v =>
    cases h
    exact ⟨_, _, _, rfl, rfl⟩
  | _ => cases h

/-! ## Filling it in a loop -/

/-- Positions of 64 bits are exact. -/
theorem toInt_ofInt_of_lt {n : Int64} {i : Int} (h0 : 0 ≤ i) (h : i < n.toInt) : (Int64.ofInt i).toInt = i := by
  have := Int64.toInt_lt n
  exact Int64.toInt_ofInt_of_le (by omega) (by omega)

namespace Adverb

open Eval (domain)

/-- The first `k` positions of one axis. -/
def Rows (k : Nat) (q : List Int) : Prop := ∃ i : Nat, i < k ∧ q = [(i : Int)]

variable {call : Caller} {n : Int64} {u : View} {shape : List Int} {want : List Int → List Int → Option Scalar}

/-- The elements of results that come along one axis, each as it was in the store after it. -/
def entries (results : Nat → Value) (after : Nat → Store) (q p : List Int) : Option Scalar :=
  (results (q.headD 0).toNat).element? (after (q.headD 0).toNat) p

theorem entries_natCast (results : Nat → Value) (after : Nat → Store) (k : Nat) (p : List Int) :
    entries results after [(k : Int)] p = (results k).element? (after k) p := by
  simp [entries]

variable {t t' : Store} {y : Value} {elt : ScalarTy}

/-- The next value goes to the next position. -/
theorem put_stacked (call : Caller) (hshape : u.shape = n.toInt :: shape) (hlen : u.strides.length = u.shape.length)
    {k : Nat} (hk : (k : Int) < n.toInt) (hu : u.OneToOne t) (hy : y.HasForm u.elt shape)
    (hwant : ∀ p, Within shape p → y.element? t p = want [(k : Int)] p) (h : u.Stacked shape want (Rows k) t) :
    ∃ f, put (domain call) (.array u) (.ofInt k) y t = .ok () (t.modify u.buffer f) ∧ u.OneToOne (t.modify u.buffer f) ∧
      u.Stacked shape want (Rows (k + 1)) (t.modify u.buffer f) := by
  have hint := toInt_ofInt_of_lt (Int.natCast_nonneg k) hk
  have hext : ∀ d ∈ u.shape, 0 ≤ d := by
    rw [hshape]
    exact List.forall_mem_cons.mpr ⟨by omega, hy.extents⟩
  have hd : u.shape[0]? = some n.toInt := by rw [hshape]; rfl
  have hregion := View.resolve_layer hext hd (i := Int64.ofInt k) (by omega) (by omega) call
  rw [hint] at hregion
  obtain ⟨s, ss, hs⟩ : ∃ s ss, u.strides = s :: ss := List.exists_cons_of_length_eq_add_one (by rw [hlen, hshape]; rfl)
  obtain ⟨f, hwrite, hone, hstack⟩ := View.write_stacked [n.toInt] [(k : Int)] hu hlen hshape
    ⟨⟨Int.natCast_nonneg k, hk⟩, trivial⟩ hregion (View.shape_layer hshape hlen k).1
      (View.address_layer hs hlen k) hy hwant
    (fun q ⟨i, hi, hq⟩ => hq ▸ ⟨⟨Int.natCast_nonneg i, by omega⟩, trivial⟩) h
  refine ⟨f, hwrite, hone, hstack.mono fun q ⟨i, hi, hq⟩ => ?_⟩
  by_cases hik : i = k
  · exact .inr (hik ▸ hq)
  · exact .inl ⟨i, by omega, hq⟩

/-- Storing changes the array alone. -/
theorem put_ok (h : put (domain call) (.array u) idx y t = .ok () t') : ∃ f, t' = t.modify u.buffer f := by
  obtain ⟨region, hregion, -, rfl⟩ := View.write_ok h
  exact ⟨_, by rw [View.filled, (View.resolve_proper hregion).2.1]⟩

/-- There is no first position in an array without positions. -/
theorem put_zero_ok {d : Int} {b : BufferId}
    (h : put (domain call) (.array (.rowMajorAt elt (d :: shape) b)) (.int 0) y t = .ok () t') : 0 < d := by
  obtain ⟨region, hregion, -⟩ := View.write_ok h
  obtain ⟨step, kept, haxes, -⟩ := View.resolve_ok hregion
  obtain ⟨cs, hcs⟩ : ∃ cs, View.components (sliceIndex (domain call) (shape.length + 1) 0 (.int 0)) = .int 0 :: cs := by
    unfold sliceIndex
    split
    · exact ⟨[], rfl⟩
    · exact ⟨_, by rw [List.range_succ_eq_map]; rfl⟩
  have haxes : View.resolveAxes 0 ((d :: shape).zip (rowMajor (d :: shape)))
      (View.components (sliceIndex (domain call) (shape.length + 1) 0 (.int 0))) = .ok (step, kept) := haxes
  rw [hcs, rowMajor_cons, List.zip_cons_cons, View.resolveAxes] at haxes
  obtain ⟨⟨step', kept'⟩, hfirst, -⟩ := except_bind_ok haxes
  obtain ⟨x, i, hx, hi, ⟨hi0, hid⟩, -⟩ | ⟨_, _, _, hx, -⟩ := View.resolveAxis_ok hfirst
  · omega
  · cases hx

/-- The result is begun with the first value. -/
theorem begin_stacked (call : Caller) (hn : 1 ≤ n.toInt) (hfirst : first.HasForm elt shape) {σ : Store}
    (hσ : Agree .strict w σ σ) (hlike : Likes .strict w first first)
    (hwant : ∀ p, Within shape p → first.element? σ p = want [0] p)
    (hu : u = .rowMajorAt elt (n.toInt :: shape) σ.size) :
    ∃ t1 t2, Eval.alloc first [.int n] σ = .ok (.array u) t1 ∧
      put (domain call) (.array u) (.int 0) first t1 = .ok () t2 ∧
      u.OneToOne t2 ∧ u.Stacked shape want (Rows 1) t2 ∧ ∃ w', w ≤ w' ∧ Beside u.buffer w' σ t2 := by
  obtain ⟨cells, hsize, halloc⟩ := Eval.alloc_eq hfirst [n] σ
  obtain ⟨w', hle, hbeside⟩ := Beside.of_agree hσ (.alloc σ cells) (Nat.le_refl _)
    (by rw [Store.size_alloc]; exact Nat.lt_succ_self _)
  have hone : u.OneToOne (σ.alloc cells).2 := by
    rw [hu]
    exact View.rowMajorAt_oneToOne (by rw [Store.cells_alloc_new, hsize]; rfl)
  have hlen : u.strides.length = u.shape.length := by
    rw [hu]
    exact length_rowMajor _
  have hshape : u.shape = n.toInt :: shape := by rw [hu]; rfl
  have hwant' : ∀ p, Within shape p → first.element? (σ.alloc cells).2 p = want [((0 : Nat) : Int)] p := fun p hp =>
    (Value.element?_alike hbeside.agree (hlike.mono hle) p).symm.trans (hwant p hp)
  have hnone : u.Stacked shape want (Rows 0) (σ.alloc cells).2 := by
    rintro q p ⟨i, hi, -⟩
    omega
  obtain ⟨f, hput, hone, hstack⟩ := put_stacked call hshape hlen (by omega) hone (by rw [hu]; exact hfirst) hwant' hnone
  have hbuf : σ.size = u.buffer := by rw [hu]; rfl
  refine ⟨_, _, hu ▸ halloc, hput, hone, hstack, w', hle, ?_⟩
  rw [hbuf] at hbeside
  exact hbeside.modify f

/-- A step of a loop that stores what it computes. -/
def storeAt {α : Type} (call : Caller) (u : View) (produce : α → Int → Exec (α × Value)) (a : α)
    (i : Int) : Exec α := do
  let p ← produce a i
  put (domain call) (.array u) (.ofInt i) p.2
  return p.1

/-- A loop that computes a value at every position and stores it there. Each step may go by what `J` says, which
does not depend on what has been stored. -/
theorem loop_stacked (call : Caller) {α : Type} {J : Nat → α → Store → Prop} {produce : α → Int → Exec (α × Value)}
    (hshape : u.shape = n.toInt :: shape) (hlen : u.strides.length = u.shape.length)
    (step : ∀ (k : Nat) a t, (k : Int) < n.toInt → J k a t → ∃ a' y t', produce a k t = .ok (a', y) t' ∧
      J (k + 1) a' t' ∧ t'.cells u.buffer = t.cells u.buffer ∧ y.HasForm u.elt shape ∧
      ∀ p, Within shape p → y.element? t' p = want [(k : Int)] p)
      (stable : ∀ k a t f, J k a t → J k a (t.modify u.buffer f)) (hn : 1 ≤ n.toInt) {a : α} (hJ : J 1 a t)
    (hu : u.OneToOne t) (h : u.Stacked shape want (Rows 1) t) :
    ∃ a' t', Eval.countUp (storeAt call u produce) (n.toInt - 1).toNat 1 a t = .ok a' t' ∧
      J n.toInt.toNat a' t' ∧ u.Stacked shape want (Rows n.toInt.toNat) t' := by
  let I := fun k a t => J (k + 1) a t ∧ u.OneToOne t ∧ u.Stacked shape want (Rows (k + 1)) t
  have hstep : ∀ k < (n.toInt - 1).toNat, ∀ a t, I k a t →
      ∃ a' t', storeAt call u produce a (1 + k) t = .ok a' t' ∧ I (k + 1) a' t' := by
    rintro k hk a t ⟨hJ, hu, h⟩
    obtain ⟨a', y, t1, hp, hJ', hcells, hy, hwant⟩ := step (k + 1) a t (by omega) hJ
    obtain ⟨f, hput, hone, hstack⟩ := put_stacked call hshape hlen (by omega) (hu.congr (by rw [hcells])) hy hwant
      (h.congr hcells)
    have hpos : (1 : Int) + k = ((k + 1 : Nat) : Int) := by omega
    refine ⟨a', t1.modify u.buffer f, ?_, stable _ _ _ _ hJ', hone, hstack⟩
    rw [storeAt, hpos, state_bind_of_ok hp, state_bind_of_ok hput]
    rfl
  obtain ⟨a', t', hrun, hJ', -, h'⟩ := Eval.countUp_ok (I := I) hstep ⟨hJ, hu, h⟩
  have hcount : (n.toInt - 1).toNat + 1 = n.toInt.toNat := by omega
  rw [hcount] at hJ' h'
  exact ⟨a', t', hrun, hJ', h'⟩

end Adverb

end ArrayIR
