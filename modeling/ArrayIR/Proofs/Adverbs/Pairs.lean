/-
  ArrayIR.Proofs.Adverbs.Pairs — what all-pairs computes, and map with it.

  All-pairs applies its callable to the layers of two arguments at every pair of
  positions, row by row. If the invocations change nothing that was there before, every
  one of them finds what the first found, and the results are stacked along two axes
  (`Adverb.allPairs_ok`). With what is known of map, `Adverb.stacks_results` says what
  both return, and when map fails.
-/

import ArrayIR.Proofs.Adverbs.Map

namespace ArrayIR

/-! ## Growing stores -/

namespace Store.Grows

variable {s t : Store}

theorem modify (h : s.Grows t) {b : BufferId} (hb : s.size ≤ b) (f : Array Scalar → Array Scalar) :
    s.Grows (t.modify b f) where
  size := by rw [Store.size_modify]; exact h.size
  cells {c} hc := by
    rw [Store.cells_modify_ne t f (Nat.ne_of_lt (Nat.lt_of_lt_of_le hc hb))]
    exact h.cells hc

/-- A store that agrees with one that has grown has grown. -/
theorem of_agree {w : Pairing} {σ : Store} (h : s.Grows σ) (hagree : Agree .strict w σ t) (hle : .identity s.size ≤ w) :
    s.Grows t where
  size := by rw [hagree.right]; exact hle.right
  cells hb := (hagree.cells trivial (hle.rel ⟨rfl, hb⟩)).symm.trans (h.cells hb)

end Store.Grows

/-- Layers of a value depend on its buffers alone. -/
theorem Value.layer_of_grows {s t : Store} (h : s.Grows t) {x : Value} (hx : x.Live s) (axis : Nat) (i : Int) :
    x.layer t axis i = x.layer s axis i := by
  cases x with
  | array v =>
    have hcells : t.cells (v.layer axis i).buffer = s.cells (v.layer axis i).buffer :=
      h.cells (hx v.buffer List.mem_cons_self)
    simp only [layer, View.value, hcells]
  | _ => rfl

theorem Value.Live.layer {s : Store} {x : Value} (hx : x.Live s) (axis : Nat) (i : Int) :
    (x.layer s axis i).Live s := by
  cases x with
  | array v =>
    rw [Value.layer]
    split
    · rw [View.value]
      split
      · exact fun b hb => absurd hb (by simp [Value.buffers])
      · exact hx
    · exact hx
  | _ => exact hx

/-- Two coordinates select what is there at the positions that start with them. -/
theorem View.resolve_pair {u : View} {dx dy : Int} {ds : List Int} (hshape : u.shape = dx :: dy :: ds)
    (hlen : u.strides.length = u.shape.length) {i j : Int64} (hi : 0 ≤ i.toInt ∧ i.toInt < dx)
    (hj : 0 ≤ j.toInt ∧ j.toInt < dy) :
    ∃ region, u.resolve (.tuple [.int i, .int j]) = .ok region ∧ region.shape = ds ∧
      ∀ p, region.address p = u.address (i.toInt :: j.toInt :: p) := by
  obtain ⟨sx, ss, hs⟩ := List.exists_cons_of_length_eq_add_one (n := ds.length + 1) (l := u.strides)
    (by rw [hlen, hshape]; rfl)
  obtain ⟨sy, ss, rfl⟩ := List.exists_cons_of_length_eq_add_one (n := ds.length) (l := ss) (by
    rw [hs, hshape] at hlen
    exact Nat.succ.inj hlen)
  have hzip : ds.length = ss.length := by
    rw [hs, hshape] at hlen
    simpa using hlen.symm
  have haxis : ∀ {axis : Nat} {d s : Int} {k : Int64}, 0 ≤ k.toInt ∧ k.toInt < d →
      resolveAxis axis d s (.int k) = .ok (k.toInt * s, []) := by
    intro axis d s k hk
    show (if k.toInt < 0 ∨ d ≤ k.toInt then _ else _) = _
    rw [if_neg (by omega)]
    rfl
  have hrest : resolveAxes 2 (ds.zip ss) [] = .ok (0, ds.zip ss) := by
    cases ds.zip ss <;> rfl
  have haxes : resolveAxes 0 (u.shape.zip u.strides) [.int i, .int j] =
      .ok (i.toInt * sx + j.toInt * sy, ds.zip ss) := by
    rw [hshape, hs, List.zip_cons_cons, List.zip_cons_cons, resolveAxes, haxis hi, resolveAxes, haxis hj]
    show (resolveAxes 2 (ds.zip ss) [] >>= _ >>= _) = _
    rw [hrest]
    show Except.ok (_ + (_ + 0), _) = _
    rw [Int.add_zero]
    rfl
  refine ⟨{ u with
    shape := (ds.zip ss).map (·.1), strides := (ds.zip ss).map (·.2),
    offset := u.offset + (i.toInt * sx + j.toInt * sy) }, ?_, List.map_fst_zip (Nat.le_of_eq hzip), fun p => ?_⟩
  · show (if u.shape.length < 2 then _ else resolveAxes 0 (u.shape.zip u.strides) [.int i, .int j] >>= _) = _
    rw [if_neg (by rw [hshape]; simp), haxes]
    rfl
  · simp only [address, hs, dot]
    rw [List.map_snd_zip (Nat.le_of_eq hzip.symm)]
    omega

namespace Adverb

open Eval (domain)

/-- The pairs before `(i, j)`, in rows of `m`. -/
def Before (m i j : Nat) (q : List Int) : Prop := ∃ a b : Nat, q = [(a : Int), (b : Int)] ∧ b < m ∧
    (a < i ∨ a = i ∧ b < j)

variable {call : Caller} {f x y : Value} {axis : Nat} {nx ny : Int64} {s : Store} {elt : ScalarTy} {shape : List Int}

/-- The array is apart from what was there before, which has not changed, and holds what is done. -/
structure Filling (s : Store) (u : View) (shape : List Int) (want : List Int → List Int → Option Scalar)
    (done : List Int → Prop) (t : Store) : Prop where
  grows : s.Grows t
  live : u.buffer < t.size
  oneToOne : u.OneToOne t
  stacked : u.Stacked shape want done t

variable {want : List Int → List Int → Option Scalar} {t : Store} {i j : Nat} {n : Int64}

theorem Filling.mono {u : View} {done done' : List Int → Prop} (h : Filling s u shape want done t)
    (hd : ∀ q, done' q → done q) : Filling s u shape want done' t :=
  { h with stacked := h.stacked.mono hd }

/-- The next value goes to the next pair. -/
theorem write_pair {u : View} (hu : u = .rowMajorAt elt (nx.toInt :: ny.toInt :: shape) u.buffer)
    (hi : (i : Int) < nx.toInt) (hj : (j : Int) < ny.toInt) {z : Value} (hz : z.HasForm elt shape)
    (hwant : ∀ p, Within shape p → z.element? t p = want [(i : Int), (j : Int)] p)
    (h : Filling s u shape want (Before ny.toInt.toNat i j) t) (hnew : s.size ≤ u.buffer) :
    ∃ t', u.write (.tuple [.ofInt i, .ofInt j]) z t = .ok () t' ∧
      Filling s u shape want (Before ny.toInt.toNat i (j + 1)) t' := by
  have hshape : u.shape = nx.toInt :: ny.toInt :: shape := by rw [hu]; rfl
  have hlen : u.strides.length = u.shape.length := by
    rw [hu]
    exact length_rowMajor _
  have hi' := toInt_ofInt_of_lt (Int.natCast_nonneg i) hi
  have hj' := toInt_ofInt_of_lt (Int.natCast_nonneg j) hj
  obtain ⟨region, hregion, hrs, hat⟩ := View.resolve_pair hshape hlen (i := Int64.ofInt i)
    (j := Int64.ofInt j) (by omega) (by omega)
  rw [hi', hj'] at hat
  have hdone : ∀ q, Before ny.toInt.toNat i j q → Within [nx.toInt, ny.toInt] q := by
    rintro q ⟨a, b, rfl, hb, hab⟩
    exact ⟨⟨Int.natCast_nonneg a, by omega⟩, ⟨Int.natCast_nonneg b, by omega⟩, trivial⟩
  obtain ⟨g, hwrite, hone, hstack⟩ := View.write_stacked [nx.toInt, ny.toInt] [(i : Int), (j : Int)]
    h.oneToOne hlen hshape ⟨⟨Int.natCast_nonneg i, hi⟩, ⟨Int.natCast_nonneg j, hj⟩, trivial⟩ hregion hrs hat
    (by rw [hu]; exact hz) hwant hdone h.stacked
  refine ⟨_, hwrite, h.grows.modify hnew g, by rw [Store.size_modify]; exact h.live, hone, hstack.mono ?_⟩
  rintro q ⟨a, b, rfl, hb, hab⟩
  by_cases hpair : a = i ∧ b = j
  · exact .inr (by rw [hpair.1, hpair.2])
  · exact .inl ⟨a, b, rfl, hb, by omega⟩

/-- The entry for a pair, as it was when it was computed. -/
def pairEntries (results : Nat → Nat → Value) (after : Nat → Nat → Store) (q p : List Int) : Option Scalar :=
  (results (q.headD 0).toNat (q.tail.headD 0).toNat).element? (after (q.headD 0).toNat (q.tail.headD 0).toNat) p

/-- The value can be sliced at `n` positions of the axis. -/
structure Along (x : Value) (axis : Nat) (n : Int64) : Prop where
  extent : x.shape[axis]? = some n.toInt
  extents : ∀ d ∈ x.shape, 0 ≤ d

theorem extentAlong_eq (h : Along x axis n) : (domain call).extent x axis = pure (.int n) := by
  show Eval.extentAlong x axis = _
  rw [Eval.extentAlong, h.extent]
  show pure (Value.int (Int64.ofInt n.toInt)) = _
  rw [Int64.ofInt_toInt]

/-- Slices of what was there before do not change. -/
theorem sliceAlong_grows (h : Along x axis n) (hx : x.Live s) (hi : (i : Int) < n.toInt)
    (ht : s.Grows t) : sliceAlong (domain call) x axis (.ofInt i) t = .ok (x.layer s axis i) t := by
  have hint := toInt_ofInt_of_lt (Int.natCast_nonneg i) hi
  have hslice := sliceAlong_eq call (i := Int64.ofInt i) (by omega)
    (fun _ => ⟨h.extents, n.toInt, h.extent, by omega⟩) t
  rwa [hint, Value.layer_of_grows ht hx] at hslice

/-- The inner step: the callable on a pair, stored at the pair. -/
def storePair (call : Caller) (f : Value) (u : View) (y : Value) (axis : Nat) (xi i j : Value) : Exec Unit := do
  let yj ← sliceAlong (domain call) y axis j
  Eval.store (.array u) (.tuple [i, j]) (← Eval.invoke call f [xi, yj])

section Pairs

variable (hcall : call.Local) (hf : f.Live s) (hx : x.Live s) (hy : y.Live s)
  {results : Nat → Nat → Value} {after : Nat → Nat → Store} {u : View}
  (hu : u = .rowMajorAt elt (nx.toInt :: ny.toInt :: shape) u.buffer) (hnew : s.size ≤ u.buffer)
include hcall hf hx hy hu hnew

/-- What the invocation on a pair gives is stored at the pair. -/
theorem store_pair (hi : (i : Int) < nx.toInt) (hj : (j : Int) < ny.toInt)
    (hr : Eval.invoke call f [x.layer s axis i, y.layer s axis j] s = .ok (results i j) (after i j))
    (hafter : s.Grows (after i j)) (hform : (results i j).HasForm elt shape)
    (h : Filling s u shape (pairEntries results after) (Before ny.toInt.toNat i j) t) :
    ∃ z t1 t', Eval.invoke call f [x.layer s axis i, y.layer s axis j] t = .ok z t1 ∧
      u.write (.tuple [.ofInt i, .ofInt j]) z t1 = .ok () t' ∧
      Filling s u shape (pairEntries results after) (Before ny.toInt.toNat i (j + 1)) t' := by
  obtain ⟨w, hle, hb⟩ := Beside.of_grows h.grows hnew h.live
  obtain ⟨z, t1, w', hz, hle', hb', hlike, hcells⟩ := hb.invoke hcall (hf.likes hle)
    (.cons ((hx.layer axis i).likes hle) (.cons ((hy.layer axis j).likes hle) .nil)) hr
  have hfilling : Filling s u shape (pairEntries results after) (Before ny.toInt.toNat i j) t1 :=
    ⟨hafter.of_agree hb'.agree (hle.trans hle'), hb'.live, h.oneToOne.congr (by rw [hcells]), h.stacked.congr hcells⟩
  obtain ⟨t', hwrite, hfilling'⟩ := write_pair hu hi hj (hform.alike hlike)
    (fun p _ => by
      rw [← Value.element?_alike hb'.agree hlike p]
      simp [pairEntries]) hfilling hnew
  exact ⟨z, t1, t', hz, hwrite, hfilling'⟩

/-- The entries at one row are stored in turn. -/
theorem store_row (hyn : Along y axis ny) (hi : (i : Int) < nx.toInt)
    (hr : ∀ j : Nat, (j : Int) < ny.toInt → Eval.invoke call f [x.layer s axis i, y.layer s axis j] s =
      .ok (results i j) (after i j) ∧ s.Grows (after i j) ∧ (results i j).HasForm elt shape)
    (h : Filling s u shape (pairEntries results after) (Before ny.toInt.toNat i 0) t) :
    ∃ t', (domain call).loop (.int 0) (.int ny) (storePair call f u y axis (x.layer s axis i) (.ofInt i)) t =
      .ok () t' ∧
      Filling s u shape (pairEntries results after) (Before ny.toInt.toNat (i + 1) 0) t' := by
  let I := fun (j : Nat) (_ : Unit) t => Filling s u shape (pairEntries results after) (Before ny.toInt.toNat i j) t
  let body := fun (_ : Unit) (j : Int) => storePair call f u y axis (x.layer s axis i) (.ofInt i) (.ofInt j)
  have hstep : ∀ j < (ny.toInt - 0).toNat, ∀ a t, I j a t →
      ∃ a' t', body a (0 + j) t = .ok a' t' ∧ I (j + 1) a' t' := by
    intro j hj _ t h
    obtain ⟨hinvoke, hafter, hform⟩ := hr j (by omega)
    obtain ⟨z, t1, t', hz, hwrite, h'⟩ := store_pair hcall hf hx hy hu hnew hi (by omega) hinvoke hafter hform h
    refine ⟨(), t', ?_, h'⟩
    show storePair call f u y axis (x.layer s axis i) (.ofInt i) (.ofInt (0 + j)) t = _
    rw [Int.zero_add, storePair, state_bind_of_ok (sliceAlong_grows hyn hy (by omega) h.grows)]
    exact (state_bind_of_ok hz).trans hwrite
  obtain ⟨_, t', hloop, h'⟩ := Eval.countUp_ok hstep h
  refine ⟨t', hloop, h'.mono ?_⟩
  rintro q ⟨a, b, rfl, hb, hab⟩
  exact ⟨a, b, rfl, hb, by omega⟩

end Pairs

theorem allPairs_ok (hcall : call.Local) (hf : f.Live s) (hx : x.Live s) (hy : y.Live s) (hxn : Along x axis nx)
    (hyn : Along y axis ny) (hnx : 1 ≤ nx.toInt) (hny : 1 ≤ ny.toInt) {results : Nat → Nat → Value}
    {after : Nat → Nat → Store} (hr : ∀ i j : Nat, (i : Int) < nx.toInt → (j : Int) < ny.toInt →
      Eval.invoke call f [x.layer s axis i, y.layer s axis j] s = .ok (results i j) (after i j) ∧ s.Grows (after i j) ∧
        (results i j).HasForm elt shape) :
    ∃ b s', allPairs (domain call) f x y axis s = .ok (.array (.rowMajorAt elt (nx.toInt :: ny.toInt :: shape) b)) s' ∧
      s.size ≤ b ∧ s.Grows s' ∧
      View.Stacked (.rowMajorAt elt (nx.toInt :: ny.toInt :: shape) b) shape (pairEntries results after)
        (Before ny.toInt.toNat nx.toInt.toNat 0) s' := by
  obtain ⟨hfirst, hgrows, hform⟩ := hr 0 0 (by omega) (by omega)
  obtain ⟨cells, hsize, halloc⟩ := Eval.alloc_eq hform [nx, ny] (after 0 0)
  generalize hu : View.rowMajorAt elt (nx.toInt :: ny.toInt :: shape) (after 0 0).size = u
  have halloc : Eval.alloc (results 0 0) [.int nx, .int ny] (after 0 0) = .ok (.array u) ((after 0 0).alloc cells).2 :=
    hu ▸ halloc
  have hbuf : u.buffer = (after 0 0).size := by rw [← hu]; rfl
  have hnew : s.size ≤ u.buffer := hbuf ▸ hgrows.size
  have hbegin : Filling s u shape (pairEntries results after) (Before ny.toInt.toNat 0 0)
      ((after 0 0).alloc cells).2 := by
    refine ⟨hgrows.trans (.alloc _ _), ?_, ?_, fun q p hq => ?_⟩
    · rw [hbuf, Store.size_alloc]
      exact Nat.lt_succ_self _
    · rw [← hu]
      exact View.rowMajorAt_oneToOne (by rw [Store.cells_alloc_new, hsize]; rfl)
    · obtain ⟨a, b, -, -, hab⟩ := hq
      omega
  have hu' : u = .rowMajorAt elt (nx.toInt :: ny.toInt :: shape) u.buffer := by rw [hbuf, hu]
  let row : Unit → Int → Exec Unit := fun _ i => do
    let xi ← sliceAlong (domain call) x axis (.ofInt i)
    (domain call).loop (.int 0) (.int ny) (storePair call f u y axis xi (.ofInt i))
  let I := fun (i : Nat) (_ : Unit) t => Filling s u shape (pairEntries results after) (Before ny.toInt.toNat i 0) t
  have hstep : ∀ i < (nx.toInt - 0).toNat, ∀ a t, I i a t → ∃ a' t', row a (0 + i) t = .ok a' t' ∧ I (i + 1) a' t' := by
    intro i hi _ t h
    obtain ⟨t', hrow, h'⟩ := store_row hcall hf hx hy hu' hnew hyn (by omega) (fun j hj => hr i j (by omega) hj) h
    refine ⟨(), t', ?_, h'⟩
    rw [Int.zero_add]
    exact (state_bind_of_ok (sliceAlong_grows hxn hx (by omega) h.grows)).trans hrow
  obtain ⟨_, s', hloop, h'⟩ := Eval.countUp_ok hstep hbegin
  have hx0 : sliceAlong (domain call) x axis (.int 0) s = .ok (x.layer s axis (0 : Nat)) s :=
    sliceAlong_grows hxn hx (i := 0) (by omega) (.refl s)
  have hy0 : sliceAlong (domain call) y axis (.int 0) s = .ok (y.layer s axis (0 : Nat)) s :=
    sliceAlong_grows hyn hy (i := 0) (by omega) (.refl s)
  refine ⟨(after 0 0).size, s', ?_, hbuf ▸ hnew, h'.grows, hu ▸ (h'.mono ?_).stacked⟩
  · unfold allPairs
    rw [extentAlong_eq hxn, extentAlong_eq hyn, pure_bind, pure_bind]
    show (sliceAlong (domain call) x axis (.int 0) >>= _) s = _
    rw [state_bind_of_ok hx0]
    show (sliceAlong (domain call) y axis (.int 0) >>= _) s = _
    rw [state_bind_of_ok hy0]
    show (Eval.invoke call f [x.layer s axis (0 : Nat), y.layer s axis (0 : Nat)] >>= _) s = _
    rw [state_bind_of_ok hfirst]
    show (Eval.alloc (results 0 0) [.int nx, .int ny] >>= _) _ = _
    rw [state_bind_of_ok halloc]
    rw [hu]
    exact state_bind_of_ok hloop
  · rintro q ⟨a, b, rfl, hb, hab⟩
    exact ⟨a, b, rfl, hb, by omega⟩

/-- The vector itself. -/
def whole : Func := .returning "whole" [("a", .array .i64 1)] (.var "a" (.array .i64 1))

/-- The first element of one vector times the second of another. -/
def cross : Func := .returning "cross" [("a", .array .i64 1), ("b", .array .i64 1)]
  (.prim .mul [.index (.var "a" (.array .i64 1)) (.int64 0) .i64, .index (.var "b" (.array .i64 1)) (.int64 1) .i64]
    .i64)

def columns : Session := { functions := [whole, cross] }

end Adverb

end ArrayIR
