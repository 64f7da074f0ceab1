/-
  ArrayIR.Proofs.Adverbs.Slices — the slices that adverbs apply a callable to.

  A layer of an array is what is there at one position of an axis: the other axes stay,
  and an array of one axis has scalars for layers (`Value.layer`). A value without the
  axis is all of its layers. If the extents of the arguments agree, an adverb finds their
  common extent (`Adverb.commonExtent_eq`), and applies the callable to their layers
  (`Adverb.applyAt_eq`); otherwise it fails.
-/

import ArrayIR.Proofs.Places

namespace ArrayIR

/-! ## Layers -/

namespace View

/-- What is there at position `i` of an axis. An axis that has no stride is not there. -/
def layer (v : View) (axis : Nat) (i : Int) : View :=
  let axes := (v.shape.zip v.strides).eraseIdx axis
  { v with shape := axes.map (·.1), strides := axes.map (·.2), offset := v.offset + i * v.strides[axis]?.getD 0 }

theorem address_layer {v : View} {s : Int} {ss : List Int} (h : v.strides = s :: ss)
    (hlen : v.strides.length = v.shape.length) (i : Int) (p : List Int) :
    (v.layer 0 i).address p = v.address (i :: p) := by
  obtain ⟨d, ds, hshape⟩ : ∃ d ds, v.shape = d :: ds := List.exists_cons_of_length_eq_add_one (by rw [← hlen, h]; rfl)
  rw [h, hshape] at hlen
  simp only [layer, address, h, hshape, List.zip_cons_cons, List.eraseIdx_zero, List.tail_cons, dot]
  rw [List.map_snd_zip (by simpa using Nat.le_of_eq hlen)]
  simp
  omega

/-- The axes from `axis` on, the one at `k` indexed and the others taken whole. -/
theorem resolveAxes_one {axes : List (Int × Int)} (h : ∀ p ∈ axes, 0 ≤ p.1) {k axis : Nat} (hk : axis ≤ k) {i : Int64}
    (hi : ∀ p, axes[k - axis]? = some p → 0 ≤ i.toInt ∧ i.toInt < p.1) {n : Nat} (hn : axes.length ≤ n) :
    resolveAxes axis axes ((List.range' axis n).map fun j => if j = k then .int i else .wholeAxis) =
      .ok (i.toInt * (axes[k - axis]?.map (·.2)).getD 0, axes.eraseIdx (k - axis)) := by
  induction axes generalizing axis n with
  | nil => simp [resolveAxes]
  | cons p axes ih =>
    obtain ⟨dim, stride⟩ := p
    obtain ⟨n, rfl⟩ : ∃ m, n = m + 1 := ⟨n - 1, by rw [List.length_cons] at hn; omega⟩
    have htail : ∀ p ∈ axes, 0 ≤ p.1 := fun p hp => h p (List.mem_cons_of_mem _ hp)
    rw [List.range'_succ, List.map_cons, resolveAxes]
    by_cases hax : axis = k
    · -- the rest of the axes are whole
      subst hax
      have hwhole : (List.range' (axis + 1) n).map (fun j => if j = axis then Value.int i else .wholeAxis) =
          List.replicate n .wholeAxis := by
        refine List.eq_replicate_iff.mpr ⟨by simp, fun v hv => ?_⟩
        obtain ⟨j, hj, rfl⟩ := List.mem_map.mp hv
        rw [List.mem_range'_1] at hj
        exact if_neg (by omega)
      have hbounds := hi (dim, stride) (by simp)
      have hfirst : resolveAxis axis dim stride (.int i) = .ok (i.toInt * stride, []) := by
        show (if i.toInt < 0 ∨ dim ≤ i.toInt then _ else _) = _
        rw [if_neg (by omega)]
        rfl
      rw [if_pos rfl, hfirst, hwhole, resolveAxes_whole htail]
      simp
      rfl
    · rw [if_neg hax, resolveAxis_whole axis stride (h _ List.mem_cons_self)]
      obtain ⟨m, hm⟩ : ∃ m, k - axis = m + 1 := ⟨k - axis - 1, by omega⟩
      have hm' : k - (axis + 1) = m := by omega
      have hnext : axis + 1 ≤ k := by omega
      have hrest := ih htail hnext (n := n)
        (fun p hp => hi p (by rw [hm, List.getElem?_cons_succ]; rwa [hm'] at hp)) (by simpa using hn)
      rw [hm'] at hrest
      rw [hrest, hm, List.getElem?_cons_succ, List.eraseIdx_cons_succ]
      show Except.ok (0 + _, _) = _
      rw [Int.zero_add]
      rfl

/-- Indexing one axis and taking the others whole selects the layer. -/
theorem resolve_layer {v : View} {axis : Nat} (hv : ∀ d ∈ v.shape, 0 ≤ d) {d : Int}
    (hd : v.shape[axis]? = some d) {i : Int64} (h0 : 0 ≤ i.toInt) (h1 : i.toInt < d) (call : Caller) :
    v.resolve (Adverb.sliceIndex (Eval.domain call) v.shape.length axis (.int i)) = .ok (v.layer axis i.toInt) := by
  have hlt : axis < v.shape.length := (List.getElem?_eq_some_iff.mp hd).1
  have hcs : components (Adverb.sliceIndex (Eval.domain call) v.shape.length axis (.int i)) =
      (List.range' 0 v.shape.length).map fun j => if j = axis then .int i else .wholeAxis := by
    rw [← List.range_eq_range']
    unfold Adverb.sliceIndex
    split
    · rename_i hone
      obtain rfl : axis = 0 := by omega
      rw [hone]
      rfl
    · rfl
  have hzip : ∀ p, (v.shape.zip v.strides)[axis - 0]? = some p → p.1 = d ∧ v.strides[axis]? = some p.2 := by
    intro p hp
    obtain ⟨hdim, hstride⟩ := List.getElem?_zip_eq_some.mp hp
    rw [Nat.sub_zero] at hdim hstride
    rw [hd] at hdim
    exact ⟨(Option.some.inj hdim).symm, hstride⟩
  have hstride : ((v.shape.zip v.strides)[axis - 0]?.map (·.2)).getD 0 = v.strides[axis]?.getD 0 := by
    cases hp : (v.shape.zip v.strides)[axis - 0]? with
    | some p => rw [(hzip p hp).2]; rfl
    | none =>
      have hshort : v.strides.length ≤ axis := by
        rw [List.getElem?_eq_none_iff, List.length_zip] at hp
        omega
      rw [List.getElem?_eq_none hshort]
      rfl
  unfold resolve
  simp only [hcs]
  rw [if_neg (by simp), resolveAxes_one (fun p hp => hv p.1 (List.of_mem_zip hp).1) (Nat.zero_le axis)
    (fun p hp => by rw [(hzip p hp).1]; exact ⟨h0, h1⟩) (by rw [List.length_zip]; exact Nat.min_le_left _ _), hstride]
  rfl

end View

/-- A value at position `i` of an axis: an array without other axes has scalars there, and a value that does
not have the axis is the same at all positions. -/
def Value.layer (s : Store) (axis : Nat) (i : Int) : Value → Value
  | .array v =>
    if axis < v.shape.length then (v.layer axis i).value s else .array v
  | x => x

theorem Value.layer_of_rank_le {x : Value} {axis : Nat} (h : x.rank ≤ axis) (s : Store) (i : Int) :
    x.layer s axis i = x := by
  cases x with
  | array v => exact if_neg (Nat.not_lt.mpr h)
  | _ => rfl

/-- The callable on the layers of the arguments at one position. -/
def Eval.invokeAt (call : Caller) (f : Value) (xs : List Value) (axis : Nat) (i : Int) : Exec Value := fun s =>
  invoke call f (xs.map (Value.layer s axis i)) s

/-- The arguments can be sliced along the axis, and those that have it are of extent `n` along it. -/
structure Common (xs : List Value) (axis : Nat) (n : Int64) : Prop where
  present : ∃ x ∈ xs, axis < x.rank
  extent : ∀ x ∈ xs, axis < x.rank → x.shape[axis]? = some n.toInt
  extents : ∀ x ∈ xs, axis < x.rank → ∀ d ∈ x.shape, 0 ≤ d

namespace Adverb

open Eval (domain)

variable {call : Caller} {xs : List Value} {axis : Nat} {n : Int64}

/-! ## Applying to slices -/

/-- Slicing gives a layer. -/
theorem sliceAlong_eq (call : Caller) {x : Value} {i : Int64} (hi : 0 ≤ i.toInt)
    (hx : axis < x.rank → (∀ d ∈ x.shape, 0 ≤ d) ∧ ∃ d, x.shape[axis]? = some d ∧ i.toInt < d) (s : Store) :
    sliceAlong (domain call) x axis (.int i) s = .ok (x.layer s axis i.toInt) s := by
  by_cases hr : x.rank ≤ axis
  · show (if x.rank ≤ axis then pure x else _ : Exec Value) s = _
    rw [if_pos hr, Value.layer_of_rank_le hr]
    rfl
  · have hlt := Nat.lt_of_not_le hr
    obtain ⟨hpos, d, hd, hid⟩ := hx hlt
    show (if x.rank ≤ axis then _ else Eval.index x (sliceIndex (domain call) x.rank axis (.int i)) : Exec Value) s = _
    rw [if_neg hr]
    cases x with
    | array v =>
      have hregion : v.resolve (sliceIndex (domain call) (Value.array v).rank axis (.int i)) =
          .ok (v.layer axis i.toInt) :=
        View.resolve_layer hpos hd hi hid call
      rw [Value.layer, if_pos (show axis < v.shape.length from hlt)]
      exact state_lift_of_ok (View.read_of_resolve hregion s) s
    | _ => simp [Value.rank, Value.shape] at hlt

/-- An adverb applies its callable to the layers of the arguments. -/
theorem applyAt_eq (call : Caller) (hc : Common xs axis n) {i : Int64} (hi : 0 ≤ i.toInt)
    (hin : i.toInt < n.toInt) (f : Value) :
    applyAt (domain call) f xs axis (.int i) = Eval.invokeAt call f xs axis i.toInt := by
  funext s
  have hslices : ∀ ys : List Value, (∀ x ∈ ys, x ∈ xs) → (ys.mapM fun x => sliceAlong (domain call) x axis (.int i)) s =
      .ok (ys.map (Value.layer s axis i.toInt)) s := by
    intro ys hys
    induction ys with
    | nil => rfl
    | cons x ys ih =>
      have hx := hys x List.mem_cons_self
      have hslice := sliceAlong_eq call hi
        (fun hlt => ⟨hc.extents x hx hlt, n.toInt, hc.extent x hx hlt, hin⟩) s
      rw [List.mapM_cons, state_bind_of_ok hslice, state_bind_of_ok (ih fun y hy => hys y (List.mem_cons_of_mem _ hy))]
      rfl
  exact state_bind_of_ok (hslices xs fun _ => id)

/-! ## The common extent -/

theorem extents_eq (call : Caller) (axis : Nat) (xs : List Value) :
    extents (domain call) axis xs = pure ((xs.filterMap (·.shape[axis]?)).map Value.ofInt) := by
  induction xs with
  | nil => rfl
  | cons x xs ih =>
    show (if axis < x.rank then _ else _) = _
    rw [ih]
    by_cases hlt : axis < x.rank
    · obtain ⟨d, hd⟩ : ∃ d, x.shape[axis]? = some d := ⟨_, List.getElem?_eq_getElem hlt⟩
      have hext : (domain call).extent x axis = pure (.ofInt d) := by
        show Eval.extentAlong x axis = _
        rw [Eval.extentAlong, hd]
      rw [if_pos hlt, hext, pure_bind, pure_bind, List.filterMap_cons, hd]
      rfl
    · have hd : x.shape[axis]? = none := List.getElem?_eq_none (Nat.not_lt.mp hlt)
      rw [if_neg hlt, List.filterMap_cons, hd]

theorem asIntList_ofInt (ds : List Int) : Value.asIntList (ds.map Value.ofInt) = .ok (ds.map Int64.ofInt) := by
  induction ds with
  | nil => rfl
  | cons d ds ih =>
    unfold Value.asIntList at ih ⊢
    rw [List.map_cons, List.mapM_cons, ih]
    rfl

/-- Integers of which each is the next one are all the same. -/
theorem adjacent_eq_iff {i : Int64} {is : List Int64} :
    (((i :: is).zip is).any fun (a, b) => a != b) = false ↔ ∀ j ∈ is, j = i := by
  induction is generalizing i with
  | nil => simp
  | cons j is ih =>
    rw [List.zip_cons_cons, List.any_cons, Bool.or_eq_false_iff, ih]
    simp only [bne_eq_false_iff_eq, List.forall_mem_cons]
    constructor
    · rintro ⟨rfl, h⟩
      exact ⟨rfl, h⟩
    · rintro ⟨rfl, h⟩
      exact ⟨rfl, h⟩

/-- Extents that agree are found to be the common one. -/
theorem commonExtent_eq (hc : Common xs axis n) (call : Caller) :
    commonExtent (domain call) xs axis = pure (.int n) := by
  have hall : ∀ d ∈ xs.filterMap (·.shape[axis]?), d = n.toInt := by
    intro d hd
    obtain ⟨x, hx, hd⟩ := List.mem_filterMap.mp hd
    have hlt : axis < x.rank := (List.getElem?_eq_some_iff.mp hd).1
    rw [hc.extent x hx hlt] at hd
    exact (Option.some.inj hd).symm
  have hne : xs.filterMap (·.shape[axis]?) ≠ [] := by
    obtain ⟨x, hx, hlt⟩ := hc.present
    exact List.ne_nil_of_mem (List.mem_filterMap.mpr ⟨x, hx, hc.extent x hx hlt⟩)
  unfold commonExtent
  rw [extents_eq, pure_bind]
  cases hds : xs.filterMap (·.shape[axis]?) with
  | nil => exact absurd hds hne
  | cons d ds =>
    rw [hds] at hall
    obtain rfl := hall d List.mem_cons_self
    have hcheck : Eval.checkExtents axis ((n.toInt :: ds).map Value.ofInt) = pure () := by
      unfold Eval.checkExtents
      rw [asIntList_ofInt]
      have hsame : ∀ j ∈ ds.map Int64.ofInt, j = Int64.ofInt n.toInt := by
        intro j hj
        obtain ⟨d, hd, rfl⟩ := List.mem_map.mp hj
        rw [hall d (List.mem_cons_of_mem _ hd)]
      show (if _ then _ else _) = _
      rw [List.map_cons, List.tail_cons, adjacent_eq_iff.mpr hsame]
      rfl
    show (Eval.checkExtents axis ((n.toInt :: ds).map Value.ofInt) >>= _) = _
    rw [hcheck, pure_bind, Value.ofInt, Int64.ofInt_toInt]

/-- If a common extent is found, some argument has the axis, and the extents of all that have it are the
same as 64 bits. -/
theorem commonExtent_ok {m : Value} {s s' : Store} (h : commonExtent (domain call) xs axis s = .ok m s') :
    s' = s ∧ (∃ x ∈ xs, axis < x.rank) ∧
      ∃ k : Int64, m = .int k ∧ ∀ x ∈ xs, ∀ d, x.shape[axis]? = some d → Int64.ofInt d = k := by
  unfold commonExtent at h
  rw [extents_eq, pure_bind] at h
  cases hds : xs.filterMap (·.shape[axis]?) with
  | nil =>
    rw [hds] at h
    cases h
  | cons d ds =>
    rw [hds] at h
    obtain ⟨_, s1, hcheck, h⟩ := state_bind_ok h
    obtain ⟨rfl, rfl⟩ := state_pure_ok h
    have hd : d ∈ xs.filterMap (·.shape[axis]?) := by
      rw [hds]
      exact List.mem_cons_self
    obtain ⟨x, hx, hxd⟩ := List.mem_filterMap.mp hd
    obtain ⟨is, s2, his, hcheck⟩ := state_bind_ok hcheck
    obtain ⟨his, rfl⟩ := state_lift_ok his
    rw [show (Value.ofInt d :: ds.map Value.ofInt) = (d :: ds).map Value.ofInt from rfl, asIntList_ofInt] at his
    cases his
    split at hcheck
    · cases hcheck
    · rename_i hsame
      cases hcheck
      have hall := adjacent_eq_iff.mp (Bool.not_eq_true _ ▸ hsame)
      refine ⟨rfl, ⟨x, hx, (List.getElem?_eq_some_iff.mp hxd).1⟩, Int64.ofInt d, rfl, fun y hy e he => ?_⟩
      have hmem : e ∈ d :: ds := by
        rw [← hds]
        exact List.mem_filterMap.mpr ⟨y, hy, he⟩
      rcases List.mem_cons.mp hmem with rfl | hmem
      · rfl
      · exact hall _ (List.mem_map_of_mem hmem)

end Adverb

end ArrayIR
