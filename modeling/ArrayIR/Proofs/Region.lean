/-
  ArrayIR.Proofs.Region — what a store leaves in a region.

  A store fills the cells that a view selects with the elements of what is stored,
  over and over again, and changes no other cell (`getElem?_fill`, `map_cellAt_fill`).
  Through an index of whole slices it fills the view itself (`View.resolve_whole`):
  afterwards the view holds the stored array repeated over its leading extents, or
  the stored scalar everywhere (`View.write_whole`).
-/

import ArrayIR.Proofs.Odometer
import ArrayIR.Proofs.Pairing

namespace ArrayIR

/-! ## Cells -/

variable {o p : Int} {i : Nat} {cells : Array Scalar}

theorem getElem?_setCell_ne (cells : Array Scalar) (x : Scalar) (h : (i : Int) ≠ o) :
    (setCell cells o x)[i]? = cells[i]? := by
  unfold setCell
  split
  · rfl
  · rw [Array.getElem?_setIfInBounds, if_neg (by omega)]

theorem cellAt_setCell_ne (elt : ScalarTy) (cells : Array Scalar) (x : Scalar) (h : p ≠ o) :
    cellAt elt (setCell cells o x) p = cellAt elt cells p := by
  unfold cellAt
  split
  · rfl
  · rw [getElem?_setCell_ne cells x (by omega)]

theorem cellAt_setCell_self (elt : ScalarTy) (x : Scalar) (h : 0 ≤ o ∧ o < cells.size) :
    cellAt elt (setCell cells o x) o = x := by
  unfold cellAt setCell
  rw [if_neg (by omega), if_neg (by omega), Array.getElem?_setIfInBounds, if_pos rfl, if_pos (by omega)]
  rfl

theorem size_setCell (cells : Array Scalar) (o : Int) (x : Scalar) : (setCell cells o x).size = cells.size := by
  unfold setCell
  split
  · rfl
  · exact Array.size_setIfInBounds

/-! ## Filling -/

/-- The element stored at the `k`-th of the offsets. -/
def fillAt (elt : ScalarTy) (values : Array Scalar) (k : Nat) : Scalar :=
  ((values[k % values.size]?).getD (.int 0)).convert elt

/-- Filling, from the `n`-th offset on. -/
def fillFrom (elt : ScalarTy) (values : Array Scalar) : Nat → List Int → Array Scalar → Array Scalar
  | _, [], cells => cells
  | n, o :: os, cells => fillFrom elt values (n + 1) os (setCell cells o (fillAt elt values n))

theorem fill_eq_fillFrom (elt : ScalarTy) (values : Array Scalar) (os : List Int) (cells : Array Scalar) :
    fill elt values os cells = fillFrom elt values 0 os cells := by
  unfold fill
  generalize 0 = n
  induction os generalizing n cells with
  | nil => rfl
  | cons o os ih =>
    rw [List.zipIdx_cons, List.foldl_cons, ih]
    rfl

section

variable (elt : ScalarTy) (values : Array Scalar)

theorem size_fillFrom (n : Nat) (os : List Int) (cells : Array Scalar) :
    (fillFrom elt values n os cells).size = cells.size := by
  induction os generalizing n cells with
  | nil => rfl
  | cons o os ih => rw [fillFrom, ih, size_setCell]

theorem size_fill (os : List Int) (cells : Array Scalar) : (fill elt values os cells).size = cells.size := by
  rw [fill_eq_fillFrom, size_fillFrom]

/-- Cells at other offsets stay as they are. -/
theorem getElem?_fill {os : List Int} (h : (i : Int) ∉ os) (cells : Array Scalar) :
    (fill elt values os cells)[i]? = cells[i]? := by
  rw [fill_eq_fillFrom]
  generalize 0 = n
  induction os generalizing n cells with
  | nil => rfl
  | cons o os ih =>
    rw [List.mem_cons, not_or] at h
    rw [fillFrom, ih h.2, getElem?_setCell_ne cells _ h.1]

theorem cellAt_fillFrom {os : List Int} (h : p ∉ os) (n : Nat) (cells : Array Scalar) :
    cellAt elt (fillFrom elt values n os cells) p = cellAt elt cells p := by
  induction os generalizing n cells with
  | nil => rfl
  | cons o os ih =>
    rw [List.mem_cons, not_or] at h
    rw [fillFrom, ih h.2, cellAt_setCell_ne elt cells _ h.1]

/-- Distinct offsets inside the buffer receive the elements in turn. -/
theorem map_cellAt_fill {os : List Int} (hnd : os.Nodup) (hin : ∀ o ∈ os, 0 ≤ o ∧ o < cells.size) :
    os.map (cellAt elt (fill elt values os cells)) = (List.range os.length).map (fillAt elt values) := by
  have from_n : ∀ n, os.map (cellAt elt (fillFrom elt values n os cells)) =
      (List.range os.length).map fun k => fillAt elt values (n + k) := by
    intro n
    induction os generalizing n cells with
    | nil => rfl
    | cons o os ih =>
      obtain ⟨ho, hnd⟩ := List.nodup_cons.mp hnd
      have hself := hin o List.mem_cons_self
      have hrest : ∀ p ∈ os, 0 ≤ p ∧ p < (setCell cells o (fillAt elt values n)).size := by
        intro p hp
        rw [size_setCell]
        exact hin p (List.mem_cons_of_mem _ hp)
      rw [List.map_cons, fillFrom, ih hnd hrest, cellAt_fillFrom elt values ho, cellAt_setCell_self elt _ hself,
        List.length_cons, List.range_succ_eq_map, List.map_cons, List.map_map]
      simp [Function.comp_def, Nat.add_assoc, Nat.add_comm 1]
  rw [fill_eq_fillFrom, from_n 0]
  simp

end

/-! ## Repetition -/

theorem map_range_mod {α : Type} (f : Nat → α) (n m : Nat) :
    (List.range (m * n)).map (fun k => f (k % n)) = (List.replicate m ((List.range n).map f)).flatten := by
  induction m with
  | zero => simp
  | succ m ih =>
    have hfirst : (List.range n).map (fun k => f (k % n)) = (List.range n).map f :=
      List.map_congr_left fun k hk => by rw [Nat.mod_eq_of_lt (List.mem_range.mp hk)]
    rw [Nat.succ_mul, Nat.add_comm, List.range_add, List.map_append, hfirst, List.map_map, List.replicate_succ,
      List.flatten_cons, ← ih]
    simp [Function.comp_def]

theorem fillAt_toArray (elt : ScalarTy) (xs : List Scalar) (m : Nat) :
    (List.range (m * xs.length)).map (fillAt elt xs.toArray) = (List.replicate m xs).flatten.map (·.convert elt) := by
  have hone : (List.range xs.length).map (fun k => ((xs[k]?).getD (.int 0)).convert elt) = xs.map (·.convert elt) := by
    refine List.ext_getElem (by simp) fun i h1 h2 => ?_
    have hi : i < xs.length := by simpa using h1
    simp [List.getElem?_eq_getElem hi]
  have hfill : fillAt elt xs.toArray = fun k => (((xs[k % xs.length]?).getD (.int 0)).convert elt) := by
    funext k
    simp [fillAt]
  rw [hfill, map_range_mod (fun k => ((xs[k]?).getD (.int 0)).convert elt), hone, List.map_flatten, List.map_replicate]

/-! ## Positions -/

theorem positions_append (ds es : List Int) : positions (ds ++ es) = positions ds * positions es := by
  simp [positions]

namespace View

theorem length_elements (v : View) (s : Store) : (v.elements s).length = positions v.shape := by
  rw [elements, List.length_map, length_offsets]

/-- A view with a stride for each axis, and no negative extent. -/
structure Proper (v : View) : Prop where
  strides : v.strides.length = v.shape.length
  extents : ∀ d ∈ v.shape, 0 ≤ d

/-- The positions of a view are different cells of its buffer. -/
structure Distinct (v : View) (s : Store) : Prop where
  buffer : v.buffer < s.size
  nodup : v.offsets.Nodup
  inside : ∀ o ∈ v.offsets, 0 ≤ o ∧ o < (s.cells v.buffer).size

theorem resolveAxis_whole (axis : Nat) {dim : Int} (stride : Int) (h : 0 ≤ dim) :
    resolveAxis axis dim stride .wholeAxis = .ok (0, [(dim, stride)]) := by
  have hone : (1 : Int64).toInt = 1 := rfl
  have hlo : clamp 0 dim 0 = 0 := by
    unfold clamp
    split <;> [omega; split <;> omega]
  have hhi : clamp 0 dim dim = dim := by
    unfold clamp
    split <;> [omega; split <;> omega]
  rw [Value.wholeAxis, resolveAxis, if_neg (by decide)]
  simp [hlo, hhi, hone]

theorem resolveAxes_whole {axes : List (Int × Int)} (h : ∀ p ∈ axes, 0 ≤ p.1) (axis n : Nat) :
    resolveAxes axis axes (List.replicate n .wholeAxis) = .ok (0, axes) := by
  induction axes generalizing axis n with
  | nil => cases n <;> rfl
  | cons p axes ih =>
    cases n with
    | zero => rfl
    | succ n =>
      obtain ⟨dim, stride⟩ := p
      rw [List.replicate_succ, resolveAxes, resolveAxis_whole axis stride (h _ List.mem_cons_self),
        ih fun p hp => h p (List.mem_cons_of_mem _ hp)]
      rfl

variable {v : View} {n : Nat} {s : Store}

/-- Whole slices of its axes select the view itself. -/
theorem resolve_whole (hv : v.Proper) (hn : n ≤ v.shape.length) :
    v.resolve (.tuple (List.replicate n .wholeAxis)) = .ok v := by
  have hzip : ∀ p ∈ v.shape.zip v.strides, 0 ≤ p.1 := fun p hp => hv.extents p.1 (List.of_mem_zip hp).1
  unfold resolve
  rw [components, if_neg (by rw [List.length_replicate]; omega), resolveAxes_whole hzip]
  show Except.ok _ = _
  rw [List.map_fst_zip (Nat.le_of_eq hv.strides.symm), List.map_snd_zip (Nat.le_of_eq hv.strides), Int.add_zero]

/-- What the cells of a region hold after `x` has been stored into it: the scalar everywhere, or the
array over and over again along the leading extents. -/
def Holds (v : View) (s : Store) (x : Value) (before : Store) : Prop :=
  match x with
  | .scalar y => v.elements s = List.replicate (positions v.shape) (y.convert v.elt)
  | .array u => ∃ lead, v.shape = lead ++ u.shape ∧
    v.elements s = (List.replicate (positions lead) (u.elements before)).flatten.map (·.convert v.elt)
  | _ => False

/-- Whether a value can be stored into a region: it is a scalar, or an array with the last extents. -/
def Takes (v : View) : Value → Prop
  | .scalar _ => True
  | .array u => u.shape <:+ v.shape
  | _ => False

/-- The store differs from the one before in cells of the view only. -/
structure OnlyChanges (v : View) (before after : Store) : Prop where
  size : after.size = before.size
  cells : ∀ b (i : Nat), (b = v.buffer → (i : Int) ∉ v.offsets) → (after.cells b)[i]? = (before.cells b)[i]?

theorem OnlyChanges.refl (v : View) (s : Store) : v.OnlyChanges s s := ⟨rfl, fun _ _ _ => rfl⟩

theorem onlyChanges_fill (hb : v.buffer < s.size) (values : Array Scalar) :
    v.OnlyChanges s (s.modify v.buffer (fill v.elt values v.offsets)) where
  size := Store.size_modify s _ _
  cells b i h := by
    by_cases hv : b = v.buffer
    · subst hv
      rw [Store.cells_modify_self s _ hb, getElem?_fill _ _ (h rfl)]
    · rw [Store.cells_modify_ne s _ hv]

theorem elements_fill (h : v.Distinct s) (values : Array Scalar) :
    v.elements (s.modify v.buffer (fill v.elt values v.offsets)) =
      (List.range (positions v.shape)).map (fillAt v.elt values) := by
  rw [elements, Store.cells_modify_self s _ h.buffer, ← v.length_offsets]
  exact map_cellAt_fill v.elt values h.nodup h.inside

/-- A store through whole slices fills the view and changes nothing else. -/
theorem write_whole (hv : v.Proper) (h : v.Distinct s) {x : Value} (hx : v.Takes x) (hn : n ≤ v.shape.length) :
    ∃ s', v.write (.tuple (List.replicate n .wholeAxis)) x s = .ok () s' ∧ v.OnlyChanges s s' ∧ v.Holds s' x s := by
  have run : ∀ values, v.supply s x = .ok values → v.write (.tuple (List.replicate n .wholeAxis)) x s =
      (if values.isEmpty then .ok () s else .ok () (s.modify v.buffer (fill v.elt values v.offsets))) := by
    intro values hvalues
    unfold write
    rw [resolve_whole hv hn]
    show (do let values ← (liftM (v.supply s x) : Exec _); _ : Exec Unit) s = _
    rw [hvalues]
    show (if values.isEmpty then pure () else _ : Exec Unit) s = _
    split <;> rfl
  cases x with
  | scalar y =>
    refine ⟨_, run #[y] rfl, onlyChanges_fill h.buffer _, ?_⟩
    show v.elements _ = _
    rw [elements_fill h]
    have := fillAt_toArray v.elt [y] (positions v.shape)
    rw [List.length_singleton, Nat.mul_one] at this
    rw [this]
    simp
  | array u =>
    have hsuffix : u.shape <:+ v.shape := hx
    obtain ⟨lead, hlead⟩ := id hsuffix
    have hsupply : v.supply s (.array u) = .ok (u.elements s).toArray := by
      rw [supply, if_pos (List.isSuffixOf_iff_suffix.mpr hsuffix)]
    have hpos : positions v.shape = positions lead * (u.elements s).length := by
      rw [← hlead, positions_append, length_elements]
    rw [run _ hsupply]
    split
    · rename_i hempty
      refine ⟨s, rfl, .refl v s, lead, hlead.symm, ?_⟩
      have hnil : u.elements s = [] := by simpa using hempty
      rw [hnil, List.length_nil, Nat.mul_zero, ← v.length_elements s] at hpos
      rw [hnil, List.eq_nil_of_length_eq_zero hpos]
      simp
    · refine ⟨_, rfl, onlyChanges_fill h.buffer _, lead, hlead.symm, ?_⟩
      rw [elements_fill h, hpos, fillAt_toArray]
  | _ => exact hx.elim

end View

end ArrayIR
