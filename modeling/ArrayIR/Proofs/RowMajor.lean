/-
  ArrayIR.Proofs.RowMajor — the order in which a view lists its elements.

  The positions of a shape are numbers in mixed radix, with a digit for each axis and
  the last axis counting fastest (`digits`). The `k`-th position listed has the digits
  of `k` (`getElem?_places`).

  In a new array the `k`-th position is at the `k`-th cell (`dot_digits`), so an array
  made of given elements lists them in the order given.
-/

import ArrayIR.Proofs.Places

namespace ArrayIR

/-! ## Extents -/

variable {ds : List Int} {k : Nat}

theorem extent_pos (h : ∀ d ∈ ds, 0 < d) : 0 < extent ds := by
  induction ds with
  | nil => decide
  | cons d ds ih =>
    rw [extent_cons]
    exact Int.mul_pos (h d List.mem_cons_self) (ih fun e he => h e (List.mem_cons_of_mem _ he))

theorem extent_eq_positions (h : ∀ d ∈ ds, 0 ≤ d) : extent ds = positions ds := by
  induction ds with
  | nil => rfl
  | cons d ds ih =>
    have hd : (d.toNat : Int) = d := Int.toNat_of_nonneg (h d List.mem_cons_self)
    have hds : extent ds = positions ds := ih fun e he => h e (List.mem_cons_of_mem _ he)
    have hpos : positions (d :: ds) = d.toNat * positions ds := by simp [positions]
    rw [extent_cons, hds, hpos, Int.natCast_mul, hd]

/-! ## Digits -/

/-- The digit of `k` along an axis: how often the positions of the axes after it have gone by since the axis
was last full. -/
def digit (shape : List Int) (k : Int) (axis : Nat) : Int := k / extent (shape.drop (axis + 1)) % shape.getD axis 1

/-- The digits of `k`, one for each axis. -/
def digits (shape : List Int) (k : Int) : List Int := (List.range shape.length).map (digit shape k)

theorem digits_cons (d : Int) (ds : List Int) (k : Int) : digits (d :: ds) k = k / extent ds % d :: digits ds k := by
  simp [digits, digit, List.range_succ_eq_map, Function.comp_def]

/-- Whole rounds of all positions do not change the digits. -/
theorem digits_emod (h : ∀ d ∈ ds, 0 < d) (k : Int) : digits ds (k % extent ds) = digits ds k := by
  induction ds generalizing k with
  | nil => rfl
  | cons d ds ih =>
    have hds : ∀ e ∈ ds, 0 < e := fun e he => h e (List.mem_cons_of_mem _ he)
    have hne : extent ds ≠ 0 := Int.ne_of_gt (extent_pos hds)
    have htail : digits ds (k % (d * extent ds)) = digits ds k := by
      rw [← ih hds (k % (d * extent ds)), Int.emod_emod_of_dvd k (Int.dvd_mul_left d (extent ds)), ih hds]
    have hrounds : k % (d * extent ds) = k - d * (k / (d * extent ds)) * extent ds := by
      rw [Int.emod_def, Int.mul_assoc, Int.mul_assoc, Int.mul_comm (extent ds)]
    have hhead : k % (d * extent ds) / extent ds % d = k / extent ds % d := by
      rw [hrounds, Int.sub_mul_ediv_right _ _ hne, Int.sub_mul_emod_self_left]
    rw [digits_cons, digits_cons, extent_cons, htail, hhead]

/-- Of a number in range, the first digit is the quotient by the number of the other positions. -/
theorem digits_cons_of_lt {d : Int} (h : ∀ e ∈ ds, 0 < e) {k : Int} (hk : 0 ≤ k) (hlt : k < d * extent ds) :
    digits (d :: ds) k = k / extent ds :: digits ds (k % extent ds) := by
  have hpos := extent_pos h
  rw [digits_cons, digits_emod h, Int.emod_eq_of_lt (Int.ediv_nonneg hk (by omega)) (Int.ediv_lt_of_lt_mul hpos hlt)]

/-! ## Positions in order -/

theorem getElem?_flatMap_range {α : Type} {f : Nat → List α} {m : Nat} (hf : ∀ i, (f i).length = m) {n : Nat}
    (hk : k < n * m) : ((List.range n).flatMap f)[k]? = (f (k / m))[k % m]? := by
  have hm : 0 < m := by
    rcases Nat.eq_zero_or_pos m with rfl | hm
    · omega
    · exact hm
  induction n with
  | zero => omega
  | succ n ih =>
    have hlen : ((List.range n).flatMap f).length = n * m := by simp [List.length_flatMap, hf]
    rw [List.range_succ, List.flatMap_append, List.flatMap_singleton]
    by_cases hlt : k < n * m
    · rw [List.getElem?_append_left (by omega), ih hlt]
    · rw [Nat.succ_mul] at hk
      obtain ⟨hquot, hrest⟩ : k / m = n ∧ k % m = k - n * m := by
        refine (Nat.div_mod_unique hm).mpr ⟨?_, by omega⟩
        rw [Nat.mul_comm m n]
        omega
      rw [List.getElem?_append_right (by omega), hlen, hquot, hrest]

/-- The `k`-th position has the digits of `k`. -/
theorem getElem?_places (h : ∀ d ∈ ds, 0 < d) (hk : k < positions ds) : (places ds)[k]? = some (digits ds k) := by
  induction ds generalizing k with
  | nil =>
    obtain rfl : k = 0 := by simpa [positions] using hk
    rfl
  | cons d ds ih =>
    have hds : ∀ e ∈ ds, 0 < e := fun e he => h e (List.mem_cons_of_mem _ he)
    have hext : extent ds = positions ds := extent_eq_positions fun e he => Int.le_of_lt (hds e he)
    have hpos : 0 < positions ds := by
      have := extent_pos hds
      omega
    have hcount : positions (d :: ds) = d.toNat * positions ds := by simp [positions]
    have hd : (d.toNat : Int) = d := Int.toNat_of_nonneg (Int.le_of_lt (h d List.mem_cons_self))
    rw [hcount] at hk
    have hlt : (k : Int) < d * extent ds := by
      rw [hext, ← hd, ← Int.natCast_mul]
      exact Int.ofNat_lt.mpr hk
    have hlen : ∀ i : Nat, ((places ds).map ((i : Int) :: ·)).length = positions ds := fun i => by
      rw [List.length_map, length_places]
    rw [places, getElem?_flatMap_range hlen hk, List.getElem?_map, ih hds (Nat.mod_lt k hpos),
      digits_cons_of_lt hds (Int.natCast_nonneg k) hlt, hext]
    rfl

/-- In a row-major array the digits of `k` are at the `k`-th cell. -/
theorem dot_digits (h : ∀ d ∈ ds, 0 < d) {k : Int} (hk : 0 ≤ k) (hlt : k < extent ds) :
    dot (digits ds k) (rowMajor ds) = k := by
  induction ds generalizing k with
  | nil =>
    have hone : extent [] = 1 := rfl
    obtain rfl : k = 0 := by omega
    rfl
  | cons d ds ih =>
    have hds : ∀ e ∈ ds, 0 < e := fun e he => h e (List.mem_cons_of_mem _ he)
    have hpos := extent_pos hds
    rw [extent_cons] at hlt
    rw [digits_cons_of_lt hds hk hlt, rowMajor_cons, dot,
      ih hds (Int.emod_nonneg k (by omega)) (Int.emod_lt_of_pos k hpos), Int.mul_comm]
    exact Int.mul_ediv_add_emod k (extent ds)

namespace View

theorem getElem?_offsets {v : View} (h : ∀ d ∈ v.shape, 0 < d) (hk : k < v.offsets.length) :
    v.offsets[k]? = some (v.address (digits v.shape k)) := by
  rw [length_offsets] at hk
  rw [offsets_eq_map, List.getElem?_map, getElem?_places h hk]
  rfl

/-- The elements of a new array are at its cells in turn. -/
theorem offsets_rowMajor {v : View} (h : ∀ d ∈ v.shape, 0 < d) (hstrides : v.strides = rowMajor v.shape)
    (hoffset : v.offset = 0) :
    v.offsets = (List.range (extent v.shape).toNat).map fun k : Nat => (k : Int) := by
  have hext : extent v.shape = positions v.shape := extent_eq_positions fun d hd => Int.le_of_lt (h d hd)
  have hlen : v.offsets.length = (extent v.shape).toNat := by
    rw [length_offsets]
    omega
  refine List.ext_getElem? fun k => ?_
  by_cases hk : k < v.offsets.length
  · have hcell : dot (digits v.shape k) (rowMajor v.shape) = k := dot_digits h (Int.natCast_nonneg k) (by omega)
    have hk' : k < (extent v.shape).toNat := hlen ▸ hk
    rw [getElem?_offsets h hk, address, hstrides, hoffset, hcell, Int.zero_add, List.getElem?_map,
      List.getElem?_range hk', Option.map_some]
  · rw [List.getElem?_eq_none (by omega), List.getElem?_eq_none (by simp; omega)]

end View

/-! ## Arrays of given elements -/

/-- Cells set one after the other, after those that are set already. -/
theorem foldl_setCell (elt : ScalarTy) (xs pre : List Scalar) {rest : List Scalar} (h : rest.length = xs.length) :
    (xs.zipIdx pre.length).foldl (fun cells p => setCell cells p.2 (p.1.convert elt)) (pre ++ rest).toArray =
      (pre ++ xs.map (·.convert elt)).toArray := by
  induction xs generalizing pre rest with
  | nil =>
    obtain rfl := List.eq_nil_of_length_eq_zero h
    rfl
  | cons x xs ih =>
    cases rest with
    | nil => simp at h
    | cons y rest =>
      have hset : setCell (pre ++ y :: rest).toArray pre.length (x.convert elt) =
          ((pre ++ [x.convert elt]) ++ rest).toArray := by
        rw [setCell, if_neg (by omega)]
        simp
      have hnext : pre.length + 1 = (pre ++ [x.convert elt]).length := by simp
      rw [List.zipIdx_cons, List.foldl_cons, hset, hnext, ih _ (by simpa using h)]
      simp

theorem map_cellAt_range (elt : ScalarTy) (xs : List Scalar) :
    (List.range xs.length).map (fun k : Nat => cellAt elt xs.toArray k) = xs := by
  refine List.ext_getElem (by simp) fun k hk hk' => ?_
  have hk0 : ¬ (k : Int) < 0 := by omega
  simp [cellAt, hk', hk0]

namespace Value

theorem ofElements_eq (elt : ScalarTy) (shape : List Int) (xs : List Scalar) (s : Store) :
    ∃ v s', ofElements elt shape xs s = .ok (.array v) s' ∧ v.elt = elt ∧ v.shape = shape ∧
      v.strides = rowMajor shape ∧ v.offset = 0 ∧
      s'.cells v.buffer = (xs.zipIdx 0).foldl (fun cells p => setCell cells p.2 (p.1.convert elt))
        (List.replicate (extent shape).toNat (Scalar.zero elt)).toArray := by
  refine ⟨_, _, rfl, rfl, rfl, rfl, rfl, ?_⟩
  show ((s.alloc _).2.modify s.size _).cells s.size = _
  rw [Store.cells_modify_self _ _ (by rw [Store.size_alloc]; exact Nat.lt_succ_self _), Store.cells_alloc_new]

/-- An array made of elements has them, brought to its element type, in the order given. -/
theorem elements_ofElements (elt : ScalarTy) {shape : List Int} (h : ∀ d ∈ shape, 0 ≤ d) {xs : List Scalar}
    (hlen : (xs.length : Int) = extent shape) (s : Store) :
    ∃ v s', ofElements elt shape xs s = .ok (.array v) s' ∧ v.elements s' = xs.map (·.convert elt) := by
  obtain ⟨v, s', hrun, rfl, rfl, hstrides, hoffset, hcells⟩ := ofElements_eq elt shape xs s
  refine ⟨v, s', hrun, ?_⟩
  have hcells' : s'.cells v.buffer = (xs.map (·.convert v.elt)).toArray := by
    rw [hcells]
    exact foldl_setCell v.elt xs [] (by simp; omega)
  by_cases hpos : ∀ d ∈ v.shape, 0 < d
  · have hn : (extent v.shape).toNat = (xs.map (·.convert v.elt)).length := by
      rw [List.length_map]
      omega
    rw [View.elements, View.offsets_rowMajor hpos hstrides hoffset, hcells', hn, List.map_map]
    exact map_cellAt_range v.elt _
  · -- an axis is empty, so there are no elements on either side
    have hcount : (v.elements s').length = xs.length := by
      rw [View.length_elements]
      have := extent_eq_positions h
      omega
    have hnil : v.elements s' = [] := by
      rw [View.elements, View.offsets, if_pos, List.map_nil]
      simpa using hpos
    rw [hnil] at hcount ⊢
    rw [List.eq_nil_of_length_eq_zero hcount.symm, List.map_nil]

end Value

/-! ## Row-major order -/

namespace View

end View

end ArrayIR
