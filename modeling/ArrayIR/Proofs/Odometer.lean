/-
  ArrayIR.Proofs.Odometer — the positions of a shape in turn.

  `places` lists the positions of a shape axis by axis, the last axis fastest. Stepping
  a position to the next one, from the one at all zeros until no axis is left to step,
  comes by the same positions in the same order (`odometer_eq_map`): while the first
  coordinate stands the others go through their own positions, and when they are through
  they start again and the first one moves on (`odometer_cons`).
-/

import ArrayIR.View
import Mathlib.Algebra.BigOperators.Group.List.Basic

namespace ArrayIR

/-- The positions of a shape, the last axis fastest. -/
def places : List Int → List (List Int)
  | [] => [[]]
  | d :: ds => (List.range d.toNat).flatMap fun i : Nat => (places ds).map ((i : Int) :: ·)

/-- How many positions a shape has. -/
def positions (shape : List Int) : Nat := (shape.map Int.toNat).prod

theorem length_places (ds : List Int) : (places ds).length = positions ds := by
  induction ds with
  | nil => rfl
  | cons d ds ih => simp [places, ih, positions]

theorem places_eq_nil {ds : List Int} (h : ∃ d ∈ ds, d ≤ 0) : places ds = [] := by
  induction ds with
  | nil => simp at h
  | cons d ds ih =>
    by_cases hd : d ≤ 0
    · have hzero : d.toNat = 0 := by omega
      simp [places, hzero]
    · have hnil : places ds = [] := ih (by simpa [hd] using h)
      simp [places, hnil]

section

variable {α : Type} {f : List Int → α} {d i : Int} {ds is js : List Int}

theorem odometer_last (h : is.length = ds.length) (hlast : advance ds ds.length is = none) :
    odometer f ds is h = [f is] := by
  rw [odometer]
  split
  · rfl
  · simp_all

theorem odometer_next (h : is.length = ds.length) (hnext : advance ds ds.length is = some js) :
    odometer f ds is h = f is :: odometer f ds js ((length_advance hnext).trans h) := by
  rw [odometer]
  split
  · simp_all
  · next heq =>
    cases heq.symm.trans hnext
    rfl

/-- The axes after the first go on to their last position; then the first is stepped, and they start again. -/
theorem odometer_cons (f : List Int → α) (h : is.length = ds.length) :
    odometer f (d :: ds) (i :: is) (congrArg (· + 1) h) = odometer (fun p => f (i :: p)) ds is h ++
      if i + 1 < d then odometer f (d :: ds) ((i + 1) :: List.replicate ds.length 0) (by simp) else [] := by
  fun_induction odometer (fun p => f (i :: p)) ds is h with
  | case1 is h hlast =>
    have hadvance : advance (d :: ds) (d :: ds).length (i :: is) =
        if i + 1 < d then some ((i + 1) :: List.replicate ds.length 0) else none := by
      rw [List.length_cons, advance_cons, hlast, ← h, cleared_length]
    by_cases hd : i + 1 < d
    · rw [if_pos hd] at hadvance ⊢
      exact odometer_next _ hadvance
    · rw [if_neg hd] at hadvance ⊢
      exact odometer_last _ hadvance
  | case2 is h next hnext ih =>
    have hadvance : advance (d :: ds) (d :: ds).length (i :: is) = some (i :: next) := by
      rw [List.length_cons, advance_cons, hnext]
    rw [odometer_next _ hadvance, ih]
    rfl

/-- From the first position on, all positions are listed in their order. -/
theorem odometer_eq_map (hpos : ∀ d ∈ ds, 0 < d) :
    odometer f ds (List.replicate ds.length 0) List.length_replicate = (places ds).map f := by
  induction ds generalizing f with
  | nil =>
    rw [odometer_last _ rfl]
    rfl
  | cons d ds ih =>
    have hds : ∀ e ∈ ds, 0 < e := fun e he => hpos e (List.mem_cons_of_mem _ he)
    -- with `n` values of the first coordinate to go
    have hrest : ∀ (n : Nat) (i : Int), i + n = d →
        (if i < d then odometer f (d :: ds) (i :: List.replicate ds.length 0) (by simp) else []) =
          (List.range n).flatMap fun k : Nat => (places ds).map fun p => f ((i + k) :: p) := by
      intro n
      induction n with
      | zero =>
        intro i hi
        rw [if_neg (by omega)]
        rfl
      | succ n hn =>
        intro i hi
        rw [if_pos (by omega), odometer_cons f (by simp), ih hds, hn (i + 1) (by omega), List.range_succ_eq_map,
          List.flatMap_cons, List.flatMap_map]
        simp [Int.add_assoc, Int.add_comm 1]
    have hall := hrest d.toNat 0 (by have := hpos d List.mem_cons_self; omega)
    rw [if_pos (hpos d List.mem_cons_self)] at hall
    simpa [places, List.map_flatMap, List.replicate_succ, Function.comp_def] using hall

end

namespace View

theorem offsets_eq_map (v : View) : v.offsets = (places v.shape).map v.address := by
  unfold offsets
  split
  · next h =>
    rw [places_eq_nil (by simpa using h)]
    rfl
  · next h => exact odometer_eq_map (by simpa using h)

theorem length_offsets (v : View) : v.offsets.length = positions v.shape := by
  rw [offsets_eq_map, List.length_map, length_places]

end View

end ArrayIR
