/-
  ArrayIR.Proofs.Storing — what a store through an index does.

  What is stored is read before anything is written, and then goes to the cells of the
  region that the index selects: an array to each place of its own shape along the
  leading axes, a scalar everywhere (`View.element_filled`). No other cell changes, and
  a store that fails changes nothing. If different positions of the view are different
  cells, reading at the same index gives what has been stored (`View.write_exact`), also
  when the region and what is stored into it overlap.
-/

import ArrayIR.Proofs.Lockstep
import ArrayIR.Proofs.Places

namespace ArrayIR

/-- A buffer that has not been allocated has no cells. -/
theorem Store.cells_of_size_le {s : Store} {b : BufferId} (h : s.size ≤ b) : s.cells b = #[] := by
  have hb : s.buffers.size ≤ b := h
  simp [cells, hb]

namespace View

variable {v region : View} {s s' : Store} {idx x : Value}

/-! ## Success and failure -/

/-- The store after `x` has gone to a region. -/
def filled (region : View) (s : Store) (x : Value) : Store :=
  s.modify region.buffer (fill region.elt ((x.elements? s).getD []).toArray region.offsets)

theorem supply_ok {values : Array Scalar} (h : region.supply s x = .ok values) :
    region.Takes x ∧ values = ((x.elements? s).getD []).toArray := by
  cases x with
  | scalar y =>
    cases h
    exact ⟨trivial, rfl⟩
  | array u =>
    rw [supply] at h
    split at h
    · rename_i hsuffix
      cases h
      exact ⟨List.isSuffixOf_iff_suffix.mp hsuffix, rfl⟩
    · cases h
  | _ => cases h

theorem supply_of_takes (h : region.Takes x) : region.supply s x = .ok ((x.elements? s).getD []).toArray := by
  cases x with
  | scalar y => rfl
  | array u =>
    rw [supply, if_pos (List.isSuffixOf_iff_suffix.mpr h)]
    rfl
  | _ => exact h.elim

/-- A region that takes an array without elements has no positions. -/
theorem filled_of_empty (hx : region.Takes x) (h : (x.elements? s).getD [] = []) : region.filled s x = s := by
  have hnone : region.offsets = [] := by
    cases x with
    | scalar y => simp [Value.elements?] at h
    | array u =>
      obtain ⟨lead, hlead⟩ := hx
      have hlen : (u.elements s).length = 0 := by
        rw [show u.elements s = [] from h]
        rfl
      rw [length_elements] at hlen
      refine List.eq_nil_of_length_eq_zero ?_
      rw [length_offsets, ← hlead, positions_append, hlen, Nat.mul_zero]
    | _ => exact hx.elim
  rw [filled, hnone]
  exact Store.modify_id s _ fun _ => rfl

theorem write_of_resolve (h : v.resolve idx = .ok region) (hx : region.Takes x) :
    v.write idx x s = .ok () (region.filled s x) := by
  obtain ⟨helt, hbuf, -⟩ := resolve_proper h
  have hsupply := supply_of_takes (s := s) hx
  unfold write
  rw [h]
  show (do let values ← (liftM (region.supply s x) : Exec _); _ : Exec Unit) s = _
  rw [hsupply]
  show (if ((x.elements? s).getD []).toArray.isEmpty then pure () else _ : Exec Unit) s = _
  split
  · rename_i hempty
    rw [filled_of_empty hx (by simpa using hempty)]
    rfl
  · rw [filled, helt, hbuf]
    rfl

/-- A store that succeeds has filled the region that the index selects. -/
theorem write_ok (h : v.write idx x s = .ok () s') :
    ∃ region, v.resolve idx = .ok region ∧ region.Takes x ∧ s' = region.filled s x := by
  obtain ⟨region, s1, hlift, hrest⟩ := state_bind_ok h
  obtain ⟨hregion, rfl⟩ := state_lift_ok hlift
  obtain ⟨st, s2, hget, hrest⟩ := state_bind_ok hrest
  cases hget
  obtain ⟨values, s3, hlift, -⟩ := state_bind_ok hrest
  have hx := (supply_ok (state_lift_ok hlift).1).1
  rw [write_of_resolve hregion hx] at h
  cases h
  exact ⟨region, hregion, hx, rfl⟩

/-- A store that fails has changed nothing. -/
theorem write_error {e : Fault} (h : v.write idx x s = .error e s') : s' = s := by
  rcases state_bind_error h with h | ⟨region, s1, hr, h⟩
  · exact state_lift_error h
  obtain ⟨-, rfl⟩ := state_lift_ok hr
  rcases state_bind_error h with h | ⟨st, s2, hget, h⟩
  · cases h
  cases hget
  rcases state_bind_error h with h | ⟨values, s3, hvalues, h⟩
  · exact state_lift_error h
  -- once there is something to store, storing succeeds
  split at h <;> cases h

/-! ## What is there afterwards -/

theorem filled_onlyChanges (region : View) (s : Store) (x : Value) : region.OnlyChanges s (region.filled s x) := by
  by_cases hb : region.buffer < s.size
  · exact onlyChanges_fill hb _
  · refine ⟨Store.size_modify s _ _, fun b i _ => ?_⟩
    by_cases hreg : b = region.buffer
    · have hsize : s.size ≤ b := hreg ▸ Nat.not_lt.mp hb
      have hsize' : (region.filled s x).size ≤ b := by rwa [filled, Store.size_modify]
      rw [Store.cells_of_size_le hsize, Store.cells_of_size_le hsize']
    · rw [filled, Store.cells_modify_ne s _ hreg]

/-- Positions that are one to one with cells are listed once each. -/
theorem OneToOne.nodup (h : region.OneToOne s) (hlen : region.strides.length = region.shape.length) :
    region.offsets.Nodup := by
  rw [offsets_eq_map]
  refine (places_nodup region.shape).map_on fun p hp q hq heq => ?_
  rw [mem_places, ← extents_eq hlen] at hp hq
  exact h.distinct hp hq heq

theorem OneToOne.offsets_inside (h : region.OneToOne s) (hlen : region.strides.length = region.shape.length) :
    ∀ o ∈ region.offsets, 0 ≤ o ∧ o < (s.cells region.buffer).size := by
  intro o ho
  obtain ⟨p, hp, rfl⟩ := mem_offsets.mp ho
  exact h.inside (extents_eq hlen ▸ hp)

/-- A view of different cells, listed by their offsets. -/
theorem Distinct.oneToOne (h : region.Distinct s) (hlen : region.strides.length = region.shape.length) :
    region.OneToOne s := by
  have hext := extents_eq hlen
  constructor
  · intro p q hp hq heq
    have hnd := h.nodup
    rw [offsets_eq_map] at hnd
    exact List.inj_on_of_nodup_map hnd (mem_places.mpr (hext ▸ hp)) (mem_places.mpr (hext ▸ hq)) heq
  · intro p hp
    exact h.inside _ (mem_offsets.mpr ⟨p, hext ▸ hp, rfl⟩)

/-- Where there is a position there is a buffer. -/
theorem OneToOne.distinct_of_mem (h : region.OneToOne s)
    (hlen : region.strides.length = region.shape.length) {p : List Int}
    (hp : Within region.shape p) : region.Distinct s := by
  refine ⟨?_, h.nodup hlen, h.offsets_inside hlen⟩
  have hin := h.inside (extents_eq hlen ▸ hp)
  by_contra hb
  rw [Store.cells_of_size_le (Nat.not_lt.mp hb)] at hin
  simp at hin
  omega

/-- Every position of a region holds the element of what has been stored at its last coordinates. -/
theorem element_filled (h : region.OneToOne s) (hlen : region.strides.length = region.shape.length)
    (hx : region.Takes x) {lead trail : List Int} (hp : Within region.shape (lead ++ trail))
    (ht : trail.length = x.rank) :
    ∃ y, x.element? s trail = some y ∧ region.element (region.filled s x) (lead ++ trail) = y.convert region.elt := by
  have hfill : ∀ f, (List.range (positions region.shape)).map (fillAt region.elt ((x.elements? s).getD []).toArray) =
      (places region.shape).map f → region.element (region.filled s x) (lead ++ trail) = f (lead ++ trail) := by
    intro f hf
    rw [← elements_fill (h.distinct_of_mem hlen hp), elements_eq_map] at hf
    exact List.map_inj_left.mp hf _ (mem_places.mpr hp)
  cases x with
  | scalar y =>
    obtain rfl := List.eq_nil_of_length_eq_zero ht
    refine ⟨y, rfl, hfill (fun _ => y.convert region.elt) ?_⟩
    have hrow := fillAt_toArray region.elt [y] (positions region.shape)
    rw [List.length_singleton, Nat.mul_one] at hrow
    show (List.range (positions region.shape)).map (fillAt region.elt [y].toArray) = _
    rw [hrow, List.map_const', length_places]
    simp
  | array u =>
    obtain ⟨ds, hds⟩ := hx
    refine ⟨u.element s trail, rfl, ?_⟩
    have hcount : positions region.shape = positions ds * (u.elements s).length := by
      rw [← hds, positions_append, length_elements]
    have hrows : (List.range (positions region.shape)).map (fillAt region.elt (u.elements s).toArray) =
        (places region.shape).map fun p => (u.element s (p.drop ds.length)).convert region.elt := by
      rw [hcount, fillAt_toArray, elements_eq_map, flatten_replicate_places, hds, List.map_map]
      rfl
    rw [hfill _ hrows]
    have hlead : lead.length = ds.length := by
      have hall := hp.length
      have hrank : trail.length = u.shape.length := ht
      rw [← hds, List.length_append, List.length_append] at hall
      omega
    rw [← hlead, List.drop_left]
  | _ => exact hx.elim

/-- A store through an index, into a view whose positions are different cells, succeeds just when the index
selects a region that takes the value. If it fails it has changed nothing. Otherwise every position of the
region holds the element, as it was before, that the stored value has at the last coordinates of the position,
brought to the element type; no other cell has changed; and reading at the index gives just this content. -/
theorem write_exact (hv : v.OneToOne s) (idx x : Value) :
    ((∃ s', v.write idx x s = .ok () s') ↔ ∃ region, v.resolve idx = .ok region ∧ region.Takes x) ∧
    (∀ e s', v.write idx x s = .error e s' → s' = s) ∧
    ∀ s', v.write idx x s = .ok () s' →
      ∃ region y, v.resolve idx = .ok region ∧ x.shape <:+ region.shape ∧ region.OnlyChanges s s' ∧
        v.read s' idx = .ok y ∧ y.shape = region.shape ∧
        ∀ lead trail, Within region.shape (lead ++ trail) → trail.length = x.rank →
          ∃ z, x.element? s trail = some z ∧ region.element s' (lead ++ trail) = z.convert v.elt ∧
            y.element? s' (lead ++ trail) = some (z.convert v.elt) := by
  refine ⟨⟨?_, ?_⟩, fun e s' => write_error, fun s' hs' => ?_⟩
  · rintro ⟨s', hs'⟩
    obtain ⟨region, hregion, hx, -⟩ := write_ok hs'
    exact ⟨region, hregion, hx⟩
  · rintro ⟨region, hregion, hx⟩
    exact ⟨_, write_of_resolve hregion hx⟩
  obtain ⟨region, hregion, hx, rfl⟩ := write_ok hs'
  obtain ⟨helt, -, hlen⟩ := resolve_proper hregion
  refine ⟨region, region.value (region.filled s x), hregion, ?_, filled_onlyChanges region s x,
    read_of_resolve hregion _, shape_value region _, fun lead trail hp ht => ?_⟩
  · cases x with
    | scalar z => exact List.nil_suffix
    | array u => exact hx
    | _ => exact hx.elim
  · obtain ⟨z, hz, hat⟩ := element_filled (hv.resolve hregion) hlen hx hp ht
    rw [helt] at hat
    exact ⟨z, hz, hat, by rw [element?_value hp, hat]⟩

/-- Two rows of three cells. -/
def tableStore : Store := ⟨#[#[.int 10, .int 20, .int 30, .int 40, .int 50, .int 60]]⟩

def table : View := ⟨.i64, 0, [2, 3], [3, 1], 0⟩

/-- The first two cells are stored into the last two columns, the first of which they overlap. -/
theorem write_exact_overlapping : table.OneToOne tableStore ∧
    ∃ s', table.write (.tuple [.wholeAxis, .slice (some 1) none 1])
      (.array ⟨.i64, 0, [2], [1], 0⟩) tableStore = .ok () s' ∧
      table.read s' (.tuple [.wholeAxis, .slice (some 1) none 1]) = .ok (.array ⟨.i64, 0, [2, 2], [3, 1], 1⟩) ∧
      (⟨.i64, 0, [2, 2], [3, 1], 1⟩ : View).element s' [1, 1] = .int 20 := by
  have hv : table.OneToOne tableStore := Distinct.oneToOne ⟨by decide, by decide +kernel, by decide +kernel⟩ rfl
  obtain ⟨hiff, -, hafter⟩ := write_exact hv (.tuple [.wholeAxis, .slice (some 1) none 1])
    (.array ⟨.i64, 0, [2], [1], 0⟩)
  obtain ⟨s', hs'⟩ := hiff.mpr ⟨⟨.i64, 0, [2, 2], [3, 1], 1⟩, rfl, (by decide : ([2] : List Int) <:+ [2, 2])⟩
  refine ⟨hv, s', hs', rfl, ?_⟩
  obtain ⟨region, y, hregion, -, -, -, -, hat⟩ := hafter s' hs'
  cases hregion
  obtain ⟨z, hz, hz', -⟩ := hat [1] [1] (by decide) rfl
  cases hz
  exact hz'

end View

end ArrayIR
