/-
  ArrayIR.Proofs.Bounds — views stay inside their buffer.

  Reading and storing outside a buffer has a meaning here, but none that a program should
  rely on. `View.elements?`, `View.read?` and `View.write?` are the same operations where
  every access is checked, and one outside the buffer gives nothing. They agree with the
  operations that do not check if the offsets of the views are inside (`View.Inside`).

  A new array has a cell for each of its positions, and an index takes each position of
  the region it selects to a position of the view. So however long the chain of indices,
  what it selects is inside the buffer, one cell for each position (`View.chain_inside`).
-/

import ArrayIR.Proofs.Adverbs.Stacking

namespace ArrayIR

/-! ## Checked access to a buffer -/

/-- The cell at an offset, if the buffer has one there. -/
def cell? (cells : Array Scalar) (o : Int) : Option Scalar := if o < 0 then none else cells[o.toNat]?

/-- The buffer with the cell at an offset set, if it has one there. -/
def setCell? (cells : Array Scalar) (o : Int) (x : Scalar) : Option (Array Scalar) :=
  if 0 ≤ o ∧ o < cells.size then some (setCell cells o x) else none

/-- Filling from the `n`-th offset on, if there are cells at all the offsets. -/
def fillFrom? (elt : ScalarTy) (values : Array Scalar) : Nat → List Int → Array Scalar → Option (Array Scalar)
  | _, [], cells => some cells
  | n, o :: os, cells => do fillFrom? elt values (n + 1) os (← setCell? cells o (fillAt elt values n))

theorem cell?_of_inside {cells : Array Scalar} {o : Int} (h : 0 ≤ o ∧ o < cells.size) (elt : ScalarTy) :
    cell? cells o = some (cellAt elt cells o) := by
  have hlt : o.toNat < cells.size := by omega
  rw [cell?, cellAt, if_neg (by omega), if_neg (by omega), Array.getElem?_eq_getElem hlt]
  rfl

theorem mapM_cell?_of_inside {cells : Array Scalar} {os : List Int}
    (h : ∀ o ∈ os, 0 ≤ o ∧ o < cells.size) (elt : ScalarTy) :
    os.mapM (cell? cells) = some (os.map (cellAt elt cells)) := by
  induction os with
  | nil => rfl
  | cons o os ih =>
    obtain ⟨ho, hos⟩ := List.forall_mem_cons.mp h
    rw [List.mapM_cons, cell?_of_inside ho elt, ih hos]
    rfl

theorem fillFrom?_of_inside {elt : ScalarTy} {values : Array Scalar} {os : List Int} {cells : Array Scalar}
    (h : ∀ o ∈ os, 0 ≤ o ∧ o < cells.size) (n : Nat) :
    fillFrom? elt values n os cells = some (fillFrom elt values n os cells) := by
  induction os generalizing n cells with
  | nil => rfl
  | cons o os ih =>
    obtain ⟨ho, hos⟩ := List.forall_mem_cons.mp h
    rw [fillFrom?, setCell?, if_pos ho]
    exact ih (by simpa only [size_setCell] using hos) (n + 1)

/-- Changing a buffer is putting what it is changed to in its place. -/
theorem Store.modify_const (s : Store) (b : BufferId) (f : Array Scalar → Array Scalar) :
    s.modify b (fun _ => f (s.cells b)) = s.modify b f := by
  unfold Store.modify
  congr 1
  refine Array.ext (by simp) fun i hi _ => ?_
  rw [Array.getElem_modify, Array.getElem_modify]
  split
  · rename_i hbi
    subst hbi
    have hlt : b < s.buffers.size := by simpa using hi
    rw [Store.cells, Array.getElem?_eq_getElem hlt, Option.getD_some]
  · rfl

/-! ## Checked access through a view -/

namespace View

/-- The elements, if they are all in the buffer. -/
def elements? (v : View) (s : Store) : Option (List Scalar) := v.offsets.mapM (cell? (s.cells v.buffer))

/-- The value at an index, if no cell outside the buffer is read. -/
def read? (v : View) (s : Store) (idx : Value) : Option (Except Error Value) :=
  match v.resolve idx with
  | .error e => some (.error e)
  | .ok region =>
    if region.shape.isEmpty then (cell? (s.cells region.buffer) region.offset).map fun x => .ok (.scalar x)
    else some (.ok (.array region))

/-- The elements that a stored value supplies, if they are all in its buffer. -/
def supply? (region : View) (s : Store) (x : Value) : Option (Except Error (Array Scalar)) :=
  match x with
  | .array source =>
    if source.shape.isSuffixOf region.shape then (source.elements? s).map fun values => .ok values.toArray
    else some (region.supply s x)
  | _ => some (region.supply s x)

/-- Store a value at an index, if no cell outside the buffers is read or set. -/
def write? (v : View) (idx x : Value) (s : Store) : Option (EStateM.Result Fault Store Unit) :=
  match v.resolve idx with
  | .error e => some (.error (.error e) s)
  | .ok region => do
    match ← region.supply? s x with
    | .error e => return .error (.error e) s
    | .ok values =>
      if values.isEmpty then return .ok () s
      else
        let cells ← fillFrom? v.elt values 0 region.offsets (s.cells v.buffer)
        return .ok () (s.modify v.buffer fun _ => cells)

/-- All offsets of the view are those of cells. -/
def Inside (v : View) (s : Store) : Prop := ∀ o ∈ v.offsets, 0 ≤ o ∧ o < (s.cells v.buffer).size

variable {v w region : View} {s : Store} {idx x : Value}

theorem elements?_of_inside (h : v.Inside s) : v.elements? s = some (v.elements s) := mapM_cell?_of_inside h v.elt

/-- An index selects cells of the buffer. -/
theorem read?_of_inside (h : ∀ region, v.resolve idx = .ok region → region.Inside s) :
    v.read? s idx = some (v.read s idx) := by
  unfold read?
  cases hr : v.resolve idx with
  | error e => simp only [read, hr]; rfl
  | ok region =>
    rw [read_of_resolve hr, value]
    dsimp only
    split
    · rename_i hempty
      have hone : region.offset ∈ region.offsets := by
        rw [offsets_eq_map, List.isEmpty_iff.mp hempty]
        simp [places, address, dot]
      rw [cell?_of_inside (h region hr _ hone) region.elt]
      rfl
    · rfl

theorem supply?_of_inside (h : ∀ u, x = .array u → u.Inside s) : region.supply? s x = some (region.supply s x) := by
  cases x with
  | array u =>
    rw [supply?, supply, elements?_of_inside (h u rfl)]
    split <;> rfl
  | _ => rfl

/-- What is stored at an index goes to cells of the buffer, and comes from cells of its own. -/
theorem write?_of_inside (h : ∀ region, v.resolve idx = .ok region → region.Inside s)
    (hx : ∀ u, x = .array u → u.Inside s) :
    v.write? idx x s = some (v.write idx x s) := by
  unfold write? write
  cases hr : v.resolve idx with
  | error e => rfl
  | ok region =>
    dsimp only
    rw [supply?_of_inside hx]
    show _ = some ((do let values ← (liftM (region.supply s x) : Exec _); _ : Exec Unit) s)
    cases hs : region.supply s x with
    | error e => rfl
    | ok values =>
      show (if values.isEmpty then _ else _ : Option _) = some ((if values.isEmpty then _ else _ : Exec Unit) s)
      split
      · rfl
      · have hbuf := (resolve_proper hr).2.1
        rw [fillFrom?_of_inside (hbuf ▸ h region hr), ← fill_eq_fillFrom]
        show some
          (EStateM.Result.ok () (s.modify v.buffer fun _ => fill v.elt values region.offsets (s.cells v.buffer))) = _
        rw [Store.modify_const]
        rfl

/-! ## Chains of indices -/

/-- What a chain of indices selects, each of them in what the one before it has selected. -/
def chain (v : View) (idxs : List Value) : Except Error View := idxs.foldlM resolve v

theorem chain_cons (v : View) (idx : Value) (idxs : List Value) :
    v.chain (idx :: idxs) = v.resolve idx >>= fun region => region.chain idxs := List.foldlM_cons

/-- The part of an axis that a component keeps has no negative extent. -/
theorem resolveAxis_nonneg {axis : Nat} {dim stride step : Int} {c : Value} {kept : List (Int × Int)} (hdim : 0 ≤ dim)
    (h : resolveAxis axis dim stride c = .ok (step, kept)) : ∀ p ∈ kept, 0 ≤ p.1 := by
  obtain ⟨x, i, -, -, -, -, rfl⟩ | ⟨start, stop, st, -, hst, -, rfl⟩ := resolveAxis_ok h
  · exact fun p hp => absurd hp List.not_mem_nil
  · intro p hp
    rw [List.mem_singleton.mp hp]
    obtain ⟨-, hlo⟩ := clamp_bounds (i := (start.map (·.toInt)).getD 0) hdim
    obtain ⟨hhi, -⟩ := clamp_bounds (i := (stop.map (·.toInt)).getD dim) hlo
    exact Int.tdiv_nonneg (by omega) (by omega)

theorem resolveAxes_nonneg {axis : Nat} {axes kept : List (Int × Int)} {cs : List Value} {step : Int}
    (haxes : ∀ p ∈ axes, 0 ≤ p.1) (h : resolveAxes axis axes cs = .ok (step, kept)) : ∀ p ∈ kept, 0 ≤ p.1 := by
  induction axes generalizing axis cs kept step with
  | nil =>
    cases h
    exact haxes
  | cons a axes ih =>
    cases cs with
    | nil =>
      cases h
      exact haxes
    | cons c cs =>
      obtain ⟨⟨s1, k1⟩, h1, h⟩ := except_bind_ok h
      obtain ⟨⟨s2, k2⟩, h2, h⟩ := except_bind_ok h
      cases h
      obtain ⟨ha, hrest⟩ := List.forall_mem_cons.mp haxes
      exact List.forall_mem_append.mpr ⟨resolveAxis_nonneg ha h1, ih hrest h2⟩

theorem Proper.resolve (hv : v.Proper) (h : v.resolve idx = .ok region) : region.Proper := by
  obtain ⟨step, kept, hk, rfl⟩ := resolve_ok h
  have haxes : ∀ p ∈ v.shape.zip v.strides, 0 ≤ p.1 := fun p hp => hv.extents p.1 (List.of_mem_zip hp).1
  refine ⟨by simp, fun d hd => ?_⟩
  obtain ⟨p, hp, rfl⟩ := List.mem_map.mp hd
  exact resolveAxes_nonneg haxes hk p hp

/-- A view whose positions are different cells of its buffer, all of them inside. -/
structure Confined (v : View) (s : Store) : Prop extends v.Proper, v.OneToOne s

namespace Confined

theorem resolve (hv : v.Confined s) (h : v.resolve idx = .ok region) : region.Confined s :=
  ⟨hv.toProper.resolve h, hv.toOneToOne.resolve h⟩

theorem chain {idxs : List Value} (hv : v.Confined s) (h : v.chain idxs = .ok w) :
    w.Confined s ∧ w.buffer = v.buffer := by
  induction idxs generalizing v with
  | nil =>
    cases h
    exact ⟨hv, rfl⟩
  | cons idx idxs ih =>
    rw [chain_cons] at h
    obtain ⟨region, hr, h⟩ := except_bind_ok h
    obtain ⟨hw, hbuf⟩ := ih (hv.resolve hr) h
    exact ⟨hw, hbuf.trans (resolve_proper hr).2.1⟩

theorem congr {s' : Store} (hv : v.Confined s) (h : (s'.cells v.buffer).size = (s.cells v.buffer).size) :
    v.Confined s' :=
  ⟨hv.toProper, hv.toOneToOne.congr h⟩

theorem inside_offsets (hv : v.Confined s) : v.Inside s := hv.toOneToOne.offsets_inside hv.strides

end Confined

/-- A new array has as many cells as positions. -/
theorem zeroed_confined (elt : ScalarTy) {shape : List Int} (h : ∀ d ∈ shape, 0 ≤ d) (s0 : Store) :
    ∃ v s, zeroed elt shape s0 = .ok v s ∧ v.shape = shape ∧ v.Confined s := by
  refine ⟨_, _, rfl, rfl, ⟨length_rowMajor shape, h⟩, rowMajorAt_oneToOne ?_⟩
  show ((s0.alloc _).2.cells s0.size).size = _
  rw [Store.cells_alloc_new, List.size_toArray, List.length_replicate]

/-- A chain of indices into a new array fails, or selects a view with a cell of the buffer for each of its
positions and different cells for different ones. That holds for as long as the buffer has its size, whatever
is stored there: so no element that is listed is outside the buffer, nothing outside is read at an index, and
storing anything whose own elements are in their buffer sets no cell outside. -/
theorem chain_inside (elt : ScalarTy) {shape : List Int} (h : ∀ d ∈ shape, 0 ≤ d) (s₀ : Store) :
    ∃ v s₁, zeroed elt shape s₀ = .ok v s₁ ∧ v.shape = shape ∧ ∀ idxs w, v.chain idxs = .ok w →
      ∀ s, (s.cells v.buffer).size = (s₁.cells v.buffer).size →
        w.buffer = v.buffer ∧ w.strides.length = w.shape.length ∧ (∀ d ∈ w.shape, 0 ≤ d) ∧
        (∀ p, Within w.shape p → 0 ≤ w.address p ∧ w.address p < (s.cells w.buffer).size) ∧
        (∀ p q, Within w.shape p → Within w.shape q → w.address p = w.address q → p = q) ∧
        w.elements? s = some (w.elements s) ∧
        (∀ idx, w.read? s idx = some (w.read s idx) ∧ ∀ u, w.read s idx = .ok (.array u) →
          v.chain (idxs ++ [idx]) = .ok u) ∧
        ∀ idx x, (∀ u, x = .array u → u.Inside s) → w.write? idx x s = some (w.write idx x s) := by
  obtain ⟨v, s₁, hv, hshape, hconfined⟩ := zeroed_confined elt h s₀
  refine ⟨v, s₁, hv, hshape, fun idxs w hw s hs => ?_⟩
  obtain ⟨hw', hbuf⟩ := (hconfined.congr hs).chain hw
  have hext := extents_eq hw'.strides
  have hregion : ∀ idx region, w.resolve idx = .ok region → region.Inside s := fun idx region hr =>
    (hw'.resolve hr).inside_offsets
  refine ⟨hbuf, hw'.strides, hw'.toProper.extents, fun p hp => hw'.inside (hext ▸ hp),
    fun p q hp hq => hw'.distinct (hext ▸ hp) (hext ▸ hq), elements?_of_inside hw'.inside_offsets,
    fun idx => ⟨read?_of_inside (hregion idx), fun u hu => ?_⟩, fun idx x hx => write?_of_inside (hregion idx) hx⟩
  obtain ⟨region, hr, hu⟩ := except_bind_ok hu
  have hregion : region = u := by
    split at hu <;> cases hu
    rfl
  rw [chain, List.foldlM_append]
  show v.chain idxs >>= _ = _
  rw [hw, ← hregion]
  show [idx].foldlM resolve w = _
  rw [List.foldlM_cons, hr]
  rfl

/-- Every other row of three, and of the second of these every other cell from the second on, past the end. -/
theorem chain_inside_strided : (∀ d ∈ [(3 : Int), 4], 0 ≤ d) ∧ ∃ v s, zeroed .i64 [3, 4] .empty = .ok v s ∧
    ∃ w, v.chain [.slice none none 2, .tuple [.int 1, .slice (some 1) (some 9) 2]] = .ok w ∧ w.shape = [2] ∧
      w.offsets = [9, 11] ∧ w.elements? s = some (w.elements s) ∧
        ∀ p, Within [2] p → w.address p < (s.cells w.buffer).size := by
  have hshape : ∀ d ∈ [(3 : Int), 4], 0 ≤ d := by decide
  refine ⟨hshape, ?_⟩
  obtain ⟨v, s, hv, -, hall⟩ := chain_inside .i64 hshape .empty
  cases hv
  obtain ⟨-, -, -, hin, -, helements, -, -⟩ :=
    hall [.slice none none 2, .tuple [.int 1, .slice (some 1) (some 9) 2]] _ rfl _ rfl
  exact ⟨_, _, rfl, _, rfl, rfl, offsets_eq_map _, helements, fun p hp => (hin p hp).2⟩

end View

end ArrayIR
