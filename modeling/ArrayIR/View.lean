/-
  ArrayIR.View — reading and writing through strided views.

  A view selects cells of its buffer by extents, strides and an offset. `offsets`
  lists them in row-major order: the coordinates are stepped like an odometer, the
  last axis fastest, until the first one is through. An index resolves to
  another view of the same buffer, axis by axis: an integer drops its axis, a slice
  keeps every `step`-th position between its clamped bounds, and axes without a
  component stay whole.

  Positions are exact integers. Reading or storing outside a buffer, which no view
  made by `zeroed` and `resolve` does, is given a harmless meaning.
-/

import ArrayIR.Scalar.Arith

namespace ArrayIR

/-- Computations over the store; one that fails keeps what it has stored so far. -/
abbrev Exec := EStateM Fault Store

/-! ## Positions in turn -/

/-- How far the strides take a position. -/
def dot : List Int → List Int → Int
  | i :: is, s :: ss => i * s + dot is ss
  | _, _ => 0

/-- The position after `idx`, if the axes from `n` on have been stepped to no avail: a coordinate that would
reach its extent goes back to zero, and the axis before it is stepped. After the last position there is none. -/
def advance (shape : List Int) : Nat → List Int → Option (List Int)
  | 0, _ => none
  | n + 1, idx =>
    let i := idx.getD n 0 + 1
    if i < shape.getD n 0 then some (idx.set n i) else advance shape n (idx.set n 0)

theorem length_advance {shape idx next : List Int} {n : Nat} (h : advance shape n idx = some next) :
    next.length = idx.length := by
  induction n generalizing idx with
  | zero => cases h
  | succ n ih =>
    rw [advance] at h
    split at h
    · cases h
      exact List.length_set
    · rw [ih h, List.length_set]

/-- The first `n` coordinates set to zero, as stepping leaves them. -/
def cleared : Nat → List Int → List Int
  | 0, is => is
  | n + 1, is => cleared n (is.set n 0)

theorem cleared_length (is : List Int) : cleared is.length is = List.replicate is.length 0 := by
  have hcons : ∀ (i : Int) (is : List Int) (n : Nat), cleared (n + 1) (i :: is) = 0 :: cleared n is := by
    intro i is n
    induction n generalizing is with
    | zero => rfl
    | succ n ih => exact ih (is.set n 0)
  induction is with
  | nil => rfl
  | cons i is ih => rw [List.length_cons, hcons, ih, List.replicate_succ]

/-- The first axis is stepped when the others are at their last position, and these start again. -/
theorem advance_cons (d i : Int) (ds is : List Int) (n : Nat) :
    advance (d :: ds) (n + 1) (i :: is) = match advance ds n is with
      | some js => some (i :: js)
      | none => if i + 1 < d then some ((i + 1) :: cleared n is) else none := by
  induction n generalizing is with
  | zero => rfl
  | succ n ih =>
    rw [advance, advance.eq_2 ds]
    simp only [List.getD_cons_succ, List.set_cons_succ]
    split
    · rfl
    · exact ih (is.set n 0)

/-- How often a position can be stepped. -/
def remaining : List Int → List Int → Nat
  | d :: ds, i :: is => (d - 1 - i).toNat * (remaining ds (List.replicate ds.length 0) + 1) + remaining ds is
  | _, _ => 0

theorem remaining_advance : ∀ {shape idx next : List Int}, idx.length = shape.length →
    advance shape shape.length idx = some next → remaining shape next < remaining shape idx
  | [], _, _, _, h => by cases h
  | d :: ds, i :: is, next, hlen, h => by
    have hlen : is.length = ds.length := by simpa using hlen
    rw [List.length_cons, advance_cons] at h
    split at h
    · cases h
      have := remaining_advance hlen ‹_›
      simp only [remaining]
      omega
    · split at h
      · cases h
        have hstep : (d - 1 - i).toNat = (d - 1 - (i + 1)).toNat + 1 := by omega
        rw [← hlen, cleared_length, hlen, remaining, remaining, hstep, Nat.succ_mul]
        omega
      · cases h

/-- What `f` gives for a position and for each one after it. -/
def odometer {α : Type} (f : List Int → α) (shape idx : List Int) (h : idx.length = shape.length) : List α :=
  match hnext : advance shape shape.length idx with
  | none => [f idx]
  | some next => f idx :: odometer f shape next ((length_advance hnext).trans h)
termination_by remaining shape idx
decreasing_by exact remaining_advance h hnext

/-! ## Shapes -/

/-- Strides of a row-major array: the last axis moves by one. -/
def rowMajor : List Int → List Int
  | [] => []
  | [_] => [1]
  | _ :: d :: ds => (rowMajor (d :: ds)).head?.getD 1 * d :: rowMajor (d :: ds)

/-- The number of positions of a shape. -/
def extent (shape : List Int) : Int := shape.foldl (· * ·) 1

/-- `i` brought between `lo` and `hi`. -/
def clamp (lo hi i : Int) : Int := if i < lo then lo else if hi < i then hi else i

namespace View

/-- The cell at a position. -/
def address (v : View) (p : List Int) : Int := v.offset + dot p v.strides

/-- Offsets of the elements, in row-major order. With an empty axis there are none, however long the
other axes are. -/
def offsets (v : View) : List Int :=
  if v.shape.any (· ≤ 0) then []
  else odometer v.address v.shape (List.replicate v.shape.length 0) List.length_replicate

def length (v : View) : Int := extent v.shape

/-- The elements, in row-major order. -/
def elements (v : View) (s : Store) : List Scalar :=
  let cells := s.cells v.buffer
  v.offsets.map (cellAt v.elt cells)

/-- What one axis of extent `dim` and the given stride becomes under an index component: a step of the
offset, and the extent and stride that stay. -/
def resolveAxis (axis : Nat) (dim stride : Int) : Value → Except Error (Int × List (Int × Int))
  | .scalar x => do
    let i := (← x.asInt).toInt
    if i < 0 ∨ dim ≤ i then .error (.runtime (.indexOutOfBounds i axis dim))
    else return (i * stride, [])
  | .slice start stop step =>
    if step ≤ 0 then .error (.runtime (.sliceStep step))
    else
      let lo := clamp 0 dim ((start.map (·.toInt)).getD 0)
      let hi := clamp lo dim ((stop.map (·.toInt)).getD dim)
      .ok (lo * stride, [((hi - lo + step.toInt - 1).tdiv step.toInt, stride * step.toInt)])
  | other => .error (.runtime (.indexComponent other))

/-- Resolve the axes from `axis` on: the step of the offset, and the axes that stay. -/
def resolveAxes : Nat → List (Int × Int) → List Value → Except Error (Int × List (Int × Int))
  | _, [], _ => .ok (0, [])
  | _, axes, [] => .ok (0, axes)
  | axis, (dim, stride) :: axes, c :: cs => do
    let (step, kept) ← resolveAxis axis dim stride c
    let (steps, rest) ← resolveAxes (axis + 1) axes cs
    return (step + steps, kept ++ rest)

/-- The components of an index: those of a tuple, or the one value. -/
def components : Value → List Value
  | .tuple items => items
  | single => [single]

/-- The view that an index selects; it has no axes when it selects one element. -/
def resolve (v : View) (idx : Value) : Except Error View := do
  let cs := components idx
  if v.shape.length < cs.length then .error (.runtime (.tooManyIndices cs.length v.shape.length))
  else
    let (step, axes) ← resolveAxes 0 (v.shape.zip v.strides) cs
    return { v with shape := axes.map (·.1), strides := axes.map (·.2), offset := v.offset + step }

/-- The value at an index: a scalar, or a view of what the index selects. -/
def read (v : View) (s : Store) (idx : Value) : Except Error Value := do
  let region ← v.resolve idx
  if region.shape.isEmpty then return .scalar (cellAt region.elt (s.cells region.buffer) region.offset)
  else return .array region

end View

/-- Store `values`, over and over again, at the offsets in turn. -/
def fill (elt : ScalarTy) (values : Array Scalar) (offsets : List Int) (cells : Array Scalar) : Array Scalar :=
  offsets.zipIdx.foldl
    (fun cells (o, k) => setCell cells o (((values[k % values.size]?).getD (.int 0)).convert elt)) cells

namespace View

/-- The elements that a stored value supplies to a region. An array must match the region's last
extents, and is repeated over the leading ones; a scalar fills it. -/
def supply (region : View) (s : Store) : Value → Except Error (Array Scalar)
  | .scalar x => .ok #[x]
  | .array source =>
    if source.shape.isSuffixOf region.shape then .ok (source.elements s).toArray
    else .error (.runtime (.storeShape source.shape region.shape))
  | other => .error (.runtime (.notStorable other))

/-- Store a value at an index. What it supplies is read before anything is written. -/
def write (v : View) (idx value : Value) : Exec Unit := do
  let region ← v.resolve idx
  let values ← region.supply (← get) value
  if values.isEmpty then return ()
  else modify (·.modify v.buffer (fill v.elt values region.offsets))

/-- A fresh row-major array of zeros. -/
def zeroed (elt : ScalarTy) (shape : List Int) : Exec View := do
  let cells := (List.replicate (extent shape).toNat (Scalar.zero elt)).toArray
  let b ← modifyGet (·.alloc cells)
  return { elt := elt, buffer := b, shape := shape, strides := rowMajor shape, offset := 0 }

end View

namespace Value

/-- A fresh row-major array with the given elements, brought to the element type. -/
def ofElements (elt : ScalarTy) (shape : List Int) (elements : List Scalar) : Exec Value := do
  let v ← View.zeroed elt shape
  modify (·.modify v.buffer fun cells =>
    elements.zipIdx.foldl (fun cells (x, k) => setCell cells k (x.convert elt)) cells)
  return .array v

/-- The elements of an array in row-major order; a scalar is its own element. -/
def elements? (s : Store) : Value → Option (List Scalar)
  | scalar x => some [x]
  | array v => some (v.elements s)
  | _ => none

end Value

def sameScalars : List Scalar → List Scalar → Bool
  | [], [] => true
  | x :: xs, y :: ys => x.same y && sameScalars xs ys
  | _, _ => false

mutual

/-- Equality of values: scalars and slices by what they are, arrays by extents and elements, buffers by
identity. -/
def Value.same (s : Store) : Value → Value → Bool
  | .scalar x, .scalar y => x.same y
  | .nothing, .nothing => true
  | .tuple xs, .tuple ys => Value.sameList s xs ys
  | .slice a b c, .slice a' b' c' => a = a' && b = b' && c = c'
  | .buffer _ b, .buffer _ b' => b = b'
  | .array v, .array w => v.shape = w.shape && sameScalars (v.elements s) (w.elements s)
  | .closure f xs, .closure g ys => f = g && Value.sameList s xs ys
  | _, _ => false

def Value.sameList (s : Store) : List Value → List Value → Bool
  | [], [] => true
  | x :: xs, y :: ys => x.same s y && Value.sameList s xs ys
  | _, _ => false

end

end ArrayIR
