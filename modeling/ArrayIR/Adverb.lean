/-
  ArrayIR.Adverb — what the adverbs mean, over any domain of values.

  An adverb slices its arguments along an axis, applies a callable to the slices and
  assembles the results. That is written here once, against the operations a domain
  offers: running values, code to be emitted, and shapes all have them. Arguments of
  too low a rank to have the axis are passed whole, to every application.

  The first element is always computed ahead of the loop: it settles the kind and
  the extents of the result, or seeds the accumulator.
-/

import ArrayIR.Error

namespace ArrayIR

/-- The operations on values of type `V` that the adverbs need. -/
structure Domain (m : Type → Type) (V : Type) where
  rank : V → Nat
  int : Int64 → V
  isNothing : V → Bool
  wholeAxis : V
  tuple : List V → V
  index : V → V → m V
  /-- The extent of a value along an axis. -/
  extent : V → Nat → m V
  /-- Check that the extents along an axis agree, as far as they are known. -/
  checkExtents : Nat → List V → m Unit
  invoke : V → List V → m V
  /-- Run the body at every integer from a start up to a stop. -/
  loop : V → V → (V → m Unit) → m Unit
  /-- Run the body at every integer from a start up to a stop, threading an accumulator. -/
  accumulate : V → V → V → (V → V → m V) → m V
  /-- Room for one value like the first argument at each point of the given extents. -/
  alloc : V → List V → m V
  store : V → V → V → m Unit

namespace Adverb

variable {m : Type → Type} {V : Type} [Monad m] [MonadExceptOf Fault m]

/-- The index of position `idx` along an axis, everything along the others. -/
def sliceIndex (d : Domain m V) (rank axis : Nat) (idx : V) : V :=
  if rank = 1 then idx
  else d.tuple ((List.range rank).map fun k => if k = axis then idx else d.wholeAxis)

/-- A value at position `idx` along an axis; one without the axis is itself. -/
def sliceAlong (d : Domain m V) (x : V) (axis : Nat) (idx : V) : m V :=
  if d.rank x ≤ axis then pure x else d.index x (sliceIndex d (d.rank x) axis idx)

/-- The extents along an axis of the values that have it. -/
def extents (d : Domain m V) (axis : Nat) : List V → m (List V)
  | [] => pure []
  | x :: xs =>
    if axis < d.rank x then do
      let n ← d.extent x axis
      return n :: (← extents d axis xs)
    else extents d axis xs

/-- The extent that the values share along an axis. -/
def commonExtent (d : Domain m V) (xs : List V) (axis : Nat) : m V := do
  match ← extents d axis xs with
  | [] => fail (.axisOutOfRange axis (xs.foldl (fun r x => max r (d.rank x)) 0))
  | n :: ns =>
    d.checkExtents axis (n :: ns)
    return n

/-- The callable on the slices at one position. -/
def applyAt (d : Domain m V) (f : V) (xs : List V) (axis : Nat) (idx : V) : m V := do
  d.invoke f (← xs.mapM fun x => sliceAlong d x axis idx)

/-- The accumulator after the first element: that element, combined with the initial value if there is
one. -/
def seed (d : Domain m V) (f combine : V) (init : Option V) (xs : List V) (axis : Nat) : m V := do
  let first ← applyAt d f xs axis (d.int 0)
  match init with
  | some i => if d.isNothing i then return first else d.invoke combine [i, first]
  | none => return first

/-- Store `x` at position `idx` of the first axis of a result. -/
def put (d : Domain m V) (result idx x : V) : m Unit :=
  d.store result (sliceIndex d (d.rank result) 0 idx) x

/-- The results at every position, stacked along a new first axis. -/
def map (d : Domain m V) (f : V) (xs : List V) (axis : Nat) : m V := do
  let n ← commonExtent d xs axis
  let first ← applyAt d f xs axis (d.int 0)
  let result ← d.alloc first [n]
  put d result (d.int 0) first
  d.loop (d.int 1) n fun i => do put d result i (← applyAt d f xs axis i)
  return result

/-- The left fold of `combine` over the results at every position. -/
def reduce (d : Domain m V) (f combine : V) (init : Option V) (xs : List V) (axis : Nat) : m V := do
  let n ← commonExtent d xs axis
  let acc ← seed d f combine init xs axis
  d.accumulate (d.int 1) n acc fun acc i => do
    d.invoke combine [acc, ← applyAt d f xs axis i]

/-- The left fold, with `emit` of the accumulator after every position stacked along a new first axis. -/
def scan (d : Domain m V) (f combine emit : V) (init : Option V) (xs : List V) (axis : Nat) : m V := do
  let n ← commonExtent d xs axis
  let acc ← seed d f combine init xs axis
  let first ← d.invoke emit [acc]
  let result ← d.alloc first [n]
  put d result (d.int 0) first
  let _ ← d.accumulate (d.int 1) n acc fun acc i => do
    let next ← d.invoke combine [acc, ← applyAt d f xs axis i]
    put d result i (← d.invoke emit [next])
    return next
  return result

/-- The callable on every pair of positions of two values, one along each of the first two axes. -/
def allPairs (d : Domain m V) (f x y : V) (axis : Nat) : m V := do
  let nx ← d.extent x axis
  let ny ← d.extent y axis
  let x₀ ← sliceAlong d x axis (d.int 0)
  let y₀ ← sliceAlong d y axis (d.int 0)
  let first ← d.invoke f [x₀, y₀]
  let result ← d.alloc first [nx, ny]
  d.loop (d.int 0) nx fun i => do
    let xi ← sliceAlong d x axis i
    d.loop (d.int 0) ny fun j => do
      let yj ← sliceAlong d y axis j
      d.store result (d.tuple [i, j]) (← d.invoke f [xi, yj])
  return result

end Adverb

end ArrayIR
