/-
  ArrayIR.Builder.Adverb — adverbs as emitted code.

  Expressions are a domain of the adverbs: applying one emits the loop that computes
  it. Extents are compared as far as they are constants; there is no statement that
  could compare the others at run time.
-/

import ArrayIR.Adverb
import ArrayIR.Builder

namespace ArrayIR

namespace Build

def checkExtents (axis : Nat) (sizes : List Expr) : Build Unit :=
  let known := sizes.filterMap Expr.int?
  if (known.zip known.tail).any fun (a, b) => a != b then fail (.axisSizeMismatch axis known) else pure ()

/-- Emit a counted loop that carries an accumulator, and return its name. -/
def accumulate (start stop init : Expr) (body : Expr → Expr → Build Expr) : Build Expr := do
  let x ← freshName "acc"
  let acc ← declare x init.ty
  let after ← freshVar init.ty "acc_after"
  forLoop start stop (.int64 1) (NameMap.empty.insert x (init, after)) fun i => do
    let next ← coerce (← body acc i) acc.ty "accumulator"
    assign after next
  return acc

/-- The extents of an array along all its axes. -/
def extents (shape : Expr) (rank : Nat) : Build (List Expr) := (List.range rank).mapM (proj shape)

/-- Room for one value like `first` at each point of the outer extents. -/
def allocLike (first : Expr) (outer : List Expr) : Build Expr :=
  match first.ty with
  | .scalar elt => allocShaped elt outer "result"
  | .array elt rank => do
    let inner ← extents (← shape first none) rank
    allocShaped elt (outer ++ inner) "result"
  | other => fail (.notAnArray other)

/-- Expressions, as the adverbs see them. -/
def domain : Domain Build Expr where
  rank e := e.ty.rank
  int := .int64
  isNothing e := e.ty = .nothing
  wholeAxis := .wholeAxis
  tuple := .tupleOf
  index x idx := index x idx "elt"
  extent x axis := shape x (some axis)
  checkExtents := checkExtents
  invoke f args := call f args "call_result"
  loop start stop body := forLoop start stop (.int64 1) .empty body
  accumulate := accumulate
  alloc := allocLike
  store := setIndex

/-- A value at a position along an axis. -/
def sliceAlong (x : Expr) (axis : Nat) (idx : Expr) : Build Expr := Adverb.sliceAlong domain x axis idx

end Build

end ArrayIR
