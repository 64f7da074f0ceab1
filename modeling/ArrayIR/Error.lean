/-
  ArrayIR.Error — why a computation fails.

  Each constructor is one cause and carries what its message names. A computation
  stops with a `Fault`: a reported error, an assertion that does not hold, or the end
  of the fuel that bounds nested calls and loop iterations. These are kept apart, so
  that an answer obtained with some fuel is never mistaken for a failure of the program.
-/

import ArrayIR.Value
import ArrayIR.Shape

namespace ArrayIR

/-- Failures of a running program. -/
inductive RunError where
  | notInteger (x : Float)
  | tooManyIndices (count rank : Nat)
  | indexOutOfBounds (i : Int) (axis : Nat) (extent : Int)
  | sliceStep (step : Int64)
  | indexComponent (v : Value)
  | storeShape (source region : List Int)
  | notStorable (v : Value)
  | notScalar (v : Value)
  | notTuple (v : Value)
  | notBinary (op : Prim)
  | operandCount (op : Prim) (count : Nat)
  | divisionByZero
  | noReturn (fn : FnName)
  | notCondition (v : Value)
  | storeTarget (v : Value)
  | assignTarget
  | zeroStep
  | noItem (i : Nat) (v : Value)
  | allocation (count : Int64)
  | notBuffer (v : Value)
  | tupleIndex (i : Int64)
  | notIndexable (v : Value)
  | adverbResult (v : Value)

/-- Failures of shape inference. -/
inductive ShapeError where
  | notArray (s : Shape)
  | unknownExtent (s : Shape)
  | noReturn (fn : FnName)
  | viewShape (s : Shape)
  | sliceStep
  | unknownBound
  | tupleIndex (e : Expr)
  | tooManyIndices (count rank : Nat)
  | indexComponent (s : Shape)
  | notIndexable (s : Shape)
  | callDepth (fn : FnName)
  | adverbResult (s : Shape)
  | noTileSizes

/-- What is wrong with a callable. -/
inductive CallableError where
  | notCallableTy (t : Ty)
  | captureCount (values tys : Nat)
  | noCaptureTy (i : Nat) (t : Ty)
  | notCallableShape (s : Shape)
  | notCallable (v : Value)
  | noCapture (i : Nat) (v : Value)

/-- Why a call cannot be inlined. -/
inductive InlineError where
  | noFinalReturn
  | earlyReturn

/-- A tuple index that is not an integer constant: in code, as a known value, or as a shape. -/
inductive TupleIndex where
  | code (e : Expr)
  | known (e : Expr)
  | shape (s : Shape)

inductive Error where
  | axisOutOfRange (axis rank : Nat)
  | axisSizeMismatch (axis : Nat) (sizes : List Int64)
  | initRank (init acc : Nat)
  | typeMismatch (context : String) (expected actual : Ty)
  | mergeTypeMismatch (name : VarName) (declared left right : Ty)
  | notAnArray (t : Ty)
  | notAScalar (t : Ty)
  | nonConstantTupleIndex (idx : TupleIndex)
  | tupleIndexOutOfRange (i : Nat) (t : Ty)
  | invalidIndex (container index : Ty)
  | unknownFunction (fn : FnName)
  | duplicateFunction (fn : FnName)
  | unknownVariable (x : VarName)
  | arityMismatch (fn : FnName) (expected actual : Nat)
  | adverbArity (adverb : String) (expected actual : Nat)
  | malformedClosure (cause : CallableError)
  | downwardStep (step : Int64)
  | invalidUnrollFactor (factor : Nat)
  | recursiveTiling (fn : FnName)
  | dynamicTilesInCallable (fn : FnName)
  | unsupportedInline (fn : FnName) (reason : InlineError)
  | shapeInference (cause : ShapeError)
  | redefinition (x : VarName)
  | declarationMismatch (x : VarName) (declared actual : Ty)
  | runtime (cause : RunError)

/-- How a computation stops without a result. -/
inductive Fault where
  | error (e : Error)
  | broken
  | exhausted

/-- Stop with an error. -/
def fail {m : Type → Type} {α : Type} [MonadExceptOf Fault m] (e : Error) : m α := throw (.error e)

/-- A failure of a pure check stops the computation that runs it and keeps the state it has reached. -/
instance {σ : Type} : MonadLift (Except Error) (EStateM Fault σ) where
  monadLift
    | .ok a => pure a
    | .error e => fail e

end ArrayIR
