/-
  ArrayIR.Error.Message — the wording of errors.

  A message shows values with the contents their buffers have when the error is
  reported, so it is read off the error and the store together.
-/

import ArrayIR.Dump
import ArrayIR.Expr.Text

namespace ArrayIR

def RunError.message (s : Store) : RunError → String
  | notInteger x => "expected an integer, got the float " ++ Decimal.Layout.plain.write x
  | tooManyIndices count rank => s!"{count} indices into an array of rank {rank}"
  | indexOutOfBounds i axis extent => s!"index {i} out of bounds for axis {axis} of extent {extent}"
  | sliceStep step => s!"slice step {step.toInt} is not positive"
  | indexComponent v => "invalid index component " ++ (Dump.value s v).text
  | storeShape source region =>
    "cannot store an array of shape " ++ (Dump.ints source).text ++ " into a region of shape "
      ++ (Dump.ints region).text
  | notStorable v => "cannot store " ++ (Dump.value s v).text ++ " into an array"
  | notScalar v => "expected a scalar, got " ++ (Dump.value s v).text
  | notTuple v => "expected a tuple, got " ++ (Dump.value s v).text
  | notBinary op => "'" ++ op.name ++ "' is not binary"
  | operandCount op count => "'" ++ op.name ++ s!"' applied to {count} operands"
  | divisionByZero => "integer division by zero"
  | noReturn fn => "'" ++ fn ++ "' finished without returning"
  | notCondition v => "condition evaluated to " ++ (Dump.value s v).text
  | storeTarget v => "store into non-array " ++ (Dump.value s v).text
  | assignTarget => "assignment target is neither a variable nor an index"
  | zeroStep => "for loop with a zero step"
  | noItem i v => s!"cannot project element {i} of " ++ (Dump.value s v).text
  | allocation count => s!"allocation of {count.toInt} elements"
  | notBuffer v => "array view over non-buffer " ++ (Dump.value s v).text
  | tupleIndex i => s!"tuple index {i.toInt} out of range"
  | notIndexable v => "cannot index " ++ (Dump.value s v).text
  | adverbResult v => "adverb results must be scalars or arrays, got " ++ (Dump.value s v).text

def ShapeError.message : ShapeError → String
  | notArray s => "expected an array or scalar result, got " ++ (Dump.shape s).text
  | unknownExtent s => "array extent " ++ (Dump.shape s).text ++ " depends on a value unknown at the call site"
  | noReturn fn => "'" ++ fn ++ "' has no reachable return"
  | viewShape s => "array view with non-tuple shape " ++ (Dump.shape s).text
  | sliceStep => "only unit-stride slices have an extent known at the call site"
  | unknownBound => "slice bound depends on a value unknown at the call site"
  | tupleIndex e => "tuple index " ++ (Dump.expr e).text ++ " out of range"
  | tooManyIndices count rank => s!"{count} indices into an array of rank {rank}"
  | indexComponent s => "invalid index component " ++ (Dump.shape s).text
  | notIndexable s => "cannot index " ++ (Dump.shape s).text
  | callDepth fn =>
    "call depth limit reached inside '" ++ fn ++ "'; recursive functions are not supported"
  | adverbResult s => "adverb results must be scalars or arrays, got " ++ (Dump.shape s).text
  | noTileSizes => "dynamic tile size requested without a tile-size tuple"

def CallableError.message (s : Store) : CallableError → String
  | notCallableTy t => "a value of type " ++ t.text ++ " is not callable"
  | captureCount values tys => s!"closure over {values} values has {tys} captured types"
  | noCaptureTy i t => s!"no captured value {i} in a value of type " ++ t.text
  | notCallableShape sh => (Dump.shape sh).text ++ " is not callable"
  | notCallable v => (Dump.value s v).text ++ " is not callable"
  | noCapture i v => s!"no captured value {i} in " ++ (Dump.value s v).text

def InlineError.message : InlineError → String
  | noFinalReturn => "body does not end in a return"
  | earlyReturn => "early return"

def TupleIndex.text : TupleIndex → String
  | code e => e.text
  | known e => (Dump.expr e).text
  | shape s => (Dump.shape s).text

/-- The text reported for an error, its values shown as they are in the store. -/
def Error.message (s : Store) : Error → String
  | axisOutOfRange axis rank => s!"axis {axis} is out of range for a value of rank {rank}"
  | axisSizeMismatch axis sizes =>
    s!"arguments disagree on their size along axis {axis}: " ++ (Dump.ints (sizes.map (·.toInt))).text
  | initRank init acc =>
    s!"rank mismatch in tiled reduce initializer: initializer of rank {init} for an accumulator of rank {acc}"
  | typeMismatch context expected actual =>
    "type mismatch in " ++ context ++ ": expected " ++ expected.text ++ ", got " ++ actual.text
  | mergeTypeMismatch name declared left right =>
    "merge entry for '" ++ name ++ "' (declared " ++ declared.text ++ ") joins values of type " ++ left.text
      ++ " and " ++ right.text
  | notAnArray t => "expected an array, got a value of type " ++ t.text
  | notAScalar t => "expected a scalar, got a value of type " ++ t.text
  | nonConstantTupleIndex idx => "tuple index must be an integer constant, got '" ++ idx.text ++ "'"
  | tupleIndexOutOfRange i t => s!"tuple index {i} is out of range for " ++ t.text
  | invalidIndex container index =>
    "cannot index a value of type " ++ container.text ++ " with an index of type " ++ index.text
  | unknownFunction fn => "unknown function '" ++ fn ++ "'"
  | duplicateFunction fn => "function '" ++ fn ++ "' is already registered"
  | unknownVariable x => "unknown variable '" ++ x ++ "'"
  | arityMismatch fn expected actual =>
    "function '" ++ fn ++ s!"' expects {expected} arguments, got {actual}"
  | adverbArity adverb expected actual => adverb ++ s!" expects {expected} array arguments, got {actual}"
  | malformedClosure cause => "malformed closure: " ++ cause.message s
  | downwardStep step => s!"downward-stepping loops cannot be unrolled (step = {step.toInt})"
  | invalidUnrollFactor factor => s!"unroll factor must be positive, got {factor}"
  | recursiveTiling fn => "'" ++ fn ++ "' reaches a tiled adverb through a recursive call"
  | dynamicTilesInCallable fn => "'" ++ fn ++ "' needs run-time tile sizes but is used as a function value"
  | unsupportedInline fn reason => "cannot inline '" ++ fn ++ "': " ++ reason.message
  | shapeInference cause => "shape inference failed: " ++ cause.message
  | redefinition x => "'" ++ x ++ "' is defined more than once"
  | declarationMismatch x declared actual =>
    "'" ++ x ++ "' is declared as " ++ declared.text ++ " but defined with type " ++ actual.text
  | runtime cause => "runtime error: " ++ cause.message s

end ArrayIR
