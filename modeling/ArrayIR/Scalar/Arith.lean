/-
  ArrayIR.Scalar.Arith — the primitives on scalars.

  If an operand is a float, or the result is to be one, arithmetic is binary64;
  otherwise it is 64-bit and wraps. The result is then converted to the type of the
  operation, which is where `i32` wraps and `f32` rounds.
-/

import ArrayIR.Error

namespace ArrayIR

/-- The integer a scalar stands for; a float stands for none. -/
def Scalar.asInt : Scalar → Except Error Int64
  | bool b => .ok (if b then 1 else 0)
  | int i => .ok i
  | float x => .error (.runtime (.notInteger x))

/-- How two scalars compare; `none` when one is a NaN. -/
def compareScalars (x y : Scalar) : Except Error (Option Ordering) :=
  if x.isFloat || y.isFloat then
    let a := x.toFloat
    let b := y.toFloat
    .ok (if a < b then some .lt else if a == b then some .eq else if b < a then some .gt else none)
  else do
    let a ← x.asInt
    let b ← y.asInt
    return some (if a < b then .lt else if a = b then .eq else .gt)

namespace Prim

/-- Whether a comparison holds between operands that compare so. Against a NaN only `neq` does. -/
def holds (p : Prim) (o : Option Ordering) : Bool :=
  match p with
  | lt => o = some .lt
  | lte => o = some .lt || o = some .eq
  | gt => o = some .gt
  | gte => o = some .gt || o = some .eq
  | eq => o = some .eq
  | neq => o ≠ some .eq
  | _ => false

/-- A primitive on two floats. -/
def onFloats (p : Prim) (x y : Float) : Except Error Float :=
  match p with
  | add => .ok (x + y)
  | sub => .ok (x - y)
  | mul => .ok (x * y)
  | div => .ok (x / y)
  | mod => .ok (floatRem x y)
  | min => .ok (floatMin x y)
  | max => .ok (floatMax x y)
  | _ => .error (.runtime (.notBinary p))

/-- A primitive on two integers. Results wrap; division truncates toward zero. -/
def onInts (p : Prim) (x y : Int64) : Except Error Int64 :=
  match p with
  | add => .ok (x + y)
  | sub => .ok (x - y)
  | mul => .ok (x * y)
  | div => if y = 0 then .error (.runtime .divisionByZero) else .ok (x / y)
  | mod => if y = 0 then .error (.runtime .divisionByZero) else .ok (x % y)
  | min => .ok (if x ≤ y then x else y)
  | max => .ok (if x ≤ y then y else x)
  | _ => .error (.runtime (.notBinary p))

/-- A primitive on scalars, before the result is brought to its type. -/
def apply (p : Prim) (args : List Scalar) (result : ScalarTy) : Except Error Scalar :=
  match p, args with
  | not, [x] => .ok (.bool (!x.toBool))
  | and, [x, y] => .ok (.bool (x.toBool && y.toBool))
  | or, [x, y] => .ok (.bool (x.toBool || y.toBool))
  | neg, [.float x] => .ok (.float (-x))
  | neg, [x] => do return .int (-(← x.asInt))
  | p, [x, y] => do
    if p.isComparison then return .bool (p.holds (← compareScalars x y))
    else if x.isFloat || y.isFloat || result.isFloat then return .float (← p.onFloats x.toFloat y.toFloat)
    else return .int (← p.onInts (← x.asInt) (← y.asInt))
  | p, args => .error (.runtime (.operandCount p args.length))

/-- Evaluate a primitive whose result has type `result`. -/
def eval (p : Prim) (args : List Scalar) (result : ScalarTy) : Except Error Scalar := do
  return (← p.apply args result).convert result

end Prim

end ArrayIR
