/-
  ArrayIR.Scalar — scalar values and their conversions.

  A scalar is a boolean, a 64-bit integer or a binary64 float: an `i32` is held in
  an integer and an `f32` in a float, and conversion to either narrows the value to
  what the type can hold.
-/

import ArrayIR.Prim
import ArrayIR.Decimal.Shortest

namespace ArrayIR

inductive Scalar where
  | bool (b : Bool)
  | int (i : Int64)
  | float (x : Float)
  deriving Inhabited

namespace Scalar

/-- The element type of a scalar that stands alone. -/
def ty : Scalar → ScalarTy
  | bool _ => .bool
  | int _ => .i64
  | float _ => .f64

def isFloat : Scalar → Bool
  | float _ => true
  | _ => false

def toFloat : Scalar → Float
  | bool b => (if b then (1 : Int64) else 0).toFloat
  | int i => i.toFloat
  | float x => x

/-- Whether a scalar counts as true: a number does when it is not zero. -/
def toBool : Scalar → Bool
  | bool b => b
  | int i => i != 0
  | float x => x != 0

def toInt32 : Scalar → Int32
  | bool b => if b then 1 else 0
  | int i => i.toInt32
  | float x => x.toInt32

def toInt64 : Scalar → Int64
  | bool b => if b then 1 else 0
  | int i => i
  | float x => x.toInt64

/-- The scalar as a value of element type `t`. Integers wrap; floats lose their fraction and stop at the
ends of the range; `f32` rounds to single precision. -/
def convert (s : Scalar) : ScalarTy → Scalar
  | .bool => bool s.toBool
  | .i32 => int s.toInt32.toInt64
  | .i64 => int s.toInt64
  | .f32 => float s.toFloat.toFloat32.toFloat
  | .f64 => float s.toFloat

/-- What a fresh buffer holds. -/
def zero (t : ScalarTy) : Scalar := (int 0).convert t

/-- Equality of scalars: of one kind, and equal as values of it (so a NaN differs from itself). -/
def same : Scalar → Scalar → Bool
  | bool a, bool b => a == b
  | int a, int b => a == b
  | float a, float b => a == b
  | _, _ => false

end Scalar

/-- The smaller of two floats; a NaN gives way to a number. -/
def floatMin (x y : Float) : Float :=
  if x.isNaN then y else if y.isNaN then x else if x < y then x else y

/-- The larger of two floats; a NaN gives way to a number. -/
def floatMax (x y : Float) : Float :=
  if x.isNaN then y else if y.isNaN then x else if x > y then x else y

/-- The remainder of the division truncated toward zero, exact and with the sign of `x`. -/
def floatRem (x y : Float) : Float :=
  if x.isNaN || y.isNaN || x.isInf || y == 0 then 0 / 0
  else if y.isInf then x
  else
    let a := Decimal.Binary.ofBits x.toBits
    let b := Decimal.Binary.ofBits y.toBits
    let unit := min a.exponent b.exponent
    let dividend := a.mantissa * Nat.pow 2 (a.exponent - unit).toNat
    let divisor := b.mantissa * Nat.pow 2 (b.exponent - unit).toNat
    let rest := dividend % divisor
    let magnitude := (Float.ofNat rest).scaleB unit
    if x.toBits ≥ 0x8000000000000000 then -magnitude else magnitude

end ArrayIR
