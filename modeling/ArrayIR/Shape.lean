/-
  ArrayIR.Shape — symbolic shapes.

  The shape of a value that a callee would compute, said in expressions of its
  caller: the extents of an array, and a scalar itself when the caller can know it
  without running the callee.
-/

import ArrayIR.Expr

namespace ArrayIR

/-- A bound of a symbolic slice. -/
inductive Bound where
  | absent
  | known (e : Expr)
  | unknown

inductive Shape where
  | scalar (elt : ScalarTy) (known : Option Expr)
  | array (elt : ScalarTy) (extents : List Expr)
  | tuple (items : List Shape)
  | slice (start stop step : Bound)
  | ptr (elt : ScalarTy)
  | func (fn : FnName) (captured : List Shape)
  | nothing

namespace Shape

instance : Inhabited Shape := ⟨nothing⟩

def rank : Shape → Nat
  | array _ extents => extents.length
  | _ => 0

def isNothing : Shape → Bool
  | nothing => true
  | _ => false

end Shape

end ArrayIR
