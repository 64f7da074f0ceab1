/-
  ArrayIR.Prim — the scalar primitives and how they are typed.

  Arithmetic and comparison bring all operands to their common type; logic takes
  booleans. Booleans are never added: arithmetic on them happens in `i64`.
-/

import ArrayIR.Ty

namespace ArrayIR

inductive Prim where
  | add
  | sub
  | mul
  | div
  | mod
  | min
  | max
  | neg
  | lt
  | lte
  | gt
  | gte
  | eq
  | neq
  | and
  | or
  | not
  deriving DecidableEq, Repr, Inhabited

namespace Prim

inductive Kind where
  | arith
  | compare
  | logic
  deriving DecidableEq, Repr

def kind : Prim → Kind
  | add | sub | mul | div | mod | min | max | neg => .arith
  | lt | lte | gt | gte | eq | neq => .compare
  | and | or | not => .logic

def arity : Prim → Nat
  | neg | not => 1
  | _ => 2

def name : Prim → String
  | add => "add"
  | sub => "sub"
  | mul => "mul"
  | div => "div"
  | mod => "mod"
  | min => "min"
  | max => "max"
  | neg => "neg"
  | lt => "lt"
  | lte => "lte"
  | gt => "gt"
  | gte => "gte"
  | eq => "eq"
  | neq => "neq"
  | and => "and"
  | or => "or"
  | not => "not"

def isComparison (p : Prim) : Bool := p.kind = .compare

/-- The type every operand is brought to; with no operands it is `i64`. -/
def operandTy (p : Prim) (tys : List ScalarTy) : ScalarTy :=
  let common := match tys with
    | [] => .i64
    | t :: ts => ts.foldl ScalarTy.combine t
  match p.kind with
  | .logic => .bool
  | .compare => common
  | .arith => if common = .bool then .i64 else common

/-- The types the operands must be cast to before the primitive applies. -/
def operandTys (p : Prim) (tys : List ScalarTy) : List ScalarTy :=
  List.replicate tys.length (p.operandTy tys)

/-- The type of the result, given the types of the operands after their casts. -/
def resultTy (p : Prim) (operands : List ScalarTy) : ScalarTy :=
  match p.kind with
  | .compare | .logic => .bool
  | .arith => operands.head?.getD .i64

end Prim

end ArrayIR
