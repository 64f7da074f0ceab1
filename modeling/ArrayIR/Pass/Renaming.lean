/-
  ArrayIR.Pass.Renaming — copying code under fresh names.

  Every name the copied code binds is replaced by a fresh one of the same type, and
  the later references follow it. References to a name that was given an expression
  beforehand become that expression.
-/

import ArrayIR.Pass

namespace ArrayIR

/-- The state of a copy: the types of the names in the code being copied, and what each name stands for
so far. -/
structure Renaming where
  source : TypeEnv
  renames : NameMap Expr := .empty

namespace Renaming

/-- Let later references to `x` become `e`. -/
def bind (r : Renaming) (x : VarName) (e : Expr) : Renaming := { r with renames := r.renames.insert x e }

/-- Declare a fresh copy of a name, and redirect later references to it. -/
def binding (x : VarName) : PassM Renaming VarName := do
  match (← get).source.get? x with
  | none => fail (.unknownVariable x)
  | some t =>
    let fresh ← Build.freshName x
    let v ← Build.declare fresh t
    modify (·.bind x v)
    return fresh

/-- The expression, with every name replaced by what it stands for. -/
def subst (r : Renaming) : Expr → Expr :=
  Expr.fold fun e below =>
    match e with
    | .var x _ => (r.renames.get? x).getD e
    | _ => e.withChildren below

def expr (e : Expr) : PassM Renaming Expr := do return (← get).subst e

def target : Expr → PassM Renaming Expr
  | .var x t => do return .var (← binding x) t
  | e => expr e

/-- The copying pass. -/
def pass : Pass Renaming where
  key := "rename"
  expr := expr
  target := target
  binding := binding

end Renaming

end ArrayIR
