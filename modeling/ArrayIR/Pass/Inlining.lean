/-
  ArrayIR.Pass.Inlining — putting a callee's body in place of a call.

  The body is copied under fresh names, its parameters standing for the arguments.
  It must return once, at its end.
-/

import ArrayIR.Pass.Renaming

namespace ArrayIR

namespace Build

/-- Whether an argument can stand for a parameter as it is. Callables name functions, so any can stand
for any other. -/
def fitsParam (actual formal : Ty) : Bool := (actual.isCallable && formal.isCallable) || actual = formal

/-- Names and constants can be repeated; anything else is bound to a temporary first. -/
def shared (e : Expr) (name : String) : Build Expr :=
  match e with
  | .var _ _ | .const _ _ | .fnRef _ _ => pure e
  | _ => temp e name

/-- Let parameters stand for arguments. -/
def bindParams : List ((VarName × Ty) × Expr) → Renaming → Build Renaming
  | [], r => pure r
  | ((x, t), e) :: rest, r => do
    let e ← if fitsParam e.ty t then pure e else coerce e t "inlined argument"
    bindParams rest (r.bind x (← shared e x))

/-- The statements of a body ahead of its one return, and the value returned. -/
def splitReturn (f : Func) : Except Error (Block × Expr) :=
  match f.body.getLast? with
  | some (.ret value) =>
    if Stmt.blockReturns f.body.dropLast then .error (.unsupportedInline f.name .earlyReturn)
    else .ok (f.body.dropLast, value)
  | _ => .error (.unsupportedInline f.name .noFinalReturn)

/-- Emit the body of a function on the given arguments, closure captures included, and return its value.
With a region to put it in, the value is stored there and the region is returned. -/
def inline (f : Func) (args : List Expr) (output : Option Expr) : Build Expr := do
  if args.length ≠ f.params.length then fail (.arityMismatch f.name f.params.length args.length)
  else
    let (code, value) ← splitReturn f
    let r ← bindParams ((f.params.zip f.paramTys).zip args) { source := f.env }
    let (value, _) ← (do Renaming.pass.stmts code; Renaming.expr value : PassM Renaming Expr).run r
    match output with
    | none =>
      match value with
      | .var _ _ | .const _ _ => return value
      | _ => temp value "inline_result"
    | some region =>
      setIndex region (.wholeIndex region.ty.rank) value
      return region

end Build

end ArrayIR
