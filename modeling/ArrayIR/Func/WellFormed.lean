/-
  ArrayIR.Func.WellFormed — the well-formedness check every pass result must pass.

  Every name is defined once, with the type the function declares for it; a merge
  joins two values of the merged name's type; conditions are booleans and loop
  bounds integers. Uses of names are not looked at. The check walks the function in
  order and threads the names defined so far, so of several faults it reports the
  first on its way.
-/

import ArrayIR.Stmt
import ArrayIR.Error

namespace ArrayIR

namespace WellFormed

/-- The names defined so far. -/
abbrev Defined := List VarName

/-- The declared type of a name. -/
def declared (env : TypeEnv) (x : VarName) : Except Error Ty :=
  match env.get? x with
  | some t => .ok t
  | none => .error (.unknownVariable x)

/-- Define `x`, once. -/
def once (defined : Defined) (x : VarName) : Except Error Defined :=
  if x ∈ defined then .error (.redefinition x) else .ok (x :: defined)

/-- Define `x` with a value of type `actual`. -/
def define (env : TypeEnv) (defined : Defined) (x : VarName) (actual : Ty) : Except Error Defined := do
  let defined ← once defined x
  let t ← declared env x
  if t = actual then return defined else .error (.declarationMismatch x t actual)

def condition (cond : Expr) : Except Error Unit :=
  if cond.ty = .bool then .ok () else .error (.typeMismatch "branch condition" .bool cond.ty)

def mergeEntries (env : TypeEnv) (defined : Defined) : List (VarName × Expr × Expr) → Except Error Defined
  | [] => .ok defined
  | (x, l, r) :: rest => do
    let t ← declared env x
    if l.ty = t ∧ r.ty = t then mergeEntries env (← once defined x) rest
    else .error (.mergeTypeMismatch x t l.ty r.ty)

def merge (env : TypeEnv) (defined : Defined) (m : Merge) : Except Error Defined :=
  mergeEntries env defined m.toList

def bound (start e : Expr) : Except Error Unit :=
  if e.ty.isInt then .ok () else .error (.typeMismatch "loop bound" start.ty e.ty)

mutual

def stmt (env : TypeEnv) : Stmt → Defined → Except Error Defined
  | .assign target value, defined =>
    match target with
    | .var x t =>
      if t = value.ty then define env defined x value.ty
      else .error (.declarationMismatch x t value.ty)
    | .index .. => .ok defined
    | _ => .error (.typeMismatch "assignment target" value.ty target.ty)
  | .ret _, defined => .ok defined
  | .ite cond yes no m, defined => do
    condition cond
    let defined ← block env yes defined
    let defined ← block env no defined
    merge env defined m
  | .whileLoop cond body m, defined => do
    let defined ← merge env defined m
    condition cond
    block env body defined
  | .forLoop c body m, defined => do
    bound c.start c.start
    bound c.start c.stop
    bound c.start c.step
    let defined ← define env defined c.var c.start.ty
    let defined ← merge env defined m
    block env body defined

def block (env : TypeEnv) : List Stmt → Defined → Except Error Defined
  | [], defined => .ok defined
  | s :: ss, defined => do block env ss (← stmt env s defined)

end

/-- Define the parameters in order. -/
def params (env : TypeEnv) : List (VarName × Ty) → Defined → Except Error Defined
  | [], defined => .ok defined
  | (x, t) :: rest, defined => do params env rest (← define env defined x t)

end WellFormed

/-- Check a function: every name defined once with its declared type, merges of one type, boolean
conditions, integer bounds. -/
def Func.verify (f : Func) : Except Error Unit := do
  let defined ← WellFormed.params f.env (f.params.zip f.paramTys) []
  let _ ← WellFormed.block f.env f.body defined

end ArrayIR
