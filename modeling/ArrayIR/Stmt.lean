/-
  ArrayIR.Stmt — statements, blocks and functions.

  Control flow is structured. Where two paths join, a merge names the values that
  flow together: for a conditional, those leaving its two branches; for a loop, the
  value on entry and the value carried around the back edge. A `while` condition is
  evaluated again at the head of every iteration, after the merge names are bound.
-/

import ArrayIR.Expr

namespace ArrayIR

/-- Joined names: the value from the true branch or on entry, and the value from the false branch or
along the back edge. -/
abbrev Merge := NameMap (Expr × Expr)

/-- A counted loop's header: `var` runs over `start`, `start + step`, … before `stop`. -/
structure Counter where
  var : VarName
  start : Expr
  stop : Expr
  step : Expr

inductive Stmt where
  /-- A definition when the target is a variable, an in-place store when it is an index. -/
  | assign (target value : Expr)
  | ret (value : Expr)
  | ite (cond : Expr) (yes no : List Stmt) (merge : Merge)
  | whileLoop (cond : Expr) (body : List Stmt) (merge : Merge)
  | forLoop (counter : Counter) (body : List Stmt) (merge : Merge)

abbrev Block := List Stmt

/-- Both sides of every entry of a merge, in order. -/
def Merge.exprs (m : Merge) : List Expr := m.values.flatMap fun (l, r) => [l, r]

namespace Stmt

/-- The expressions of the statement itself: its blocks' are left out, its merge's are not. -/
def exprs : Stmt → List Expr
  | assign target value => [target, value]
  | ret value => [value]
  | ite cond _ _ merge => cond :: merge.exprs
  | whileLoop cond _ merge => cond :: merge.exprs
  | forLoop c _ merge => c.start :: c.stop :: c.step :: merge.exprs

/-- The blocks directly inside the statement. -/
def blocks : Stmt → List Block
  | assign _ _ | ret _ => []
  | ite _ yes no _ => [yes, no]
  | whileLoop _ body _ | forLoop _ body _ => [body]

mutual

/-- Every expression anywhere in the statement: its own before those of its blocks. -/
def subterms : Stmt → List Expr
  | assign target value => target.subterms ++ value.subterms
  | ret value => value.subterms
  | ite cond yes no merge =>
    cond.subterms ++ merge.exprs.flatMap Expr.subterms ++ blockSubterms yes ++ blockSubterms no
  | whileLoop cond body merge => cond.subterms ++ merge.exprs.flatMap Expr.subterms ++ blockSubterms body
  | forLoop c body merge =>
    c.start.subterms ++ c.stop.subterms ++ c.step.subterms ++ merge.exprs.flatMap Expr.subterms
      ++ blockSubterms body

/-- Every expression anywhere in a block. -/
def blockSubterms : List Stmt → List Expr
  | [] => []
  | s :: ss => s.subterms ++ blockSubterms ss

end

mutual

/-- How many statements there are, those of nested blocks included. -/
def count : Stmt → Nat
  | assign _ _ | ret _ => 1
  | ite _ yes no _ => 1 + blockCount yes + blockCount no
  | whileLoop _ body _ | forLoop _ body _ => 1 + blockCount body

def blockCount : List Stmt → Nat
  | [] => 0
  | s :: ss => s.count + blockCount ss

end

mutual

/-- Whether the statement is, or has inside it, a return. -/
def returns : Stmt → Bool
  | assign _ _ => false
  | ret _ => true
  | ite _ yes no _ => blockReturns yes || blockReturns no
  | whileLoop _ body _ | forLoop _ body _ => blockReturns body

def blockReturns : List Stmt → Bool
  | [] => false
  | s :: ss => s.returns || blockReturns ss

end

end Stmt

/-- A function: typed parameters, the declared type of every name it binds, and a body. -/
structure Func where
  name : FnName
  params : List VarName
  paramTys : List Ty
  result : Ty
  env : TypeEnv
  body : Block

/-- The type of a function used as a value. -/
def Func.ty (f : Func) : Ty := .fn f.name

def Func.subterms (f : Func) : List Expr := Stmt.blockSubterms f.body

end ArrayIR
