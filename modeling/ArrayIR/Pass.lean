/-
  ArrayIR.Pass — turning functions into other functions.

  A pass rebuilds a function statement by statement in a fresh scope, so that what it
  computes along the way can be emitted ahead of the statement being rebuilt.
  It says how it treats an expression, the target of an assignment, a name bound by
  a merge or a loop, an assignment, and a counted loop whose parts are rebuilt
  already; the walk through the control flow is the same for all passes.

  The two sides of a merge are rebuilt where their values are computed: at the end
  of the branch, ahead of the loop, at the end of the loop's body.

  The result is published under a fresh name, if it verifies.
-/

import ArrayIR.Builder
import ArrayIR.Func.WellFormed

namespace ArrayIR

/-! ## Replacing expressions -/

/-- How an expression is replaced: itself, and each of its children in order. -/
structure Replacement (m : Type → Type) where
  self : m Expr
  kids : m (List Expr)

namespace Expr

variable {m : Type → Type} [Monad m]

/-- Replace bottom-up: `step` sees a node and how its children are replaced. -/
def replace (step : Expr → List (Replacement m) → m Expr) : Expr → Replacement m :=
  fold fun e below => ⟨step e below, below.mapM (·.self)⟩

/-- The same node over its new children. -/
def rebuild (e : Expr) (below : List (Replacement m)) : m Expr := do
  return e.withChildren (← below.mapM (·.self))

end Expr

/-! ## Passes -/

/-- Computations that emit code and keep a state of the pass. -/
abbrev PassM (σ : Type) := StateT σ Build

/-- What a callable passes ahead of its arguments, replaced: the values of a literal closure, or
projections out of the new callable. -/
def Replacement.captures {σ : Type} (r : Replacement (PassM σ)) (callable : Expr) : PassM σ (List Expr) := do
  let values ← (Build.captures callable : Except Error (List Expr))
  match callable with
  | .closure .. => if values.isEmpty then return [] else r.kids
  | _ => values.mapM fun
    | .capture _ i t => return .capture (← r.self) i t
    | e => return e

/-- Build a scope of its own; see `Build.nested`. -/
def PassM.nested {σ α : Type} (inner : PassM σ α) : PassM σ (Block × α) := fun st => do
  let (block, a, st) ← Build.nested (inner st)
  return ((block, a), st)

/-- A pass with a state of type `σ`. -/
structure Pass (σ : Type) where
  /-- Names the pass, and every parameter its results depend on, in the session's cache. -/
  key : String
  /-- Runs before the body is rebuilt. -/
  enter : Func → PassM σ Unit := fun _ => pure ()
  /-- Completes the new function. -/
  leave : σ → Func → Except Error Func := fun _ f => .ok f
  expr : Expr → PassM σ Expr
  /-- The target of an assignment. -/
  target : Expr → PassM σ Expr := expr
  /-- A name bound by a merge or as a loop counter. -/
  binding : VarName → PassM σ VarName := pure
  assign : Expr → Expr → PassM σ Stmt := fun t v => do
    let v ← expr v
    return .assign (← target t) v
  /-- A counted loop whose parts are rebuilt already. -/
  loop : Counter → Block → Merge → PassM σ Stmt := fun c body merge => return .forLoop c body merge

namespace Pass

variable {σ : Type}

/-- Replace one side of every entry of a merge. -/
def side (p : Pass σ) (merge : Merge) (pick : Expr × Expr → Expr) : PassM σ (List Expr) :=
  merge.values.mapM fun sides => p.expr (pick sides)

/-- Replace the names of a merge. -/
def names (p : Pass σ) (merge : Merge) : PassM σ (List VarName) := merge.keys.mapM p.binding

/-- The merge of the given names, left sides and right sides. -/
def joined (names : List VarName) (lefts rights : List Expr) : Merge :=
  NameMap.ofList (names.zip (lefts.zip rights))

mutual

/-- Rebuild a statement. -/
def stmt (p : Pass σ) : Stmt → PassM σ Stmt
  | .assign target value => p.assign target value
  | .ret value => do return .ret (← p.expr value)
  | .ite cond yes no merge => do
    let cond ← p.expr cond
    let (yes, lefts) ← PassM.nested (do p.stmts yes; p.side merge Prod.fst)
    let (no, rights) ← PassM.nested (do p.stmts no; p.side merge Prod.snd)
    let names ← p.names merge
    return .ite cond yes no (joined names lefts rights)
  | .whileLoop cond body merge => do
    let entries ← p.side merge Prod.fst
    let names ← p.names merge
    let cond ← p.expr cond
    let (body, backs) ← PassM.nested (do p.stmts body; p.side merge Prod.snd)
    return .whileLoop cond body (joined names entries backs)
  | .forLoop c body merge => do
    let start ← p.expr c.start
    let stop ← p.expr c.stop
    let step ← p.expr c.step
    let entries ← p.side merge Prod.fst
    let names ← p.names merge
    let var ← p.binding c.var
    let (body, backs) ← PassM.nested (do p.stmts body; p.side merge Prod.snd)
    p.loop ⟨var, start, stop, step⟩ body (joined names entries backs)

/-- Rebuild statements in the scope being built. -/
def stmts (p : Pass σ) : List Stmt → PassM σ Unit
  | [] => pure ()
  | s :: ss => do
    Build.emit (← p.stmt s)
    p.stmts ss

end

/-- Rebuild statements in a scope of their own. -/
def block (p : Pass σ) (b : Block) : PassM σ Block := do
  return (← PassM.nested (p.stmts b)).1

/-- Rebuild the body of a function. -/
def body (p : Pass σ) (f : Func) : PassM σ Block := do
  p.enter f
  p.block f.body

/-- Complete a new function under a fresh name, verify and register it. -/
def publish (p : Pass σ) (st : σ) (f : Func) (env : TypeEnv) (body : Block) : Compile Func := do
  let name ← modifyGet (·.fresh f.name)
  let g ← p.leave st { f with name := name, env := env, body := body }
  g.verify
  set (← (← get).register g)
  return g

/-- Rebuild a function and publish the result; the pass's state is returned with it. -/
def apply (p : Pass σ) (st : σ) (f : Func) : Compile (Func × σ) := fun s =>
  match p.body f st ⟨s, f.env, []⟩ with
  | .error e b => .error e b.session
  | .ok (body, st) b => (do return (← p.publish st f b.env (b.block ++ body), st) : Compile _) b.session

/-- Rebuild a function unless the session knows the result. -/
def applyCached (p : Pass σ) (st : σ) (f : Func) : Compile Func := do
  match (← get).cached p.key f.name with
  | some g => return g
  | none =>
    let (g, _) ← p.apply st f
    modify (·.insertCached p.key f.name g)
    return g

end Pass

/-- The pass that changes nothing. -/
def identityPass : Pass Unit where
  key := "noop"
  expr e := (e.replace Expr.rebuild).self

end ArrayIR
