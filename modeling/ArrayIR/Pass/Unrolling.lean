/-
  ArrayIR.Pass.Unrolling — unrolling counted loops.

  A loop is split in two. The first takes steps `factor` times as long and has that
  many copies of the body, each under names of its own, the values carried from one
  copy to the next assigned in between. The second is the loop as it was, for the
  iterations left over.

  Only loops with short bodies of simple assignments are unrolled. Inner loops come
  first; what is left of them keeps the loops around them from being unrolled.
-/

import ArrayIR.Pass.Renaming

namespace ArrayIR

/-- How many copies of a body an unrolled loop has. -/
structure UnrollFactor where
  val : Nat
  pos : 0 < val

namespace UnrollFactor

def ofNat (n : Nat) : Except Error UnrollFactor :=
  if h : 0 < n then .ok ⟨n, h⟩ else .error (.invalidUnrollFactor n)

end UnrollFactor

namespace Stmt

mutual

/-- Whether the statement is an assignment to a simple target, or branches over such only. -/
def simple : Stmt → Bool
  | assign target _ => target.ty.isSimple
  | ite _ yes no _ => simpleAll yes && simpleAll no
  | ret _ | whileLoop _ _ _ | forLoop _ _ _ => false

def simpleAll : List Stmt → Bool
  | [] => true
  | s :: ss => s.simple && simpleAll ss

end

end Stmt

namespace Unrolling

/-- Take fresh names for the counter and the merged names of a loop; the counter's is returned. -/
def rebind (var : VarName) (merge : Merge) : PassM Renaming VarName := do
  let fresh ← Renaming.binding var
  let _ ← merge.keys.mapM Renaming.binding
  return fresh

/-- What a merged name stands for. -/
def current (r : Renaming) (x : VarName) : Expr := (r.renames.get? x).getD .nothing

/-- Assign the values carried out of one copy, under the names it had, to the names of the next. -/
def carry (merge : Merge) (previous next : Renaming) : Block :=
  merge.toList.map fun (x, _, back) => .assign (current next x) (previous.subst back)

/-- The loop to be unrolled, and the type of its counter. -/
structure Loop where
  counter : Counter
  body : Block
  merge : Merge
  counterTy : Ty

namespace Loop

/-- An integer as a constant of the counter's element type. -/
def const (l : Loop) (n : Nat) : Expr := .scalar (Int64.ofNat n) (l.counterTy.scalar?.getD .i64)

/-- The step of the unrolled loop and where it stops. -/
def bounds (l : Loop) (factor : UnrollFactor) : Build (Expr × Expr) := do
  let range ← Build.sub l.counter.stop l.counter.start "iter_range"
  let bigStep ← Build.mul (l.const factor.val) l.counter.step "big_step"
  let bigSteps ← Build.div range bigStep "big_steps"
  let trunc ← Build.mul bigSteps bigStep "trunc"
  let stop ← Build.add l.counter.start trunc "unrolled_stop"
  return (bigStep, stop)

/-- The `k`-th copy of the body after the first, whose counter is `first`. -/
def copy (l : Loop) (first : VarName) (k : Nat) : PassM Renaming Block := do
  let previous ← get
  let var ← rebind l.counter.var l.merge
  let carried := carry l.merge previous (← get)
  let offset ← Build.mul l.counter.step (l.const k) "offset"
  let count := Stmt.assign (.var var l.counterTy) (.prim .add [.var first l.counterTy, offset] l.counterTy)
  let body ← Renaming.pass.block l.body
  return carried ++ [count] ++ body

/-- The copies numbered from `k` on, `n` of them. -/
def copies (l : Loop) (first : VarName) : Nat → Nat → PassM Renaming Block
  | 0, _ => pure []
  | n + 1, k => do
    let block ← l.copy first k
    return block ++ (← l.copies first n (k + 1))

/-- Emit the unrolled loop and return the loop that is left. -/
def split (l : Loop) (factor : UnrollFactor) : Build Stmt := do
  let (bigStep, stop) ← l.bounds factor
  let start : Renaming := { source := (← get).env }
  let (var, first) ← (rebind l.counter.var l.merge).run start
  let (body, last) ← (do
    let body ← Renaming.pass.block l.body
    return body ++ (← l.copies var (factor.val - 1) 1) : PassM Renaming Block).run first
  let entries := l.merge.toList
  let unrolled := NameMap.ofList (entries.filterMap fun (x, entry, back) =>
    (current first x).var?.map (·, entry, last.subst back))
  let rest := NameMap.ofList (entries.map fun (x, _, back) => (x, current first x, back))
  Build.emit (.forLoop ⟨var, l.counter.start, stop, bigStep⟩ body unrolled)
  return .forLoop { l.counter with start := stop } l.body rest

end Loop

/-- Unroll a loop, if that is possible. -/
def loop (factor : UnrollFactor) (c : Counter) (body : Block) (merge : Merge) : Build Stmt := do
  if factor.val = 1 then return .forLoop c body merge
  else
    match c.step.int? with
    | some step => if step ≤ 0 then fail (.downwardStep step) else go
    | none => go
where
  go : Build Stmt := do
    if Stmt.simpleAll body && Stmt.blockCount body ≤ Options.maxUnrolledBody then
      let t ← Build.lookupTy c.var
      Loop.split ⟨c, body, merge, t⟩ factor
    else return .forLoop c body merge

/-- The unrolling pass. -/
def pass (factor : UnrollFactor) : Pass Unit where
  key := "loop_unrolling(" ++ toString factor.val ++ ")"
  expr e := (e.replace Expr.rebuild).self
  loop c body merge := Unrolling.loop factor c body merge

end Unrolling

end ArrayIR
