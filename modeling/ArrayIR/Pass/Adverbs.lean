/-
  ArrayIR.Pass.Adverbs — adverbs into loops.

  Every adverb of a function is replaced by the code the builder emits for it, with
  its callables lowered first. Calls are redirected to the lowered callees, so the
  result reaches no adverb at all, the tiled ones apart.
-/

import ArrayIR.Builder.Adverb
import ArrayIR.Pass

namespace ArrayIR

namespace Adverbs

/-- How a function referred to is lowered. -/
abbrev LowerFn := Func → Compile Func

/-- A callable that refers to the lowered function. -/
def callable (lower : LowerFn) (e : Expr) (r : Replacement (PassM Unit)) : PassM Unit Expr := do
  let f ← Build.callee e
  let f ← Build.compile (lower f)
  let captured ← r.captures e
  match e.ty with
  | .fn _ => return .fnRefTo f.name
  | _ => return .closureOver f.name captured

/-- The initial value of a reduction or scan, if it has one, and the arguments after it. -/
def initAndArgs (init : Option Expr) (below : List (Replacement (PassM Unit))) :
    PassM Unit (Option Expr × List Expr) :=
  match init, below with
  | some _, r :: rs => do
    let init ← r.self
    return (some init, ← rs.mapM (·.self))
  | _, rs => do return (none, ← rs.mapM (·.self))

/-- Replace a node, given how its children are replaced. -/
def step (lower : LowerFn) (e : Expr) (below : List (Replacement (PassM Unit))) : PassM Unit Expr :=
  match e, below with
  | .map f _ axis t, rf :: rs => do
    let f ← callable lower f rf
    let args ← rs.mapM (·.self)
    lowered (Adverb.map Build.domain f args axis) t
  | .reduce f combine init _ axis t, rf :: rc :: rs => do
    let f ← callable lower f rf
    let combine ← callable lower combine rc
    let (init, args) ← initAndArgs init rs
    lowered (Adverb.reduce Build.domain f combine init args axis) t
  | .scan f combine emit init _ axis t, rf :: rc :: re :: rs => do
    let f ← callable lower f rf
    let combine ← callable lower combine rc
    let emit ← callable lower emit re
    let (init, args) ← initAndArgs init rs
    lowered (Adverb.scan Build.domain f combine emit init args axis) t
  | .allPairs f _ axis t, rf :: rs =>
    match rs with
    | [rx, ry] => do
      let f ← callable lower f rf
      let x ← rx.self
      let y ← ry.self
      lowered (Adverb.allPairs Build.domain f x y axis) t
    | _ => fail (.adverbArity "all-pairs" 2 rs.length)
  | .call f _ t, rs => do
    let f ← Build.lookupFn f
    let f ← Build.compile (lower f)
    return .call f.name (← rs.mapM (·.self)) t
  | _, _ => e.rebuild below
where
  lowered (code : Build Expr) (t : Ty) : Build Expr := do Build.coerce (← code) t "lowered adverb"

/-- The pass, given how the functions referred to are lowered. -/
def pass (lower : LowerFn) : Pass Unit where
  key := "lower_adverbs"
  expr e := (e.replace (step lower)).self

/-- Lower a function unless the session knows the result; references may be followed `depth` deep. -/
def lowerCached : Nat → LowerFn
  | 0, _ => throw .exhausted
  | depth + 1, f => (pass (lowerCached depth)).applyCached () f

/-- The pass in a session: a chain of references without a repetition is no longer than there are
functions. -/
def passIn (s : Session) : Pass Unit := pass (lowerCached s.numFunctions)

end Adverbs

end ArrayIR
