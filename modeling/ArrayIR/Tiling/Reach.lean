/-
  ArrayIR.Tiling.Reach — which functions use tiled adverbs, and how many tile sizes they need.

  A function reaches what it calls and what the types of its expressions refer to.
  Only calls and the callables of tiled adverbs consume tile sizes, though; each
  dynamic tiled adverb takes one, and the functions applied take theirs.
-/

import ArrayIR.Session

namespace ArrayIR

/-- The functions that an expression refers to. -/
def Expr.refs (e : Expr) : List FnName :=
  let called := match e with
    | .call f _ _ => [f]
    | _ => []
  called ++ (e.ty.callee?.map (·.1)).toList

namespace Func

/-- The functions that a function calls or refers to, in order. -/
def refs (f : Func) : List FnName := (NameMap.ofList ((f.subterms.flatMap Expr.refs).map (·, ()))).keys

def hasTiled (f : Func) : Bool := f.subterms.any Expr.isTiled

/-- The functions that run on tiles or by a call, in order of occurrence. -/
def applied (f : Func) : List FnName :=
  f.subterms.flatMap fun
    | .tiledMap g _ _ _ _ => (g.ty.callee?.map (·.1)).toList
    | .tiledReduce g c _ _ _ _ _ => (g.ty.callee?.map (·.1)).toList ++ (c.ty.callee?.map (·.1)).toList
    | .call g _ _ => [g]
    | _ => []

/-- How many tile sizes the function's own tiled adverbs take. -/
def ownTiles (f : Func) : Nat :=
  f.subterms.countP fun
    | .tiledMap _ _ _ .dynamic _ => true
    | .tiledReduce _ _ _ _ _ .dynamic _ => true
    | _ => false

end Func

namespace Session

/-- Search the functions reachable from `pending` for a tiled adverb, expanding at most `budget` of
them. The reference found last is followed first. -/
def searchTiled (s : Session) : Nat → List FnName → List FnName → Except Error Bool
  | 0, _, _ => .ok false
  | budget + 1, visited, pending =>
    match pending.dropWhile (visited.contains ·) with
    | [] => .ok false
    | name :: rest => do
      let f ← s.lookup name
      if f.hasTiled then return true
      else searchTiled s budget (name :: visited) (f.refs.reverse ++ rest)

/-- Whether a function, or anything it reaches, has a tiled adverb. No function is expanded twice, so
one expansion more than there are functions is enough. -/
def reachesTiled (s : Session) (f : Func) : Except Error Bool :=
  s.searchTiled (s.numFunctions + 1) [] [f.name]

/-- The number of tile sizes that lowering a function takes, with the functions being counted in
`active`; a function that applies itself has no such number. -/
def countTiles (s : Session) : Nat → List FnName → Func → Except Error Nat
  | 0, _, f => .error (.recursiveTiling f.name)
  | depth + 1, active, f =>
    if active.contains f.name then .error (.recursiveTiling f.name)
    else
      f.applied.foldlM (fun count name => do
        let g ← s.lookup name
        if ← s.reachesTiled g then return count + (← countTiles s depth (f.name :: active) g)
        else return count) f.ownTiles

/-- The number of tile sizes that lowering a function takes. -/
def numDynamicTiles (s : Session) (f : Func) : Except Error Nat := s.countTiles (s.numFunctions + 2) [] f

end Session

end ArrayIR
