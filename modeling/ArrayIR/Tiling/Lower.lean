/-
  ArrayIR.Tiling.Lower — tiled adverbs into loops over tiles.

  A tiled map runs its function on one slice of its arguments after the other and
  stores what comes back into the same slice of the result. A tiled reduction
  combines what comes back into an accumulator that starts as the initial value.

  The size of a tile is an entry of the pass's list, or is passed at run time: a
  function that needs such sizes takes them as one more parameter, a tuple, and hands
  it on to the functions it applies. Each tiled adverb takes the next entry, in the
  order in which they are lowered, functions applied included.
-/

import ArrayIR.Pass.Inlining
import ArrayIR.Shape.Infer
import ArrayIR.Tiling.Reach

namespace ArrayIR

namespace Tiling

/-- The state of the pass on one function. -/
structure State where
  /-- The sizes of fixed tiles. -/
  sizes : List Int64
  /-- The next entry of `sizes`. -/
  fixedIdx : Nat := 0
  /-- The next item of the tuple of sizes. -/
  nestingIdx : Nat := 0
  /-- Whether the function reads the tuple of sizes. -/
  tiling : Bool := false
  /-- The tuple of sizes. -/
  param : Option Expr := none
  /-- The callables whose function has been replaced by its lowered version. -/
  retyped : NameMap Ty := .empty

abbrev Lower := PassM State

/-- How a function applied is lowered, in which state of its own. -/
abbrev LowerFn := State → Func → Compile (Func × State)

/-! ## Tile sizes -/

def requireParam (s : State) : Except Error Expr :=
  match s.param with
  | some p => .ok p
  | none => .error (.shapeInference .noTileSizes)

/-- The size for the next tiled adverb. -/
def tileSize : TilePolicy → Lower Expr
  | .fixed =>
    modifyGet fun s =>
      (.int64 (Options.tileSize s.sizes s.fixedIdx), { s with fixedIdx := s.fixedIdx + 1 })
  | .dynamic => do
    let s ← get
    let param ← (requireParam s : Except Error Expr)
    set { s with tiling := true, nestingIdx := s.nestingIdx + 1 }
    Build.proj param s.nestingIdx

/-- The tuple of sizes, for a function that needs it. -/
def sizesFor (tiles : Nat) : Lower (Option Expr) := do
  if 0 < tiles then return some (← (requireParam (← get) : Except Error Expr)) else return none

def reachesTiled (f : Func) : Build Bool := do (← get).session.reachesTiled f

def numTiles (f : Func) : Build Nat := do (← get).session.numDynamicTiles f

/-! ## Functions -/

/-- A function lowered for use by this one, and how many sizes of the tuple it takes. -/
def function (lower : LowerFn) (f : Func) : Lower (Func × Nat) := do
  if ← reachesTiled f then
    let tiles ← numTiles f
    let param ← sizesFor tiles
    let s ← get
    let (g, inner) ← Build.compile
      (lower { sizes := s.sizes, fixedIdx := s.fixedIdx, nestingIdx := s.nestingIdx, param := param } f)
    set { s with
      fixedIdx := inner.fixedIdx, tiling := s.tiling || inner.tiling, nestingIdx := s.nestingIdx + tiles }
    return (g, tiles)
  else return (f, 0)

/-- A callable lowered for use by this function. -/
structure Callee where
  fn : Func
  captured : List Expr
  /-- How many sizes of the tuple the function takes. -/
  tiles : Nat

def callee (lower : LowerFn) (e : Expr) (r : Replacement Lower) : Lower Callee := do
  let f ← Build.callee e
  let captured ← r.captures e
  let (g, tiles) ← function lower f
  return ⟨g, captured, tiles⟩

/-- A callable that is passed around. It cannot be given the tuple of sizes, so all that it reaches must
have fixed ones. -/
def callableValue (lower : LowerFn) (e : Expr) (r : Replacement Lower) : Lower Expr := do
  let f ← Build.callee e
  if 0 < (← numTiles f) then fail (.dynamicTilesInCallable f.name)
  else
    let c ← callee lower e r
    match e with
    | .fnRef _ _ => return .fnRefTo c.fn.name
    | _ => return .closureOver c.fn.name c.captured

/-! ## Loops over tiles -/

/-- Arguments from which the shape of a tile's result is inferred. Sizes of tiles never affect it, so
they are taken to be one. -/
def shapeArgs (captured args : List Expr) (sizes : Option Expr) : List Expr :=
  let ones := sizes.map fun s => Expr.tupleOf ((s.ty.items?.getD []).map fun _ => .int64 1)
  captured ++ args ++ ones.toList

/-- The extent to cut into tiles: that of the first argument. -/
def iterationExtent (adverb : String) (args : List Expr) (axes : List Nat) : Build Expr :=
  match args, axes with
  | x :: xs, axis :: rest =>
    if xs.length = rest.length then Build.shape x (some axis)
    else fail (.adverbArity adverb (max axes.length 1) args.length)
  | _, _ => fail (.adverbArity adverb (max axes.length 1) args.length)

/-- The arguments on one tile. -/
def tileArgs (captured : List Expr) (args : List (Expr × Nat)) (bounds : Expr) (sizes : Option Expr) :
    Build (List Expr) := do
  let tiles ← args.mapM fun (x, axis) => Build.sliceAlong x axis bounds
  return captured ++ tiles ++ sizes.toList

/-- The loop of a tiled map. -/
def mapLoop (c : Callee) (args : List Expr) (axes : List Nat) (extent size : Expr) (sizes : Option Expr) :
    Build Expr := do
  let result ← Build.allocResult (.fnRefTo c.fn.name) (shapeArgs c.captured args sizes) [] "tiled_result"
  let outAxis := axes.headD 0
  if result.ty.rank ≤ outAxis then fail (.axisOutOfRange outAxis result.ty.rank)
  else
    Build.forLoop (.int64 0) extent size .empty fun i => do
      let next ← Build.add i size "next"
      let stop ← Build.min next extent "slice_stop"
      let bounds := Expr.range i stop (.int64 1)
      let onTile ← tileArgs c.captured (args.zip axes) bounds sizes
      let region ← Build.sliceAlong result outAxis bounds
      let _ ← Build.inline c.fn onTile (some region)
    return result

/-- Store `init` at every point of the first `remaining` axes of `acc` that `outer` does not fix yet. -/
def fillFrom (acc init : Expr) : Nat → List Expr → Build Unit
  | 0, outer =>
    Build.setIndex acc
      (.tupleOf (outer ++ List.replicate (acc.ty.rank - outer.length) .wholeAxis)) init
  | remaining + 1, outer => do
    let extent ← Build.shape acc (some outer.length)
    let (j, after, merge) ← Build.loopCounter "j" (.int64 0)
    let (body, _) ← Build.nested do
      fillFrom acc init remaining (outer ++ [j])
      let next ← Build.add j (.int64 1) "j_next"
      Build.assign after next
    Build.emit (.whileLoop (.prim .lt [j, extent] .bool) body merge)

/-- Fill an array accumulator with the initial value, repeated along the leading axes it lacks. -/
def fillWith (acc init : Expr) : Build Unit :=
  if acc.ty.rank < init.ty.rank then fail (.initRank init.ty.rank acc.ty.rank)
  else fillFrom acc init (acc.ty.rank - init.ty.rank) []

/-- Prepare the accumulator of a tiled reduction. A scalar one is carried by the loop, and its next name
is returned; an array is updated in place. -/
def startAccumulator (acc init : Expr) (merge : Merge) : Build (Option Expr × Merge) := do
  if acc.ty.rank = 0 then
    let entry ← Build.coerce init acc.ty "tiled reduce initializer"
    let after ← Build.freshVar acc.ty "loop_after"
    match acc with
    | .var x _ => return (some after, merge.insert x (entry, after))
    | _ => return (some after, merge)
  else
    fillWith acc init
    return (none, merge)

/-- The loop of a tiled reduction. -/
def reduceLoop (c combine : Callee) (init : Expr) (args : List Expr) (axes : List Nat) (extent size : Expr)
    (sizes combineSizes : Option Expr) : Build Expr := do
  let acc ← Build.allocResult (.fnRefTo c.fn.name) (shapeArgs c.captured args sizes) [] "loop_result"
  let (i, after, merge) ← Build.loopCounter "i" (.int64 0)
  let (accAfter, merge) ← startAccumulator acc init merge
  let (body, _) ← Build.nested do
    let next ← Build.add i size "next_bound"
    let inside ← Build.lte next extent "tile_fits"
    -- the last tile stops at the end of the input
    let guard : Merge := match after with
      | .var x _ => NameMap.empty.insert x (next, extent)
      | _ => .empty
    Build.emit (.ite inside [] [] guard)
    let onTile ← tileArgs c.captured (args.zip axes) (.range i after (.int64 1)) sizes
    let result ← Build.call (.fnRefTo c.fn.name) onTile "tile_result"
    let combined ← Build.call (.fnRefTo combine.fn.name)
      (combine.captured ++ [acc, result] ++ combineSizes.toList) "combined"
    match accAfter with
    | some accAfter => Build.assign accAfter (← Build.coerce combined accAfter.ty "tiled reduce")
    | none => Build.setIndex acc (.wholeIndex acc.ty.rank) combined
  Build.emit (.whileLoop (.prim .lt [i, extent] .bool) body merge)
  return acc

/-! ## The pass -/

/-- Replace a node, given how its children are replaced. -/
def step (lower : LowerFn) (e : Expr) (below : List (Replacement Lower)) : Lower Expr :=
  match e, below with
  | .tiledMap f _ axes tile _, rf :: rs => do
    let args ← rs.mapM (·.self)
    let extent ← iterationExtent "tiled map" args axes
    let size ← tileSize tile
    let c ← callee lower f rf
    let sizes ← sizesFor c.tiles
    mapLoop c args axes extent size sizes
  | .tiledReduce f combine _ _ axes tile _, rf :: rc :: rinit :: rs => do
    let args ← rs.mapM (·.self)
    let extent ← iterationExtent "tiled reduce" args axes
    let size ← tileSize tile
    let c ← callee lower f rf
    let k ← callee lower combine rc
    let init ← rinit.self
    let sizes ← sizesFor c.tiles
    let combineSizes ← sizesFor k.tiles
    reduceLoop c k init args axes extent size sizes combineSizes
  | .call f _ t, rs => do
    let f ← Build.lookupFn f
    let args ← rs.mapM (·.self)
    let (g, tiles) ← function lower f
    return .call g.name (args ++ (← sizesFor tiles).toList) t
  | .fnRef _ _, _ | .closure _ _ _, _ => callableValue lower e ⟨e.rebuild below, below.mapM (·.self)⟩
  | .var x t, _ => do return .var x (((← get).retyped.get? x).getD t)
  | _, _ => e.rebuild below

def expr (lower : LowerFn) (e : Expr) : Lower Expr := (e.replace (step lower)).self

/-- Assign; a variable that holds a callable takes on the type of the lowered one. -/
def assign (lower : LowerFn) (target value : Expr) : Lower Stmt := do
  let value ← expr lower value
  match target with
  | .var x t =>
    if value.ty ≠ t ∧ value.ty.isCallable then
      modify fun s => { s with retyped := s.retyped.insert x value.ty }
      return .assign (← Build.declare x value.ty) value
    else return .assign (← expr lower target) value
  | _ => return .assign (← expr lower target) value

/-- Declare the tuple of sizes, if the function needs one and has none yet. -/
def enter (f : Func) : Lower Unit := do
  if (← get).param.isNone then
    let tiles ← numTiles f
    if 0 < tiles then
      let param ← Build.freshVar (.tuple (List.replicate tiles .i64)) "tile_sizes"
      modify fun s => { s with param := some param }

/-- Add the tuple of sizes to the parameters, if the function reads it. -/
def leave (s : State) (f : Func) : Except Error Func :=
  if s.tiling then do
    match ← requireParam s with
    | .var x t =>
      return { f with params := f.params ++ [x], paramTys := f.paramTys ++ [t], env := f.env.insert x t }
    | _ => return f
  else .ok f

/-- Integers as the keys of passes show them. -/
def sizesText (sizes : List Int64) : String :=
  "[" ++ ", ".intercalate (sizes.map fun i => toString i.toInt) ++ "]"

/-- The pass, given how the functions applied are lowered. -/
def pass (lower : LowerFn) (sizes : List Int64) : Pass State where
  key := "lower_tiled_adverbs(" ++ sizesText sizes ++ ")"
  enter := enter
  leave := leave
  expr := expr lower
  assign := assign lower

/-- Lower a function; applications may be followed `depth` deep. -/
def lowerAt : Nat → LowerFn
  | 0, _, _ => throw .exhausted
  | depth + 1, s, f => (pass (lowerAt depth) s.sizes).apply s f

/-- The pass in a session: a chain of applications without a repetition is no longer than there are
functions. -/
def passIn (s : Session) (sizes : List Int64) : Pass State := pass (lowerAt s.numFunctions) sizes

end Tiling

end ArrayIR
