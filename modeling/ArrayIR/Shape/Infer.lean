/-
  ArrayIR.Shape.Infer — the shape of a call's result.

  The callee is evaluated symbolically in the scope of its caller. Scalars that the
  caller can compute are computed there, by code emitted as the evaluation goes on;
  all others are unknown. A branch is evaluated on both sides and a loop not at all:
  at a join the value on entry stands for both, since the shape of an array does not
  change on the way around.

  Calls nest up to a fixed depth; a callee beyond it is taken to be recursive.
-/

import ArrayIR.Builder.Adverb

namespace ArrayIR

namespace Shape

/-- Element type and extents of an array or scalar result. -/
def arrayParts : Shape → Except Error (ScalarTy × List Expr)
  | scalar elt _ => .ok (elt, [])
  | array elt extents => .ok (elt, extents)
  | other => .error (.shapeInference (.notArray other))

/-- The expression for an extent. -/
def knownExtent : Shape → Except Error Expr
  | scalar _ (some e) => .ok e
  | other => .error (.shapeInference (.unknownExtent other))

def known? : Shape → Option Expr
  | scalar _ known => known
  | _ => none

/-! ## Values of the caller -/

def valueBound (e : Expr) : Bound := if e.isNothing then .absent else .known e

mutual

/-- The shape of an expression of the given type of which nothing else is known. -/
def ofTyped (e : Expr) : Ty → Build Shape
  | .scalar t => pure (.scalar t (some e))
  | .nothing => pure .nothing
  | .ptr t => pure (.ptr t)
  | .array t rank => do return .array t (← Build.extents (← Build.shape e none) rank)
  | .tuple tys => do return .tuple (← ofTypedList (fun i t => .proj e i t) 0 tys)
  | .slice => pure (.slice .unknown .unknown .unknown)
  | .fn f => pure (.func f [])
  | .closure f tys => do return .func f (← ofTypedList (fun i t => .capture e i t) 0 tys)

/-- The shapes of the parts of a value, from the `i`-th on. -/
def ofTypedList (part : Nat → Ty → Expr) (i : Nat) : List Ty → Build (List Shape)
  | [] => pure []
  | t :: ts => do
    let s ← ofTyped (part i t) t
    return s :: (← ofTypedList part (i + 1) ts)

end

mutual

/-- The shape of a value that the caller has. -/
def ofValue : Expr → Build Shape
  | .tuple items (.tuple _) => do return .tuple (← ofValues items)
  | .slice start stop step .slice => pure (.slice (valueBound start) (valueBound stop) (valueBound step))
  | .fnRef _ (.closure f _) => pure (.func f [])
  | .closure _ captured (.closure f tys) =>
    if captured.length = tys.length then do return .func f (← ofValues captured)
    else fail (.malformedClosure (.captureCount captured.length tys.length))
  | e => ofTyped e e.ty

def ofValues : List Expr → Build (List Shape)
  | [] => pure []
  | e :: es => do
    let s ← ofValue e
    return s :: (← ofValues es)

end

/-! ## Indexing -/

/-- The extent of a slice of a dimension of extent `dim`. -/
def sliceExtent (dim : Expr) (start stop step : Bound) : Build Expr := do
  match step with
  | .absent => pure ()
  | .known e => if e.int? = some 1 then pure () else fail (.shapeInference .sliceStep)
  | .unknown => fail (.shapeInference .sliceStep)
  let stop ← match stop with
    | .absent => pure dim
    | .known e => Build.min e dim "slice_stop"
    | .unknown => fail (.shapeInference .unknownBound)
  match start with
  | .absent => return stop
  | .known e => Build.sub stop e "extent"
  | .unknown => fail (.shapeInference .unknownBound)

/-- The extents that stay of an array under the components of an index. -/
def indexExtents : List Expr → List Shape → Build (List Expr)
  | [], _ => pure []
  | dims, [] => pure dims
  | dim :: dims, c :: cs =>
    match c with
    | .scalar _ _ => indexExtents dims cs
    | .slice start stop step => do
      let n ← sliceExtent dim start stop step
      return n :: (← indexExtents dims cs)
    | other => fail (.shapeInference (.indexComponent other))

def components : Shape → List Shape
  | tuple items => items
  | single => [single]

/-- The item of a tuple that a constant selects. -/
def item (items : List Shape) (idx : Shape) : Build Shape :=
  match idx with
  | .scalar _ (some e) =>
    match e.int? with
    | some i =>
      match if i < 0 then none else items[i.toInt.toNat]? with
      | some s => pure s
      | none => fail (.shapeInference (.tupleIndex e))
    | none => fail (.nonConstantTupleIndex (.known e))
  | other => fail (.nonConstantTupleIndex (.shape other))

/-- The shape of an indexed value. -/
def index (x idx : Shape) : Build Shape :=
  match x with
  | .scalar _ _ => pure x
  | .tuple items => item items idx
  | .array elt dims => do
    let cs := components idx
    if dims.length < cs.length then fail (.shapeInference (.tooManyIndices cs.length dims.length))
    else
      match ← indexExtents dims cs with
      | [] => return .scalar elt none
      | extents => return .array elt extents
  | other => fail (.shapeInference (.notIndexable other))

/-! ## The domain of shapes -/

/-- How calls of functions are answered with shapes. -/
abbrev Caller := FnName → List Shape → Build Shape

def extentAlong (x : Shape) (axis : Nat) : Build Shape :=
  let found := match x with
    | .array _ dims => dims[axis]?
    | _ => none
  match found with
  | some n => pure (.scalar .i64 (some n))
  | none => fail (.axisOutOfRange axis x.rank)

def checkExtents (axis : Nat) (sizes : List Shape) : Build Unit :=
  Build.checkExtents axis (sizes.filterMap known?)

def invoke (call : Caller) (f : Shape) (args : List Shape) : Build Shape :=
  match f with
  | .func name captured => call name (captured ++ args)
  | other => fail (.malformedClosure (.notCallableShape other))

def allocLike (first : Shape) (outer : List Shape) : Build Shape := do
  let dims ← (outer.mapM knownExtent : Except Error (List Expr))
  match first with
  | .scalar elt _ => return .array elt dims
  | .array elt inner => return .array elt (dims ++ inner)
  | other => fail (.shapeInference (.adverbResult other))

/-- Shapes, as the adverbs see them. Loops that only store do not change a shape, and one step of an
accumulation stands for all of them. -/
def domain (call : Caller) : Domain Build Shape where
  rank := Shape.rank
  int i := .scalar .i64 (some (.int64 i))
  isNothing := Shape.isNothing
  wholeAxis := .slice .absent .absent (.known (.int64 1))
  tuple := .tuple
  index := index
  extent := extentAlong
  checkExtents := checkExtents
  invoke := invoke call
  loop _ _ _ := pure ()
  accumulate _ _ init body := body init (.scalar .i64 none)
  alloc := allocLike
  store _ _ _ := pure ()

/-! ## Symbolic evaluation -/

/-- The shapes of a function's variables. -/
abbrev Env := NameMap Shape

/-- A part of an array; only its extents are known to the caller. -/
def part (elt : ScalarTy) (dims : List Expr) : Field → Shape
  | .data => .ptr elt
  | .shape => .tuple (dims.map fun d => .scalar .i64 (some d))
  | .strides => .tuple (dims.map fun _ => .scalar .i64 none)
  | .offset | .size => .scalar .i64 none

/-- The element type an operation's own type names. -/
def resultTy (t : Ty) : Except Error ScalarTy :=
  match t.scalar? with
  | some s => .ok s
  | none => .error (.notAScalar t)

/-- The bound of a slice of the callee, given how its shape is found. -/
def boundOf (e : Expr) (shape : Build Shape) : Build Bound :=
  if e.isNothing then pure .absent
  else do
    match ← shape with
    | .scalar _ (some e) => return .known e
    | .nothing => return .absent
    | _ => return .unknown

mutual

/-- The shape of an expression of the callee. -/
def expr (call : Caller) (env : Env) : Expr → Build Shape
  | .var x _ =>
    match env.get? x with
    | some s => pure s
    | none => fail (.unknownVariable x)
  | .const .nothing _ => pure .nothing
  | .const c t => do return .scalar (← resultTy t) (some (.const c t))
  | .prim op args t => do
    let result ← resultTy t
    let args ← exprs call env args
    match args.mapM known? with
    | some known => return .scalar result (some (← Build.prim op known "dim"))
    | none => return .scalar result none
  | .call f args _ => do call f (← exprs call env args)
  | .index x idx _ => do
    let x ← expr call env x
    index x (← expr call env idx)
  | .proj x i _ => do
    match ← expr call env x with
    | .tuple items =>
      match items[i]? with
      | some s => return s
      | none => fail (.tupleIndexOutOfRange i x.ty)
    | _ => fail (.tupleIndexOutOfRange i x.ty)
  | .attr x field _ => do
    match ← expr call env x with
    | .array elt dims => return part elt dims field
    | _ => fail (.notAnArray x.ty)
  | .cast x t => do
    let target ← resultTy t
    match ← expr call env x with
    | .scalar _ (some e) => return .scalar target (some (← Build.cast e target))
    | .scalar _ none => return .scalar target none
    | _ => fail (.notAScalar x.ty)
  | .alloc elt _ _ => pure (.ptr elt)
  | .view _ shape _ _ _ t => do
    match t.elt? with
    | none => fail (.notAnArray t)
    | some elt =>
      match ← expr call env shape with
      | .tuple dims => return .array elt (← (dims.mapM knownExtent : Except Error (List Expr)))
      | other => fail (.shapeInference (.viewShape other))
  | .tuple items _ => do return .tuple (← exprs call env items)
  | .slice start stop step _ => do
    let start ← boundOf start (expr call env start)
    let stop ← boundOf stop (expr call env stop)
    return .slice start stop (← boundOf step (expr call env step))
  | .fnRef f _ => pure (.func f [])
  | .closure f captured _ => do return .func f (← exprs call env captured)
  | .capture c i _ => do
    match ← expr call env c with
    | .func _ captured =>
      match captured[i]? with
      | some s => return s
      | none => fail (.malformedClosure (.noCaptureTy i c.ty))
    | _ => fail (.malformedClosure (.noCaptureTy i c.ty))
  | .map f args axis _ => do
    let f ← expr call env f
    let args ← exprs call env args
    Adverb.map (domain call) f args axis
  | .reduce f combine init args axis _ => do
    let f ← expr call env f
    let combine ← expr call env combine
    let init ← optional call env init
    let args ← exprs call env args
    Adverb.reduce (domain call) f combine init args axis
  | .scan f combine emit init args axis _ => do
    let f ← expr call env f
    let combine ← expr call env combine
    let emit ← expr call env emit
    let init ← optional call env init
    let args ← exprs call env args
    Adverb.scan (domain call) f combine emit init args axis
  | .allPairs f args axis _ => do
    let f ← expr call env f
    let args ← exprs call env args
    match args with
    | [x, y] => Adverb.allPairs (domain call) f x y axis
    | _ => fail (.adverbArity "allpairs" 2 args.length)
  -- a tiled adverb has the shape of its function's result on the whole arguments
  | .tiledMap f args _ _ _ => do
    let f ← expr call env f
    invoke call f (← exprs call env args)
  | .tiledReduce f _ _ args _ _ _ => do
    let f ← expr call env f
    invoke call f (← exprs call env args)

def exprs (call : Caller) (env : Env) : List Expr → Build (List Shape)
  | [] => pure []
  | e :: es => do
    let s ← expr call env e
    return s :: (← exprs call env es)

def optional (call : Caller) (env : Env) : Option Expr → Build (Option Shape)
  | none => pure none
  | some e => do return some (← expr call env e)

end

/-- Bind the names of a merge to the shapes on entry, one after the other. -/
def mergeEntries (call : Caller) : List (VarName × Expr × Expr) → Env → Build Env
  | [], env => pure env
  | (x, entry, _) :: rest, env => do mergeEntries call rest (env.insert x (← expr call env entry))

/-- What a statement leads to: the shapes after it, or the shape returned. -/
inductive Flow where
  | next (env : Env)
  | returned (s : Shape)

mutual

def stmt (call : Caller) : Stmt → Env → Build Flow
  | .assign target value, env =>
    match target with
    | .var x _ => do return .next (env.insert x (← expr call env value))
    | _ => return .next env
  | .ret value, env => do return .returned (← expr call env value)
  | .ite _ yes no merge, env => do
    match ← block call yes env with
    | .returned s => return .returned s
    | .next env =>
      match ← block call no env with
      | .returned s => return .returned s
      | .next env => return .next (← mergeEntries call merge.toList env)
  | .whileLoop _ _ merge, env => do return .next (← mergeEntries call merge.toList env)
  | .forLoop _ _ merge, env => do return .next (← mergeEntries call merge.toList env)

def block (call : Caller) : List Stmt → Env → Build Flow
  | [], env => return .next env
  | s :: ss, env => do
    match ← stmt call s env with
    | .returned s => return .returned s
    | .next env => block call ss env

end

/-- The shape of a function's result on arguments of the given shapes. -/
def body (call : Caller) (f : Func) (args : List Shape) : Build Shape := do
  match ← block call f.body (NameMap.ofList (f.params.zip args)) with
  | .returned s => return s
  | .next _ => fail (.shapeInference (.noReturn f.name))

/-- The shape of a call, with `depth` more calls allowed inside each other. -/
def callAt : Nat → Caller
  | depth, name, args => do
    let f ← Build.lookupFn name
    if args.length ≠ f.params.length then fail (.arityMismatch name f.params.length args.length)
    else
      match depth with
      | 0 => fail (.shapeInference (.callDepth name))
      | depth + 1 => body (callAt depth) f args

/-- How deep calls may nest before the callee is taken to be recursive. -/
def maxDepth : Nat := 64

/-- The shape of the result of a call, with extents in terms of the caller's arguments. -/
def ofCall (callable : Expr) (args : List Expr) : Build Shape := do
  let f ← ofValue callable
  let args ← ofValues args
  invoke (callAt maxDepth) f args

end Shape

namespace Build

/-- Room for the results of a callable on arguments like the given ones, one at each point of the outer
extents. -/
def allocResult (callable : Expr) (inner outer : List Expr) (name : String) : Build Expr := do
  let (elt, dims) ← (← Shape.ofCall callable inner).arrayParts
  allocShaped elt (outer ++ dims) name

/-- The extent each array contributes to a cartesian product along an axis. -/
def productExtents (axis : Nat) : List Expr → Build (List Expr)
  | [] => pure []
  | x :: xs => do
    let n ← if axis < x.ty.rank then shape x (some axis) else pure (.int64 1)
    return n :: (← productExtents axis xs)

/-- The first of the expressions of highest rank. -/
def highestRank? (xs : List Expr) : Option Expr :=
  xs.foldl (fun best x =>
    match best with
    | some b => if x.ty.rank ≤ b.ty.rank then some b else some x
    | none => some x) none

/-- Room for the results of mapping a callable along an axis. In a cartesian product every array
contributes its own extent, otherwise the one of highest rank does. -/
def allocMapResult (callable : Expr) (arrays : List Expr) (axis : Nat) (product : Bool) (name : String) :
    Build Expr := do
  let inner ← arrays.mapM fun x => sliceAlong x axis (.int64 0)
  let outer ←
    if product then productExtents axis arrays
    else
      match highestRank? arrays with
      | some x =>
        if axis < x.ty.rank then do pure [← shape x (some axis)] else fail (.axisOutOfRange axis x.ty.rank)
      | none => fail (.adverbArity "map" 1 0)
  allocResult callable inner outer name

end Build

end ArrayIR
