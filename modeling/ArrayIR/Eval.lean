/-
  ArrayIR.Eval — the interpreter.

  Expressions are evaluated to values, statements change the locals or return.
  Fuel bounds the depth of nested calls and the number of iterations of each `while`
  loop, and nothing else: expressions, blocks and counted loops end by themselves.
  Running out of it is a fault of its own, never an answer.

  `Session.call` is the whole interpreter: the functions above it are given the call
  of the next level as an argument, so each of them recurses on the program alone.
-/

import ArrayIR.Adverb
import ArrayIR.Session
import ArrayIR.View

namespace ArrayIR

/-- The values of a function's variables. -/
abbrev Locals := NameMap Value

/-- How calls of functions are answered. -/
abbrev Caller := FnName → List Value → Exec Value

namespace Value

def asScalar : Value → Except Error Scalar
  | scalar x => .ok x
  | other => .error (.runtime (.notScalar other))

def asInt (v : Value) : Except Error Int64 := do (← v.asScalar).asInt

/-- The integer of a slice bound, if it is there. -/
def asBound : Value → Except Error (Option Int64)
  | nothing => .ok none
  | other => do return some (← other.asInt)

def asScalars (vs : List Value) : Except Error (List Scalar) := vs.mapM asScalar

/-- The integers of several values. -/
def asIntList (vs : List Value) : Except Error (List Int64) := vs.mapM asInt

/-- The integers of a tuple. -/
def asInts : Value → Except Error (List Int64)
  | tuple items => asIntList items
  | other => .error (.runtime (.notTuple other))

end Value

namespace Eval

/-! ## The domain of values -/

/-- Indexing a scalar gives the scalar, a tuple its item, an array what the index selects. -/
def index (x idx : Value) : Exec Value :=
  match x with
  | .scalar _ => pure x
  | .tuple items => do
    let i ← idx.asInt
    match if i < 0 then none else items[i.toInt.toNat]? with
    | some v => return v
    | none => fail (.runtime (.tupleIndex i))
  | .array v => do v.read (← get) idx
  | other => fail (.runtime (.notIndexable other))

def extentAlong (x : Value) (axis : Nat) : Exec Value :=
  match x.shape[axis]? with
  | some n => pure (.ofInt n)
  | none => fail (.axisOutOfRange axis x.rank)

def checkExtents (axis : Nat) (sizes : List Value) : Exec Unit := do
  let sizes ← Value.asIntList sizes
  if (sizes.zip sizes.tail).any fun (a, b) => a != b then fail (.axisSizeMismatch axis sizes)

def invoke (call : Caller) (f : Value) (args : List Value) : Exec Value :=
  match f with
  | .closure name captured => call name (captured ++ args)
  | other => fail (.malformedClosure (.notCallable other))

/-- Thread a state through `count` integers from `i` on. -/
def countUp {α : Type} (body : α → Int → Exec α) : Nat → Int → α → Exec α
  | 0, _, a => pure a
  | n + 1, i, a => do countUp body n (i + 1) (← body a i)

/-- Thread a state through the integers from `start` up to `stop`. -/
def forRange {α : Type} (start stop : Value) (a : α) (body : α → Int → Exec α) : Exec α := do
  let lo := (← start.asInt).toInt
  let hi := (← stop.asInt).toInt
  countUp body (hi - lo).toNat lo a

def alloc (first : Value) (outer : List Value) : Exec Value := do
  let outer ← Value.asIntList outer
  let outer := outer.map (·.toInt)
  match first with
  | .scalar x => return .array (← View.zeroed x.ty outer)
  | .array v => return .array (← View.zeroed v.elt (outer ++ v.shape))
  | other => fail (.runtime (.adverbResult other))

def store (array idx value : Value) : Exec Unit :=
  match array with
  | .array v => v.write idx value
  | other => fail (.runtime (.storeTarget other))

/-- Running values, as the adverbs see them. -/
def domain (call : Caller) : Domain Exec Value where
  rank := Value.rank
  int := Value.int
  isNothing := Value.isNothing
  wholeAxis := Value.wholeAxis
  tuple := Value.tuple
  index := index
  extent := extentAlong
  checkExtents := checkExtents
  invoke := invoke call
  loop start stop body := forRange start stop () fun _ i => body (.ofInt i)
  accumulate start stop init body := forRange start stop init fun acc i => body acc (.ofInt i)
  alloc := alloc
  store := store

/-! ## Tiled reductions -/

/-- The initial value, repeated over the leading extents of a tile's result. -/
def broadcastLike (init like : Value) : Exec Value :=
  match like with
  | .array v => do
    let result ← View.zeroed v.elt v.shape
    result.write (.tuple []) init
    return .array result
  | _ => pure init

/-- Fold over tiles of extent one, in order. The first tile's result shapes the accumulator. -/
def tiledReduce (call : Caller) (f combine init : Value) (args : List Value) (axes : List Nat) : Exec Value :=
  match args, axes with
  | first :: _, axis :: _ => do
    let n := (← (← extentAlong first axis).asInt).toInt
    let acc ← countUp (fun acc i => do
      let tile := Value.slice (some (Int64.ofInt i)) (some (Int64.ofInt (i + 1))) 1
      let tiles ← (args.zip axes).mapM fun (x, axis) => Adverb.sliceAlong (domain call) x axis tile
      let result ← invoke call f tiles
      let current ← match acc with
        | some acc => pure acc
        | none => broadcastLike init result
      return some (← invoke call combine [current, result])) n.toNat 0 none
    return acc.getD init
  | _, _ => fail (.adverbArity "tiled reduce" 1 0)

/-! ## Expressions -/

/-- A part of an array view, strides in bytes. -/
def viewPart (v : View) : Field → Value
  | .data => .buffer v.elt v.buffer
  | .shape => .tuple (v.shape.map Value.ofInt)
  | .strides => .tuple (v.strides.map fun s => Value.ofInt (s * v.elt.bytes))
  | .offset => .ofInt v.offset
  | .size => .ofInt v.length

/-- The element type an operation's own type names. -/
def resultTy (t : Ty) : Except Error ScalarTy :=
  match t.scalar? with
  | some s => .ok s
  | none => .error (.notAScalar t)

def constant (c : Const) (t : Ty) : Value :=
  match c with
  | .nothing => .nothing
  | .bool b => .bool b
  | .int i => .scalar ((Scalar.int i).convert (t.scalar?.getD .i64))
  | .float x => .float x

mutual

/-- Evaluate an expression. -/
def expr (call : Caller) (locals : Locals) : Expr → Exec Value
  | .var x _ =>
    match locals.get? x with
    | some v => pure v
    | none => fail (.unknownVariable x)
  | .const c t => pure (constant c t)
  | .prim op args t => do
    let args ← exprs call locals args
    let args ← Value.asScalars args
    return .scalar (← op.eval args (← resultTy t))
  | .call fn args _ => do call fn (← exprs call locals args)
  | .index x idx _ => do
    let x ← expr call locals x
    index x (← expr call locals idx)
  | .proj x i _ => do
    let v ← expr call locals x
    match v with
    | .tuple items =>
      match items[i]? with
      | some item => return item
      | none => fail (.runtime (.noItem i v))
    | _ => fail (.runtime (.noItem i v))
  | .attr x field _ => do
    match ← expr call locals x with
    | .array v => return viewPart v field
    | _ => fail (.notAnArray x.ty)
  | .cast x t => do
    let s ← (← expr call locals x).asScalar
    return .scalar (s.convert (← resultTy t))
  | .alloc elt count _ => do
    let n ← (← expr call locals count).asInt
    if n < 0 then fail (.runtime (.allocation n))
    else
      let b ← modifyGet (·.alloc (List.replicate n.toInt.toNat (Scalar.zero elt)).toArray)
      return .buffer elt b
  | .view data shape strides offset _ _ => do
    match ← expr call locals data with
    | .buffer elt b =>
      let shape ← (← expr call locals shape).asInts
      let strides ← (← expr call locals strides).asInts
      let offset ← (← expr call locals offset).asInt
      return .array
        { elt := elt, buffer := b, shape := shape.map (·.toInt)
          strides := strides.map fun s => s.toInt.tdiv elt.bytes, offset := offset.toInt }
    | other => fail (.runtime (.notBuffer other))
  | .tuple items _ => do return .tuple (← exprs call locals items)
  | .slice start stop step _ => do
    let start ← (← expr call locals start).asBound
    let stop ← (← expr call locals stop).asBound
    let step ← (← expr call locals step).asBound
    return .slice start stop (step.getD 1)
  | .fnRef fn _ => pure (.closure fn [])
  | .closure fn captured _ => do return .closure fn (← exprs call locals captured)
  | .capture c i _ => do
    let v ← expr call locals c
    match v with
    | .closure _ captured =>
      match captured[i]? with
      | some x => return x
      | none => fail (.malformedClosure (.noCapture i v))
    | _ => fail (.malformedClosure (.noCapture i v))
  | .map f args axis _ => do
    let f ← expr call locals f
    let args ← exprs call locals args
    Adverb.map (domain call) f args axis
  | .reduce f combine init args axis _ => do
    let f ← expr call locals f
    let combine ← expr call locals combine
    let init ← optional call locals init
    let args ← exprs call locals args
    Adverb.reduce (domain call) f combine init args axis
  | .scan f combine emit init args axis _ => do
    let f ← expr call locals f
    let combine ← expr call locals combine
    let emit ← expr call locals emit
    let init ← optional call locals init
    let args ← exprs call locals args
    Adverb.scan (domain call) f combine emit init args axis
  | .allPairs f args axis _ => do
    let f ← expr call locals f
    let args ← exprs call locals args
    match args with
    | [x, y] => Adverb.allPairs (domain call) f x y axis
    | _ => fail (.adverbArity "allpairs" 2 args.length)
  | .tiledMap f args _ _ _ => do
    let f ← expr call locals f
    invoke call f (← exprs call locals args)
  | .tiledReduce f combine init args axes _ _ => do
    let f ← expr call locals f
    let combine ← expr call locals combine
    let init ← expr call locals init
    let args ← exprs call locals args
    tiledReduce call f combine init args axes

/-- Evaluate expressions in order. -/
def exprs (call : Caller) (locals : Locals) : List Expr → Exec (List Value)
  | [] => pure []
  | e :: es => do
    let v ← expr call locals e
    return v :: (← exprs call locals es)

def optional (call : Caller) (locals : Locals) : Option Expr → Exec (Option Value)
  | none => pure none
  | some e => do return some (← expr call locals e)

end

/-! ## Statements -/

/-- What a statement leads to: the locals after it, or the value returned. -/
inductive Flow where
  | next (locals : Locals)
  | returned (v : Value)

/-- The values flowing into a merge from one side, all read before any name is bound. -/
def mergeValues (call : Caller) (locals : Locals) (side : Expr × Expr → Expr) :
    List (VarName × Expr × Expr) → Exec (List (VarName × Value))
  | [] => pure []
  | (x, sides) :: rest => do
    let v ← expr call locals (side sides)
    return (x, v) :: (← mergeValues call locals side rest)

/-- Bind the names of a merge to the values of one side. -/
def bindMerge (call : Caller) (merge : Merge) (side : Expr × Expr → Expr) (locals : Locals) : Exec Locals := do
  return locals.insertAll (← mergeValues call locals side merge.toList)

def condition (call : Caller) (locals : Locals) (cond : Expr) : Exec Bool := do
  match ← expr call locals cond with
  | .scalar (.bool b) => return b
  | other => fail (.runtime (.notCondition other))

/-- Iterate while the test holds, at most `fuel` times. -/
def iterate (test : Locals → Exec Bool) (body : Locals → Exec Flow) (again : Locals → Exec Locals) :
    Nat → Locals → Exec Flow
  | fuel, locals => do
    if ← test locals then
      match fuel with
      | 0 => throw .exhausted
      | fuel + 1 =>
        match ← body locals with
        | .returned v => return .returned v
        | .next locals => iterate test body again fuel (← again locals)
    else return .next locals

/-- How many times a counted loop runs. -/
def tripCount (start stop step : Int) : Nat :=
  if 0 < step then ((stop - start + step - 1) / step).toNat
  else if step < 0 then ((start - stop - step - 1) / (-step)).toNat
  else 0

/-- Run a counted loop `count` more times, from counter value `i` on. -/
def repeatCounted (var : VarName) (step : Int) (body : Locals → Exec Flow) (again : Locals → Exec Locals) :
    Nat → Int → Locals → Exec Flow
  | 0, _, locals => return .next locals
  | count + 1, i, locals => do
    match ← body (locals.insert var (.ofInt i)) with
    | .returned v => return .returned v
    | .next locals => repeatCounted var step body again count (i + step) (← again locals)

mutual

/-- Execute a statement. -/
def stmt (call : Caller) (fuel : Nat) : Stmt → Locals → Exec Flow
  | .assign target value, locals => do
    let v ← expr call locals value
    match target with
    | .var x _ => return .next (locals.insert x v)
    | .index array idx _ =>
      let array ← expr call locals array
      let idx ← expr call locals idx
      store array idx v
      return .next locals
    | _ => fail (.runtime .assignTarget)
  | .ret value, locals => do return .returned (← expr call locals value)
  | .ite cond yes no merge, locals => do
    if ← condition call locals cond then
      match ← block call fuel yes locals with
      | .returned v => return .returned v
      | .next locals => return .next (← bindMerge call merge Prod.fst locals)
    else
      match ← block call fuel no locals with
      | .returned v => return .returned v
      | .next locals => return .next (← bindMerge call merge Prod.snd locals)
  | .whileLoop cond body merge, locals => do
    let locals ← bindMerge call merge Prod.fst locals
    iterate (condition call · cond) (block call fuel body) (bindMerge call merge Prod.snd) fuel locals
  | .forLoop c body merge, locals => do
    let start ← (← expr call locals c.start).asInt
    let stop ← (← expr call locals c.stop).asInt
    let step ← (← expr call locals c.step).asInt
    if step = 0 then fail (.runtime .zeroStep)
    else
      let locals ← bindMerge call merge Prod.fst locals
      repeatCounted c.var step.toInt (block call fuel body) (bindMerge call merge Prod.snd)
        (tripCount start.toInt stop.toInt step.toInt) start.toInt locals

/-- Execute statements in order, up to the first that returns. -/
def block (call : Caller) (fuel : Nat) : List Stmt → Locals → Exec Flow
  | [], locals => return .next locals
  | s :: ss, locals => do
    match ← stmt call fuel s locals with
    | .returned v => return .returned v
    | .next locals => block call fuel ss locals

end

/-- Run the body of a function on argument values. -/
def body (call : Caller) (fuel : Nat) (f : Func) (args : List Value) : Exec Value := do
  match ← block call fuel f.body (NameMap.ofList (f.params.zip args)) with
  | .returned v => return v
  | .next _ => fail (.runtime (.noReturn f.name))

end Eval

/-- Call a registered function. Fuel bounds the nesting of calls and the iterations of each `while`. -/
def Session.call (s : Session) : Nat → Caller
  | 0, _, _ => throw .exhausted
  | fuel + 1, name, args => do
    let f ← s.lookup name
    if args.length ≠ f.params.length then fail (.arityMismatch name f.params.length args.length)
    else Eval.body (s.call fuel) fuel f args

end ArrayIR
