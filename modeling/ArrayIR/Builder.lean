/-
  ArrayIR.Builder — emitting statements.

  A builder holds the session, the types of the names declared so far and the
  statements of the scope being built. Its operations append to that scope, bind
  what they compute to fresh temporaries and return an expression for it. One that
  fails keeps what it has appended and the names it has taken; only a nested scope
  is given up whole.

  Operations on integer constants are folded where the exact result fits 64 bits.
-/

import ArrayIR.Session
import ArrayIR.Expr.Text

namespace ArrayIR

structure Builder where
  session : Session
  env : TypeEnv
  block : Block

/-- Computations that emit code. -/
abbrev Build := EStateM Fault Builder

namespace Build

/-- Run a computation over the builder's session. -/
def compile {α : Type} (c : Compile α) : Build α := fun b =>
  match c b.session with
  | .ok a s => .ok a { b with session := s }
  | .error e s => .error e { b with session := s }

/-! ## Names and scopes -/

/-- Declare the type of a name. -/
def declare (x : VarName) (t : Ty) : Build Expr := do
  modify fun b => { b with env := b.env.insert x t }
  return .var x t

/-- A name not used before, on the stem of `name`. -/
def freshName (name : String) : Build String :=
  modifyGet fun b =>
    let (x, s) := b.session.fresh name
    (x, { b with session := s })

/-- Declare a fresh variable. -/
def freshVar (t : Ty) (name : String) : Build Expr := do declare (← freshName name) t

def lookupTy (x : VarName) : Build Ty := do
  match (← get).env.get? x with
  | some t => return t
  | none => fail (.unknownVariable x)

def lookupFn (f : FnName) : Build Func := do (← get).session.lookup f

/-- Append a statement. -/
def emit (s : Stmt) : Build Unit := modify fun b => { b with block := b.block ++ [s] }

/-- Build a scope of its own, and return its statements with the result. The enclosing scope stays as it
was, also when the inner one fails. -/
def nested {α : Type} (inner : Build α) : Build (Block × α) := fun b =>
  match inner { b with block := [] } with
  | .ok a b' => .ok (b'.block, a) { b' with block := b.block }
  | .error e b' => .error e { b' with block := b.block }

def assign (target value : Expr) : Build Unit := emit (.assign target value)

/-- Bind a value to a fresh temporary. -/
def temp (value : Expr) (name : String) : Build Expr := do
  let x ← freshVar value.ty name
  assign x value
  return x

/-! ## Scalars -/

/-- Convert a scalar to an element type; constants are converted on the spot. -/
def cast (value : Expr) (target : ScalarTy) : Build Expr :=
  match value.ty.scalar? with
  | none => fail (.notAScalar value.ty)
  | some source =>
    if source = target then pure value
    else
      match value with
      | .const (.int i) _ => pure (.scalar i target)
      | .const (.bool b) _ => pure (.scalar (if b then 1 else 0) target)
      | _ => temp (.cast value (.scalar target)) "cast"

/-- Bring a value to a type: scalars are cast, anything else must have it already. -/
def coerce (value : Expr) (target : Ty) (context : String) : Build Expr :=
  if value.ty = target then pure value
  else
    match value.ty, target with
    | .scalar _, .scalar t => cast value t
    | _, _ => fail (.typeMismatch context target value.ty)

/-- The integer as 64 bits, if it fits. -/
def fits? (i : Int) : Option Int64 :=
  if Int64.minValue.toInt ≤ i ∧ i ≤ Int64.maxValue.toInt then some (Int64.ofInt i) else none

/-- A primitive on two integer constants, if it can be folded. -/
def foldInts? (p : Prim) (x y : Int64) : Option Int64 :=
  match p with
  | .add => fits? (x.toInt + y.toInt)
  | .sub => fits? (x.toInt - y.toInt)
  | .mul => fits? (x.toInt * y.toInt)
  | .div => if y = 0 then none else fits? (x.toInt.tdiv y.toInt)
  | .min => some (if x ≤ y then x else y)
  | .max => some (if x ≤ y then y else x)
  | _ => none

/-- The constant that two operands fold to. -/
def folded? (p : Prim) : List Expr → Option Int64
  | [x, y] => do foldInts? p (← x.int?) (← y.int?)
  | _ => none

/-- The element types of scalar operands. -/
def operandTys : List Expr → Except Error (List ScalarTy)
  | [] => .ok []
  | e :: es =>
    match e.ty.scalar? with
    | some t => do return t :: (← operandTys es)
    | none => .error (.notAScalar e.ty)

/-- Cast operands, each to its type. -/
def castAll : List (Expr × ScalarTy) → Build (List Expr)
  | [] => pure []
  | (e, t) :: rest => do
    let e ← cast e t
    return e :: (← castAll rest)

/-- An integer constant. Its type is asserted to be one of integers. -/
def literal (i : Int64) (t : ScalarTy) : Build Expr := if t.isInt then pure (.int i t) else throw .broken

/-- Apply a primitive, with its operands cast to their common type. -/
def prim (p : Prim) (args : List Expr) (name : String) : Build Expr := do
  let operands := p.operandTys (← operandTys args)
  let args ← castAll (args.zip operands)
  let result := p.resultTy operands
  match folded? p args with
  | some i => literal i result
  | none => temp (.prim p args (.scalar result)) name

def add (x y : Expr) (name : String) : Build Expr := prim .add [x, y] name
def sub (x y : Expr) (name : String) : Build Expr := prim .sub [x, y] name
def mul (x y : Expr) (name : String) : Build Expr := prim .mul [x, y] name
def div (x y : Expr) (name : String) : Build Expr := prim .div [x, y] name
def min (x y : Expr) (name : String) : Build Expr := prim .min [x, y] name
def lte (x y : Expr) (name : String) : Build Expr := prim .lte [x, y] name

/-- The product from left to right; of nothing it is one. -/
def prod (values : List Expr) (name : String) : Build Expr :=
  match values with
  | [] => pure (.int64 1)
  | v :: vs => vs.foldlM (fun acc v => mul acc v name) v

/-! ## Tuples and arrays -/

/-- An item of a tuple; that of a literal tuple is the item itself. -/
def proj (tuple : Expr) (i : Nat) : Build Expr :=
  match tuple.ty.items? with
  | none => fail (.typeMismatch "tuple projection" (.tuple []) tuple.ty)
  | some tys =>
    match tys[i]? with
    | none => fail (.tupleIndexOutOfRange i tuple.ty)
    | some t =>
      match tuple with
      | .tuple items _ =>
        match items[i]? with
        | some item => pure item
        | none => temp (.proj tuple i t) "elt"
      | _ => temp (.proj tuple i t) "elt"

/-- Index a value. A scalar is all of its elements, so that adverbs broadcast it; a tuple takes constant
indices only. -/
def index (x idx : Expr) (name : String) : Build Expr :=
  match x.ty with
  | .scalar _ => pure x
  | .tuple _ =>
    match idx.int? with
    | some i => if 0 ≤ i then proj x i.toInt.toNat else fail (.nonConstantTupleIndex (.code idx))
    | none => fail (.nonConstantTupleIndex (.code idx))
  | t =>
    match t.indexTy idx.ty with
    | some result => temp (.index x idx result) name
    | none => fail (.invalidIndex t idx.ty)

/-- A part of an array. -/
def attr (array : Expr) (field : Field) : Build Expr :=
  match array.ty with
  | .array elt rank =>
    let t := match field with
      | .data => .ptr elt
      | .shape | .strides => Ty.extents rank
      | .offset | .size => .i64
    temp (.attr array field t) field.name
  | other => fail (.notAnArray other)

/-- A whole part of an array, or its entry for one axis. -/
def attrAlong (array : Expr) (field : Field) (axis : Option Nat) : Build Expr := do
  let tuple ← attr array field
  match axis with
  | none => return tuple
  | some axis =>
    if array.ty.rank ≤ axis then fail (.axisOutOfRange axis array.ty.rank) else proj tuple axis

/-- The extents of an array, or the one along an axis. -/
def shape (array : Expr) (axis : Option Nat) : Build Expr := attrAlong array .shape axis

/-- The strides of an array in bytes, or the one along an axis. -/
def strides (array : Expr) (axis : Option Nat) : Build Expr := attrAlong array .strides axis

/-- Strides in bytes of a row-major array, from the last axis outwards. -/
def rowMajorStrides (elt : ScalarTy) : List Expr → Build (List Expr)
  | [] => pure []
  | [_] => pure [.int64 (Int64.ofNat elt.bytes)]
  | _ :: d :: ds => do
    let inner ← rowMajorStrides elt (d :: ds)
    let s ← mul (inner.head?.getD (.int64 1)) d "stride"
    return s :: inner

/-- A fresh row-major array. With no extents it is a variable of the element type, for the caller to
define. -/
def allocShaped (elt : ScalarTy) (dims : List Expr) (name : String) : Build Expr := do
  if dims.isEmpty then freshVar (.scalar elt) name
  else
    let dims ← castAll (dims.map (·, .i64))
    let count ← prod dims "nelts"
    let data ← temp (.alloc elt count (.ptr elt)) "data"
    let strides ← rowMajorStrides elt dims
    temp (.view data (.tupleOf dims) (.tupleOf strides) (.int64 0) count (.array elt dims.length)) name

def allocArray (elt : ScalarTy) (length : Expr) (name : String) : Build Expr :=
  allocShaped elt [length] name

/-- What is stored into a region of type `region`: a scalar is cast and fills it, an array must have its
type. -/
def stored (region : Ty) (value : Expr) : Build Expr :=
  match region, value.ty with
  | .scalar t, .scalar _ => cast value t
  | .array elt _, .scalar _ => cast value elt
  | _, actual => if region = actual then pure value else fail (.typeMismatch "array store" region actual)

/-- Store into an array in place. -/
def setIndex (array idx value : Expr) : Build Unit :=
  match array.ty.indexTy idx.ty with
  | none => fail (.invalidIndex array.ty idx.ty)
  | some region => do
    let value ← stored region value
    emit (.assign (.index array idx region) value)

/-! ## Calls -/

/-- The function a callable refers to. -/
def callee (callable : Expr) : Build Func :=
  match callable.ty.callee? with
  | some (f, _) => lookupFn f
  | none => fail (.malformedClosure (.notCallableTy callable.ty))

/-- The values a callable passes ahead of its arguments: those of a literal closure as they stand, those
of another one as projections out of it. -/
def captures (callable : Expr) : Except Error (List Expr) :=
  match callable, callable.ty with
  | .fnRef _ _, _ => .ok []
  | _, .fn _ => .ok []
  | .closure _ captured _, .closure _ tys =>
    if captured.length = tys.length then .ok captured
    else .error (.malformedClosure (.captureCount captured.length tys.length))
  | _, .closure _ tys => .ok (tys.zipIdx.map fun (t, i) => .capture callable i t)
  | _, other => .error (.malformedClosure (.notCallableTy other))

mutual

/-- Whether a value of the first type can be passed where the second is expected. The types of callables
name functions, which every pass renames, so any callable can stand for any other. -/
def compatible : Ty → Ty → Bool
  | .fn _, .fn _ | .fn _, .closure _ _ | .closure _ _, .fn _ | .closure _ _, .closure _ _ => true
  | .tuple as, .tuple fs => compatibleAll as fs
  | a, f => a = f

def compatibleAll : List Ty → List Ty → Bool
  | [], [] => true
  | a :: as, f :: fs => compatible a f && compatibleAll as fs
  | _, _ => false

end

/-- Bring arguments to the types of the parameters. -/
def passAll : List (Expr × Ty) → Build (List Expr)
  | [] => pure []
  | (e, t) :: rest => do
    let e ← if compatible e.ty t then pure e else coerce e t "call argument"
    return e :: (← passAll rest)

/-- Call a callable. -/
def call (callable : Expr) (args : List Expr) (name : String) : Build Expr := do
  let f ← callee callable
  let args := (← captures callable) ++ args
  if args.length ≠ f.params.length then fail (.arityMismatch f.name f.params.length args.length)
  else
    let args ← passAll (args.zip f.paramTys)
    temp (.call f.name args f.result) name

/-! ## Loops -/

/-- A counter for a `while` loop: its name, the name for its next value, and the merge of the two. -/
def loopCounter (name : String) (start : Expr) : Build (Expr × Expr × Merge) := do
  let x ← freshName name
  let counter ← declare x start.ty
  let after ← freshVar start.ty (name ++ "_after")
  return (counter, after, NameMap.empty.insert x (start, after))

/-- Emit a counted loop around the code that `body` emits for its counter. -/
def forLoop {α : Type} (start stop step : Expr) (merge : Merge) (body : Expr → Build α) : Build α := do
  let start ← cast start .i64
  let stop ← cast stop .i64
  let step ← cast step .i64
  let var ← freshName "i"
  let counter ← declare var .i64
  let (block, a) ← nested (body counter)
  emit (.forLoop ⟨var, start, stop, step⟩ block merge)
  return a

end Build

end ArrayIR
