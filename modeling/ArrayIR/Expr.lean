/-
  ArrayIR.Expr — typed expressions.

  Every expression carries its type; nothing here checks that the two fit. Besides
  the scalar and array operations there are the adverbs: operators that apply a
  callable along an axis of their arguments (`map`, `reduce`, `scan`, `allPairs`) or
  to tiles of them (`tiledMap`, `tiledReduce`).

  Traversals share one shape. `children` lists the immediate subexpressions in
  evaluation order, `withChildren` puts new ones in their places, and `fold`
  computes bottom-up from a node and the results of its children.
  - `fold_eq`: a fold is its step at the node and at the folds of the children.
  - `withChildren_children`: putting the children back changes nothing.
-/

import ArrayIR.Prim

namespace ArrayIR

inductive Const where
  | bool (b : Bool)
  | int (i : Int64)
  | float (x : Float)
  | nothing

/-- The parts of an array view. Strides are in bytes, the offset in elements. -/
inductive Field where
  | data
  | shape
  | strides
  | offset
  | size
  deriving DecidableEq, Repr

def Field.name : Field → String
  | data => "data"
  | shape => "shape"
  | strides => "strides"
  | offset => "offset"
  | size => "size"

/-- Where a tiled adverb takes its tile size from: the list the pass is given, or a tuple the caller
passes at run time. -/
inductive TilePolicy where
  | fixed
  | dynamic
  deriving DecidableEq, Repr

/-- Expressions; the last argument of every constructor is the type. -/
inductive Expr where
  | var (name : VarName) (ty : Ty)
  | const (c : Const) (ty : Ty)
  | prim (op : Prim) (args : List Expr) (ty : Ty)
  /-- A call of a registered function; the captures of a closure come first among `args`. -/
  | call (fn : FnName) (args : List Expr) (ty : Ty)
  | index (array idx : Expr) (ty : Ty)
  | proj (tuple : Expr) (i : Nat) (ty : Ty)
  | attr (array : Expr) (field : Field) (ty : Ty)
  | cast (value : Expr) (ty : Ty)
  | alloc (elt : ScalarTy) (count : Expr) (ty : Ty)
  | view (data shape strides offset size : Expr) (ty : Ty)
  | tuple (items : List Expr) (ty : Ty)
  | slice (start stop step : Expr) (ty : Ty)
  | fnRef (fn : FnName) (ty : Ty)
  | closure (fn : FnName) (captured : List Expr) (ty : Ty)
  | capture (closure : Expr) (i : Nat) (ty : Ty)
  | map (func : Expr) (args : List Expr) (axis : Nat) (ty : Ty)
  | reduce (func combine : Expr) (init : Option Expr) (args : List Expr) (axis : Nat) (ty : Ty)
  | scan (func combine emit : Expr) (init : Option Expr) (args : List Expr) (axis : Nat) (ty : Ty)
  | allPairs (func : Expr) (args : List Expr) (axis : Nat) (ty : Ty)
  | tiledMap (func : Expr) (args : List Expr) (axes : List Nat) (tile : TilePolicy) (ty : Ty)
  | tiledReduce (func combine init : Expr) (args : List Expr) (axes : List Nat) (tile : TilePolicy) (ty : Ty)

namespace Expr

def ty : Expr → Ty
  | var _ t | const _ t | prim _ _ t | call _ _ t | index _ _ t | proj _ _ t | attr _ _ t | cast _ t
  | alloc _ _ t | view _ _ _ _ _ t | tuple _ t | slice _ _ _ t | fnRef _ t | closure _ _ t | capture _ _ t
  | map _ _ _ t | reduce _ _ _ _ _ t | scan _ _ _ _ _ _ t | allPairs _ _ _ t | tiledMap _ _ _ _ t
  | tiledReduce _ _ _ _ _ _ t => t

/-! ## Building expressions -/

def int (i : Int64) (t : ScalarTy) : Expr := .const (.int i) (.scalar t)

def int64 (i : Int64) : Expr := int i .i64

def bool (b : Bool) : Expr := .const (.bool b) .bool

def nothing : Expr := .const .nothing .nothing

instance : Inhabited Expr := ⟨nothing⟩

/-- The slice from `start` to `stop` by `step`. -/
def range (start stop step : Expr) : Expr := .slice start stop step .slice

/-- The slice that selects a whole dimension. -/
def wholeAxis : Expr := range nothing nothing (int64 1)

/-- A tuple, typed by its items. -/
def tupleOf (items : List Expr) : Expr := .tuple items (.tuple (items.map ty))

/-- The index that selects every element of a value of the given rank. -/
def wholeIndex (rank : Nat) : Expr := tupleOf (List.replicate rank wholeAxis)

def fnRefTo (fn : FnName) : Expr := .fnRef fn (.fn fn)

/-- A closure, typed by its captures. -/
def closureOver (fn : FnName) (captured : List Expr) : Expr :=
  .closure fn captured (.closure fn (captured.map ty))

/-- A constant of the given element type with the value of `i`. -/
def scalar (i : Int64) : ScalarTy → Expr
  | .bool => bool (i != 0)
  | .i32 => int i .i32
  | .i64 => int i .i64
  | .f32 => .const (.float i.toFloat) (.scalar .f32)
  | .f64 => .const (.float i.toFloat) (.scalar .f64)

/-! ## Looking at expressions -/

def var? : Expr → Option VarName
  | var x _ => some x
  | _ => none

def int? : Expr → Option Int64
  | const (.int i) _ => some i
  | _ => none

def isConst : Expr → Bool
  | const _ _ => true
  | _ => false

def isNothing : Expr → Bool
  | const .nothing _ => true
  | _ => false

def isTiled : Expr → Bool
  | tiledMap .. | tiledReduce .. => true
  | _ => false

/-- The immediate subexpressions, in evaluation order. -/
@[simp] def children : Expr → List Expr
  | var _ _ | const _ _ | fnRef _ _ => []
  | prim _ args _ | call _ args _ | tuple args _ | closure _ args _ => args
  | index x y _ => [x, y]
  | proj x _ _ | attr x _ _ | cast x _ | alloc _ x _ | capture x _ _ => [x]
  | view data shape strides offset size _ => [data, shape, strides, offset, size]
  | slice start stop step _ => [start, stop, step]
  | map f args _ _ | allPairs f args _ _ | tiledMap f args _ _ _ => f :: args
  | reduce f c init args _ _ => f :: c :: (init.toList ++ args)
  | scan f c e init args _ _ => f :: c :: e :: (init.toList ++ args)
  | tiledReduce f c init args _ _ _ => f :: c :: init :: args

/-- The same node over other children. A list that does not have one entry for each child, or for a
node with a list of arguments at least one for each of the others, leaves the node as it is. -/
def withChildren : Expr → List Expr → Expr
  | prim op _ t, args => prim op args t
  | call fn _ t, args => call fn args t
  | tuple _ t, items => tuple items t
  | closure fn _ t, captured => closure fn captured t
  | index _ _ t, [x, y] => index x y t
  | proj _ i t, [x] => proj x i t
  | attr _ field t, [x] => attr x field t
  | cast _ t, [x] => cast x t
  | alloc elt _ t, [x] => alloc elt x t
  | capture _ i t, [x] => capture x i t
  | view _ _ _ _ _ t, [data, shape, strides, offset, size] => view data shape strides offset size t
  | slice _ _ _ t, [start, stop, step] => slice start stop step t
  | map _ _ axis t, f :: args => map f args axis t
  | allPairs _ _ axis t, f :: args => allPairs f args axis t
  | tiledMap _ _ axes tile t, f :: args => tiledMap f args axes tile t
  | reduce _ _ none _ axis t, f :: c :: args => reduce f c none args axis t
  | reduce _ _ (some _) _ axis t, f :: c :: init :: args => reduce f c (some init) args axis t
  | scan _ _ _ none _ axis t, f :: c :: e :: args => scan f c e none args axis t
  | scan _ _ _ (some _) _ axis t, f :: c :: e :: init :: args => scan f c e (some init) args axis t
  | tiledReduce _ _ _ _ axes tile t, f :: c :: init :: args => tiledReduce f c init args axes tile t
  | e, _ => e

@[simp] theorem withChildren_children (e : Expr) : e.withChildren e.children = e := by
  cases e with
  | reduce f c init args axis t => cases init <;> rfl
  | scan f c e init args axis t => cases init <;> rfl
  | _ => rfl

theorem ty_withChildren (e : Expr) (cs : List Expr) : (e.withChildren cs).ty = e.ty := by
  unfold withChildren
  split <;> rfl

/-! ## Induction -/

section Induction

variable {P : Expr → Prop}

mutual

/-- What holds of a node whenever it holds of its children holds of every expression. -/
theorem induction (step : ∀ e : Expr, (∀ c ∈ e.children, P c) → P e) : ∀ e, P e
  | var _ _ | const _ _ | fnRef _ _ => step _ (by simp [children])
  | prim _ args _ | call _ args _ | tuple args _ | closure _ args _ => step _ (allOf step args)
  | index x y _ => step _ (by simp [children, induction step x, induction step y])
  | proj x _ _ | attr x _ _ | cast x _ | alloc _ x _ | capture x _ _ =>
    step _ (by simp [children, induction step x])
  | view d s st o n _ =>
    step _ (by simp [children, induction step d, induction step s, induction step st, induction step o,
      induction step n])
  | slice a b c _ => step _ (by simp [children, induction step a, induction step b, induction step c])
  | map f args _ _ | allPairs f args _ _ | tiledMap f args _ _ _ =>
    step _ (by simpa [children, induction step f] using allOf step args)
  | reduce f c i args _ _ =>
    step _ (by
      simpa [children, induction step f, induction step c, or_imp, forall_and] using
        ⟨someOf step i, allOf step args⟩)
  | scan f c e i args _ _ =>
    step _ (by
      simpa [children, induction step f, induction step c, induction step e, or_imp, forall_and] using
        ⟨someOf step i, allOf step args⟩)
  | tiledReduce f c i args _ _ _ =>
    step _ (by simpa [children, induction step f, induction step c, induction step i] using allOf step args)

theorem allOf (step : ∀ e : Expr, (∀ c ∈ e.children, P c) → P e) : ∀ es : List Expr, ∀ c ∈ es, P c
  | [] => by simp
  | e :: es => by simpa [induction step e] using allOf step es

theorem someOf (step : ∀ e : Expr, (∀ c ∈ e.children, P c) → P e) : ∀ o : Option Expr, ∀ c, o = some c → P c
  | none => by simp
  | some e => by simp [induction step e]

end

end Induction

/-! ## Folds -/

section Fold

variable {β : Type}

mutual

/-- Compute bottom-up: `step` sees a node and the results of its children, in order. -/
def fold (step : Expr → List β → β) : Expr → β
  | var x t => step (var x t) []
  | const c t => step (const c t) []
  | prim op args t => step (prim op args t) (foldList step args)
  | call fn args t => step (call fn args t) (foldList step args)
  | index x y t => step (index x y t) [x.fold step, y.fold step]
  | proj x i t => step (proj x i t) [x.fold step]
  | attr x field t => step (attr x field t) [x.fold step]
  | cast x t => step (cast x t) [x.fold step]
  | alloc elt x t => step (alloc elt x t) [x.fold step]
  | view data shape strides offset size t =>
    step (view data shape strides offset size t)
      [data.fold step, shape.fold step, strides.fold step, offset.fold step, size.fold step]
  | tuple items t => step (tuple items t) (foldList step items)
  | slice start stop by_ t => step (slice start stop by_ t) [start.fold step, stop.fold step, by_.fold step]
  | fnRef fn t => step (fnRef fn t) []
  | closure fn captured t => step (closure fn captured t) (foldList step captured)
  | capture x i t => step (capture x i t) [x.fold step]
  | map f args axis t => step (map f args axis t) (f.fold step :: foldList step args)
  | reduce f c init args axis t =>
    step (reduce f c init args axis t) (f.fold step :: c.fold step :: (foldOption step init ++ foldList step args))
  | scan f c e init args axis t =>
    step (scan f c e init args axis t)
      (f.fold step :: c.fold step :: e.fold step :: (foldOption step init ++ foldList step args))
  | allPairs f args axis t => step (allPairs f args axis t) (f.fold step :: foldList step args)
  | tiledMap f args axes tile t => step (tiledMap f args axes tile t) (f.fold step :: foldList step args)
  | tiledReduce f c init args axes tile t =>
    step (tiledReduce f c init args axes tile t)
      (f.fold step :: c.fold step :: init.fold step :: foldList step args)

def foldList (step : Expr → List β → β) : List Expr → List β
  | [] => []
  | e :: es => e.fold step :: foldList step es

def foldOption (step : Expr → List β → β) : Option Expr → List β
  | none => []
  | some e => [e.fold step]

end

theorem foldList_eq (step : Expr → List β → β) (es : List Expr) : foldList step es = es.map (fold step) := by
  induction es with
  | nil => rfl
  | cons e es ih => simp [foldList, ih]

theorem foldOption_eq (step : Expr → List β → β) (o : Option Expr) :
    foldOption step o = o.toList.map (fold step) := by
  cases o <;> rfl

/-- A fold is its step at the node and at the folds of the children. -/
theorem fold_eq (step : Expr → List β → β) (e : Expr) : e.fold step = step e (e.children.map (fold step)) := by
  cases e <;> simp [fold, children, foldList_eq, foldOption_eq]

end Fold

/-- The expression and everything nested in it, each node before its children. -/
def subterms : Expr → List Expr := fold fun e below => e :: below.flatten

theorem subterms_eq (e : Expr) : e.subterms = e :: e.children.flatMap subterms := by
  rw [subterms, fold_eq, List.flatMap_def]

end Expr

end ArrayIR
