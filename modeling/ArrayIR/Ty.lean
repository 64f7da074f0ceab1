/-
  ArrayIR.Ty — the types of the array language.

  A value is a scalar of one of five element types, an array of some element type
  and rank, a raw buffer, a tuple, a slice, a callable, or nothing. Array types
  carry the rank only; extents are run-time data. A callable's type names its
  function and the types of what it captured.

  - `Ty.indexTy`: an integer index drops a dimension, a slice keeps it, and a tuple
    of these acts dimension by dimension; the other dimensions stay.
  - `Ty.decEq`: equality of types is decided structurally.
-/

import ArrayIR.NameMap

namespace ArrayIR

/-- The name of a variable. -/
abbrev VarName := String

/-- The name of a function. -/
abbrev FnName := String

/-! ## Element types -/

inductive ScalarTy where
  | bool
  | i32
  | i64
  | f32
  | f64
  deriving DecidableEq, Repr, Inhabited

namespace ScalarTy

/-- Element types in order of width, integers before floats. -/
def index : ScalarTy → Nat
  | bool => 0
  | i32 => 1
  | i64 => 2
  | f32 => 3
  | f64 => 4

instance : Ord ScalarTy := ⟨fun a b => compare a.index b.index⟩

/-- The size of an element in bytes. -/
def bytes : ScalarTy → Nat
  | bool => 1
  | i32 | f32 => 4
  | i64 | f64 => 8

def isInt : ScalarTy → Bool
  | i32 | i64 => true
  | _ => false

def isFloat : ScalarTy → Bool
  | f32 | f64 => true
  | _ => false

/-- The smallest element type that holds the range of both. An `i64` does not fit the mantissa of an
`f32`, so the two meet in `f64`. -/
def combine : ScalarTy → ScalarTy → ScalarTy
  | f64, _ | _, f64 => f64
  | f32, i64 | i64, f32 => f64
  | f32, _ | _, f32 => f32
  | i64, _ | _, i64 => i64
  | i32, _ | _, i32 => i32
  | bool, bool => bool

def text : ScalarTy → String
  | bool => "bool"
  | i32 => "i32"
  | i64 => "i64"
  | f32 => "f32"
  | f64 => "f64"

end ScalarTy

/-! ## Types -/

inductive Ty where
  | scalar (elt : ScalarTy)
  | nothing
  /-- A raw buffer, as an allocation returns it. -/
  | ptr (elt : ScalarTy)
  | array (elt : ScalarTy) (rank : Nat)
  | tuple (items : List Ty)
  /-- A start, a stop and a step, the first two possibly absent. -/
  | slice
  | fn (name : FnName)
  | closure (name : FnName) (captured : List Ty)
  deriving Repr, Inhabited

namespace Ty

abbrev bool : Ty := .scalar .bool
abbrev i64 : Ty := .scalar .i64

mutual

def same : Ty → Ty → Bool
  | scalar a, scalar b => a = b
  | nothing, nothing => true
  | ptr a, ptr b => a = b
  | array a r, array b q => a = b && r = q
  | tuple as, tuple bs => sameList as bs
  | slice, slice => true
  | fn f, fn g => f = g
  | closure f as, closure g bs => f = g && sameList as bs
  | _, _ => false

def sameList : List Ty → List Ty → Bool
  | [], [] => true
  | a :: as, b :: bs => a.same b && sameList as bs
  | _, _ => false

end

mutual

theorem eq_of_same : ∀ {a b : Ty}, a.same b = true → a = b
  | scalar _, b, h => by cases b <;> simp_all [same]
  | nothing, b, h => by cases b <;> simp_all [same]
  | ptr _, b, h => by cases b <;> simp_all [same]
  | array _ _, b, h => by cases b <;> simp_all [same]
  | tuple as, b, h => by
    cases b with
    | tuple bs => exact congrArg tuple (eq_of_sameList (by simpa [same] using h))
    | _ => simp [same] at h
  | slice, b, h => by cases b <;> simp_all [same]
  | fn _, b, h => by cases b <;> simp_all [same]
  | closure f as, b, h => by
    cases b with
    | closure g bs =>
      simp only [same, Bool.and_eq_true, decide_eq_true_eq] at h
      rw [h.1, eq_of_sameList h.2]
    | _ => simp [same] at h

theorem eq_of_sameList : ∀ {as bs : List Ty}, sameList as bs = true → as = bs
  | [], [], _ => rfl
  | [], _ :: _, h => by simp [sameList] at h
  | _ :: _, [], h => by simp [sameList] at h
  | a :: as, b :: bs, h => by
    simp only [sameList, Bool.and_eq_true] at h
    rw [eq_of_same h.1, eq_of_sameList h.2]

end

mutual

theorem same_self : ∀ a : Ty, a.same a = true
  | scalar _ | nothing | ptr _ | array _ _ | slice | fn _ => by simp [same]
  | tuple as => by simp [same, sameList_self as]
  | closure f as => by simp [same, sameList_self as]

theorem sameList_self : ∀ as : List Ty, sameList as as = true
  | [] => rfl
  | a :: as => by simp [sameList, same_self a, sameList_self as]

end

theorem same_iff {a b : Ty} : a.same b = true ↔ a = b :=
  ⟨eq_of_same, fun h => h ▸ same_self a⟩

instance decEq : DecidableEq Ty := fun _ _ => decidable_of_iff _ same_iff

/-- Arrays of rank zero are their element type. -/
def ofRank (elt : ScalarTy) (rank : Nat) : Ty :=
  if rank = 0 then .scalar elt else .array elt rank

/-- The type of the shape, and of the strides, of an array. -/
def extents (rank : Nat) : Ty := .tuple (List.replicate rank i64)

def rank : Ty → Nat
  | array _ rank => rank
  | _ => 0

def isInt : Ty → Bool
  | scalar s => s.isInt
  | _ => false

def scalar? : Ty → Option ScalarTy
  | scalar s => some s
  | _ => none

/-- The element type of a scalar, an array or a buffer. -/
def elt? : Ty → Option ScalarTy
  | scalar s | array s _ | ptr s => some s
  | _ => none

def items? : Ty → Option (List Ty)
  | tuple items => some items
  | _ => none

/-- The function that a callable refers to, and the types of what it captured. -/
def callee? : Ty → Option (FnName × List Ty)
  | fn name => some (name, [])
  | closure name captured => some (name, captured)
  | _ => none

def isCallable (t : Ty) : Bool := t.callee?.isSome

mutual

/-- Whether a value of this type can live in a register: no array anywhere in it. -/
def isSimple : Ty → Bool
  | tuple items => allSimple items
  | array _ _ => false
  | _ => true

def allSimple : List Ty → Bool
  | [] => true
  | t :: ts => t.isSimple && allSimple ts

end

/-- How many dimensions one index component drops, if it is one. -/
def dropped? : Ty → Option Nat
  | scalar s => if s.isInt then some 1 else none
  | slice => some 0
  | _ => none

/-- How many dimensions the components of an index drop together. -/
def droppedAll? : List Ty → Option Nat
  | [] => some 0
  | t :: ts => do return (← t.dropped?) + (← droppedAll? ts)

/-- The type of an array indexed by a value of type `idx`. -/
def indexTy (t idx : Ty) : Option Ty :=
  match t with
  | array elt rank => do
    let dropped ← match idx with
      | tuple items => if rank < items.length then none else droppedAll? items
      | single => single.dropped?
    if rank < dropped then none else return ofRank elt (rank - dropped)
  | _ => none

/-! ## Text -/

mutual

def text : Ty → String
  | scalar s => s.text
  | nothing => "none"
  | ptr s => s!"ptr<{s.text}>"
  | array s rank => s!"array{rank}<{s.text}>"
  | tuple [t] => "(" ++ t.text ++ ",)"
  | tuple items => "(" ++ textList items ++ ")"
  | slice => "slice"
  | fn name => "fn " ++ name
  | closure name captured => "closure " ++ name ++ "[" ++ textList captured ++ "]"

/-- The texts of `ts`, separated by commas. -/
def textList : List Ty → String
  | [] => ""
  | [t] => t.text
  | t :: ts => t.text ++ ", " ++ textList ts

end

end Ty

/-- The declared types of variables. -/
abbrev TypeEnv := NameMap Ty

end ArrayIR
