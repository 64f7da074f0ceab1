/-
  ArrayIR.Value — run-time values, buffers and views.

  Buffers live in a store and are shared: an array is a strided view of a buffer,
  and a slice of it is another view of the same buffer, so a store through one is
  seen through all. A value names its buffer by position in the store.
-/

import ArrayIR.Scalar

namespace ArrayIR

abbrev BufferId := Nat

/-- A strided view of a buffer. Strides and offset count elements. -/
structure View where
  elt : ScalarTy
  buffer : BufferId
  shape : List Int
  strides : List Int
  offset : Int
  deriving DecidableEq, Repr

inductive Value where
  | scalar (s : Scalar)
  | nothing
  | tuple (items : List Value)
  | slice (start stop : Option Int64) (step : Int64)
  | buffer (elt : ScalarTy) (id : BufferId)
  | array (view : View)
  | closure (fn : FnName) (captured : List Value)

namespace Value

abbrev int (i : Int64) : Value := .scalar (.int i)
abbrev float (x : Float) : Value := .scalar (.float x)
abbrev bool (b : Bool) : Value := .scalar (.bool b)

/-- The value of an exact integer. -/
abbrev ofInt (i : Int) : Value := .int (Int64.ofInt i)

instance : Inhabited Value := ⟨nothing⟩

/-- The slice of a whole dimension. -/
def wholeAxis : Value := .slice none none 1

/-- The extents of an array; anything else has none. -/
def shape : Value → List Int
  | array v => v.shape
  | _ => []

def rank (v : Value) : Nat := v.shape.length

def isNothing : Value → Bool
  | nothing => true
  | _ => false

end Value

/-! ## The store -/

/-- All buffers, in order of allocation. -/
structure Store where
  buffers : Array (Array Scalar)

namespace Store

def empty : Store := ⟨#[]⟩

instance : Inhabited Store := ⟨empty⟩

/-- The cells of a buffer; a buffer never allocated has none. -/
def cells (s : Store) (b : BufferId) : Array Scalar := (s.buffers[b]?).getD #[]

/-- Add a buffer; the next free name is its own. -/
def alloc (s : Store) (cells : Array Scalar) : BufferId × Store :=
  (s.buffers.size, ⟨s.buffers.push cells⟩)

/-- Change the cells of one buffer. -/
def modify (s : Store) (b : BufferId) (f : Array Scalar → Array Scalar) : Store :=
  ⟨s.buffers.modify b f⟩

end Store

/-- The cell at an offset; outside the buffer it reads as a zero of the element type. -/
def cellAt (elt : ScalarTy) (cells : Array Scalar) (o : Int) : Scalar :=
  if o < 0 then .zero elt else (cells[o.toNat]?).getD (.zero elt)

/-- Set the cell at an offset; outside the buffer nothing changes. -/
def setCell (cells : Array Scalar) (o : Int) (x : Scalar) : Array Scalar :=
  if o < 0 then cells else cells.setIfInBounds o.toNat x

end ArrayIR
