/-
  ArrayIR.Dump — the constructor form of types, expressions, shapes and values.

  Messages show the object they are about as one line of nested constructors:
  `Head(a, b)` with positional parts, `Head { field: a }` with named ones, and
  `[a, b]` for lists. A `Dump` is the tree of such a line. A value is dumped with
  the contents its buffers have in the store.
-/

import ArrayIR.Error
import ArrayIR.Decimal.Layout
import ArrayIR.Text.Quoted

namespace ArrayIR

inductive Dump where
  | atom (text : String)
  | app (head : String) (args : List Dump)
  | record (head : String) (fields : List (String × Dump))
  | list (items : List Dump)

namespace Dump

mutual

def text : Dump → String
  | atom t => t
  | app head args => head ++ "(" ++ textList args ++ ")"
  | record head fields => head ++ " \x7b " ++ fieldsText fields ++ " \x7d"
  | list items => "[" ++ textList items ++ "]"

def textList : List Dump → String
  | [] => ""
  | [d] => d.text
  | d :: ds => d.text ++ ", " ++ textList ds

def fieldsText : List (String × Dump) → String
  | [] => ""
  | [f] => fieldText f
  | f :: fs => fieldText f ++ ", " ++ fieldsText fs

def fieldText : String × Dump → String
  | (name, d) => name ++ ": " ++ d.text

end

/-! ## Parts -/

def nat (n : Nat) : Dump := atom (toString n)

def int (i : Int) : Dump := atom (toString i)

def ints (is : List Int) : Dump := list (is.map int)

def float (x : Float) : Dump := atom (Decimal.Layout.constant.write x)

def bool (b : Bool) : Dump := atom (if b then "true" else "false")

def option : Option Dump → Dump
  | none => atom "None"
  | some d => app "Some" [d]

def varName (x : VarName) : Dump := app "VarName" [atom (quoted x)]

def fnName (f : FnName) : Dump := app "FuncName" [atom (quoted f)]

def scalarTy : ScalarTy → Dump
  | .bool => atom "Bool"
  | .i32 => atom "Int32"
  | .i64 => atom "Int64"
  | .f32 => atom "Float32"
  | .f64 => atom "Float64"

mutual

def ty : Ty → Dump
  | .scalar s => app "Scalar" [scalarTy s]
  | .nothing => atom "NoneType"
  | .ptr s => app "Ptr" [scalarTy s]
  | .array s rank => app "Array" [scalarTy s, nat rank]
  | .tuple items => app "Tuple" [list (tyList items)]
  | .slice => atom "Slice"
  | .fn f => app "Fn" [fnName f]
  | .closure f captured => app "Closure" [fnName f, list (tyList captured)]

def tyList : List Ty → List Dump
  | [] => []
  | t :: ts => ty t :: tyList ts

end

def primHead : Prim → String
  | .add => "Add"
  | .sub => "Sub"
  | .mul => "Mul"
  | .div => "Div"
  | .mod => "Mod"
  | .min => "Min"
  | .max => "Max"
  | .neg => "Neg"
  | .lt => "Lt"
  | .lte => "Lte"
  | .gt => "Gt"
  | .gte => "Gte"
  | .eq => "Eq"
  | .neq => "Neq"
  | .and => "And"
  | .or => "Or"
  | .not => "Not"

def fieldHead : Field → String
  | .data => "Data"
  | .shape => "Shape"
  | .strides => "Strides"
  | .offset => "Offset"
  | .size => "Size"

def tile : TilePolicy → Dump
  | .fixed => atom "Fixed"
  | .dynamic => atom "Dynamic"

def const : Const → Dump
  | .bool b => app "Bool" [bool b]
  | .int i => app "Int" [int i.toInt]
  | .float x => app "Float" [float x]
  | .nothing => atom "None"

/-! ## Expressions -/

/-- What stands at a node of an expression, given the dumps of its children. -/
def exprKind : Expr → List Dump → Dump
  | .var x _, _ => app "Var" [varName x]
  | .const c _, _ => app "Const" [const c]
  | .prim op _ _, args => app "PrimCall" [atom (primHead op), list args]
  | .call f _ _, args => app "Call" [fnName f, list args]
  | .index _ _ _, kids => app "Index" kids
  | .proj _ i _, kids => app "TupleProj" (kids ++ [nat i])
  | .attr _ field _, kids => app "Attribute" (kids ++ [atom (fieldHead field)])
  | .cast _ _, kids => app "Cast" kids
  | .alloc elt _ _, kids => app "Alloc" (scalarTy elt :: kids)
  | .view .., kids => record "ArrayView" (["data", "shape", "strides", "offset", "size"].zip kids)
  | .tuple _ _, items => app "Tuple" [list items]
  | .slice .., kids => record "Slice" (["start", "stop", "step"].zip kids)
  | .fnRef f _, _ => app "FnRef" [fnName f]
  | .closure f _ _, captured => app "Closure" [fnName f, list captured]
  | .capture _ i _, kids => app "ClosureElt" (kids ++ [nat i])
  | .map _ _ axis _, kids =>
    record "Map" (["func"].zip kids ++ [("args", list (kids.drop 1)), ("axis", nat axis)])
  | .allPairs _ _ axis _, kids =>
    record "AllPairs" (["func"].zip kids ++ [("args", list (kids.drop 1)), ("axis", nat axis)])
  | .reduce _ _ init _ axis _, kids =>
    let inits := (kids.drop 2).take init.toList.length
    record "Reduce" (["func", "combine"].zip kids
      ++ [("init", option inits.head?), ("args", list (kids.drop (2 + inits.length))), ("axis", nat axis)])
  | .scan _ _ _ init _ axis _, kids =>
    let inits := (kids.drop 3).take init.toList.length
    record "Scan" (["func", "combine", "emit"].zip kids
      ++ [("init", option inits.head?), ("args", list (kids.drop (3 + inits.length))), ("axis", nat axis)])
  | .tiledMap _ _ axes t _, kids =>
    record "TiledMap" (["func"].zip kids
      ++ [("args", list (kids.drop 1)), ("axes", list (axes.map nat)), ("tile", tile t)])
  | .tiledReduce _ _ _ _ axes t _, kids =>
    record "TiledReduce" (["func", "combine", "init"].zip kids
      ++ [("args", list (kids.drop 3)), ("axes", list (axes.map nat)), ("tile", tile t)])

def expr : Expr → Dump :=
  Expr.fold fun e kids => record "Expr" [("kind", exprKind e kids), ("type_", ty e.ty)]

/-! ## Shapes -/

def bound : Bound → Dump
  | .absent => atom "Absent"
  | .known e => app "Known" [expr e]
  | .unknown => atom "Unknown"

mutual

def shape : Shape → Dump
  | .scalar elt known => app "Scalar" [scalarTy elt, option (known.map expr)]
  | .array elt extents => app "Array" [scalarTy elt, list (extents.map expr)]
  | .tuple items => app "Tuple" [list (shapeList items)]
  | .slice start stop step => record "Slice" [("start", bound start), ("stop", bound stop), ("step", bound step)]
  | .ptr elt => app "Ptr" [scalarTy elt]
  | .func f captured => app "Func" [fnName f, list (shapeList captured)]
  | .nothing => atom "NoneValue"

def shapeList : List Shape → List Dump
  | [] => []
  | s :: ss => shape s :: shapeList ss

end

/-! ## Values -/

def scalar : Scalar → Dump
  | .bool b => app "Bool" [bool b]
  | .int i => app "Int" [int i.toInt]
  | .float x => app "Float" [float x]

def cells (cs : Array Scalar) : Dump := record "RefCell" [("value", list (cs.toList.map scalar))]

def view (s : Store) (v : View) : Dump :=
  record "ArrayValue" [("elt", scalarTy v.elt), ("data", cells (s.cells v.buffer)), ("shape", ints v.shape),
    ("strides", ints v.strides), ("offset", int v.offset)]

mutual

def value (s : Store) : Value → Dump
  | .scalar x => app "Scalar" [scalar x]
  | .nothing => atom "None"
  | .tuple items => app "Tuple" [list (valueList s items)]
  | .slice start stop step =>
    app "Slice" [option (start.map (int ·.toInt)), option (stop.map (int ·.toInt)), int step.toInt]
  | .buffer elt b => app "Buffer" [scalarTy elt, cells (s.cells b)]
  | .array v => app "Array" [view s v]
  | .closure f captured => app "Closure" [fnName f, list (valueList s captured)]

def valueList (s : Store) : List Value → List Dump
  | [] => []
  | v :: vs => value s v :: valueList s vs

end

end Dump

end ArrayIR
