/-
  ArrayIR.Expr.Text — expressions as program text.
-/

import ArrayIR.Expr
import ArrayIR.Decimal.Layout

namespace ArrayIR

def Const.text : Const → String
  | bool b => if b then "true" else "false"
  | int i => toString i.toInt
  | float x => Decimal.Layout.constant.write x
  | nothing => "None"

def TilePolicy.text : TilePolicy → String
  | fixed => "tile=fixed"
  | dynamic => "tile=dynamic"

def axesText (axes : List Nat) : String := "axes=[" ++ ", ".intercalate (axes.map toString) ++ "]"

namespace Expr

mutual

def text : Expr → String
  | var x _ => x
  | const c _ => c.text
  | prim op args _ => op.name ++ "(" ++ textList args ++ ")"
  | call fn args _ => "call " ++ fn ++ "(" ++ textList args ++ ")"
  | index x i _ => x.text ++ "[" ++ i.text ++ "]"
  | proj x i _ => x.text ++ "." ++ toString i
  | attr x field _ => x.text ++ "." ++ field.name
  | cast x t => "cast<" ++ t.text ++ ">(" ++ x.text ++ ")"
  | alloc elt n _ => "alloc<" ++ elt.text ++ ">(" ++ n.text ++ ")"
  | view data shape strides offset size _ =>
    "view(" ++ data.text ++ ", " ++ shape.text ++ ", " ++ strides.text ++ ", " ++ offset.text ++ ", "
      ++ size.text ++ ")"
  | tuple [x] _ => "(" ++ x.text ++ ",)"
  | tuple items _ => "(" ++ textList items ++ ")"
  | slice start stop step _ =>
    (if start.isNothing then "" else start.text) ++ ":" ++ (if stop.isNothing then "" else stop.text) ++ ":"
      ++ step.text
  | fnRef fn _ => "@" ++ fn
  | closure fn captured _ => "closure @" ++ fn ++ "[" ++ textList captured ++ "]"
  | capture x i _ => x.text ++ ".captured" ++ toString i
  | map f args axis _ => "map(" ++ f.text ++ ", [" ++ textList args ++ "], axis=" ++ toString axis ++ ")"
  | reduce f c init args axis _ =>
    "reduce(" ++ f.text ++ ", combine=" ++ c.text ++ initText init ++ ", [" ++ textList args ++ "], axis="
      ++ toString axis ++ ")"
  | scan f c e init args axis _ =>
    "scan(" ++ f.text ++ ", combine=" ++ c.text ++ ", emit=" ++ e.text ++ initText init ++ ", ["
      ++ textList args ++ "], axis=" ++ toString axis ++ ")"
  | allPairs f args axis _ =>
    "allpairs(" ++ f.text ++ ", [" ++ textList args ++ "], axis=" ++ toString axis ++ ")"
  | tiledMap f args axes tile _ =>
    "tiled_map(" ++ f.text ++ ", [" ++ textList args ++ "], " ++ axesText axes ++ ", " ++ tile.text ++ ")"
  | tiledReduce f c init args axes tile _ =>
    "tiled_reduce(" ++ f.text ++ ", combine=" ++ c.text ++ ", init=" ++ init.text ++ ", [" ++ textList args
      ++ "], " ++ axesText axes ++ ", " ++ tile.text ++ ")"

/-- The texts of `es`, separated by commas. -/
def textList : List Expr → String
  | [] => ""
  | [e] => e.text
  | e :: es => e.text ++ ", " ++ textList es

/-- The initial value of a fold, if it is given. -/
def initText : Option Expr → String
  | none => ""
  | some e => ", init=" ++ e.text

end

end Expr

end ArrayIR
