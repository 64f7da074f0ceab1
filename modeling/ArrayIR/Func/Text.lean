/-
  ArrayIR.Func.Text — statements and functions as program text.

  A statement starts a new line at its depth; a block is indented by two more
  spaces than the line that opens it.
-/

import ArrayIR.Stmt
import ArrayIR.Expr.Text

namespace ArrayIR

/-- A new line, indented by `depth` spaces. -/
def newline (depth : Nat) : String := "\n" ++ String.ofList (List.replicate depth ' ')

def Merge.text (depth : Nat) (m : Merge) : String :=
  String.join <| m.toList.map fun (x, l, r) =>
    newline depth ++ x ++ " = phi(" ++ l.text ++ ", " ++ r.text ++ ")"

namespace Stmt

mutual

/-- The text of a statement that stands at `depth`. -/
def text (depth : Nat) : Stmt → String
  | assign target value => target.text ++ " : " ++ target.ty.text ++ " = " ++ value.text
  | ret value => "return " ++ value.text
  | ite cond yes no merge =>
    "if " ++ cond.text ++ " \x7b" ++ blockText (depth + 2) yes ++ newline depth ++ "\x7d else \x7b"
      ++ blockText (depth + 2) no ++ newline depth ++ "\x7d merge \x7b" ++ merge.text (depth + 2)
      ++ newline depth ++ "\x7d"
  | whileLoop cond body merge =>
    "while " ++ cond.text ++ " merge \x7b" ++ merge.text (depth + 2) ++ newline depth ++ "\x7d do \x7b"
      ++ blockText (depth + 2) body ++ newline depth ++ "\x7d"
  | forLoop c body merge =>
    "for " ++ c.var ++ " in range(" ++ c.start.text ++ ", " ++ c.stop.text ++ ", " ++ c.step.text
      ++ ") merge \x7b" ++ merge.text (depth + 2) ++ newline depth ++ "\x7d do \x7b"
      ++ blockText (depth + 2) body ++ newline depth ++ "\x7d"

def blockText (depth : Nat) : List Stmt → String
  | [] => ""
  | s :: ss => newline depth ++ s.text depth ++ blockText depth ss

end

end Stmt

/-- The text of a function. -/
def Func.text (f : Func) : String :=
  let params := (f.params.zip f.paramTys).map fun (x, t) => x ++ ": " ++ t.text
  "def " ++ f.name ++ "(" ++ ", ".intercalate params ++ ") -> " ++ f.result.text ++ " \x7b"
    ++ Stmt.blockText 2 f.body ++ "\n\x7d\n"

end ArrayIR
