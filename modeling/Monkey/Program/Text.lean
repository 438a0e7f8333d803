import Monkey.Program

/-!
# The text of programs

`Expr.text`, `Stmt.text` and `Program.text` print syntax trees. Operators are fully parenthesised
and literals print the way they were written. The text of an operator expression reads back as the
same tree; the text of blocks is not meant to be read back, since statements stand in it without
braces.
-/

namespace Monkey

mutual

/-- The text of an expression. -/
def Expr.text : Expr → String
  | .name id => id.name
  | .integer t _ => t.literal
  | .boolean t _ => t.literal
  | .string t _ => t.literal
  | .unary _ op e => "(" ++ op.symbol ++ e.text ++ ")"
  | .binary _ op l r => "(" ++ l.text ++ " " ++ op.symbol ++ " " ++ r.text ++ ")"
  | .cond _ condition b none => "if" ++ condition.text ++ " " ++ b.text
  | .cond _ condition b (some c) => "if" ++ condition.text ++ " " ++ b.text ++ "else " ++ c.text
  | .function t ps b =>
    t.literal ++ "(" ++ ", ".intercalate (ps.map Ident.name) ++ ") " ++ b.text
  | .call _ f args => f.text ++ "(" ++ ", ".intercalate (Expr.texts #[] args).toList ++ ")"
  | .array _ es => "[" ++ ", ".intercalate (Expr.texts #[] es).toList ++ "]"
  | .hash _ ps => "\x7b" ++ ", ".intercalate (Expr.pairTexts #[] ps).toList ++ "\x7d"
  | .index _ e i => "(" ++ e.text ++ "[" ++ i.text ++ "])"
termination_by structural e => e

/-- The texts of a list of expressions, behind those of `done`. -/
def Expr.texts (done : Array String) : List Expr → Array String
  | [] => done
  | e :: es => Expr.texts (done.push e.text) es
termination_by structural es => es

/-- The texts of the entries of a hash literal, behind those of `done`. -/
def Expr.pairTexts (done : Array String) : List (Expr × Expr) → Array String
  | [] => done
  | (k, v) :: ps => Expr.pairTexts (done.push (k.text ++ ":" ++ v.text)) ps
termination_by structural ps => ps

/-- The text of a block: that of its statements, one behind the other. -/
def Block.text : Block → String
  | .mk _ ss => Stmt.appendAll "" ss
termination_by structural b => b

/-- The text of a statement. -/
def Stmt.text : Stmt → String
  | .bind t id e => t.literal ++ " " ++ id.name ++ " = " ++ e.text ++ ";"
  | .ret t e => t.literal ++ " " ++ e.text ++ ";"
  | .expr _ e => e.text
  | .block b => b.text
termination_by structural s => s

/-- Appends the texts of statements to `out`. -/
def Stmt.appendAll (out : String) : List Stmt → String
  | [] => out
  | s :: ss => Stmt.appendAll (out ++ s.text) ss
termination_by structural ss => ss

end

/-- The text of a program: that of its statements, one behind the other. -/
def Program.text (p : Program) : String := Stmt.appendAll "" p.statements

theorem Expr.texts_eq (done : Array String) (es : List Expr) :
    Expr.texts done es = done ++ (es.map Expr.text).toArray := by
  induction es generalizing done with
  | nil => simp [Expr.texts]
  | cons e es ih => simp [Expr.texts, ih]

theorem Stmt.appendAll_eq (out : String) (ss : List Stmt) :
    Stmt.appendAll out ss = out ++ String.join (ss.map Stmt.text) := by
  induction ss generalizing out with
  | nil => simp [Stmt.appendAll]
  | cons s ss ih => simp [Stmt.appendAll, ih, String.append_assoc]

end Monkey
