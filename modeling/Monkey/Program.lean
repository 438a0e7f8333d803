import Monkey.Token

/-!
# Programs

The syntax trees of the language. An expression has a value, a statement has an effect, and a block
is a list of statements between braces. Every node keeps the token it was read from, for
diagnostics and for printing literals the way they were written: for an operator expression this is
the operator, for a call, an index, an array or a hash the opening bracket.

Grouping parentheses leave no node of their own, and a block statement has no source syntax: a `{`
at the start of a statement opens a hash literal.
-/

namespace Monkey

/-! ### Names and operators -/

/-- A name, where it is bound or where it is used. -/
structure Ident where
  token : Token
deriving Repr, DecidableEq, Inhabited

/-- The name itself. -/
def Ident.name (x : Ident) : String := x.token.literal

/-- Operators with one operand. -/
inductive UnaryOp where
  | minus | bang
deriving Repr, DecidableEq, Inhabited

/-- Operators with two operands. -/
inductive BinaryOp where
  | plus | minus | times | divide | lt | gt | eq | notEq
deriving Repr, DecidableEq, Inhabited

/-- The spelling of an operator. -/
def UnaryOp.symbol : UnaryOp → String
  | minus => "-"
  | bang => "!"

/-- The spelling of an operator. -/
def BinaryOp.symbol : BinaryOp → String
  | plus => "+"
  | minus => "-"
  | times => "*"
  | divide => "/"
  | lt => "<"
  | gt => ">"
  | eq => "=="
  | notEq => "!="

/-! ### Trees -/

mutual

/-- An expression. -/
inductive Expr where
  | name (id : Ident)
  | integer (token : Token) (value : Int64)
  | boolean (token : Token) (value : Bool)
  | string (token : Token) (value : String)
  | unary (token : Token) (op : UnaryOp) (operand : Expr)
  | binary (token : Token) (op : BinaryOp) (left right : Expr)
  | cond (token : Token) (condition : Expr) (consequence : Block) (alternative : Option Block)
  | function (token : Token) (parameters : List Ident) (body : Block)
  | call (token : Token) (callee : Expr) (arguments : List Expr)
  | array (token : Token) (elements : List Expr)
  | hash (token : Token) (pairs : List (Expr × Expr))
  | index (token : Token) (collection key : Expr)

/-- A list of statements between braces, with the opening brace. -/
inductive Block where
  | mk (token : Token) (statements : List Stmt)

/-- A statement. -/
inductive Stmt where
  /-- Binds a name to a value. -/
  | bind (token : Token) (id : Ident) (value : Expr)
  /-- Leaves the function, or the program, with a value. -/
  | ret (token : Token) (value : Expr)
  /-- Evaluates an expression, with the token that the statement starts with. -/
  | expr (token : Token) (value : Expr)
  /-- Runs the statements of a block. -/
  | block (body : Block)

end

instance : Inhabited Expr := ⟨.name default⟩
instance : Inhabited Block := ⟨.mk default []⟩
instance : Inhabited Stmt := ⟨.expr default default⟩

/-- A whole program: its statements in order. -/
structure Program where
  statements : List Stmt
deriving Inhabited

/-! ### The tokens of nodes -/

/-- The token an expression was read from. -/
def Expr.token : Expr → Token
  | name id => id.token
  | integer t _ | boolean t _ | string t _ => t
  | unary t _ _ | binary t _ _ _ => t
  | cond t _ _ _ | function t _ _ => t
  | call t _ _ | array t _ | hash t _ | index t _ _ => t

/-- Where an expression stands, for diagnostics. -/
def Expr.span (e : Expr) : Span := e.token.span

/-- The opening brace of a block. -/
def Block.token : Block → Token
  | mk t _ => t

/-- The statements of a block. -/
def Block.statements : Block → List Stmt
  | mk _ ss => ss

/-- The token a statement starts with. -/
def Stmt.token : Stmt → Token
  | bind t _ _ | ret t _ | expr t _ => t
  | block b => b.token

/-- The literal of the first token, empty for the empty program. -/
def Program.firstLiteral (p : Program) : String :=
  match p.statements with
  | [] => ""
  | s :: _ => s.token.literal

end Monkey
