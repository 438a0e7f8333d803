import Monkey.Program

/-!
# How tightly operators bind

Every operator has a level, and a higher level binds tighter. A token that continues an expression
has the level of what it continues it to (`Kind.level`), every other token has the level `lowest`.
All binary operators group to the left.
-/

namespace Monkey

namespace Level

/-- The level of a whole expression: below that of every operator. -/
def lowest : Nat := 1

/-- The level of `==` and `!=`. -/
def equality : Nat := 2

/-- The level of `<` and `>`. -/
def comparison : Nat := 3

/-- The level of `+` and `-` between two operands. -/
def sum : Nat := 4

/-- The level of `*` and `/`. -/
def product : Nat := 5

/-- The level of `-` and `!` before one operand. -/
def unary : Nat := 6

/-- The level of calls and of indexing. -/
def call : Nat := 7

end Level

/-- The level of the operator that a token of this kind continues an expression with. -/
def Kind.level : Kind → Nat
  | eq | notEq => Level.equality
  | lt | gt => Level.comparison
  | plus | minus => Level.sum
  | asterisk | slash => Level.product
  | lparen | lbracket => Level.call
  | _ => Level.lowest

/-- The binary operator that a kind of token spells. -/
def BinaryOp.ofKind? : Kind → Option BinaryOp
  | .plus => some plus
  | .minus => some minus
  | .asterisk => some times
  | .slash => some divide
  | .lt => some lt
  | .gt => some gt
  | .eq => some eq
  | .notEq => some notEq
  | _ => none

/-- The kind of token that spells a binary operator. -/
def BinaryOp.kind : BinaryOp → Kind
  | plus => .plus
  | minus => .minus
  | times => .asterisk
  | divide => .slash
  | lt => .lt
  | gt => .gt
  | eq => .eq
  | notEq => .notEq

/-- The kind of token that spells a unary operator. -/
def UnaryOp.kind : UnaryOp → Kind
  | minus => .minus
  | bang => .bang

/-- The level of a binary operator. -/
def BinaryOp.level (op : BinaryOp) : Nat := op.kind.level

theorem BinaryOp.ofKind?_eq_some_iff {k : Kind} {op : BinaryOp} :
    BinaryOp.ofKind? k = some op ↔ k = op.kind := by
  cases op <;> cases k <;> decide

end Monkey
