import Monkey.Program.Precedence
import Monkey.Program.Reader
import Monkey.Token.Lexer

/-!
# Reading programs

A recursive descent parser with levels for operators. A step starts on the first token of what it
reads and ends on its last one. Faults never end a parse: a statement that cannot be read leaves at
least one diagnostic and is skipped, and reading goes on with the next one.

The steps call each other with a bound on how deep they nest. Between two steps of the same sort
at least one token is consumed and at most seven steps are entered, so a bound of eight for every
token is never reached (`Program.ofTokens`).
-/

namespace Monkey

/-- The largest integer literal. -/
def maxInteger : Nat := (1 <<< 63) - 1

/-- The number that a list of decimal digits spells. -/
def decimal (digits : List Char) : Nat :=
  digits.foldl (fun n c => 10 * n + (c.toNat - '0'.toNat)) 0

/-- The value of a decimal literal, unless it is beyond the largest integer. -/
def integer? (literal : String) : Option Int64 :=
  let digits := literal.toList
  if digits ≠ [] ∧ digits.all Char.isDigit ∧ decimal digits ≤ maxInteger then
    some (Int64.ofNat (decimal digits))
  else
    none

namespace Reading

/-- The names of the parameter list behind the current name: those behind commas. -/
def parameters (done : Array Ident) : Nat → Reading (List Ident)
  | 0 => failure
  | fuel + 1 => do
    if (← peek).kind = .comma then
      advance
      expect .ident
      parameters (done.push ⟨← current⟩) fuel
    else
      expect .rparen
      return done.toList

/-- The parameters of a function, read from the opening parenthesis to the closing one. -/
def parameterList (fuel : Nat) : Reading (List Ident) := do
  if (← peek).kind = .rparen then
    advance
    return []
  expect .ident
  parameters #[⟨← current⟩] fuel

mutual

/-- An expression whose operators all bind tighter than `level`. -/
def expression (level : Nat) : Nat → Reading Expr
  | 0 => failure
  | fuel + 1 => do
    let left ← operand fuel
    continuation level left fuel

/-- Continues the expression `left`, which ends on the current token, as long as an operator follows
that binds tighter than `level`. -/
def continuation (level : Nat) (left : Expr) : Nat → Reading Expr
  | 0 => failure
  | fuel + 1 => do
    if level < (← peek).kind.level then
      advance
      let whole ← extension left fuel
      continuation level whole fuel
    else
      return left

/-- The expression that the operator at the current token makes of `left` and what follows. -/
def extension (left : Expr) : Nat → Reading Expr
  | 0 => failure
  | fuel + 1 => do
    let t ← current
    match BinaryOp.ofKind? t.kind with
    | some op =>
      advance
      let right ← expression t.kind.level fuel
      return .binary t op left right
    | none =>
      if t.kind = .lparen then
        return .call t left (← expressionList .rparen fuel)
      else
        advance
        let key ← expression Level.lowest fuel
        expect .rbracket
        return .index t left key

/-- An expression without a binary operator, call or index of its own. -/
def operand : Nat → Reading Expr
  | 0 => failure
  | fuel + 1 => do
    let t ← current
    match t.kind with
    | .ident => return .name ⟨t⟩
    | .int =>
      match integer? t.literal with
      | some n => return .integer t n
      | none => fail (.invalidInteger t.literal t.span)
    | .string => return .string t t.literal
    | .true => return .boolean t true
    | .false => return .boolean t false
    | .bang =>
      advance
      return .unary t .bang (← expression Level.unary fuel)
    | .minus =>
      advance
      return .unary t .minus (← expression Level.unary fuel)
    | .lparen =>
      advance
      let e ← expression Level.lowest fuel
      expect .rparen
      return e
    | .if =>
      expect .lparen
      advance
      let condition ← expression Level.lowest fuel
      expect .rparen
      expect .lbrace
      let consequence ← block fuel
      if (← peek).kind = .else then
        advance
        expect .lbrace
        return .cond t condition consequence (some (← block fuel))
      else
        return .cond t condition consequence none
    | .function =>
      expect .lparen
      let ps ← parameterList fuel
      expect .lbrace
      return .function t ps (← block fuel)
    | .lbracket => return .array t (← expressionList .rbracket fuel)
    | .lbrace => return .hash t (← pairs #[] fuel)
    | kind => fail (.noExpression kind t.span)

/-- The expressions between the opening bracket at the current token and the closing bracket
`close`, with commas between them. -/
def expressionList (close : Kind) : Nat → Reading (List Expr)
  | 0 => failure
  | fuel + 1 => do
    advance
    if (← current).kind = close then
      return []
    else
      let e ← expression Level.lowest fuel
      expressions close #[e] fuel

/-- The rest of a list of expressions, which ends with the bracket `close`, behind those of
`done`. -/
def expressions (close : Kind) (done : Array Expr) : Nat → Reading (List Expr)
  | 0 => failure
  | fuel + 1 => do
    if (← peek).kind = .comma then
      advance
      advance
      let e ← expression Level.lowest fuel
      expressions close (done.push e) fuel
    else
      expect close
      return done.toList

/-- The entries of a hash literal up to its closing brace, behind those of `done`. A comma may
follow the last one. -/
def pairs (done : Array (Expr × Expr)) : Nat → Reading (List (Expr × Expr))
  | 0 => failure
  | fuel + 1 => do
    if (← peek).kind = .rbrace then
      advance
      return done.toList
    else
      advance
      let key ← expression Level.lowest fuel
      expect .colon
      advance
      let value ← expression Level.lowest fuel
      unless (← peek).kind = .rbrace do
        expect .comma
      pairs (done.push (key, value)) fuel

/-- A block, read from its opening brace to its closing one. -/
def block : Nat → Reading Block
  | 0 => failure
  | fuel + 1 => do
    let t ← current
    advance
    let ss ← statements true #[] fuel
    let last ← current
    if last.kind = .eof then
      fail (.unexpectedToken .rbrace .eof last.span)
    else
      return .mk t ss

/-- The statements from the current token on, behind those of `done`: up to the end of the text, and
inside a block up to its closing brace. A statement that cannot be read is skipped. -/
def statements (inBlock : Bool) (done : Array Stmt) : Nat → Reading (List Stmt)
  | 0 => failure
  | fuel + 1 => do
    let t ← current
    if t.kind = .eof ∨ inBlock ∧ t.kind = .rbrace then
      return done.toList
    else
      match ← attempt (statement fuel) with
      | some s =>
        advance
        statements inBlock (done.push s) fuel
      | none =>
        modify (·.synchronize.advance)
        statements inBlock done fuel

/-- A statement, with the semicolon behind it if there is one. -/
def statement : Nat → Reading Stmt
  | 0 => failure
  | fuel + 1 => do
    let t ← current
    match t.kind with
    | .let =>
      expect .ident
      let id : Ident := ⟨← current⟩
      expect .assign
      advance
      let value ← expression Level.lowest fuel
      skip .semicolon
      return .bind t id value
    | .return =>
      advance
      let value ← expression Level.lowest fuel
      skip .semicolon
      return .ret t value
    | _ =>
      let value ← expression Level.lowest fuel
      skip .semicolon
      return .expr t value

end

end Reading

namespace Program

/-- The program that a list of tokens spells, and what is wrong with them. Statements at fault are
missing from it. -/
def ofTokens (tokens : List Token) (eof : Token) : Program × List Diagnostic :=
  let (statements?, r) :=
    (Reading.statements false #[] (8 * tokens.length + 8)).run ⟨tokens, eof, #[]⟩
  (⟨statements?.getD []⟩, r.diagnostics.toList)

/-- The program that a text spells as far as it can be read, and what is wrong with the text. -/
def read (source : String) : Program × List Diagnostic :=
  let (tokens, eof) := Token.scan source
  ofTokens tokens eof

/-- The program that a text spells, if nothing is wrong with it. -/
def parse (source : String) : Except (List Diagnostic) Program :=
  match read source with
  | (p, []) => .ok p
  | (_, ds) => .error ds

end Program

end Monkey
