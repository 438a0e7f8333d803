import Monkey.Program.Diagnostic

/-!
# Reading tokens

A `Reader` walks over the tokens of a text with one token of look-ahead and collects diagnostics.
`Reading` is the kind of step that the parser is made of: it may fail, and it keeps the reader's
place and its diagnostics also then. Behind the last token of the text the reader sees `eof` again
and again.
-/

namespace Monkey

/-- The state of a parse: the tokens from the current one on, the token behind the last one, and the
diagnostics so far. -/
structure Reader where
  rest : List Token
  eof : Token
  diagnostics : Array Diagnostic
deriving Repr, Inhabited

namespace Reader

/-- The current token. -/
def current (r : Reader) : Token := r.rest.headD r.eof

/-- The token behind the current one. -/
def peek (r : Reader) : Token := r.rest.tail.headD r.eof

/-- Makes the next token the current one. -/
def advance (r : Reader) : Reader := { r with rest := r.rest.tail }

/-- Adds a diagnostic. -/
def report (r : Reader) (d : Diagnostic) : Reader :=
  { r with diagnostics := r.diagnostics.push d }

/-- What is left of the tokens of a statement that could not be read: stops on a semicolon, and
where a closing brace or the end of the text comes next. -/
def dropStatement (eof : Token) : List Token → List Token
  | [] => []
  | t :: ts =>
    let next := (ts.headD eof).kind
    if t.kind = .semicolon ∨ next = .rbrace ∨ next = .eof then t :: ts else dropStatement eof ts

/-- Skips the rest of a statement that could not be read. -/
def synchronize (r : Reader) : Reader := { r with rest := dropStatement r.eof r.rest }

end Reader

/-- A step of the parser: it gives a result or fails, and moves the reader in both cases. -/
abbrev Reading := OptionT (StateM Reader)

namespace Reading

/-- The current token. -/
@[inline] def current : Reading Token := return (← get).current

/-- The token behind the current one. -/
@[inline] def peek : Reading Token := return (← get).peek

/-- Makes the next token the current one. -/
@[inline] def advance : Reading Unit := modify Reader.advance

/-- Gives up with a diagnostic. -/
def fail {α : Type} (d : Diagnostic) : Reading α := do
  modify (·.report d)
  failure

/-- Moves to the next token if it is of the kind `kind`, and gives up otherwise. -/
def expect (kind : Kind) : Reading Unit := do
  let next ← peek
  if next.kind = kind then advance
  else fail (.unexpectedToken kind next.kind next.span)

/-- Moves to the next token if it is of the kind `kind`, and stays otherwise. -/
def skip (kind : Kind) : Reading Unit := do
  if (← peek).kind = kind then advance

/-- Runs a step, and gives `none` where it fails. -/
@[inline] def attempt {α : Type} (step : Reading α) : Reading (Option α) :=
  OptionT.lift step.run

end Reading

end Monkey
