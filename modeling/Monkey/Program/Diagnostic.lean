import Monkey.Token

/-!
# Diagnostics of the parser

What can be wrong with a source text. Each diagnostic names the token that it is about by its span,
and `Diagnostic.message` words it.
-/

namespace Monkey

/-- A fault in a source text. -/
inductive Diagnostic where
  /-- A token of the kind `expected` had to follow, and one of the kind `found` did. -/
  | unexpectedToken (expected found : Kind) (span : Span)
  /-- An expression had to start with a token of a kind that starts none. -/
  | noExpression (kind : Kind) (span : Span)
  /-- An integer literal beyond the largest integer. -/
  | invalidInteger (literal : String) (span : Span)
deriving Repr, DecidableEq, Inhabited

namespace Diagnostic

/-- The span of the token at fault. -/
def span : Diagnostic → Span
  | unexpectedToken _ _ s | noExpression _ s | invalidInteger _ s => s

/-- The wording of a diagnostic, without its place. -/
def message : Diagnostic → String
  | unexpectedToken expected found _ =>
    s!"expected next token to be {expected.name}, got {found.name} instead"
  | noExpression kind _ => s!"no prefix parse function for {kind.name} found"
  | invalidInteger literal _ => s!"could not parse \"{literal}\" as integer"

/-- The wording of a diagnostic behind its line and column. -/
def located (d : Diagnostic) : String := d.span.text ++ ": " ++ d.message

end Diagnostic

/-- The wording of a list of diagnostics, one per line. -/
def Diagnostic.report (ds : List Diagnostic) : String := "\n".intercalate (ds.map located)

end Monkey
