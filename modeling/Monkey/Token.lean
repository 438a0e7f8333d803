import Monkey.Span

/-!
# Tokens

The words of the language. Every token has a `Kind`, its literal text and the span it came from.
`Kind.name` is the spelling of a kind in diagnostics, and `Kind.keyword?` tells the seven reserved
words from ordinary names.
-/

namespace Monkey

/-- What sort of word a token is. -/
inductive Kind where
  /-- A character that starts no token. -/
  | illegal
  /-- The end of the text. -/
  | eof
  | ident | int | string
  | assign | plus | minus | bang | asterisk | slash | lt | gt | eq | notEq
  | comma | semicolon | colon | lparen | rparen | lbrace | rbrace | lbracket | rbracket
  | function | let | true | false | if | else | return
deriving Repr, DecidableEq, Inhabited

namespace Kind

/-- The spelling of a kind in diagnostics: operators and delimiters stand for themselves, the
others are named in capitals. -/
def name : Kind → String
  | illegal => "ILLEGAL"
  | eof => "EOF"
  | ident => "IDENT"
  | int => "INT"
  | string => "STRING"
  | assign => "="
  | plus => "+"
  | minus => "-"
  | bang => "!"
  | asterisk => "*"
  | slash => "/"
  | lt => "<"
  | gt => ">"
  | eq => "=="
  | notEq => "!="
  | comma => ","
  | semicolon => ";"
  | colon => ":"
  | lparen => "("
  | rparen => ")"
  | lbrace => "\x7b"
  | rbrace => "\x7d"
  | lbracket => "["
  | rbracket => "]"
  | function => "FUNCTION"
  | .let => "LET"
  | true => "TRUE"
  | false => "FALSE"
  | .if => "IF"
  | .else => "ELSE"
  | .return => "RETURN"

/-- The kind of a reserved word, and `none` for every other word. -/
def keyword? : String → Option Kind
  | "fn" => some function
  | "let" => some .let
  | "true" => some true
  | "false" => some false
  | "if" => some .if
  | "else" => some .else
  | "return" => some .return
  | _ => none

/-- The kind of a word: its own when it is reserved, that of a name otherwise. -/
def ofWord (word : String) : Kind := (keyword? word).getD ident

theorem ofWord_ne_eof (word : String) : ofWord word ≠ eof := by
  unfold ofWord keyword?
  split <;> simp

end Kind

/-- A word of the source text. For a string the literal is what stands between the quotes, for
every other token it is the text of the span. -/
structure Token where
  kind : Kind
  literal : String
  span : Span
deriving Repr, DecidableEq, Inhabited

/-- The token that stands at the end of the text: it is empty and ends where it starts. -/
def Token.eof (p : Position) : Token := ⟨.eof, "", .between p p⟩

end Monkey
