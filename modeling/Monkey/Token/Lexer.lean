import Monkey.Token

/-!
# Cutting text into tokens

A `Cursor` stands somewhere in a source text: it knows the characters to come and its position.
`Cursor.next` skips blanks and comments and takes one token off the front, and `Token.scan` takes
all tokens of a text. Both always succeed, since a character that starts no token becomes a token of
kind `illegal`.

What a token looks like is decided by `extent` alone, which reads the kind of the next token and
its number of characters off the text; the rest is cutting. `Cursor.next_rest_lt` says that every
token but the last takes at least one character, which is why scanning ends.
-/

namespace Monkey

/-! ### Characters -/

/-- The characters that separate tokens: space, tab, carriage return and line feed. -/
def isBlank (c : Char) : Bool := c == ' ' || c == '\t' || c == '\r' || c == '\n'

/-- The characters that may start a name: the ASCII letters and the underscore. -/
def isNameStart (c : Char) : Bool := c.isAlpha || c == '_'

/-- The characters that may continue a name: those that may start one, and the ASCII digits. -/
def isNameRest (c : Char) : Bool := isNameStart c || c.isDigit

/-! ### The next token of a text -/

/-- The kind of the token that starts with the character `c` and may go on into `cs`, and how many
characters of `cs` belong to it. A string runs to the next quote, which it includes, or to the end
of the text when there is none. -/
def extent (c : Char) (cs : List Char) : Kind × Nat :=
  match c with
  | '(' => (.lparen, 0)
  | ')' => (.rparen, 0)
  | '{' => (.lbrace, 0)
  | '}' => (.rbrace, 0)
  | '[' => (.lbracket, 0)
  | ']' => (.rbracket, 0)
  | ',' => (.comma, 0)
  | ';' => (.semicolon, 0)
  | ':' => (.colon, 0)
  | '+' => (.plus, 0)
  | '-' => (.minus, 0)
  | '*' => (.asterisk, 0)
  | '/' => (.slash, 0)
  | '<' => (.lt, 0)
  | '>' => (.gt, 0)
  | '=' => if cs.head? = some '=' then (.eq, 1) else (.assign, 0)
  | '!' => if cs.head? = some '=' then (.notEq, 1) else (.bang, 0)
  | '"' =>
    let content := (cs.takeWhile (· ≠ '"')).length
    (.string, if (cs.drop content).isEmpty then content else content + 1)
  | _ =>
    if c.isDigit then (.int, (cs.takeWhile Char.isDigit).length)
    else if isNameStart c then
      let word := cs.takeWhile isNameRest
      (.ofWord (String.ofList (c :: word)), word.length)
    else (.illegal, 0)

/-- The literal of a token of the kind `kind` with the characters `c :: cs`: what stands between
the quotes of a string, and the characters themselves otherwise. -/
def literalOf (kind : Kind) (c : Char) (cs : List Char) : String :=
  String.ofList (if kind = .string then cs.takeWhile (· ≠ '"') else c :: cs)

/-! ### Cursors -/

/-- A place in a text that is being cut into tokens: the characters to come, and where they
start. -/
structure Cursor where
  rest : List Char
  position : Position
deriving Repr, DecidableEq, Inhabited

namespace Cursor

/-- The start of a text. -/
def ofString (source : String) : Cursor := ⟨source.toList, .start⟩

/-- Skips blanks and comments. A comment starts with two slashes and runs up to the end of its line;
`inComment` says that the text starts inside one. -/
def skip (inComment : Bool) : List Char → Position → Cursor
  | [], p => ⟨[], p⟩
  | c :: cs, p =>
    if inComment && c != '\n' then skip true cs (p.advance c)
    else if isBlank c then skip false cs (p.advance c)
    else if c = '/' ∧ cs.head? = some '/' then skip true cs (p.advance c)
    else ⟨c :: cs, p⟩

/-- The next token and the place behind it. At the end of the text this is the token `eof`, any
number of times. -/
def next (s : Cursor) : Token × Cursor :=
  let s := skip false s.rest s.position
  match s.rest with
  | [] => (.eof s.position, s)
  | c :: cs =>
    let (kind, n) := extent c cs
    let taken := cs.take n
    let stop := s.position.after (c :: taken)
    (⟨kind, literalOf kind c taken, .between s.position stop⟩, ⟨cs.drop n, stop⟩)

theorem skip_rest_length_le (b : Bool) (cs : List Char) (p : Position) :
    (skip b cs p).rest.length ≤ cs.length := by
  fun_induction skip b cs p <;> simp_all <;> omega

theorem extent_kind_ne_eof (c : Char) (cs : List Char) : (extent c cs).1 ≠ .eof := by
  unfold extent
  repeat' split
  all_goals first
    | exact Kind.ofWord_ne_eof _
    | exact nofun

/-- Every token but `eof` takes at least one character. -/
theorem next_rest_lt {s : Cursor} (h : s.next.1.kind ≠ .eof) :
    s.next.2.rest.length < s.rest.length := by
  have hle := skip_rest_length_le false s.rest s.position
  unfold next at h ⊢
  simp only at h ⊢
  split at h
  · simp [Token.eof] at h
  · rename_i c cs hcs
    simp only [hcs] at hle ⊢
    simp only [List.length_cons, List.length_drop] at hle ⊢
    omega

/-- Puts the tokens from the cursor on, `eof` left out, behind those of `done`, and gives the place
behind the last of them. -/
def words (s : Cursor) (done : Array Token) : Array Token × Cursor :=
  let step := s.next
  if step.1.kind = .eof then (done, s)
  else step.2.words (done.push step.1)
termination_by s.rest.length
decreasing_by exact next_rest_lt ‹_›

end Cursor

/-- The tokens of a text in order, and the token `eof` behind them. -/
def Token.scan (source : String) : List Token × Token :=
  let (tokens, finish) := (Cursor.ofString source).words #[]
  (tokens.toList, finish.next.1)

end Monkey
