/-!
# Places in source text

A `Position` is a point of a source text: how many bytes stand before it, and its line and column,
both counted from one. `Position.advance` says how one character moves it, and
`Position.after` how a run of characters does, so the position of every point of a text is
`Position.start.after` of the characters before it.

A `Span` is a stretch of text, given by its two byte offsets and by the line and column of its
first character.
-/

namespace Monkey

/-! ### Positions -/

/-- A point of a source text. Offsets count bytes of UTF-8, columns count characters. -/
structure Position where
  offset : Nat
  line : Nat
  column : Nat
deriving Repr, DecidableEq, Inhabited

namespace Position

/-- The point before the first character. -/
def start : Position := ⟨0, 1, 1⟩

/-- The point behind the character `c`: a line feed opens the next line, and every other character
takes one column. -/
def advance (p : Position) (c : Char) : Position :=
  if c = '\n' then ⟨p.offset + 1, p.line + 1, 1⟩
  else ⟨p.offset + c.utf8Size, p.line, p.column + 1⟩

/-- The point behind all the characters of `cs`. -/
def after (p : Position) (cs : List Char) : Position :=
  cs.foldl advance p

@[simp] theorem after_nil (p : Position) : p.after [] = p := rfl

@[simp] theorem after_cons (p : Position) (c : Char) (cs : List Char) :
    p.after (c :: cs) = (p.advance c).after cs := rfl

theorem after_append (p : Position) (cs ds : List Char) :
    p.after (cs ++ ds) = (p.after cs).after ds := by
  simp [after]

end Position

/-! ### Spans -/

/-- A stretch of source text: the bytes from `start` up to `stop`, and the line and column where it
starts. -/
structure Span where
  start : Nat
  stop : Nat
  line : Nat
  column : Nat
deriving Repr, DecidableEq, Inhabited

namespace Span

/-- The stretch between two positions. -/
def between (p q : Position) : Span := ⟨p.offset, q.offset, p.line, p.column⟩

/-- The number of bytes covered. -/
def length (s : Span) : Nat := s.stop - s.start

/-- A span of no bytes, such as that of the end of the text. -/
def isEmpty (s : Span) : Bool := s.start == s.stop

/-- The smallest span that covers both. Its line and column are those of the one that starts first,
of the left one when they start together. -/
def merge (s t : Span) : Span :=
  let first := if s.start ≤ t.start then s else t
  ⟨min s.start t.start, max s.stop t.stop, first.line, first.column⟩

/-- A span as diagnostics show it: line and column with a colon between. -/
def text (s : Span) : String := s!"{s.line}:{s.column}"

end Span

end Monkey
