import Monkey.Text.Lines
import Monkey.Text.Padding
import Monkey.Text.Space

/-!
# The history of a console

The inputs of a console, one entry each. Between two runs the history is kept in a text with an
entry per line. Lines that are blank are no entries.
-/

namespace Monkey

/-- The inputs so far, the oldest first. -/
abbrev History := Array String

namespace History

/-- The history in a text that was written before. -/
def ofText (text : String) : History :=
  ((lines text).filter fun line => trim line ≠ "").toArray

/-- The text that a history is kept in. -/
def toText (h : History) : String := "\n".intercalate h.toList

/-- The history as it is shown: every entry on a line, behind its number. -/
def listing (h : History) : String :=
  String.join (h.toList.zipIdx.map fun (entry, i) =>
    alignRight 4 ' ' (i + 1) ++ "  " ++ entry ++ "\n")

end History

end Monkey
