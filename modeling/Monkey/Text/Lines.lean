/-!
# Lines of text

`lines` cuts a text into lines. A line ends with a line feed, which may have a carriage return
before it, and neither belongs to the line. What stands behind the last line feed is a line as
well unless it is empty.
-/

namespace Monkey

/-- The lines of `cs`, the first of which starts with the characters of `line` in reverse order. -/
def linesFrom (line : List Char) : List Char → List String
  | [] => if line = [] then [] else [String.ofList line.reverse]
  | c :: cs =>
    if c = '\n' then
      let content := if line.head? = some '\r' then line.tail else line
      String.ofList content.reverse :: linesFrom [] cs
    else linesFrom (c :: line) cs

/-- The lines of a text. -/
def lines (s : String) : List String := linesFrom [] s.toList

end Monkey
