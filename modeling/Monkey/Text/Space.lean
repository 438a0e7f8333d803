/-!
# White space around text

`trimEnd` and `trim` drop white space at the ends of a text. White space is what the Unicode
property of that name says: the blanks and line ends of ASCII, and the spaces and separators
beyond it.
-/

namespace Monkey

/-- Whether a character is white space. -/
def isSpace (c : Char) : Bool :=
  let n := c.toNat
  (9 ≤ n && n ≤ 13) || n == 0x20 || n == 0x85 || n == 0xA0 || n == 0x1680
    || (0x2000 ≤ n && n ≤ 0x200A) || n == 0x2028 || n == 0x2029 || n == 0x202F || n == 0x205F
    || n == 0x3000

/-- A text without the white space at its end. -/
def trimEnd (s : String) : String :=
  String.ofList (s.toList.reverse.dropWhile isSpace).reverse

/-- A text without the white space at its start and at its end. -/
def trim (s : String) : String :=
  trimEnd (String.ofList (s.toList.dropWhile isSpace))

end Monkey
