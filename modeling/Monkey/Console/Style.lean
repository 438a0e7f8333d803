import Monkey.Error
import Monkey.Value.Text

/-!
# What the terminal shows

An `Emission` is a piece of text for one of the two output streams. Text may be coloured with the
escape sequences of terminals (`paint`). Results have a colour for their type, errors are red.
-/

namespace Monkey

/-- A piece of output: for the results, or for the errors. -/
inductive Emission where
  | out (text : String)
  | err (text : String)
deriving Repr, DecidableEq, Inhabited

namespace Emission

/-- What a list of emissions puts out as results. -/
def outText (es : List Emission) : String :=
  String.join (es.map fun e => match e with | .out text => text | .err _ => "")

/-- What a list of emissions puts out as errors. -/
def errText (es : List Emission) : String :=
  String.join (es.map fun e => match e with | .out _ => "" | .err text => text)

end Emission

/-- The styles of text on a terminal. -/
inductive Style where
  | plain | red | boldRed | cyan | yellow | green | magenta
deriving Repr, DecidableEq, Inhabited

/-- The escape sequence that starts a style. -/
def Style.sequence : Style → String
  | plain => ""
  | red => "\x1b[31m"
  | boldRed => "\x1b[1;31m"
  | cyan => "\x1b[36m"
  | yellow => "\x1b[33m"
  | green => "\x1b[32m"
  | magenta => "\x1b[35m"

/-- The escape sequence that ends every style. -/
def resetSequence : List Char := ['\x1b', '[', '0', 'm']

/-- Writes `opening` behind every reset sequence in a text, so that a style goes on behind it. The
result stands behind `done`, which is given in reverse order. -/
def reopen (opening done : List Char) : List Char → List Char
  | '\x1b' :: '[' :: '0' :: 'm' :: cs =>
    reopen opening (opening.reverse ++ resetSequence.reverse ++ done) cs
  | c :: cs => reopen opening (c :: done) cs
  | [] => done.reverse

/-- A text in a style, if colours are shown at all. -/
def paint (coloured : Bool) (style : Style) (text : String) : String :=
  if coloured && style != .plain then
    let opening := style.sequence.toList
    String.ofList (opening ++ reopen opening [] text.toList ++ resetSequence)
  else text

/-- The style of results of a type. -/
def ValueType.style : ValueType → Style
  | integer => .cyan
  | boolean => .yellow
  | string => .green
  | function => .magenta
  | array | hash | null => .plain

/-- How an error is shown: diagnostics as an indented list, every other error on a line. -/
def Error.emissions (coloured : Bool) : Error → List Emission
  | parse ds =>
    .err (paint coloured .boldRed "parser errors:" ++ "\n") ::
      ds.map fun d => .err ("\t" ++ paint coloured .red d.message ++ "\n")
  | e => [.err (paint coloured .red e.message ++ "\n")]

end Monkey
