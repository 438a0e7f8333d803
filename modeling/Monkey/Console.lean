import Monkey.Console.History
import Monkey.Console.Style
import Monkey.Evaluation

/-!
# The console

An interactive session: lines come in one by one, and results and errors go out. A line with more
opening braces than closing ones starts an input of several lines, which ends as soon as its braces
are balanced. Lines that start with a dot are commands, outside such an input.

`Console.feed` takes one line and hands out what is to be done with it: a source text to evaluate, or
the name of a file to load. `Console.turn` is the whole answer to a line. Files are read by whoever
runs the console.
-/

namespace Monkey

/-! ### Braces -/

/-- The number of opening braces in a text beyond that of closing ones, counted in 32 bits. Braces
between quotes do not count; `quotes` says whether the text starts between quotes. -/
def braceBalance (quotes : Bool) : List Char → Int32
  | [] => 0
  | c :: cs =>
    if c = '"' then braceBalance (!quotes) cs
    else if c = '\x7b' ∧ quotes = false then 1 + braceBalance quotes cs
    else if c = '\x7d' ∧ quotes = false then braceBalance quotes cs - 1
    else braceBalance quotes cs

/-- The number of opening braces of a line beyond that of its closing ones. -/
def openBraces (line : String) : Int32 := braceBalance false line.toList

/-! ### State -/

/-- The state of a console between two lines. -/
structure Console where
  session : Session
  history : History
  /-- Whether an input of several lines is being entered. -/
  multiline : Bool
  /-- The lines of that input so far. -/
  buffer : String
  /-- The balance of the braces of that input. -/
  balance : Int32
  coloured : Bool
deriving Inhabited

/-- How a console goes on after a line. -/
inductive Reply where
  /-- It waits for the next line. -/
  | next
  /-- It evaluates a source text. -/
  | evaluate (source : String)
  /-- It waits for the content of a file. -/
  | load (path : String)
  /-- It is at its end. -/
  | quit
deriving Repr, DecidableEq, Inhabited

namespace Console

/-- A console that starts with the history of earlier ones. -/
def start (limits : Limits) (steps : Nat) (history : History) (coloured : Bool) : Console :=
  ⟨.start limits steps, history, false, "", 0, coloured⟩

/-! ### Texts -/

/-- What the console says first. -/
def banner : String :=
  "Simian 0.1.0 - Monkey REPL\nType .help for available commands.\n\n"

/-- What the console says last, when it was told to stop. -/
def farewell : String := "Goodbye!\n"

/-- What the console says last, when there is no further line. -/
def endOfInput : String := "\nGoodbye!\n"

/-- The answer to `.help`. -/
def help : String :=
  "\nSimian REPL Commands\n\n"
    ++ ".help          - Show this help message\n"
    ++ ".history       - Show command history\n"
    ++ ".clear         - Forget all bindings\n"
    ++ ".load <file>   - Load and execute a file\n"
    ++ ".break         - Cancel multi-line input\n"
    ++ "exit / Ctrl+D  - Exit the REPL\n\n"

/-- What stands before a line: another text inside an input of several lines. -/
def prompt (c : Console) : String := if c.multiline then "... " else ">> "

/-! ### Lines -/

/-- Whether a line ends the console. -/
def isExit (line : String) : Bool :=
  line == "exit" || line == ".exit" || line == "quit" || line == ".quit"

/-- Adds an entry to the history. -/
def remember (c : Console) (entry : String) : Console :=
  { c with history := c.history.push entry }

/-- Evaluates a source text and shows its value, unless that is null. -/
def execute (c : Console) (source : String) : List Emission × Console :=
  let (result, session) := c.session.eval source
  let shown :=
    match result with
    | .ok v => if v.isNull then [] else [.out (paint c.coloured v.type.style v.text ++ "\n")]
    | .error e => e.emissions c.coloured
  (shown, { c with session })

/-- Goes on with the content of a file that was asked for, or with the reason why there is none. -/
def load (c : Console) (content : Except String String) : List Emission × Console :=
  match content with
  | .ok source => c.execute source
  | .error reason => ((Error.unreadable reason).emissions c.coloured, c)

/-- What a command to load a file starts with; the name of the file follows. -/
def loadWord : List Char := ".load ".toList

/-- Carries out a command. -/
def command (c : Console) (line : String) : List Emission × Reply × Console :=
  if line = ".help" then ([.out help], .next, c)
  else if line = ".history" then ([.out c.history.listing], .next, c)
  else if line = ".clear" then
    ([.out "Environment reset.\n"], .next, { c with session := c.session.reset })
  else if loadWord.isPrefixOf line.toList then
    ([], .load (trim (String.ofList (line.toList.drop loadWord.length))), c)
  else
    ([.out s!"Unknown command: {line}. Type .help for available commands.\n"], .next, c)

/-- Starts an input of several lines. -/
def enter (c : Console) (line : String) : Console :=
  { c with multiline := true, buffer := line, balance := openBraces line }

/-- Takes a further line of an input of several lines. -/
def continueInput (c : Console) (line : String) : List Emission × Reply × Console :=
  if line = ".break" then
    ([.out "(cancelled)\n"], .next, { c with multiline := false, buffer := "", balance := 0 })
  else
    let text := c.buffer ++ "\n" ++ line
    let balance := c.balance + openBraces line
    if balance ≤ 0 then
      let entry := String.ofList (text.toList.map fun ch => if ch = '\n' then ' ' else ch)
      let c : Console := { c with multiline := false, buffer := "", balance }
      ([], .evaluate text, c.remember entry)
    else
      ([], .next, { c with buffer := text, balance })

/-- Takes a line. White space at its end does not count, and outside an input of several lines an
empty line does nothing. -/
def feed (c : Console) (input : String) : List Emission × Reply × Console :=
  let line := trimEnd input
  if line = "" ∧ c.multiline = false then ([], .next, c)
  else if isExit line then ([.out farewell], .quit, c)
  else if c.multiline then c.continueInput line
  else
    let c := c.remember line
    if line.toList.head? = some '.' then c.command line
    else if 0 < openBraces line then ([], .next, c.enter line)
    else ([], .evaluate line, c)

/-! ### Whole runs -/

/-- What a line leads to. -/
structure Turn where
  shown : List Emission
  /-- The source text that the session was given, if there was one. -/
  source : Option String
  /-- Whether a further line is waited for. -/
  goesOn : Bool
  console : Console
deriving Inhabited

/-- Takes a line and does what it asks for. Files are looked up by `lookUp`. -/
def turn (lookUp : String → Except String String) (c : Console) (line : String) : Turn :=
  match c.feed line with
  | (shown, .next, c) => ⟨shown, none, true, c⟩
  | (shown, .evaluate source, c) =>
    let (more, c) := c.execute source
    ⟨shown ++ more, some source, true, c⟩
  | (shown, .load path, c) =>
    let (more, c) := c.load (lookUp path)
    ⟨shown ++ more, (lookUp path).toOption, true, c⟩
  | (shown, .quit, c) => ⟨shown, none, false, c⟩

/-- Everything that a console shows for a list of lines, from the first prompt to the farewell,
behind `shown`, and its state at the end. -/
def transcript (lookUp : String → Except String String) (shown : Array Emission) :
    List String → Console → Array Emission × Console
  | [], c => ((shown.push (.out c.prompt)).push (.out endOfInput), c)
  | line :: rest, c =>
    let turn := c.turn lookUp line
    let shown := shown.push (.out c.prompt) ++ turn.shown.toArray
    if turn.goesOn then transcript lookUp shown rest turn.console else (shown, turn.console)

end Console

end Monkey
