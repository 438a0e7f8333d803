import Monkey.CommandLine

/-!
# The program

The outer layer: it reads the environment, files and lines, and puts out what the library answers.
-/

namespace Monkey.Terminal

/-- Puts out a list of emissions. -/
def emit (es : List Emission) : IO Unit := do
  for e in es do
    match e with
    | .out text => IO.print text
    | .err text => IO.eprint text
  (← IO.getStdout).flush

/-- The content of a file, or the reason why there is none. -/
def readFile (path : String) : IO (Except String String) := do
  try
    return .ok (← IO.FS.readFile path)
  catch
    | .noFileOrDirectory _ code _ => return .error s!"No such file or directory (os error {code})"
    | e => return .error (toString e)

/-- Runs a console on the lines of standard input. -/
partial def converse (input : IO.FS.Stream) (c : Console) : IO Console := do
  emit [.out c.prompt]
  let line ← input.getLine
  if line.isEmpty then
    emit [.out Console.endOfInput]
    return c
  match c.feed line with
  | (shown, .next, c) =>
    emit shown
    converse input c
  | (shown, .evaluate source, c) =>
    emit shown
    let (shown, c) := c.execute source
    emit shown
    converse input c
  | (shown, .load path, c) =>
    emit shown
    let (shown, c) := c.load (← readFile path)
    emit shown
    converse input c
  | (shown, .quit, c) =>
    emit shown
    return c

/-- The file that the history is kept in. -/
def historyFile : IO String := do
  match ← IO.getEnv "HOME" with
  | some home => return home ++ "/.simian_history"
  | none => return ".simian_history"

/-- Runs a console from its banner to its end, and keeps its history. -/
def interact (limits : Limits) (coloured : Bool) : IO Unit := do
  let file ← historyFile
  let kept :=
    match ← readFile file with
    | .ok text => text
    | .error _ => ""
  emit [.out Console.banner]
  let c ← converse (← IO.getStdin) (.start limits stepLimit (.ofText kept) coloured)
  try
    IO.FS.writeFile file c.history.toText
  catch _ => return

/-- Puts out an answer and gives its exit status. -/
def finish (a : Answer) : IO UInt32 := do
  emit a.emissions
  return a.status

/-- Does what the arguments ask for. -/
def start (arguments : List String) : IO UInt32 := do
  let settings := ["SIMIAN_STACK_SIZE", "SIMIAN_GLOBALS_SIZE", "SIMIAN_MAX_FRAMES",
    "CLICOLOR_FORCE", "NO_COLOR", "CLICOLOR"]
  let values ← settings.mapM fun name => return (name, ← IO.getEnv name)
  let environment (name : String) := (values.lookup name).join
  let coloured := isColoured environment (← (← IO.getStdout).isTty)
  match (Invocation.ofArguments environment arguments).job stepLimit coloured with
  | .answer a => finish a
  | .read file o limits =>
    finish (o.answerFile limits stepLimit coloured file (← readFile file))
  | .converse limits =>
    interact limits coloured
    return 0

end Monkey.Terminal

def main (arguments : List String) : IO UInt32 := Monkey.Terminal.start arguments
