import Monkey.Bytecode.Listing
import Monkey.Console

/-!
# The command line

The program is given a file or a piece of code, which it runs or lists, or neither, and then it
starts a console. The limits of the machine are options, and those that are not given are looked
up in the environment. `Invocation.ofArguments` reads the arguments, and `Options.answer` says
what the program does with a source text.
-/

namespace Monkey

/-! ### Options -/

/-- What the arguments ask for. -/
structure Options where
  /-- The file to run. -/
  file : Option String := none
  /-- The code to run instead of a file. -/
  code : Option String := none
  /-- Whether to list the compiled code instead of running it. -/
  disassemble : Bool := false
  verbose : Bool := false
  stackSize : Option Nat := none
  globalsSize : Option Nat := none
  maxFrames : Option Nat := none
deriving Repr, DecidableEq, Inhabited

/-- What the program is to do. -/
inductive Invocation where
  | run (options : Options) (limits : Limits)
  /-- Show the version. -/
  | version
  /-- Show how the program is used. -/
  | help
  /-- Refuse the arguments, for the given reason. -/
  | refuse (reason : String)
deriving Repr, DecidableEq, Inhabited

/-- The number that a text spells in decimal, a plus sign before it allowed. -/
def number? (text : String) : Option Nat :=
  let digits := if text.toList.head? = some '+' then text.toList.tail else text.toList
  if digits ≠ [] ∧ digits.all Char.isDigit ∧ decimal digits < UInt64.size then some (decimal digits)
  else none

namespace Options

/-- Takes an option that may be given only once. -/
def once (given : Bool) (name : String) (new : Options) : Except String Options :=
  if given then .error s!"the argument '--{name}' cannot be used multiple times" else .ok new

/-- Gives an option, known by its long name, a value. -/
def set (o : Options) (name value : String) : Except String Options :=
  let number : Except String Nat :=
    match number? value with
    | some n => .ok n
    | none => .error s!"invalid value '{value}' for '--{name}'"
  match name with
  | "eval" => once o.code.isSome name { o with code := some value }
  | "stack-size" => do once o.stackSize.isSome name { o with stackSize := some (← number) }
  | "globals-size" => do once o.globalsSize.isSome name { o with globalsSize := some (← number) }
  | "max-frames" => do once o.maxFrames.isSome name { o with maxFrames := some (← number) }
  | _ => .error s!"unexpected argument '--{name}' found"

/-- Sets an option that has no value. -/
def flag (o : Options) (name : String) : Except String Options :=
  match name with
  | "disassemble" => once o.disassemble name { o with disassemble := true }
  | "verbose" => once o.verbose name { o with verbose := true }
  | _ => .error s!"unexpected argument '--{name}' found"

/-- Whether an option has a value. -/
def takesValue (name : String) : Bool :=
  name == "eval" || name == "stack-size" || name == "globals-size" || name == "max-frames"

/-- The file to run. -/
def positional (o : Options) (argument : String) : Except String Options :=
  if o.file.isSome || argument.isEmpty then .error s!"unexpected argument '{argument}' found"
  else .ok { o with file := some argument }

/-- A limit that was not given, looked up in the environment. -/
def limit (given : Option Nat) (setting : Option String) (fallback : Nat) : Except String Nat :=
  match given, setting with
  | some n, _ => .ok n
  | none, none => .ok fallback
  | none, some text =>
    match number? text with
    | some n => .ok n
    | none => .error s!"invalid value '{text}'"

/-- The limits that the options and the environment ask for. -/
def limits (o : Options) (environment : String → Option String) : Except String Limits := do
  let fallback : Limits := {}
  let stackSize ← limit o.stackSize (environment "SIMIAN_STACK_SIZE") fallback.stackSize
  let globalsSize ← limit o.globalsSize (environment "SIMIAN_GLOBALS_SIZE") fallback.globalsSize
  let maxFrames ← limit o.maxFrames (environment "SIMIAN_MAX_FRAMES") fallback.maxFrames
  return ⟨stackSize, globalsSize, maxFrames⟩

end Options

namespace Invocation

/-- An argument may start an option unless it is a lone dash. -/
def isOption (argument : String) : Bool :=
  argument.toList.head? = some '-' && argument != "-"

/-- The long name of an option of one letter. -/
def longName? : Char → Option String
  | 'e' => some "eval"
  | 'd' => some "disassemble"
  | 'v' => some "verbose"
  | 'V' => some "version"
  | 'h' => some "help"
  | _ => none

/-- Splits a list at the first equals sign, which is dropped. -/
def splitValue (cs : List Char) : String × Option String :=
  match cs.dropWhile (· ≠ '=') with
  | [] => (String.ofList cs, none)
  | _ :: value => (String.ofList (cs.takeWhile (· ≠ '=')), some (String.ofList value))

/-- What reading an argument leads to: the options so far and the letters and arguments that are
left, or an answer at once. -/
abbrev Reading := Except Invocation (Options × List Char × List String)

/-- Reads one option, with a value if one was given along with it. -/
def option (o : Options) (name : String) (value : Option String) (letters : List Char)
    (rest : List String) : Reading :=
  let done (o : Except String Options) (rest : List String) : Reading :=
    match o with
    | .ok o => .ok (o, letters, rest)
    | .error reason => .error (.refuse reason)
  if Options.takesValue name then
    match value, rest with
    | some v, _ => done (o.set name v) rest
    | none, v :: rest =>
      if isOption v then .error (.refuse s!"a value is required for '--{name}'")
      else done (o.set name v) rest
    | none, [] => .error (.refuse s!"a value is required for '--{name}'")
  else if value.isSome then .error (.refuse s!"unexpected value for '--{name}'")
  else if name = "version" then .error .version
  else if name = "help" then .error .help
  else done (o.flag name) rest

/-- Reads the next letter or argument. Letters are what is left of an argument like `-dv`, which
stands for `-d -v`; a letter whose option has a value takes the rest of them. -/
def next (o : Options) (letters : List Char) (rest : List String) : Reading :=
  match letters, rest with
  | letter :: letters, rest =>
    match longName? letter with
    | none => .error (.refuse s!"unexpected argument '-{letter}' found")
    | some name =>
      if Options.takesValue name && !letters.isEmpty then
        let value := if letters.head? = some '=' then letters.tail else letters
        option o name (some (String.ofList value)) [] rest
      else option o name none letters rest
  | [], argument :: rest =>
    match argument.toList with
    | '-' :: '-' :: long =>
      let (name, value) := splitValue long
      option o name value [] rest
    | '-' :: letter :: letters => .ok (o, letter :: letters, rest)
    | _ =>
      match o.positional argument with
      | .ok o => .ok (o, [], rest)
      | .error reason => .error (.refuse reason)
  | [], [] => .ok (o, [], [])

/-- Reads what stands behind `--`: files only. -/
def files (o : Options) : List String → Except Invocation Options
  | [] => .ok o
  | argument :: rest =>
    match o.positional argument with
    | .ok o => files o rest
    | .error reason => .error (.refuse reason)

/-- Reads all letters and arguments, at most `fuel` of them. -/
def readAll (o : Options) (letters : List Char) (rest : List String) :
    Nat → Except Invocation Options
  | 0 => .ok o
  | fuel + 1 =>
    if letters = [] ∧ rest = [] then .ok o
    else if letters = [] ∧ rest.head? = some "--" then files o rest.tail
    else
      match next o letters rest with
      | .ok (o, letters, rest) => readAll o letters rest fuel
      | .error answer => .error answer

/-- What the arguments and the environment ask for. -/
def ofArguments (environment : String → Option String) (arguments : List String) : Invocation :=
  let size := (arguments.map fun a => a.length + 1).foldr (· + ·) 0
  match readAll {} [] arguments (size + 1) with
  | .error answer => answer
  | .ok o =>
    if o.file.isSome && o.code.isSome then
      .refuse "the argument '--eval <EVAL>' cannot be used with '[FILE]'"
    else
      match o.limits environment with
      | .ok limits => .run o limits
      | .error reason => .refuse reason

end Invocation

/-! ### Answers -/

/-- What the program leaves behind: its output, its exit status, and the history that is to be kept
when there was a console. -/
structure Answer where
  emissions : List Emission
  status : UInt32
  history : Option String
deriving Repr, Inhabited

namespace Answer

/-- Output of a program that did what it was asked for. -/
def success (emissions : List Emission) : Answer := ⟨emissions, 0, none⟩

/-- An error that ends the program. -/
def failure (coloured : Bool) (e : Error) : Answer := ⟨e.emissions coloured, 1, none⟩

/-- The answer to a file that cannot be read. -/
def unreadable (coloured : Bool) (file reason : String) : Answer :=
  ⟨[.err (paint coloured .red s!"could not read {file}: {reason}" ++ "\n")], 1, none⟩

/-- The answer to the question for the version. -/
def version : Answer := success [.out "simian 0.1.0\n"]

/-- How the program is used. -/
def usage : String := "Usage: simian [OPTIONS] [FILE]\n"

/-- The answer to the question for help. -/
def help : Answer := success [.out usage]

/-- The answer to arguments that make no sense. -/
def refusal (reason : String) : Answer :=
  ⟨[.err s!"error: {reason}\n\n", .err usage, .err "\nFor more information, try '--help'.\n"],
    2, none⟩

end Answer

/-- What the program does with a source text: it lists its code, or runs it and prints its value
unless that is null. -/
def Options.answer (o : Options) (limits : Limits) (steps : Nat) (coloured : Bool)
    (source : String) : Answer :=
  if o.disassemble then
    match compile source with
    | .ok chunk => .success [.out chunk.listing]
    | .error e => .failure coloured e
  else
    match evaluate limits steps source with
    | .ok v => .success (if v.isNull then [] else [.out (v.text ++ "\n")])
    | .error e => .failure coloured e

/-- The same for the content of a file, or for the reason why it cannot be read. -/
def Options.answerFile (o : Options) (limits : Limits) (steps : Nat) (coloured : Bool)
    (file : String) (content : Except String String) : Answer :=
  match content with
  | .ok source => o.answer limits steps coloured source
  | .error reason => .unreadable coloured file reason

/-! ### Jobs -/

/-- What is left to do when the arguments are read. -/
inductive Job where
  /-- To give an answer. -/
  | answer (a : Answer)
  /-- To read a file, and to answer with what its content leads to. -/
  | read (file : String) (options : Options) (limits : Limits)
  /-- To open a console. -/
  | converse (limits : Limits)
deriving Repr, Inhabited

/-- The job that an invocation sets. Limits are checked before a file is looked for. -/
def Invocation.job (i : Invocation) (steps : Nat) (coloured : Bool) : Job :=
  match i with
  | .version => .answer .version
  | .help => .answer .help
  | .refuse reason => .answer (.refusal reason)
  | .run o limits =>
    match limits.check with
    | .error e => .answer (.failure coloured (.limits e))
    | .ok () =>
      match o.code, o.file with
      | some source, _ => .answer (o.answer limits steps coloured source)
      | none, some file => .read file o limits
      | none, none => .converse limits

/-! ### Whole runs -/

/-- Whether output is coloured: the environment can demand colours or forbid them, and otherwise
terminals show them. -/
def isColoured (environment : String → Option String) (terminal : Bool) : Bool :=
  if (environment "CLICOLOR_FORCE").any (· != "0") then true
  else if (environment "NO_COLOR").isSome then false
  else terminal && (environment "CLICOLOR").all (· != "0")

/-- What the program finds when it starts. -/
structure Surroundings where
  environment : String → Option String
  /-- The content of a file, or the reason why there is none. -/
  lookUp : String → Except String String
  /-- The text that is typed in. -/
  input : String
  /-- The text of the history, if one was kept. -/
  history : Option String
  coloured : Bool

/-- What the program does from its start to its end. -/
def Surroundings.run (s : Surroundings) (steps : Nat) (arguments : List String) : Answer :=
  match (Invocation.ofArguments s.environment arguments).job steps s.coloured with
  | .answer a => a
  | .read file o limits => o.answerFile limits steps s.coloured file (s.lookUp file)
  | .converse limits =>
    let history := History.ofText (s.history.getD "")
    let console := Console.start limits steps history s.coloured
    let (shown, console) :=
      console.transcript s.lookUp #[.out Console.banner] (lines s.input)
    ⟨shown.toList, 0, some console.history.toText⟩

end Monkey
