import Monkey.Compilation
import Monkey.Limits
import Monkey.Machine.Fault
import Monkey.Program.Diagnostic

/-!
# Errors

Everything that can stand between a source text and its value.
-/

namespace Monkey

/-- Why a source text has no value. -/
inductive Error where
  /-- The text is no program; there is at least one diagnostic. -/
  | parse (diagnostics : List Diagnostic)
  /-- The program does not compile. -/
  | compile (e : CompileError)
  /-- The program raised a fault. -/
  | runtime (e : RuntimeError)
  /-- The machine cannot be made. -/
  | limits (e : LimitError)
  /-- The text could not be read, for the given reason. -/
  | unreadable (reason : String)
  /-- The program used up the steps it was given. -/
  | unfinished
deriving Repr, DecidableEq, Inhabited

/-- The wording of an error. -/
def Error.message : Error → String
  | parse ds => "parse errors:\n" ++ Diagnostic.report ds
  | compile e => "compile error: " ++ e.message
  | runtime e => "runtime error: " ++ e.message
  | limits e => "config error: " ++ e.message
  | unreadable reason => "IO error: " ++ reason
  | unfinished => "step limit reached"

end Monkey
