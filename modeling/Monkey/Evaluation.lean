import Monkey.Error
import Monkey.Machine.Step
import Monkey.Program.Parser

/-!
# From source text to value

`compile` and `evaluate` take a source text through all stages: tokens, program, code, and the value
that the machine popped last. A `Session` evaluates one text after the other, and each of them sees
the names that those before it bound.

A text with faults, or one that does not compile, leaves a session as it was. A run that raises a
fault leaves behind what it did up to then: the names are bound, and the globals that were assigned
keep their values.
-/

namespace Monkey

/-- A bound for runs that are not meant to have one: more steps than any computer carries out. -/
def stepLimit : Nat := 1 <<< 62

/-- The code of a source text. -/
def compile (source : String) : Except Error Chunk :=
  match Program.parse source with
  | .error ds => .error (.parse ds)
  | .ok p =>
    match p.compile with
    | .error e => .error (.compile e)
    | .ok chunk => .ok chunk

/-- The result of a run: the value popped last, unless the run failed. -/
def Outcome.result (o : Outcome) (m : Machine) : Except Error Value :=
  match o with
  | finished => .ok m.lastPopped
  | failed e => .error (.runtime e)
  | unfinished => .error .unfinished

/-- The value of a source text on a machine of its own, run for at most the given number of
steps. -/
def evaluate (limits : Limits) (steps : Nat) (source : String) : Except Error Value :=
  match limits.check with
  | .error e => .error (.limits e)
  | .ok () =>
    match compile source with
    | .error e => .error e
    | .ok chunk =>
      let (outcome, m) := (Machine.start chunk #[] limits).run steps
      outcome.result m

/-! ### Sessions -/

/-- What is known after some source texts: their names, their constants, and the values of their
global names. -/
structure Session where
  scope : Scope
  constants : Array Value
  globals : Array (Option Value)
  limits : Limits
  /-- How many steps the run of one text may take. -/
  steps : Nat
deriving Inhabited

namespace Session

/-- A session in which nothing is known. -/
def start (limits : Limits) (steps : Nat) : Session :=
  ⟨.empty, #[], #[], limits, steps⟩

/-- Evaluates a source text. -/
def eval (s : Session) (source : String) : Except Error Value × Session :=
  match Program.parse source with
  | .error ds => (.error (.parse ds), s)
  | .ok p =>
    match (Compilation.resume s.scope s.constants).add p with
    | (.error e, _) => (.error (.compile e), s)
    | (.ok (), c) =>
      let (outcome, m) := (Machine.start c.chunk s.globals s.limits).run s.steps
      (outcome.result m, { s with
        scope := c.scope
        constants := c.constants
        globals := m.globals })

/-- Forgets everything. -/
def reset (s : Session) : Session := start s.limits s.steps

end Session

end Monkey
