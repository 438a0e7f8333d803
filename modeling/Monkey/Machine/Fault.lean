import Monkey.Bytecode.Encoding
import Monkey.Value

/-!
# Faults of the machine

What can go wrong while code runs, and where it did.
-/

namespace Monkey

/-- Why an instruction cannot be carried out. -/
inductive Fault where
  | stackOverflow
  | stackUnderflow
  /-- A call beyond the given number of frames. -/
  | frameOverflow (limit : Nat)
  | instruction (e : InstructionError)
  /-- A global slot that nothing was stored in yet. -/
  | unresolvedGlobal (slot : Nat)
  | globalOutOfRange (slot : Nat)
  | localOutOfRange (slot : Nat)
  | constantOutOfRange (index : Nat)
  | unsupportedBinary (left : ValueType) (symbol : String) (right : ValueType)
  | unsupportedNegation (operand : ValueType)
  | divisionByZero
  | unusableKey (type : ValueType)
  | indexNotSupported (collection key : ValueType)
  | notCallable (type : ValueType)
  | wrongArity (expected got : Nat)
deriving Repr, DecidableEq, Inhabited

/-- The wording of a fault. -/
def Fault.message : Fault → String
  | stackOverflow => "stack overflow"
  | stackUnderflow => "stack underflow"
  | frameOverflow limit => s!"call depth exceeded ({limit} frames)"
  | instruction e => e.message
  | unresolvedGlobal slot => s!"global slot {slot} read before assignment"
  | globalOutOfRange slot => s!"global slot {slot} out of range"
  | localOutOfRange slot => s!"local slot {slot} out of range"
  | constantOutOfRange index => s!"constant index {index} out of range"
  | unsupportedBinary left symbol right =>
    s!"unsupported types for binary operation: {left.name} {symbol} {right.name}"
  | unsupportedNegation operand => s!"unsupported type for negation: {operand.name}"
  | divisionByZero => "division by zero"
  | unusableKey type => s!"unusable as hash key: {type.name}"
  | indexNotSupported collection key =>
    s!"index operator not supported: {collection.name}[{key.name}]"
  | notCallable type => s!"calling non-function: {type.name}"
  | wrongArity expected got => s!"wrong number of arguments: want={expected}, got={got}"

/-- The instruction that a fault belongs to. -/
inductive Site where
  /-- An instruction with this opcode. -/
  | at (op : Opcode)
  /-- A byte that is no opcode. -/
  | undefined
  /-- The end of a function's code. -/
  | codeEnd
deriving Repr, DecidableEq, Inhabited

/-- The name of the instruction at fault. -/
def Site.name : Site → String
  | .at op => op.name
  | undefined => "<undefined>"
  | codeEnd => "<end>"

/-- A fault, the instruction that raised it, and its offset. -/
structure RuntimeError where
  fault : Fault
  site : Site
  ip : Nat
deriving Repr, DecidableEq, Inhabited

/-- The wording of a runtime error. -/
def RuntimeError.message (e : RuntimeError) : String :=
  s!"{e.fault.message} (at {e.site.name}, ip {e.ip})"

end Monkey
