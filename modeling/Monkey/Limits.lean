/-!
# Limits of the machine

How many slots and frames a machine has. `Limits.check` refuses a machine without any, and more
global slots than an instruction can address.
-/

namespace Monkey

/-- The sizes of the stores of a machine. -/
structure Limits where
  /-- The slots of the operand stack. -/
  stackSize : Nat := 2048
  /-- The global slots. -/
  globalsSize : Nat := 65536
  /-- The calls that may be open at a time, the main program included. -/
  maxFrames : Nat := 1024
deriving Repr, DecidableEq, Inhabited

/-- Why limits cannot be used. -/
inductive LimitError where
  /-- A limit, given by its name, is zero. -/
  | zero (field : String)
  /-- More global slots than two bytes can address. -/
  | globalsTooLarge (size : Nat)
deriving Repr, DecidableEq, Inhabited

/-- The wording of a limit error. -/
def LimitError.message : LimitError → String
  | zero field => s!"{field} must be greater than zero"
  | globalsTooLarge size =>
    s!"globals_size {size} exceeds the 2-byte slot operand limit of 65536"

/-- Limits that a machine can be run with. -/
def Limits.check (l : Limits) : Except LimitError Unit :=
  if l.stackSize = 0 then .error (.zero "stack_size")
  else if l.globalsSize = 0 then .error (.zero "globals_size")
  else if l.maxFrames = 0 then .error (.zero "max_frames")
  else if 65536 < l.globalsSize then .error (.globalsTooLarge l.globalsSize)
  else .ok ()

end Monkey
