import Monkey.Machine
import Monkey.Machine.Operator

/-!
# Running code

`Machine.step` carries out one instruction, and `Machine.run` goes on until the program ends or
raises a fault. A program ends when its top level returns or has no further instruction; a
function without a further instruction returns null. Raw code can loop, so a run is given the
number of steps that it may take at most.
-/

namespace Monkey

namespace Executing

/-- Takes two operands off the stack and pushes what `f` makes of them. -/
@[inline] def binary (f : Value → Value → Except Fault Value) : Executing Unit := do
  let right ← pop
  let left ← pop
  match f left right with
  | .ok v => push v
  | .error e => throw e

/-- Takes an operand off the stack and pushes what `f` makes of it. -/
@[inline] def unary (f : Value → Except Fault Value) : Executing Unit := do
  let v ← pop
  match f v with
  | .ok w => push w
  | .error e => throw e

/-- Carries out an instruction with its operand. The next instruction is already chosen: it is the
one behind, unless a jump, a call or a return decides otherwise. -/
def execute (op : Opcode) (operand : Nat) : Executing Unit :=
  match op with
  | .constant => do
    match (← get).constants[operand]? with
    | some v => push v
    | none => throw (.constantOutOfRange operand)
  | .pop => do
    let _ ← pop
  | .add => binary (ArithOp.apply .add)
  | .sub => binary (ArithOp.apply .sub)
  | .mul => binary (ArithOp.apply .mul)
  | .div => binary (ArithOp.apply .div)
  | .true => push (.boolean true)
  | .false => push (.boolean false)
  | .null => push .null
  | .equal => binary fun v w => .ok (.boolean (v == w))
  | .notEqual => binary fun v w => .ok (.boolean (v != w))
  | .greaterThan => binary Value.greater
  | .minus => unary Value.negate
  | .bang => unary fun v => .ok (.boolean (!v.isTruthy))
  | .jumpNotTruthy => do
    let v ← pop
    unless v.isTruthy do
      jump operand
  | .jump => jump operand
  | .getGlobal => do
    match (← get).globals[operand]? with
    | some (some v) => push v
    | some none => throw (.unresolvedGlobal operand)
    | none => throw (.globalOutOfRange operand)
  | .setGlobal => do
    let v ← pop
    if operand < (← get).globals.size then
      modify fun m => { m with globals := m.globals.setIfInBounds operand (some v) }
    else
      throw (.globalOutOfRange operand)
  | .array => do push (.array (← popMany operand))
  | .hash => do
    match Value.hashOf (← popMany operand) with
    | .ok v => push v
    | .error e => throw e
  | .index => binary Value.lookup
  | .call => call operand
  | .returnValue => do leave (← pop)
  | .ret => leave .null
  | .getLocal => do
    let slot ← localSlot operand
    push ((← get).stack.getD slot .null)
  | .setLocal => do
    let v ← pop
    let slot ← localSlot operand
    modify fun m => { m with stack := m.stack.setIfInBounds slot v }

end Executing

open Executing

/-- The instruction at an offset inside a stream of code: its opcode, its operand, and the offset of
the instruction behind it. -/
def Code.fetch (code : Code) (ip : Nat) : Except RuntimeError (Opcode × Nat × Nat) :=
  match Opcode.lookup (code.getD ip 0) with
  | .error e => .error ⟨.instruction e, .undefined, ip⟩
  | .ok op =>
    let length := op.layout.operandLength
    let bytes := (code.extract (ip + 1) (ip + 1 + length)).toList
    if bytes.length = length then .ok (op, readUInt bytes, ip + 1 + length)
    else .error ⟨.instruction (.truncated op.name length bytes.length), .at op, ip⟩

/-- How a run stops. -/
inductive Outcome where
  | finished
  | failed (e : RuntimeError)
  /-- The run used up its steps. -/
  | unfinished
deriving Repr, DecidableEq, Inhabited

namespace Machine

/-- Carries out a step whose faults belong to the instruction `site` at the offset `ip`. -/
@[inline] def attempt (m : Machine) (site : Site) (ip : Nat) (step : Executing Unit) :
    Option Outcome × Machine :=
  match step.run.run m with
  | (.ok (), m) => (none, m)
  | (.error fault, m) => (some (.failed ⟨fault, site, ip⟩), m)

/-- Carries out the next instruction. Gives how the run stops when it does, and `none` when it goes
on. -/
def step (m : Machine) : Option Outcome × Machine :=
  match m.frames.back? with
  | none => (some .finished, m)
  | some frame =>
    let ip := frame.ip
    let code := frame.function.code
    if ip < code.size then
      match code.fetch ip with
      | .ok (op, operand, next) =>
        m.attempt (.at op) ip do
          jump next
          execute op operand
      | .error e => (some (.failed e), m)
    else if m.frames.size = 1 then
      (some .finished, { m with frames := #[] })
    else
      m.attempt .codeEnd ip (leave .null)

/-- Runs the machine for at most the given number of steps. -/
def run : Nat → Machine → Outcome × Machine
  | 0, m => (.unfinished, m)
  | steps + 1, m =>
    match m.step with
    | (none, m) => run steps m
    | (some outcome, m) => (outcome, m)

end Machine

end Monkey
