import Monkey.Bytecode.Chunk
import Monkey.Limits
import Monkey.Machine.Fault

/-!
# The machine

A stack machine for compiled programs. The stack has a fixed number of slots, of which the first
`sp` are in use; a value that is popped stays in its slot until another one is pushed over it. A
frame is a call that is running: it knows its function, the offset of its next instruction, and
the slot from which on its parameters and local names are kept.

`Executing` is the kind of step that instructions are made of. A step that raises a fault keeps what
it did to the machine before.
-/

namespace Monkey

/-- A call that is running. -/
structure Frame where
  function : Function
  /-- The offset of the next instruction. -/
  ip : Nat
  /-- The slot of the first parameter. -/
  base : Nat
deriving Repr, DecidableEq, Inhabited

/-- A machine that runs a program. -/
structure Machine where
  constants : Array Value
  stack : Array Value
  /-- The number of slots in use. The slot behind them holds the value that was popped last. -/
  sp : Nat
  /-- The global slots; a slot is empty until something is stored in it. -/
  globals : Array (Option Value)
  /-- The open calls, the innermost last. -/
  frames : Array Frame
  maxFrames : Nat
deriving Inhabited

namespace Machine

/-- The frame of the top level of a program. -/
def mainFrame (code : Code) : Frame := ⟨⟨0, code, 0, 0, none⟩, 0, 0⟩

/-- A machine about to run a program, with the globals that an earlier one left. The globals are
filled up to their size with empty slots. -/
def start (chunk : Chunk) (globals : Array (Option Value)) (limits : Limits) : Machine where
  constants := chunk.constants
  stack := .replicate limits.stackSize .null
  sp := 0
  globals := globals ++ Array.replicate (limits.globalsSize - globals.size) none
  frames := #[mainFrame chunk.code]
  maxFrames := limits.maxFrames

/-- The top of the stack. -/
def top? (m : Machine) : Option Value :=
  if m.sp = 0 then none else m.stack[m.sp - 1]?

/-- The value that was popped last: the one in the first slot that is not in use, and null when
all are in use. -/
def lastPopped (m : Machine) : Value := m.stack.getD m.sp .null

end Machine

/-- A step of running code: it succeeds or raises a fault, and changes the machine in both cases. -/
abbrev Executing := ExceptT Fault (StateM Machine)

namespace Executing

/-- Puts a value on the stack. -/
def push (v : Value) : Executing Unit := do
  let m ← get
  if m.sp < m.stack.size then
    set { m with stack := m.stack.setIfInBounds m.sp v, sp := m.sp + 1 }
  else
    throw .stackOverflow

/-- Takes a value off the stack. -/
def pop : Executing Value := do
  let m ← get
  if m.sp = 0 then throw .stackUnderflow
  else
    let v := m.stack.getD (m.sp - 1) .null
    set { m with sp := m.sp - 1 }
    return v

/-- Takes `count` values off the stack, and gives them in the order in which they were pushed. -/
def popMany (count : Nat) : Executing (List Value) := do
  let m ← get
  if m.sp < count then throw .stackUnderflow
  else
    let vs := (m.stack.extract (m.sp - count) m.sp).toList
    set { m with sp := m.sp - count }
    return vs

/-- Makes the running call go on at an offset. -/
def jump (target : Nat) : Executing Unit :=
  modify fun m =>
    { m with frames := m.frames.modify (m.frames.size - 1) fun f => { f with ip := target } }

/-- The stack slot of a local slot of the running call. -/
def localSlot (slot : Nat) : Executing Nat := do
  let frame := (← get).frames.back?.getD default
  if slot < frame.function.locals then return frame.base + slot
  else throw (.localOutOfRange slot)

/-- Ends the running call with a result. The result takes the place of the function and its
arguments on the stack. When the call was the main program the machine stops, and the result is
its last popped value. -/
def leave (result : Value) : Executing Unit := do
  let m ← get
  match m.frames.back? with
  | none => throw .stackUnderflow
  | some frame =>
    if m.frames.size = 1 then
      set { m with frames := m.frames.pop, sp := 0, stack := m.stack.setIfInBounds 0 result }
    else
      set { m with frames := m.frames.pop, sp := frame.base - 1 }
      push result

/-- Puts null into the slots from `slot` on, as many as `count`. -/
def clearSlots (stack : Array Value) (slot : Nat) : Nat → Array Value
  | 0 => stack
  | count + 1 => clearSlots (stack.setIfInBounds slot .null) (slot + 1) count

/-- Opens a call of the function below `count` arguments. Its local slots that are no parameters
start out as null. -/
def call (count : Nat) : Executing Unit := do
  let m ← get
  if m.sp ≤ count then throw .stackUnderflow
  else
    match m.stack.getD (m.sp - 1 - count) .null with
    | .function f =>
      if count ≠ f.parameters then throw (.wrongArity f.parameters count)
      else if m.maxFrames ≤ m.frames.size then throw (.frameOverflow m.maxFrames)
      else
        let base := m.sp - count
        let top := base + max f.locals count
        if m.stack.size < top then throw .stackOverflow
        else
          set { m with
            stack := clearSlots m.stack m.sp (top - m.sp)
            sp := top
            frames := m.frames.push ⟨f, 0, base⟩ }
    | v => throw (.notCallable v.type)

end Executing

end Monkey
