import Monkey.Bytecode.Encoding
import Monkey.Value

/-!
# Code under construction

A `Buffer` is a stream of code that instructions are appended to. It remembers its last two
instructions, so that a final `OpPop` can be taken back or turned into a return, and a jump can be
given its target after the code that it jumps over.
-/

namespace Monkey

/-- An instruction in a buffer: what it is and where it starts. -/
structure Emitted where
  op : Opcode
  position : Nat
deriving Repr, DecidableEq, Inhabited

/-- A stream of code and its last two instructions. -/
structure Buffer where
  code : Code
  last : Option Emitted
  previous : Option Emitted
deriving Repr, Inhabited

namespace Buffer

/-- No code. -/
def empty : Buffer := ⟨#[], none, none⟩

/-- The offset of the next instruction. -/
def size (b : Buffer) : Nat := b.code.size

/-- Appends an instruction, given by its opcode and its bytes. -/
def append (b : Buffer) (op : Opcode) (bytes : List UInt8) : Buffer :=
  let position := b.code.size
  { code := bytes.foldl Array.push b.code
    last := some ⟨op, position⟩
    previous := b.last }

/-- Whether the last instruction has the opcode `op`. -/
def endsWith (b : Buffer) (op : Opcode) : Bool :=
  match b.last with
  | some e => e.op == op
  | none => false

/-- Takes the last instruction back. -/
def dropLast (b : Buffer) : Buffer :=
  match b.last with
  | some e => { b with code := b.code.shrink e.position, last := b.previous }
  | none => b

/-- Overwrites the opcode of the last instruction. -/
def replaceLast (b : Buffer) (op : Opcode) : Buffer :=
  match b.last with
  | some e =>
    { b with code := b.code.setIfInBounds e.position op.byte, last := some { e with op } }
  | none => b

/-- Writes bytes over the code from an offset on. -/
def overwrite (b : Buffer) (position : Nat) : List UInt8 → Buffer
  | [] => b
  | byte :: bytes =>
    overwrite { b with code := b.code.setIfInBounds position byte } (position + 1) bytes

end Buffer

end Monkey
