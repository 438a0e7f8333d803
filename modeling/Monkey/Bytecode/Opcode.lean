/-!
# Opcodes

The instructions of the machine. An instruction is one opcode byte with its operands behind it, each
a big-endian unsigned integer of a fixed width. The `Layout` of an opcode names it and gives the
widths of its operands.
-/

namespace Monkey

/-- What an instruction does. -/
inductive Opcode where
  /-- Pushes the constant at an index. -/
  | constant
  | add
  /-- Drops the top of the stack. -/
  | pop
  | sub | mul | div
  | true | false
  | equal | notEqual | greaterThan
  | minus | bang
  /-- Pops a condition and goes to an offset when it does not hold. -/
  | jumpNotTruthy
  /-- Goes to an offset. -/
  | jump
  | null
  | getGlobal | setGlobal
  /-- Makes an array of a number of values. -/
  | array
  /-- Makes a hash of a number of values, keys and values in turn. -/
  | hash
  | index
  /-- Calls the function below a number of arguments. -/
  | call
  /-- Leaves the function with the top of the stack. -/
  | returnValue
  /-- Leaves the function with null. -/
  | ret
  | getLocal | setLocal
deriving Repr, DecidableEq, Inhabited

/-- The name of an instruction and the widths of its operands in bytes. -/
structure Layout where
  name : String
  widths : List Nat
deriving Repr, DecidableEq, Inhabited

/-- The number of operand bytes behind the opcode byte. -/
def Layout.operandLength (l : Layout) : Nat := l.widths.foldr (· + ·) 0

namespace Opcode

/-- The byte of an opcode. -/
def byte : Opcode → UInt8
  | constant => 0
  | add => 1
  | pop => 2
  | sub => 3
  | mul => 4
  | div => 5
  | true => 6
  | false => 7
  | equal => 8
  | notEqual => 9
  | greaterThan => 10
  | minus => 11
  | bang => 12
  | jumpNotTruthy => 13
  | jump => 14
  | null => 15
  | getGlobal => 16
  | setGlobal => 17
  | array => 18
  | hash => 19
  | index => 20
  | call => 21
  | returnValue => 22
  | ret => 23
  | getLocal => 24
  | setLocal => 25

/-- The opcode of a byte, if there is one. -/
def ofByte? (b : UInt8) : Option Opcode :=
  match b.toNat with
  | 0 => some constant
  | 1 => some add
  | 2 => some pop
  | 3 => some sub
  | 4 => some mul
  | 5 => some div
  | 6 => some true
  | 7 => some false
  | 8 => some equal
  | 9 => some notEqual
  | 10 => some greaterThan
  | 11 => some minus
  | 12 => some bang
  | 13 => some jumpNotTruthy
  | 14 => some jump
  | 15 => some null
  | 16 => some getGlobal
  | 17 => some setGlobal
  | 18 => some array
  | 19 => some hash
  | 20 => some index
  | 21 => some call
  | 22 => some returnValue
  | 23 => some ret
  | 24 => some getLocal
  | 25 => some setLocal
  | _ => none

/-- The name and the operand widths of an opcode. -/
def layout : Opcode → Layout
  | constant => ⟨"OpConstant", [2]⟩
  | add => ⟨"OpAdd", []⟩
  | pop => ⟨"OpPop", []⟩
  | sub => ⟨"OpSub", []⟩
  | mul => ⟨"OpMul", []⟩
  | div => ⟨"OpDiv", []⟩
  | true => ⟨"OpTrue", []⟩
  | false => ⟨"OpFalse", []⟩
  | equal => ⟨"OpEqual", []⟩
  | notEqual => ⟨"OpNotEqual", []⟩
  | greaterThan => ⟨"OpGreaterThan", []⟩
  | minus => ⟨"OpMinus", []⟩
  | bang => ⟨"OpBang", []⟩
  | jumpNotTruthy => ⟨"OpJumpNotTruthy", [2]⟩
  | jump => ⟨"OpJump", [2]⟩
  | null => ⟨"OpNull", []⟩
  | getGlobal => ⟨"OpGetGlobal", [2]⟩
  | setGlobal => ⟨"OpSetGlobal", [2]⟩
  | array => ⟨"OpArray", [2]⟩
  | hash => ⟨"OpHash", [2]⟩
  | index => ⟨"OpIndex", []⟩
  | call => ⟨"OpCall", [1]⟩
  | returnValue => ⟨"OpReturnValue", []⟩
  | ret => ⟨"OpReturn", []⟩
  | getLocal => ⟨"OpGetLocal", [1]⟩
  | setLocal => ⟨"OpSetLocal", [1]⟩

/-- The name of an opcode. -/
def name (op : Opcode) : String := op.layout.name

/-- The widths of the operands of an opcode. -/
def widths (op : Opcode) : List Nat := op.layout.widths

/-- An opcode is read back from its byte. -/
@[simp] theorem ofByte?_byte (op : Opcode) : ofByte? op.byte = some op := by
  cases op <;> rfl

theorem ofByte?_eq_some_iff {b : UInt8} {op : Opcode} : ofByte? b = some op ↔ b = op.byte := by
  refine ⟨fun h => ?_, fun h => h ▸ ofByte?_byte op⟩
  rw [← UInt8.toNat_inj]
  revert h
  unfold ofByte?
  split <;> simp_all [eq_comm, byte]

end Opcode

end Monkey
