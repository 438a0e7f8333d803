import Monkey.Bytecode.Opcode

/-!
# Encoding of instructions

`Opcode.encode` writes an instruction as bytes and `Layout.decode` reads the operands back. Operands
are unsigned integers of at most 64 bits; one that does not fit in its width is refused.
-/

namespace Monkey

/-- Why bytes are no instruction, or operands make none. -/
inductive InstructionError where
  /-- A byte that is no opcode. -/
  | undefinedOpcode (byte : UInt8)
  /-- A wrong number of operands. -/
  | operandCount (name : String) (expected got : Nat)
  /-- An operand that does not fit in its width. -/
  | operandTooWide (name : String) (operand width : Nat)
  /-- Fewer operand bytes than the instruction has. -/
  | truncated (name : String) (needed available : Nat)
deriving Repr, DecidableEq, Inhabited

/-- The wording of an instruction error. -/
def InstructionError.message : InstructionError → String
  | undefinedOpcode b => s!"opcode {b} undefined"
  | operandCount name expected got => s!"{name} expects {expected} operands, got {got}"
  | operandTooWide name operand width =>
    s!"operand {operand} does not fit in {width} bytes for {name}"
  | truncated name needed available =>
    s!"{name} needs {needed} operand bytes, only {available} remain"

/-! ### Unsigned integers -/

/-- The low `width` bytes of a number, the highest of them first. -/
def bigEndian : Nat → Nat → List UInt8
  | 0, _ => []
  | width + 1, n => UInt8.ofNat (n >>> (8 * width)) :: bigEndian width n

/-- The number that bytes spell, the highest first. Of more than eight bytes the last eight
count. -/
def readUInt (bytes : List UInt8) : Nat :=
  bytes.foldl (fun n b => (n * 256 + b.toNat) % UInt64.size) 0

/-- The number in the first two bytes. -/
def readUInt16? : List UInt8 → Option Nat
  | high :: low :: _ => some (high.toNat * 256 + low.toNat)
  | _ => none

/-- The first byte. -/
def readUInt8? : List UInt8 → Option Nat
  | b :: _ => some b.toNat
  | [] => none

@[simp] theorem length_bigEndian (width n : Nat) : (bigEndian width n).length = width := by
  induction width with
  | zero => rfl
  | succ width ih => simp [bigEndian, ih]

/-! ### Instructions -/

/-- The opcode of a byte. -/
def Opcode.lookup (b : UInt8) : Except InstructionError Opcode :=
  match ofByte? b with
  | some op => .ok op
  | none => .error (.undefinedOpcode b)

/-- The bytes of operands of the given widths, as many as there are of both. -/
def encodeOperands (name : String) : List Nat → List Nat → Except InstructionError (List UInt8)
  | width :: widths, operand :: operands =>
    if operand < 1 <<< (8 * width) then do
      return bigEndian width operand ++ (← encodeOperands name widths operands)
    else
      .error (.operandTooWide name operand width)
  | _, _ => .ok []

namespace Opcode

/-- The bytes of an instruction. -/
def encode (op : Opcode) (operands : List Nat) : Except InstructionError (List UInt8) :=
  if operands.length = op.widths.length then do
    return op.byte :: (← encodeOperands op.name op.widths operands)
  else
    .error (.operandCount op.name op.widths.length operands.length)

/-- The bytes of an instruction, none when the operands make none. -/
def encodeD (op : Opcode) (operands : List Nat) : List UInt8 :=
  match op.encode operands with
  | .ok bytes => bytes
  | .error _ => []

end Opcode

/-- The operands of the given widths at the front of `bytes`. -/
def decodeOperands : List Nat → List UInt8 → List Nat
  | [], _ => []
  | width :: widths, bytes =>
    readUInt (bytes.take width) :: decodeOperands widths (bytes.drop width)

/-- The operands behind an opcode byte, and the number of bytes they take. -/
def Layout.decode (l : Layout) (bytes : List UInt8) : Except InstructionError (List Nat × Nat) :=
  if (bytes.take l.operandLength).length = l.operandLength then
    .ok (decodeOperands l.widths bytes, l.operandLength)
  else
    .error (.truncated l.name l.operandLength bytes.length)

end Monkey
