import Monkey.Proofs.Structured

/-!
# Decoding streams

`Code.instructions` walks through a stream the way its listing does, and stops at the first byte
that is no instruction. A layout of pieces is walked through to its end, and the walk meets the
instructions of the pieces (`Code.decode_bytesAll`).
-/

namespace Monkey

/-- An instruction at its place in a stream. -/
structure Instruction where
  offset : Nat
  op : Opcode
  operands : List Nat
deriving Repr, DecidableEq

/-- The instructions of bytes, the first of which stands at an offset. -/
def Code.decode (offset : Nat) (bytes : List UInt8) : Except InstructionError (List Instruction) :=
  match bytes with
  | [] => .ok []
  | b :: rest =>
    match Opcode.lookup b with
    | .error e => .error e
    | .ok op =>
      match op.layout.decode rest with
      | .error e => .error e
      | .ok (operands, n) =>
        (⟨offset, op, operands⟩ :: ·) <$> Code.decode (offset + 1 + n) (rest.drop n)
termination_by bytes.length
decreasing_by
  rw [List.length_drop, List.length_cons]
  omega

/-- The instructions of a stream. -/
def Code.instructions (code : Code) : Except InstructionError (List Instruction) :=
  Code.decode 0 code.toList

namespace Piece

mutual

/-- The instructions of a piece that starts at an offset. -/
def instructions (start : Nat) : Piece → List Instruction
  | .op o ns => [⟨start, o, ns⟩]
  | .branch yes no =>
    ⟨start, .jumpNotTruthy, [start + 3 + sizeAll yes + 3]⟩ ::
      (instructionsAll (start + 3) yes ++
        ⟨start + 3 + sizeAll yes, .jump, [start + 3 + sizeAll yes + 3 + sizeAll no]⟩ ::
          instructionsAll (start + 3 + sizeAll yes + 3) no)
  | .skip no => ⟨start, .jump, [start + 3 + sizeAll no]⟩ :: instructionsAll (start + 3) no
termination_by structural p => p

/-- The instructions of several pieces, the first of which starts at an offset. -/
def instructionsAll (start : Nat) : List Piece → List Instruction
  | [] => []
  | p :: ps => p.instructions start ++ instructionsAll (start + p.size) ps
termination_by structural ps => ps

end

@[simp] theorem instructionsAll_append (start : Nat) (ps qs : List Piece) :
    instructionsAll start (ps ++ qs) =
      instructionsAll start ps ++ instructionsAll (start + sizeAll ps) qs := by
  induction ps generalizing start with
  | nil => simp [instructionsAll, sizeAll]
  | cons p ps ih => simp [instructionsAll, sizeAll, ih, Nat.add_assoc]

end Piece

open Piece

namespace Code

theorem operandLength_jump {op : Opcode} (hop : op = .jump ∨ op = .jumpNotTruthy) :
    1 + op.layout.operandLength = 3 := by
  rcases hop with rfl | rfl <;> rfl

/-- The walk meets an encoded instruction and goes on behind it. -/
theorem decode_of_encode {op : Opcode} {ns : List Nat} {bytes rest : List UInt8} {start : Nat}
    (h : op.encode ns = .ok bytes) :
    decode start (bytes ++ rest) =
      (⟨start, op, ns⟩ :: ·) <$> decode (start + (1 + op.layout.operandLength)) rest := by
  have hlength := Opcode.length_of_encode h
  obtain ⟨operands, rfl, hdecode⟩ := Layout.decode_of_encode h
  rw [List.length_cons, Nat.add_comm, Nat.add_left_cancel_iff] at hlength
  rw [List.cons_append, Code.decode, Opcode.lookup_eq_ok_iff.mpr rfl]
  simp only [hdecode]
  rw [List.drop_left' hlength, Nat.add_assoc]

mutual

theorem decode_bytes {start : Nat} (p : Piece) (h : p.Fits start) (rest : List UInt8) :
    decode start (p.bytes start ++ rest) =
      (p.instructions start ++ ·) <$> decode (start + p.size) rest := by
  cases p with
  | op o ns =>
    obtain ⟨bs, hbs⟩ := h
    rw [Piece.bytes, encodeD_eq hbs, decode_of_encode hbs]
    rfl
  | branch yes no =>
    obtain ⟨hyes, hno, htarget⟩ := h
    have henc₁ := encode_jump (.inr rfl : Opcode.jumpNotTruthy = .jump ∨ _)
      (show start + 3 + sizeAll yes + 3 ≤ maxTarget by omega)
    have henc₂ := encode_jump (.inl rfl : Opcode.jump = .jump ∨ _) htarget
    rw [Piece.bytes, encodeD_eq henc₁, encodeD_eq henc₂, List.append_assoc, List.append_assoc,
      List.append_assoc, decode_of_encode henc₁, operandLength_jump (.inr rfl), decode_bytesAll yes hyes,
      decode_of_encode henc₂, operandLength_jump (.inl rfl), decode_bytesAll no hno]
    rw [show start + (Piece.branch yes no).size = start + 3 + sizeAll yes + 3 + sizeAll no by
      simp only [Piece.size]; omega]
    simp [Functor.map_map, Piece.instructions]
  | skip no =>
    obtain ⟨hno, htarget⟩ := h
    have henc := encode_jump (.inl rfl : Opcode.jump = .jump ∨ _) htarget
    rw [Piece.bytes, encodeD_eq henc, List.append_assoc, decode_of_encode henc,
      operandLength_jump (.inl rfl), decode_bytesAll no hno]
    rw [show start + (Piece.skip no).size = start + 3 + sizeAll no by
      simp only [Piece.size]; omega]
    simp [Functor.map_map, Piece.instructions]
termination_by structural p

/-- **The walk through a layout** meets the instructions of its pieces, and goes on behind. -/
theorem decode_bytesAll {start : Nat} (ps : List Piece) (h : FitsAll start ps)
    (rest : List UInt8) :
    decode start (bytesAll start ps ++ rest) =
      (instructionsAll start ps ++ ·) <$> decode (start + sizeAll ps) rest := by
  cases ps with
  | nil => simp [bytesAll, sizeAll, instructionsAll]
  | cons p ps =>
    rw [bytesAll, List.append_assoc, decode_bytes p h.1, decode_bytesAll ps h.2, sizeAll,
      Nat.add_assoc]
    simp [Functor.map_map, instructionsAll]
termination_by structural ps

end

/-- The instructions of a stream that is the layout of pieces. -/
theorem instructions_of_layout {code : Code} {ps : List Piece} (h : code.toList = bytesAll 0 ps)
    (hfits : FitsAll 0 ps) : Code.instructions code = .ok (instructionsAll 0 ps) := by
  have hdecode := decode_bytesAll ps hfits []
  rw [List.append_nil, ← h] at hdecode
  rw [Code.instructions, hdecode, Code.decode]
  simp [Functor.map, Except.map]

end Code

end Monkey
