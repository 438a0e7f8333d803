import Monkey.Proofs.Encoding
import Monkey.Compilation

/-!
# Structured code

Code as it is meant, before offsets are known: a list of pieces, each an instruction or a branch
with two lists of pieces. `Piece.bytesAll` lays pieces out from an offset on. A branch is laid out as

    OpJumpNotTruthy no;  yes;  OpJump end;  no;  end:

and a `skip` is what remains of a branch when `yes` is done: the jump and the code that it passes
over. So the code that is left to run from an offset on is always the layout of a list of pieces
from that offset on, and this list has a first piece that says what the next instruction does
(`Code.Remaining.op`, `Code.Remaining.branch`, `Code.Remaining.skip`).
-/

namespace Monkey

/-- An instruction or a branch. -/
inductive Piece where
  | op (op : Opcode) (operands : List Nat)
  | branch (yes no : List Piece)
  | skip (no : List Piece)

namespace Piece

/-! ### Layout -/

mutual

/-- The number of bytes of a piece. -/
def size : Piece → Nat
  | .op o _ => 1 + o.layout.operandLength
  | .branch yes no => 3 + sizeAll yes + 3 + sizeAll no
  | .skip no => 3 + sizeAll no
termination_by structural p => p

/-- The number of bytes of several pieces. -/
def sizeAll : List Piece → Nat
  | [] => 0
  | p :: ps => p.size + sizeAll ps
termination_by structural ps => ps

end

mutual

/-- The bytes of a piece that starts at an offset. -/
def bytes (start : Nat) : Piece → List UInt8
  | .op o ns => o.encodeD ns
  | .branch yes no =>
    Opcode.jumpNotTruthy.encodeD [start + 3 + sizeAll yes + 3] ++ bytesAll (start + 3) yes ++
      (Opcode.jump.encodeD [start + 3 + sizeAll yes + 3 + sizeAll no] ++
        bytesAll (start + 3 + sizeAll yes + 3) no)
  | .skip no => Opcode.jump.encodeD [start + 3 + sizeAll no] ++ bytesAll (start + 3) no
termination_by structural p => p

/-- The bytes of several pieces, the first of which starts at an offset. -/
def bytesAll (start : Nat) : List Piece → List UInt8
  | [] => []
  | p :: ps => p.bytes start ++ bytesAll (start + p.size) ps
termination_by structural ps => ps

end

mutual

/-- The instructions of a piece can be encoded, at the offset where it starts. -/
def Fits (start : Nat) : Piece → Prop
  | .op o ns => ∃ bytes, o.encode ns = .ok bytes
  | .branch yes no =>
    FitsAll (start + 3) yes ∧ FitsAll (start + 3 + sizeAll yes + 3) no ∧
      start + 3 + sizeAll yes + 3 + sizeAll no ≤ maxTarget
  | .skip no => FitsAll (start + 3) no ∧ start + 3 + sizeAll no ≤ maxTarget
termination_by structural p => p

/-- The instructions of several pieces can be encoded. -/
def FitsAll (start : Nat) : List Piece → Prop
  | [] => True
  | p :: ps => p.Fits start ∧ FitsAll (start + p.size) ps
termination_by structural ps => ps

end

/-! ### Pieces one after the other -/

@[simp] theorem sizeAll_append (ps qs : List Piece) :
    sizeAll (ps ++ qs) = sizeAll ps + sizeAll qs := by
  induction ps with
  | nil => simp [sizeAll]
  | cons p ps ih => simp [sizeAll, ih, Nat.add_assoc]

@[simp] theorem bytesAll_append (start : Nat) (ps qs : List Piece) :
    bytesAll start (ps ++ qs) = bytesAll start ps ++ bytesAll (start + sizeAll ps) qs := by
  induction ps generalizing start with
  | nil => simp [bytesAll, sizeAll]
  | cons p ps ih => simp [bytesAll, sizeAll, ih, Nat.add_assoc]

@[simp] theorem fitsAll_append {start : Nat} {ps qs : List Piece} :
    FitsAll start (ps ++ qs) ↔ FitsAll start ps ∧ FitsAll (start + sizeAll ps) qs := by
  induction ps generalizing start with
  | nil => simp [FitsAll, sizeAll]
  | cons p ps ih => simp [FitsAll, sizeAll, ih, Nat.add_assoc, and_assoc]

/-- A branch is its first jump, the code where the condition holds, and a skip of the other. -/
theorem bytes_branch (start : Nat) (yes no : List Piece) :
    bytes start (.branch yes no) =
      Opcode.jumpNotTruthy.encodeD [start + 3 + sizeAll yes + 3] ++
        bytesAll (start + 3) (yes ++ [.skip no]) := by
  simp [bytes, bytesAll]

theorem encodeD_eq {op : Opcode} {ns : List Nat} {bytes : List UInt8} (h : op.encode ns = .ok bytes) :
    op.encodeD ns = bytes := by
  simp [Opcode.encodeD, h]

theorem encode_jump {op : Opcode} (hop : op = .jump ∨ op = .jumpNotTruthy) {target : Nat}
    (h : target ≤ maxTarget) : op.encode [target] = .ok (op.byte :: bigEndian 2 target) := by
  have hw : op.widths = [2] := by rcases hop with rfl | rfl <;> rfl
  refine Opcode.encode_singleton hw ?_
  simp only [maxTarget, UInt16.size] at h
  omega

mutual

/-- The layout of pieces that fit is as long as their size says. -/
theorem length_bytes {start : Nat} (p : Piece) (h : p.Fits start) :
    (p.bytes start).length = p.size := by
  cases p with
  | op o ns =>
    obtain ⟨bs, hbs⟩ := h
    rw [bytes, encodeD_eq hbs, Opcode.length_of_encode hbs, size]
  | branch yes no =>
    obtain ⟨hyes, hno, htarget⟩ := h
    rw [bytes, encodeD_eq (encode_jump (.inr rfl) (by omega)),
      encodeD_eq (encode_jump (.inl rfl) htarget)]
    simp only [List.length_append, List.length_cons, length_bigEndian, length_bytesAll yes hyes,
      length_bytesAll no hno, size]
    omega
  | skip no =>
    obtain ⟨hno, htarget⟩ := h
    rw [bytes, encodeD_eq (encode_jump (.inl rfl) htarget)]
    simp only [List.length_append, List.length_cons, length_bigEndian, length_bytesAll no hno, size]
termination_by structural p

theorem length_bytesAll {start : Nat} (ps : List Piece) (h : FitsAll start ps) :
    (bytesAll start ps).length = sizeAll ps := by
  cases ps with
  | nil => rfl
  | cons p ps =>
    rw [bytesAll, List.length_append, length_bytes p h.1, length_bytesAll ps h.2, sizeAll]
termination_by structural ps

end

end Piece

/-! ### Code that is left to run -/

open Piece

/-- From the offset `ip` on the code is the layout of `ps`. -/
structure Code.Remaining (code : Code) (ip : Nat) (ps : List Piece) : Prop where
  bytes : code.toList.drop ip = bytesAll ip ps
  fits : FitsAll ip ps

namespace Code.Remaining

variable {code : Code} {ip : Nat} {ps qs : List Piece}

theorem drop (h : Code.Remaining code ip (ps ++ qs)) :
    Code.Remaining code (ip + sizeAll ps) qs := by
  obtain ⟨hps, hqs⟩ := fitsAll_append.mp h.fits
  refine ⟨?_, hqs⟩
  rw [← List.drop_drop, h.bytes, bytesAll_append, List.drop_left' (length_bytesAll ps hps)]

theorem size_le (h : Code.Remaining code ip []) : code.size ≤ ip := by
  simpa [bytesAll] using h.bytes

/-- An instruction is fetched where it stands. -/
theorem fetch {op : Opcode} {ns : List Nat} {bs rest : List UInt8} (h : op.encode ns = .ok bs)
    (hcode : code.toList.drop ip = bs ++ rest) :
    ip < code.size ∧ Code.fetch code ip = .ok (op, ns.headD 0, ip + bs.length) := by
  refine ⟨?_, Code.fetch_of_encode h hcode⟩
  have hlength := congrArg List.length hcode
  rw [List.length_drop, List.length_append, Opcode.length_of_encode h, Array.length_toList]
    at hlength
  omega

theorem op {o : Opcode} {ns : List Nat} (h : Code.Remaining code ip (.op o ns :: ps)) :
    ip < code.size ∧ Code.fetch code ip = .ok (o, ns.headD 0, ip + (Piece.op o ns).size) ∧
      Code.Remaining code (ip + (Piece.op o ns).size) ps := by
  obtain ⟨bs, hbs⟩ := h.fits.1
  have hcode := h.bytes
  rw [bytesAll, Piece.bytes, encodeD_eq hbs] at hcode
  obtain ⟨hlt, hfetch⟩ := fetch hbs hcode
  have hrest := drop (show Code.Remaining code ip ([.op o ns] ++ ps) from h)
  rw [Opcode.length_of_encode hbs] at hfetch
  exact ⟨hlt, hfetch, by simpa [sizeAll] using hrest⟩

/-- A skip goes on behind what it passes over, which stands right after it. -/
theorem skip {no : List Piece} (h : Code.Remaining code ip (.skip no :: ps)) :
    ip < code.size ∧ Code.fetch code ip = .ok (.jump, ip + 3 + sizeAll no, ip + 3) ∧
      Code.Remaining code (ip + 3 + sizeAll no) ps ∧ Code.Remaining code (ip + 3) (no ++ ps) := by
  obtain ⟨⟨hno, htarget⟩, hps⟩ := h.fits
  have henc := encode_jump (.inl rfl : Opcode.jump = .jump ∨ _) htarget
  have hcode := h.bytes
  have hsize : ip + (Piece.skip no).size = ip + 3 + sizeAll no := by
    simp only [Piece.size]
    omega
  rw [bytesAll, Piece.bytes, encodeD_eq henc, List.append_assoc, hsize, ← bytesAll_append] at hcode
  rw [hsize] at hps
  obtain ⟨hlt, hfetch⟩ := fetch henc hcode
  have hrest : Code.Remaining code (ip + 3) (no ++ ps) := by
    refine ⟨?_, fitsAll_append.mpr ⟨hno, hps⟩⟩
    rw [← List.drop_drop, hcode, List.drop_left' (by simp)]
  exact ⟨hlt, hfetch, hrest.drop, hrest⟩

/-- A branch goes on with one of its two sides, and then with what stands behind it. -/
theorem branch {yes no : List Piece} (h : Code.Remaining code ip (.branch yes no :: ps)) :
    ip < code.size ∧
      Code.fetch code ip = .ok (.jumpNotTruthy, ip + 3 + sizeAll yes + 3, ip + 3) ∧
      Code.Remaining code (ip + 3) (yes ++ .skip no :: ps) ∧
      Code.Remaining code (ip + 3 + sizeAll yes + 3) (no ++ ps) := by
  obtain ⟨⟨hyes, hno, htarget⟩, hps⟩ := h.fits
  have henc := encode_jump (.inr rfl : Opcode.jumpNotTruthy = .jump ∨ _)
    (show ip + 3 + sizeAll yes + 3 ≤ maxTarget by omega)
  have hcode := h.bytes
  have hsize : ip + (Piece.branch yes no).size = ip + 3 + sizeAll (yes ++ [.skip no]) := by
    simp only [Piece.size, sizeAll_append, sizeAll]
    omega
  rw [bytesAll, bytes_branch, encodeD_eq henc, List.append_assoc, hsize,
    ← bytesAll_append, List.append_assoc, List.singleton_append] at hcode
  obtain ⟨hlt, hfetch⟩ := fetch henc hcode
  have hrest : Code.Remaining code (ip + 3) (yes ++ .skip no :: ps) := by
    refine ⟨?_, ?_⟩
    · rw [← List.drop_drop, hcode, List.drop_left' (by simp)]
    · refine fitsAll_append.mpr ⟨hyes, ⟨hno, by omega⟩, ?_⟩
      simp only [Piece.size] at hps ⊢
      rwa [show ip + 3 + sizeAll yes + (3 + sizeAll no) =
        ip + (3 + sizeAll yes + 3 + sizeAll no) by omega]
  exact ⟨hlt, hfetch, hrest, (skip hrest.drop).2.2.2⟩

end Code.Remaining

end Monkey
