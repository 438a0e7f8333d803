import Mathlib.Data.List.Induction
import Mathlib.Tactic.Ring
import Monkey.Machine.Step

/-!
# Instructions are read back

An instruction that can be encoded is a byte for the opcode and a fixed number of bytes behind it
for its operand, if it has one (`Opcode.encode_cases`). The operands are read back from these bytes,
whatever comes behind them (`Layout.decode_of_encode`), and operands that are read from bytes are
encoded as these bytes (`Opcode.encode_of_decode`). The machine reads an instruction where it is
going to carry it out in the same way (`Code.fetch_eq`, `Code.fetch_of_encode`).
-/

namespace Monkey

/-! ### Unsigned integers -/

theorem foldl_bigEndian (width n acc : Nat) :
    (bigEndian width n).foldl (fun n b => (n * 256 + b.toNat) % UInt64.size) (acc % UInt64.size) =
      (acc * 256 ^ width + n % 256 ^ width) % UInt64.size := by
  induction width generalizing acc with
  | zero => simp [bigEndian, Nat.mod_one]
  | succ width ih =>
    have hdigit : (UInt8.ofNat (n >>> (8 * width))).toNat = n / 256 ^ width % 256 := by
      rw [UInt8.toNat_ofNat', Nat.shiftRight_eq_div_pow, Nat.pow_mul]
    have hstep : (acc % UInt64.size * 256 + n / 256 ^ width % 256) % UInt64.size =
        (acc * 256 + n / 256 ^ width % 256) % UInt64.size := by
      rw [UInt64.size]
      omega
    have hlow : n % 256 ^ (width + 1) = n % 256 ^ width + 256 ^ width * (n / 256 ^ width % 256) :=
      Nat.mod_pow_succ
    rw [bigEndian, List.foldl_cons, hdigit, hstep, ih, hlow]
    congr 1
    ring

/-- A number is read back from the bytes of a width that it fits in. -/
theorem readUInt_bigEndian {width n : Nat} (hwidth : width ≤ 8) (h : n < 256 ^ width) :
    readUInt (bigEndian width n) = n := by
  have hfold := foldl_bigEndian width n 0
  have hpow : 256 ^ width ≤ UInt64.size := by
    rw [show UInt64.size = 256 ^ 8 by norm_num]
    exact Nat.pow_le_pow_right (by norm_num) hwidth
  rw [Nat.mod_eq_of_lt h, Nat.zero_mul, Nat.zero_add,
    Nat.mod_eq_of_lt (lt_of_lt_of_le h hpow)] at hfold
  exact hfold

theorem readUInt_concat (bytes : List UInt8) (b : UInt8) :
    readUInt (bytes ++ [b]) = (readUInt bytes * 256 + b.toNat) % UInt64.size := by
  simp [readUInt]

theorem readUInt_lt {bytes : List UInt8} (h : bytes.length ≤ 8) :
    readUInt bytes < 256 ^ bytes.length := by
  induction bytes using List.reverseRecOn with
  | nil => decide
  | append_singleton bytes b ih =>
    rw [List.length_append, List.length_singleton] at h ⊢
    have hlt := ih (by omega)
    have hb := b.toNat_lt
    rw [readUInt_concat, Nat.pow_succ]
    exact lt_of_le_of_lt (Nat.mod_le _ _) (by omega)

/-- One more digit of a number is one more byte at the end. -/
theorem bigEndian_concat (width n : Nat) (b : UInt8) :
    bigEndian (width + 1) (n * 256 + b.toNat) = bigEndian width n ++ [b] := by
  induction width with
  | zero => simp [bigEndian, Nat.mul_comm n]
  | succ width ih =>
    have hhigh : (n * 256 + b.toNat) >>> (8 * (width + 1)) = n >>> (8 * width) := by
      have hb := b.toNat_lt
      rw [Nat.mul_add, Nat.mul_one, Nat.add_comm _ 8, Nat.shiftRight_add,
        Nat.shiftRight_eq_div_pow _ 8]
      congr 1
      omega
    rw [bigEndian, hhigh, ih, bigEndian, List.cons_append]

/-- Bytes that spell a number of 64 bits are the bytes of this number. -/
theorem bigEndian_readUInt {bytes : List UInt8} (h : bytes.length ≤ 8) :
    bigEndian bytes.length (readUInt bytes) = bytes := by
  induction bytes using List.reverseRecOn with
  | nil => rfl
  | append_singleton bytes b ih =>
    rw [List.length_append, List.length_singleton] at h ⊢
    have hlt := readUInt_lt (show bytes.length ≤ 8 by omega)
    have hpow : 256 ^ bytes.length ≤ 256 ^ 7 := Nat.pow_le_pow_right (by norm_num) (by omega)
    have hsize : UInt64.size = 256 ^ 7 * 256 := by norm_num
    have hb := b.toNat_lt
    -- the digits in front leave room for one more, so nothing is cut off
    rw [readUInt_concat, Nat.mod_eq_of_lt (by omega), bigEndian_concat, ih (by omega)]

/-! ### Encoded instructions -/

namespace Opcode

/-- An opcode has no operand, or one of at most two bytes. -/
theorem widths_cases (op : Opcode) : op.widths = [] ∨ ∃ w ≤ 2, op.widths = [w] := by
  cases op <;> simp [widths, layout]

theorem lookup_eq_ok_iff {b : UInt8} {op : Opcode} : lookup b = .ok op ↔ b = op.byte := by
  rw [← ofByte?_eq_some_iff, lookup]
  cases ofByte? b <;> simp

theorem encode_nil {op : Opcode} (h : op.widths = []) : op.encode [] = .ok [op.byte] := by
  simp [encode, h, encodeOperands, bind, Except.bind, pure, Except.pure]

/-- The numbers that fit in a width. -/
theorem one_shiftLeft_width (w : Nat) : 1 <<< (8 * w) = 256 ^ w := by
  rw [Nat.one_shiftLeft, Nat.pow_mul]

theorem encode_singleton {op : Opcode} {w n : Nat} (h : op.widths = [w]) (hn : n < 256 ^ w) :
    op.encode [n] = .ok (op.byte :: bigEndian w n) := by
  simp [encode, h, encodeOperands, one_shiftLeft_width, hn, bind, Except.bind, pure, Except.pure]

/-- What the bytes of an instruction are. -/
theorem encode_cases {op : Opcode} {ns : List Nat} {bytes : List UInt8}
    (h : op.encode ns = .ok bytes) :
    (op.widths = [] ∧ ns = [] ∧ bytes = [op.byte]) ∨
      ∃ w n, op.widths = [w] ∧ w ≤ 2 ∧ ns = [n] ∧ n < 256 ^ w ∧
        bytes = op.byte :: bigEndian w n := by
  have hlength : ns.length = op.widths.length := by
    by_contra hne
    simp [encode, hne] at h
  rcases op.widths_cases with hw | ⟨w, hw2, hw⟩
  · obtain rfl : ns = [] := by simpa [hw] using hlength
    rw [encode_nil hw] at h
    exact .inl ⟨hw, rfl, (Except.ok.inj h).symm⟩
  · obtain ⟨n, rfl⟩ := List.length_eq_one_iff.mp (hlength.trans (by rw [hw]; rfl))
    by_cases hn : n < 256 ^ w
    · rw [encode_singleton hw hn] at h
      exact .inr ⟨w, n, hw, hw2, rfl, hn, (Except.ok.inj h).symm⟩
    · simp [encode, hw, encodeOperands, one_shiftLeft_width, hn, bind, Except.bind] at h

theorem length_of_encode {op : Opcode} {ns : List Nat} {bytes : List UInt8}
    (h : op.encode ns = .ok bytes) : bytes.length = 1 + op.layout.operandLength := by
  have hlength : op.layout.operandLength = op.widths.sum := rfl
  rcases encode_cases h with ⟨hw, -, rfl⟩ | ⟨w, n, hw, -, -, -, rfl⟩
  · simp [hlength, hw]
  · simp [hlength, hw, Nat.add_comm]

/-- An operand of an instruction takes at most two bytes. -/
theorem lt_of_encode {op : Opcode} {ns : List Nat} {bytes : List UInt8}
    (h : op.encode ns = .ok bytes) : ns.headD 0 < 65536 := by
  rcases encode_cases h with ⟨-, rfl, -⟩ | ⟨w, n, -, hw, rfl, hn, -⟩
  · decide
  · have hpow : 256 ^ w ≤ 256 ^ 2 := Nat.pow_le_pow_right (by decide) hw
    simp only [List.headD_cons]
    omega

end Opcode

/-! ### Reading instructions -/

theorem Layout.decode_of_encode {op : Opcode} {ns : List Nat} {bytes : List UInt8}
    (h : op.encode ns = .ok bytes) :
    ∃ operands, bytes = op.byte :: operands ∧ ∀ rest,
      op.layout.decode (operands ++ rest) = .ok (ns, op.layout.operandLength) := by
  have hlength : op.layout.operandLength = op.widths.sum := rfl
  rcases Opcode.encode_cases h with ⟨hw, rfl, rfl⟩ | ⟨w, n, hw, hw2, rfl, hn, rfl⟩
  · refine ⟨[], rfl, fun rest => ?_⟩
    simp only [Layout.decode, hlength, hw]
    simp [show op.layout.widths = [] from hw, decodeOperands]
  · refine ⟨bigEndian w n, rfl, fun rest => ?_⟩
    have htake : (bigEndian w n ++ rest).take w = bigEndian w n := by
      rw [List.take_append_of_le_length (by simp), List.take_of_length_le (by simp)]
    simp only [Layout.decode, hlength, hw]
    simp [show op.layout.widths = [w] from hw, decodeOperands, htake,
      readUInt_bigEndian (by omega : w ≤ 8) hn]

/-- Operands that are read from bytes are encoded as these bytes. -/
theorem Opcode.encode_of_decode {op : Opcode} {bytes : List UInt8} {ns : List Nat} {n : Nat}
    (h : op.layout.decode bytes = .ok (ns, n)) :
    op.encode ns = .ok (op.byte :: bytes.take n) ∧ n = op.layout.operandLength := by
  have hlength : op.layout.operandLength = op.widths.sum := rfl
  rw [Layout.decode, hlength] at h
  split at h
  case isFalse => cases h
  case isTrue htake =>
    obtain ⟨rfl, rfl⟩ := Prod.ext_iff.mp (Except.ok.inj h)
    refine ⟨?_, hlength.symm⟩
    rcases op.widths_cases with hw | ⟨w, hw2, hw⟩
    · simpa [show op.layout.widths = [] from hw, hw, decodeOperands] using encode_nil hw
    · rw [hw, List.sum_singleton] at htake ⊢
      have hread := bigEndian_readUInt (show (bytes.take w).length ≤ 8 by omega)
      have hlt := readUInt_lt (show (bytes.take w).length ≤ 8 by omega)
      rw [htake] at hread hlt
      rw [show op.layout.widths = [w] from hw, decodeOperands, decodeOperands,
        encode_singleton hw hlt, hread]

/-- **The machine reads an instruction as a listing does**: it looks the opcode up and takes all the
operand bytes for its one operand, which is zero when there are no such bytes. -/
theorem Code.fetch_eq {code : Code} {ip : Nat} {b : UInt8} {rest : List UInt8}
    (hcode : code.toList.drop ip = b :: rest) :
    code.fetch ip =
      match Opcode.lookup b with
      | .error e => .error ⟨.instruction e, .undefined, ip⟩
      | .ok op =>
        match op.layout.decode rest with
        | .error e => .error ⟨.instruction e, .at op, ip⟩
        | .ok (ns, n) => .ok (op, ns.headD 0, ip + 1 + n) := by
  have hfirst : code.getD ip 0 = b := by
    have hget : code[ip]? = some b := by
      rw [← Array.getElem?_toList, ← List.head?_drop, hcode]
      rfl
    simp [Array.getD_eq_getD_getElem?, hget]
  rw [Code.fetch, hfirst]
  cases Opcode.lookup b with
  | error e => rfl
  | ok op =>
    have hlength : op.layout.operandLength = op.widths.sum := rfl
    have hoperands : (code.extract (ip + 1) (ip + 1 + op.layout.operandLength)).toList =
        rest.take op.layout.operandLength := by
      rw [Array.toList_extract, List.extract_eq_take_drop, Nat.add_sub_cancel_left,
        ← List.drop_drop, hcode]
      rfl
    simp only [hoperands, Layout.decode]
    split
    case isTrue =>
      -- there is at most one operand
      rcases op.widths_cases with hw | ⟨w, -, hw⟩
      · simp [show op.layout.widths = [] from hw, hlength, hw, decodeOperands, readUInt]
      · simp [show op.layout.widths = [w] from hw, hlength, hw, decodeOperands]
    case isFalse hshort =>
      -- the code ends within the operand
      rw [List.length_take] at hshort
      rw [List.take_of_length_le (by omega)]
      rfl

/-- The machine finds an instruction where its bytes stand. -/
theorem Code.fetch_of_encode {code : Code} {ip : Nat} {op : Opcode} {ns : List Nat}
    {bytes rest : List UInt8} (h : op.encode ns = .ok bytes)
    (hcode : code.toList.drop ip = bytes ++ rest) :
    Code.fetch code ip = .ok (op, ns.headD 0, ip + bytes.length) := by
  have hlength := Opcode.length_of_encode h
  obtain ⟨operands, rfl, hdecode⟩ := Layout.decode_of_encode h
  rw [List.cons_append] at hcode
  simp only [Code.fetch_eq hcode, Opcode.lookup_eq_ok_iff.mpr rfl, hdecode]
  rw [hlength, Nat.add_assoc]

end Monkey
