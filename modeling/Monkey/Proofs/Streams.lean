import Monkey.Proofs.Decoding

/-!
# Streams and their instructions

Encoded instructions that are put together make a stream, and `Code.decode` walks through it. The
walk and the encoding are inverses: encoded instructions are met again, each behind the bytes of
those in front of it (`Code.decode_flatten`), and a stream that is walked through to its end
consists of the encodings of the instructions that are met (`Code.encode_of_decode`). The machine
reads what the walk reads, at every offset (`Code.fetch_eq`), so it finds the instructions of the
walk where the walk meets them (`Code.fetch_of_decode`).
-/

namespace Monkey

/-- **Which operands make an instruction.** There are as many as the opcode has widths, and each
of them fits in its width. -/
theorem Opcode.exists_encode_iff {op : Opcode} {ns : List Nat} :
    (∃ bytes, op.encode ns = .ok bytes) ↔
      ns.length = op.widths.length ∧ ∀ p ∈ ns.zip op.widths, p.1 < 256 ^ p.2 := by
  constructor
  · rintro ⟨bytes, h⟩
    rcases encode_cases h with ⟨hw, rfl, -⟩ | ⟨w, n, hw, -, rfl, hn, -⟩
    · simp [hw]
    · simp [hw, hn]
  · rintro ⟨hlength, hfits⟩
    rcases op.widths_cases with hw | ⟨w, -, hw⟩
    · obtain rfl : ns = [] := by simpa [hw] using hlength
      exact ⟨_, encode_nil hw⟩
    · obtain ⟨n, rfl⟩ := List.length_eq_one_iff.mp (hlength.trans (by rw [hw]; rfl))
      exact ⟨_, encode_singleton hw (hfits (n, w) (by simp [hw]))⟩

namespace Code

/-- What a walk that comes to the end met first, if there was anything. -/
theorem decode_cases {start : Nat} {bytes : List UInt8} {is : List Instruction}
    (h : decode start bytes = .ok is) :
    (bytes = [] ∧ is = []) ∨
      ∃ op ns rest is', bytes = op.byte :: rest ∧
        op.layout.decode rest = .ok (ns, op.layout.operandLength) ∧
        decode (start + 1 + op.layout.operandLength) (rest.drop op.layout.operandLength) = .ok is' ∧
        is = ⟨start, op, ns⟩ :: is' := by
  cases bytes with
  | nil =>
    rw [decode] at h
    exact .inl ⟨rfl, (Except.ok.inj h).symm⟩
  | cons b rest =>
    rw [decode] at h
    cases hlookup : Opcode.lookup b with
    | error e => simp [hlookup] at h
    | ok op =>
      cases hdecode : op.layout.decode rest with
      | error e => simp [hlookup, hdecode] at h
      | ok read =>
        obtain ⟨ns, n⟩ := read
        -- decoding takes as many bytes as the operands of the opcode have
        obtain ⟨-, rfl⟩ := Opcode.encode_of_decode hdecode
        simp only [hlookup, hdecode] at h
        cases hrest : decode (start + 1 + op.layout.operandLength)
            (rest.drop op.layout.operandLength) with
        | error e => simp [hrest, Functor.map, Except.map] at h
        | ok is' =>
          rw [hrest] at h
          exact .inr ⟨op, ns, rest, is', by rw [Opcode.lookup_eq_ok_iff.mp hlookup], hdecode, hrest,
            (Except.ok.inj h).symm⟩

/-- **Encoded instructions are met again**, each of them behind the bytes of those in front. -/
theorem decode_flatten {is : List (Opcode × List Nat)} {bss : List (List UInt8)}
    (h : List.Forall₂ (fun i bytes => i.1.encode i.2 = .ok bytes) is bss) (start : Nat) :
    ∃ is', decode start bss.flatten = .ok is' ∧ is'.map (fun i => (i.op, i.operands)) = is ∧
      ∀ k i, is'[k]? = some i → i.offset = start + ((bss.take k).map List.length).sum := by
  induction h generalizing start with
  | nil => exact ⟨[], by rw [List.flatten_nil, decode], rfl, by simp⟩
  | @cons i bytes is bss hencode _ ih =>
    obtain ⟨is', hdecode, hmap, hoffset⟩ := ih (start + (1 + i.1.layout.operandLength))
    refine ⟨⟨start, i.1, i.2⟩ :: is', ?_, by rw [List.map_cons, hmap], fun k j hj => ?_⟩
    · rw [List.flatten_cons, decode_of_encode hencode, hdecode]
      rfl
    · cases k with
      | zero =>
        obtain rfl := Option.some.inj hj
        simp
      | succ k =>
        rw [hoffset k j hj, List.take_succ_cons, List.map_cons, List.sum_cons,
          Opcode.length_of_encode hencode, Nat.add_assoc]

/-- **A stream that is walked through to its end** consists of the encodings of the instructions
that are met. -/
theorem encode_of_decode {start : Nat} {bytes : List UInt8} {is : List Instruction}
    (h : decode start bytes = .ok is) :
    ∃ bss, List.Forall₂ (fun i bs => i.op.encode i.operands = .ok bs) is bss ∧
      bss.flatten = bytes := by
  induction is generalizing start bytes with
  | nil =>
    obtain ⟨rfl, -⟩ | ⟨op, ns, rest, is', -, -, -, his⟩ := decode_cases h
    · exact ⟨[], .nil, rfl⟩
    · cases his
  | cons i is ih =>
    obtain ⟨-, his⟩ | ⟨op, ns, rest, is', rfl, hdecode, hrest, his⟩ := decode_cases h
    · cases his
    · obtain ⟨rfl, rfl⟩ := List.cons.inj his
      obtain ⟨bss, hencode, hbytes⟩ := ih hrest
      refine ⟨_ :: bss, .cons (Opcode.encode_of_decode hdecode).1 hencode, ?_⟩
      rw [List.flatten_cons, hbytes, List.cons_append, List.take_append_drop]

/-- The machine finds the instructions of a walk through its code where the walk meets them. -/
theorem fetch_of_decode {code : Code} {start : Nat} {is : List Instruction}
    (h : decode start (code.toList.drop start) = .ok is) :
    ∀ i ∈ is, code.fetch i.offset =
      .ok (i.op, i.operands.headD 0, i.offset + 1 + i.op.layout.operandLength) := by
  induction is generalizing start with
  | nil => simp
  | cons i is ih =>
    obtain ⟨-, his⟩ | ⟨op, ns, rest, is', hbytes, hdecode, hrest, his⟩ := decode_cases h
    · cases his
    · obtain ⟨rfl, rfl⟩ := List.cons.inj his
      -- the walk goes on where the operand bytes of its instruction end
      have hbehind : code.toList.drop (start + 1 + op.layout.operandLength) =
          rest.drop op.layout.operandLength := by
        rw [← List.drop_drop, ← List.drop_drop, hbytes, List.drop_one, List.tail_cons]
      rw [← hbehind] at hrest
      rw [List.forall_mem_cons]
      refine ⟨?_, ih hrest⟩
      simp only [fetch_eq hbytes, Opcode.lookup_eq_ok_iff.mpr rfl, hdecode]

/-- **Encoding and walking are inverses, and the machine reads with them.** Operands make an
instruction exactly when they are as many as the opcode has and fit in their widths. Instructions
that are encoded and put together are met again by a walk, each at the sum of the lengths in front
of it. A stream that is walked through to its end is the encodings of what was met, put together.
Wherever a walk may stand in a stream, the machine reads what the walk reads there, errors included,
and so it finds every instruction of a walk at the instruction's offset. -/
theorem decode_inverts_encode :
    (∀ (op : Opcode) (ns : List Nat), (∃ bytes, op.encode ns = .ok bytes) ↔
      ns.length = op.widths.length ∧ ∀ p ∈ ns.zip op.widths, p.1 < 256 ^ p.2) ∧
    (∀ (is : List (Opcode × List Nat)) (bss : List (List UInt8)),
      List.Forall₂ (fun i bytes => i.1.encode i.2 = .ok bytes) is bss →
      ∃ is', decode 0 bss.flatten = .ok is' ∧ is'.map (fun i => (i.op, i.operands)) = is ∧
        ∀ k i, is'[k]? = some i → i.offset = ((bss.take k).map List.length).sum) ∧
    (∀ (bytes : List UInt8) (is : List Instruction), decode 0 bytes = .ok is →
      ∃ bss, List.Forall₂ (fun i bs => i.op.encode i.operands = .ok bs) is bss ∧
        bss.flatten = bytes) ∧
    (∀ (code : Code) (ip : Nat) (b : UInt8) (rest : List UInt8), code.toList.drop ip = b :: rest →
      code.fetch ip =
        match Opcode.lookup b with
        | .error e => .error ⟨.instruction e, .undefined, ip⟩
        | .ok op =>
          match op.layout.decode rest with
          | .error e => .error ⟨.instruction e, .at op, ip⟩
          | .ok (ns, n) => .ok (op, ns.headD 0, ip + 1 + n)) ∧
    (∀ (code : Code) (is : List Instruction), code.instructions = .ok is → ∀ i ∈ is,
      code.fetch i.offset =
        .ok (i.op, i.operands.headD 0, i.offset + 1 + i.op.layout.operandLength)) := by
  refine ⟨fun _ _ => Opcode.exists_encode_iff, fun is bss h => ?_, fun _ _ => encode_of_decode,
    fun _ _ _ _ => fetch_eq, fun code is h => fetch_of_decode h⟩
  obtain ⟨is', hdecode, hmap, hoffset⟩ := decode_flatten h 0
  exact ⟨is', hdecode, hmap, fun k i hi => by rw [hoffset k i hi, Nat.zero_add]⟩

/-- A jump and an addition. The operand of the jump takes two bytes, the high one first. -/
theorem decode_inverts_encode_jump :
    ∃ is', decode 0 [14, 1, 2, 1] = .ok is' ∧
      is'.map (fun i => (i.op, i.operands)) = [(.jump, [258]), (.add, [])] ∧
      ∀ i ∈ is', Code.fetch #[14, 1, 2, 1] i.offset =
        .ok (i.op, i.operands.headD 0, i.offset + 1 + i.op.layout.operandLength) := by
  obtain ⟨-, hwalk, -, -, hfetch⟩ := decode_inverts_encode
  obtain ⟨is', hdecode, hmap, -⟩ :=
    hwalk [(.jump, [258]), (.add, [])] [[14, 1, 2], [1]] (.cons rfl (.cons rfl .nil))
  exact ⟨is', hdecode, hmap, hfetch #[14, 1, 2, 1] is' hdecode⟩

end Code

end Monkey
