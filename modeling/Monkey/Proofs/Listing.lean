import Monkey.Bytecode.Listing
import Monkey.Proofs.Lines
import Monkey.Proofs.Streams

/-!
# What a listing shows

A listing walks through a stream from its first byte to its end. `Code.items` are what the walk meets:
instructions, bytes that are no opcode, and at last perhaps an instruction that is cut off. Each of them
is shown by one line (`Code.listing_eq`), and the lines can be read back from the listing
(`Code.lines_listing`). When all of a stream is instructions, the items are those that
`Code.instructions` gives (`Code.items_of_decode`).

The listing of a program is put together from the listings of its streams (`Chunk.Part.exists_listing_eq`).
-/

namespace Monkey

/-! ### Items -/

/-- What a walk through a stream meets. -/
inductive Item where
  | instruction (i : Instruction)
  /-- A byte that is no opcode. -/
  | undefined (b : UInt8)
  /-- An instruction at an offset, of whose operand bytes only some are left. -/
  | cutOff (offset : Nat) (op : Opcode) (available : Nat)
deriving Repr, DecidableEq

/-- The line that shows an item. -/
def Item.line : Item → String
  | instruction i => alignRight 4 '0' i.offset ++ " " ++ instructionText i.op.name i.operands
  | undefined b => "ERROR: " ++ (InstructionError.undefinedOpcode b).message
  | cutOff offset op available => alignRight 4 '0' offset ++ " ERROR: " ++
      (InstructionError.truncated op.name op.layout.operandLength available).message

namespace Code

/-- What a walk meets that goes through bytes, the first of which stands at an offset. -/
def items (offset : Nat) (bytes : List UInt8) : List Item :=
  match bytes with
  | [] => []
  | b :: rest =>
    match Opcode.lookup b with
    | .error _ => .undefined b :: items (offset + 1) rest
    | .ok op =>
      match op.layout.decode rest with
      | .ok (operands, n) => .instruction ⟨offset, op, operands⟩ :: items (offset + 1 + n) (rest.drop n)
      | .error _ => [.cutOff offset op rest.length]
termination_by bytes.length
decreasing_by
  all_goals
    simp only [List.length_cons, List.length_drop]
    omega

end Code

theorem Opcode.lookup_eq_error {b : UInt8} {e : InstructionError} (h : Opcode.lookup b = .error e) :
    e = .undefinedOpcode b := by
  unfold Opcode.lookup at h
  split at h
  · cases h
  · exact (Except.error.inj h).symm

theorem Layout.decode_eq_error {l : Layout} {bytes : List UInt8} {e : InstructionError}
    (h : l.decode bytes = .error e) : e = .truncated l.name l.operandLength bytes.length := by
  unfold Layout.decode at h
  split at h
  · cases h
  · exact (Except.error.inj h).symm

namespace Code

theorem appendListing_eq (out : String) (offset : Nat) (bytes : List UInt8) :
    appendListing out offset bytes = out ++ unlines ((items offset bytes).map Item.line) := by
  -- the listing takes the same cases as the walk
  fun_induction appendListing out offset bytes with
  | case1 out offset =>
    rw [items]
    exact String.append_empty.symm
  | case2 out offset b rest e hlookup ih =>
    obtain rfl := Opcode.lookup_eq_error hlookup
    rw [ih]
    simp only [items, hlookup]
    rw [List.map_cons, unlines_cons, String.append_assoc]
    rfl
  | case3 out offset b rest op hlookup operands n hdecode line ih =>
    rw [ih]
    simp only [items, hlookup, hdecode]
    rw [List.map_cons, unlines_cons, String.append_assoc]
    rfl
  | case4 out offset b rest op hlookup e hdecode =>
    obtain rfl := Layout.decode_eq_error hdecode
    simp only [items, hlookup, hdecode]
    rw [List.map_singleton, unlines_cons, unlines_nil, String.append_empty, String.append_assoc]
    simp only [Item.line, String.append_assoc]
    rfl

/-- The lines of a stream. -/
def itemLines (code : Code) : List String := (items 0 code.toList).map Item.line

/-- **A listing shows every item by a line.** -/
theorem listing_eq (code : Code) : Code.listing code = unlines (itemLines code) := by
  rw [Code.listing, appendListing_eq, String.empty_append, itemLines]

/-- A walk that comes to the end meets instructions only. -/
theorem items_of_decode {offset : Nat} {bytes : List UInt8} {is : List Instruction}
    (h : decode offset bytes = .ok is) : items offset bytes = is.map Item.instruction := by
  induction is generalizing offset bytes with
  | nil =>
    obtain ⟨rfl, -⟩ | ⟨op, ns, rest, is', -, -, -, his⟩ := decode_cases h
    · rw [items]
      rfl
    · cases his
  | cons i is ih =>
    obtain ⟨-, his⟩ | ⟨op, ns, rest, is', rfl, hdecode, hrest, his⟩ := decode_cases h
    · cases his
    · obtain ⟨rfl, rfl⟩ := List.cons.inj his
      simp only [items, Opcode.lookup_eq_ok_iff.mpr rfl, hdecode]
      rw [ih hrest]
      rfl

end Code

/-! ### Lines of listings -/

theorem Opcode.isLine_name (op : Opcode) : IsLine op.name := by
  cases op <;> decide

theorem isLine_instructionText {name : String} (h : IsLine name) (ns : List Nat) :
    IsLine (instructionText name ns) := by
  refine h.append ?_
  induction ns with
  | nil => decide
  | cons n ns ih =>
    rw [List.map_cons, String.join_cons]
    exact (IsLine.append (by decide) (isLine_toString n)).append ih

theorem isLine_truncated {name : String} (h : IsLine name) (needed available : Nat) :
    IsLine (InstructionError.truncated name needed available).message := by
  have hneeds : IsLine (name ++ " needs " ++ toString needed) :=
    (h.append (by decide)).append (isLine_toString needed)
  exact ((hneeds.append (by decide)).append (isLine_toString available)).append (by decide)

theorem Item.isLine_line (item : Item) : IsLine item.line := by
  have hspace : IsLine " " := by decide
  cases item with
  | instruction i =>
    exact ((isLine_alignRight 4 i.offset).append hspace).append
      (isLine_instructionText i.op.isLine_name i.operands)
  | undefined b =>
    have hbyte : IsLine (toString b) := isLine_toString b.toNat
    exact IsLine.append (by decide) ((IsLine.append (by decide) hbyte).append (by decide))
  | cutOff offset op available =>
    exact ((isLine_alignRight 4 offset).append (by decide)).append
      (isLine_truncated op.isLine_name op.layout.operandLength available)

namespace Code

theorem isLine_itemLines (code : Code) : ∀ l ∈ itemLines code, IsLine l :=
  List.forall_mem_map.mpr fun item _ => item.isLine_line

/-- The lines of a listing are those of its items. -/
theorem lines_listing (code : Code) : lines (Code.listing code) = itemLines code := by
  rw [listing_eq]
  exact lines_unlines (isLine_itemLines code)

end Code

/-! ### Parts of the listing of a program -/

/-- The line above the code of a function among the constants. -/
def functionHeader (index : Nat) (f : Function) : String :=
  "== constant " ++ toString index ++ " " ++ f.name.getD "<anonymous>" ++ " (params: " ++
    toString f.parameters ++ ", locals: " ++ toString f.locals ++ ") =="

theorem functionListing_eq (index : Nat) (f : Function) :
    functionListing index f = "\n" ++ functionHeader index f ++ "\n" ++ Code.listing f.code := by
  -- the line feeds are parts of the literals
  have hfront : "\n== constant " = "\n" ++ "== constant " := rfl
  have hback : ") ==\n" = ") ==" ++ "\n" := rfl
  have htext : ∀ s : String, toString s = s := fun _ => rfl
  unfold functionListing functionHeader
  simp only [hfront, hback, htext, String.append_assoc]

/-- What the listing of a program shows of a constant behind the constants. -/
def codeListing (v : Value) (index : Nat) : String :=
  match v with
  | .function f => functionListing index f
  | _ => ""

namespace Chunk

variable {chunk : Chunk} {f : Function} {part : String}

theorem listing_of_isEmpty (h : chunk.constants.isEmpty = true) :
    chunk.listing = "== main ==\n" ++ Code.listing chunk.code := by
  rw [listing, if_pos h]

theorem listing_of_not_isEmpty (h : ¬ chunk.constants.isEmpty = true) :
    chunk.listing = "== main ==\n" ++ Code.listing chunk.code ++ "\n== constants ==\n" ++
      String.join (chunk.constants.toList.zipIdx.map fun p => constantLine p.2 p.1) ++
      String.join (chunk.constants.toList.zipIdx.map fun p => codeListing p.1 p.2) := by
  rw [listing, if_neg h]
  rfl

/-- The part of the listing of a program that shows the code of a function: of its top level, or of a
function among its constants. -/
inductive Part (chunk : Chunk) : Function → String → Prop
  | main : Part chunk (Machine.mainFrame chunk.code).function
      ("== main ==\n" ++ Code.listing chunk.code)
  | constant {i : Nat} {f : Function} : chunk.constants[i]? = some (.function f) →
      Part chunk f (functionListing i f)

/-- The parts are found in the listing. -/
theorem Part.exists_listing_eq (h : chunk.Part f part) :
    ∃ before behind, chunk.listing = before ++ part ++ behind := by
  cases h with
  | main =>
    by_cases hempty : chunk.constants.isEmpty
    · refine ⟨"", "", ?_⟩
      rw [listing_of_isEmpty hempty, String.empty_append, String.append_empty]
    · refine ⟨"", "\n== constants ==\n" ++
        (String.join (chunk.constants.toList.zipIdx.map fun p => constantLine p.2 p.1) ++
          String.join (chunk.constants.toList.zipIdx.map fun p => codeListing p.1 p.2)), ?_⟩
      simp only [listing_of_not_isEmpty hempty, String.empty_append, String.append_assoc]
  | @constant i f hi =>
    have hempty : ¬ chunk.constants.isEmpty = true := by
      intro hempty
      rw [Array.isEmpty_iff.mp hempty] at hi
      cases hi
    have hmem : (Value.function f, i) ∈ chunk.constants.toList.zipIdx :=
      List.mem_zipIdx_iff_getElem?.mpr (by rw [Array.getElem?_toList, hi])
    have hpart : functionListing i f ∈
        chunk.constants.toList.zipIdx.map fun p => codeListing p.1 p.2 :=
      List.mem_map.mpr ⟨_, hmem, rfl⟩
    obtain ⟨front, back, hsplit⟩ := List.append_of_mem hpart
    rw [listing_of_not_isEmpty hempty, hsplit, String.join_append, String.join_cons,
      ← String.append_assoc, ← String.append_assoc]
    exact ⟨_, _, rfl⟩

/-- A part shows every instruction of its function, when that has nothing but instructions. -/
theorem Part.line_mem (h : chunk.Part f part) {is : List Instruction}
    (his : Code.instructions f.code = .ok is) {offset : Nat} {op : Opcode} {ns : List Nat}
    (hi : ⟨offset, op, ns⟩ ∈ is) :
    alignRight 4 '0' offset ++ " " ++ instructionText op.name ns ∈ lines part := by
  have hlisted : (Item.instruction ⟨offset, op, ns⟩).line ∈ lines (Code.listing f.code) := by
    rw [Code.lines_listing, Code.itemLines, Code.items_of_decode his, List.map_map]
    exact List.mem_map_of_mem hi
  cases h with
  | main =>
    have hheader : "== main ==\n" = "== main ==" ++ "\n" := rfl
    rw [hheader, lines_append]
    exact List.mem_append_right _ hlisted
  | constant hi =>
    rw [functionListing_eq, lines_append]
    exact List.mem_append_right _ hlisted

end Chunk

end Monkey
