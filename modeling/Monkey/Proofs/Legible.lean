import Monkey.Evaluation
import Monkey.Proofs.Compiled
import Monkey.Proofs.Listing
import Monkey.Proofs.Naming
import Monkey.Proofs.Quoting

/-!
# Listings lose nothing

A listing can be read back (`listing_injective`). A line of a stream is made of words, and they tell the
bytes that the line shows (`Item.bytes_eq_of_line`). A listing of a program is made of blocks that are
separated by empty lines, and there are no other empty lines (`Chunk.Legible.lines`). The block of the
constants has one line for each of them, which tells numbers and strings, and every function has a block
of its own that tells the rest (`constants_eq_of_blocks`).

This holds as long as no name of a function looks like something else, and no code ends in the middle of
an instruction (`Chunk.Legible`). Compiled programs are like that (`legible_of_compile`).
-/

namespace Monkey

/-! ### Items -/

/-- The bytes of an item. An instruction that is cut off has none that its line would tell. -/
def Item.bytes : Item → List UInt8
  | instruction i => i.op.encodeD i.operands
  | undefined b => [b]
  | cutOff _ _ _ => []

/-- Whether an instruction is cut off. -/
def Item.isCutOff : Item → Bool
  | cutOff _ _ _ => true
  | _ => false

namespace Code

/-- The walk through the stream ends in an instruction that is cut off. -/
def IsCutOff (code : Code) : Prop := ∃ item ∈ items 0 code.toList, item.isCutOff

/-- **A stream is made of its items**, unless one is cut off. -/
theorem flatMap_bytes_items {offset : Nat} {bytes : List UInt8}
    (h : ∀ item ∈ items offset bytes, item.isCutOff = false) :
    (items offset bytes).flatMap Item.bytes = bytes := by
  -- the walk ends, or it meets a byte that is no opcode, an instruction, or one that is cut off
  fun_induction items offset bytes with
  | case1 offset => rfl
  | case2 offset b rest e hlookup ih =>
    obtain ⟨-, hrest⟩ := List.forall_mem_cons.mp h
    rw [List.flatMap_cons, ih hrest]
    rfl
  | case3 offset b rest op hlookup operands n hdecode ih =>
    obtain ⟨-, hrest⟩ := List.forall_mem_cons.mp h
    obtain ⟨hencode, -⟩ := Opcode.encode_of_decode hdecode
    have hbytes : (Item.instruction ⟨offset, op, operands⟩).bytes = op.byte :: rest.take n :=
      Piece.encodeD_eq hencode
    rw [List.flatMap_cons, ih hrest, hbytes, List.cons_append, List.take_append_drop,
      Opcode.lookup_eq_ok_iff.mp hlookup]
  | case4 offset b rest op hlookup e hdecode =>
    exfalso
    have hcut : true = false := h (.cutOff offset op rest.length) List.mem_cons_self
    cases hcut

end Code

/-! ### Lines -/

/-- The words of a line. -/
def Item.words : Item → List String
  | instruction i => alignRight 4 '0' i.offset :: i.op.name :: i.operands.map toString
  | undefined b => ["ERROR:", "opcode", toString b, "undefined"]
  | cutOff _ _ _ => []

theorem instructionText_eq (name : String) (ns : List Nat) :
    instructionText name ns = " ".intercalate (name :: ns.map toString) := by
  unfold instructionText
  induction ns generalizing name with
  | nil => exact String.append_empty
  | cons n ns ih =>
    rw [List.map_cons, List.map_cons, String.intercalate_cons_cons, ← ih, String.join_cons]
    simp only [String.append_assoc]

theorem Item.line_eq {item : Item} (h : item.isCutOff = false) :
    item.line = " ".intercalate item.words := by
  cases item with
  | instruction i => rw [Item.line, instructionText_eq, Item.words, String.intercalate_cons_cons]
  | undefined b =>
    rw [Item.words, String.intercalate_cons_cons, String.intercalate_cons_cons,
      String.intercalate_cons_cons, String.intercalate_singleton]
    simp only [String.append_assoc]
    rfl
  | cutOff offset op available => cases h

theorem Opcode.isWord_name (op : Opcode) : IsWord op.name := by
  cases op <;> decide

theorem Opcode.name_injective {op op' : Opcode} (h : op.name = op'.name) : op = op' := by
  revert h
  cases op <;> cases op' <;> decide

theorem Item.isWord_words {item : Item} : ∀ w ∈ item.words, IsWord w := by
  cases item with
  | instruction i =>
    intro w hw
    rcases List.mem_cons.mp hw with rfl | hw
    · exact isWord_alignRight 4 i.offset
    rcases List.mem_cons.mp hw with rfl | hw
    · exact i.op.isWord_name
    · obtain ⟨n, -, rfl⟩ := List.mem_map.mp hw
      exact isWord_toString n
  | undefined b =>
    intro w hw
    simp only [Item.words, List.mem_cons, List.not_mem_nil, or_false] at hw
    rcases hw with rfl | rfl | rfl | rfl
    · decide
    · decide
    · exact isWord_toString b.toNat
    · decide
  | cutOff offset op available => exact List.forall_mem_nil _

theorem Item.words_ne_nil {item : Item} (h : item.isCutOff = false) : item.words ≠ [] := by
  cases item with
  | instruction i => exact List.cons_ne_nil _ _
  | undefined b => exact List.cons_ne_nil _ _
  | cutOff offset op available => cases h

/-- An offset is no error. -/
theorem alignRight_ne_error (width n : Nat) : alignRight width '0' n ≠ "ERROR:" := by
  intro h
  have hcolon : ':' ∈ (alignRight width '0' n).toList := by
    rw [h]
    decide
  exact absurd (isDigit_of_mem_alignRight hcolon) (by decide)

/-- **A line tells the bytes that it shows.** -/
theorem Item.bytes_eq_of_line {item item' : Item} (h : item.isCutOff = false)
    (h' : item'.isCutOff = false) (heq : item.line = item'.line) : item.bytes = item'.bytes := by
  rw [line_eq h, line_eq h'] at heq
  have hwords :=
    unwords_injective isWord_words isWord_words (words_ne_nil h) (words_ne_nil h') heq
  -- the first word is an offset or says that there is an error
  cases item with
  | instruction i =>
    cases item' with
    | instruction j =>
      obtain ⟨-, hrest⟩ := List.cons.inj hwords
      obtain ⟨hname, hoperands⟩ := List.cons.inj hrest
      have hsame : i.operands = j.operands :=
        List.map_injective_iff.mpr (fun _ _ => toString_nat_injective) hoperands
      rw [Item.bytes, Item.bytes, Opcode.name_injective hname, hsame]
    | undefined b => exact absurd (List.cons.inj hwords).1 (alignRight_ne_error 4 i.offset)
    | cutOff offset op available => cases h'
  | undefined b =>
    cases item' with
    | instruction j => exact absurd (List.cons.inj hwords).1.symm (alignRight_ne_error 4 j.offset)
    | undefined c =>
      have hbyte := (List.cons.inj (List.cons.inj (List.cons.inj hwords).2).2).1
      rw [Item.bytes, Item.bytes, UInt8.toNat_inj.mp (toString_nat_injective hbyte)]
    | cutOff offset op available => cases h'
  | cutOff offset op available => cases h

namespace Code

/-- Streams of the same lines are made of the same bytes. -/
theorem flatMap_bytes_eq_of_lines {is is' : List Item} (h : ∀ item ∈ is, item.isCutOff = false)
    (h' : ∀ item ∈ is', item.isCutOff = false) (heq : is.map Item.line = is'.map Item.line) :
    is.flatMap Item.bytes = is'.flatMap Item.bytes := by
  induction is generalizing is' with
  | nil =>
    cases is' with
    | nil => rfl
    | cons item' is' => cases heq
  | cons item is ih =>
    cases is' with
    | nil => cases heq
    | cons item' is' =>
      obtain ⟨hitem, his⟩ := List.forall_mem_cons.mp h
      obtain ⟨hitem', his'⟩ := List.forall_mem_cons.mp h'
      obtain ⟨hline, hlines⟩ := List.cons.inj heq
      rw [List.flatMap_cons, List.flatMap_cons, Item.bytes_eq_of_line hitem hitem' hline,
        ih his his' hlines]

theorem not_isCutOff_iff {code : Code} :
    ¬ IsCutOff code ↔ ∀ item ∈ items 0 code.toList, item.isCutOff = false := by
  simp only [IsCutOff, not_exists, not_and, Bool.not_eq_true]

/-- **A stream can be read back from the lines of its listing.** -/
theorem eq_of_lines {code code' : Code} (h : ¬ IsCutOff code) (h' : ¬ IsCutOff code')
    (heq : itemLines code = itemLines code') : code = code' := by
  rw [not_isCutOff_iff] at h h'
  rw [← Array.toList_inj, ← flatMap_bytes_items h, ← flatMap_bytes_items h']
  exact flatMap_bytes_eq_of_lines h h' heq

/-- A stream that is nothing but instructions is not cut off. -/
theorem not_isCutOff_of_instructions {code : Code} {is : List Instruction}
    (h : Code.instructions code = .ok is) : ¬ IsCutOff code := by
  rw [not_isCutOff_iff, items_of_decode h]
  exact List.forall_mem_map.mpr fun _ _ => rfl

end Code

/-! ### Constants -/

/-- The text of a constant in a listing. -/
def Value.shown : Value → String
  | .string s => quoted s
  | v => v.text

/-- The line of a constant. -/
def constantText (index : Nat) (v : Value) : String :=
  alignRight 4 '0' index ++ " " ++ v.type.name ++ " " ++ v.shown

theorem constantLine_eq (index : Nat) (v : Value) :
    constantLine index v = constantText index v ++ "\n" := by
  cases v <;> rfl

/-- The constant at an index is one that its lines tell: a number, a string, or a function that knows its
index, whose name is made of letters, if it has one, and whose code is not cut off. -/
def Value.Legible (index : Nat) : Value → Prop
  | .integer _ | .string _ => True
  | .function f => f.id = index ∧ (∀ x, f.name = some x → IsName x) ∧ ¬ Code.IsCutOff f.code
  | _ => False

theorem ValueType.isWord_name (t : ValueType) : IsWord t.name := by
  cases t <;> decide

theorem ValueType.name_injective {t t' : ValueType} (h : t.name = t'.name) : t = t' := by
  revert h
  cases t <;> cases t' <;> decide

/-- A line tells a constant, apart from what functions are made of. -/
theorem Value.eq_of_constantText {i : Nat} {v v' : Value} (hv : v.Legible i) (hv' : v'.Legible i)
    (h : constantText i v = constantText i v') :
    v = v' ∨ ∃ f f', v = .function f ∧ v' = .function f' := by
  unfold constantText at h
  simp only [String.append_assoc] at h
  -- the index is the same on both sides, and the type ends at the first blank behind it
  have htext := (String.append_right_inj _).mp ((String.append_right_inj _).mp h)
  have hchars : v.type.name.toList ++ ' ' :: v.shown.toList =
      v'.type.name.toList ++ ' ' :: v'.shown.toList := by
    have hlist := congrArg String.toList htext
    rwa [String.toList_append, String.toList_append, String.toList_append,
      String.toList_append] at hlist
  obtain ⟨hname, hshown⟩ :=
    append_cons_injective v.type.isWord_name v'.type.isWord_name hchars
  have htype := ValueType.name_injective (String.toList_inj.mp hname)
  rw [String.toList_inj] at hshown
  cases v with
  | integer n =>
    cases v' with
    | integer m => exact .inl (congrArg _ (Int64.toInt_inj.mp (toString_int_injective hshown)))
    | _ => cases htype
  | string s =>
    cases v' with
    | string t => exact .inl (congrArg _ (quoted_injective hshown))
    | _ => cases htype
  | function f =>
    cases v' with
    | function f' => exact .inr ⟨f, f', rfl, rfl⟩
    | _ => cases htype
  | boolean _ | array _ | hash _ | null => cases hv

/-! ### Functions -/

theorem IsName.chars {x : String} (h : IsName x) {c : Char} (hc : c ∈ x.toList) :
    isNameRest c = true := by
  obtain ⟨⟨d, ds, hx, hd, hds⟩, -⟩ := h
  rw [hx] at hc
  rcases List.mem_cons.mp hc with rfl | hc
  · rw [isNameRest, hd, Bool.true_or]
  · exact hds c hc

theorem IsName.isWord {x : String} (h : IsName x) : IsWord x :=
  fun hblank => absurd (h.chars hblank) (by decide)

theorem IsName.isLine {x : String} (h : IsName x) : IsLine x := by
  intro c hc
  have hrest := h.chars hc
  constructor
  · rintro rfl
    exact absurd hrest (by decide)
  · rintro rfl
    exact absurd hrest (by decide)

/-- What stands for the name of a function without one is no name. -/
theorem not_isName_anonymous : ¬ IsName "<anonymous>" := by
  intro h
  exact absurd (h.chars (c := '<') (by decide)) (by decide)

/-- What a header shows for the name of a function tells the name, also that there is none. -/
theorem eq_of_shown_name {x? y? : Option String} (hx : ∀ x, x? = some x → IsName x)
    (hy : ∀ y, y? = some y → IsName y)
    (h : x?.getD "<anonymous>" = y?.getD "<anonymous>") : x? = y? := by
  cases x? with
  | none =>
    cases y? with
    | none => rfl
    | some y =>
      obtain rfl : "<anonymous>" = y := h
      exact absurd (hy _ rfl) not_isName_anonymous
  | some x =>
    cases y? with
    | none =>
      obtain rfl : x = "<anonymous>" := h
      exact absurd (hx _ rfl) not_isName_anonymous
    | some y => exact congrArg some h

/-- The words of the line above the code of a function. -/
def headerWords (index : Nat) (f : Function) : List String :=
  ["==", "constant", toString index, f.name.getD "<anonymous>", "(params:",
    toString f.parameters ++ ",", "locals:", toString f.locals ++ ")", "=="]

theorem functionHeader_eq (index : Nat) (f : Function) :
    functionHeader index f = " ".intercalate (headerWords index f) := by
  -- the words end at the blanks of the literals
  have hfront : "== constant " = "==" ++ " " ++ "constant" ++ " " := rfl
  have hparameters : " (params: " = " " ++ "(params:" ++ " " := rfl
  have hlocals : ", locals: " = "," ++ " " ++ "locals:" ++ " " := rfl
  have hback : ") ==" = ")" ++ " " ++ "==" := rfl
  unfold functionHeader headerWords
  rw [hfront, hparameters, hlocals, hback]
  simp only [String.intercalate_cons_cons, String.intercalate_singleton, String.append_assoc]

theorem isWord_headerWords {index : Nat} {f : Function} (h : ∀ x, f.name = some x → IsName x) :
    ∀ w ∈ headerWords index f, IsWord w := by
  have hname : IsWord (f.name.getD "<anonymous>") := by
    cases hf : f.name with
    | none => decide
    | some x => exact (h x hf).isWord
  intro w hw
  simp only [headerWords, List.mem_cons, List.not_mem_nil, or_false] at hw
  rcases hw with rfl | rfl | rfl | rfl | rfl | rfl | rfl | rfl | rfl
  · decide
  · decide
  · exact isWord_toString index
  · exact hname
  · decide
  · exact (isWord_toString _).append (by decide)
  · decide
  · exact (isWord_toString _).append (by decide)
  · decide

/-- The line above its code and the lines of its code tell a function. -/
theorem Function.eq_of_lines {i : Nat} {f f' : Function} (hf : Value.Legible i (.function f))
    (hf' : Value.Legible i (.function f')) (hheader : functionHeader i f = functionHeader i f')
    (hlines : Code.itemLines f.code = Code.itemLines f'.code) : f = f' := by
  obtain ⟨hid, hname, hcode⟩ := hf
  obtain ⟨hid', hname', hcode'⟩ := hf'
  rw [functionHeader_eq, functionHeader_eq] at hheader
  have hwords := unwords_injective (isWord_headerWords hname) (isWord_headerWords hname')
    (List.cons_ne_nil _ _) (List.cons_ne_nil _ _) hheader
  simp only [headerWords, List.cons.injEq, and_true, true_and] at hwords
  obtain ⟨hnames, hparameters, hlocals⟩ := hwords
  have hsame := eq_of_shown_name hname hname' hnames
  have hparameters' := toString_nat_injective ((String.append_left_inj ",").mp hparameters)
  have hlocals' := toString_nat_injective ((String.append_left_inj ")").mp hlocals)
  have hcodes := Code.eq_of_lines hcode hcode' hlines
  cases f with
  | mk id code locals parameters name =>
    cases f' with
    | mk id' code' locals' parameters' name' =>
      dsimp only at hid hid' hsame hparameters' hlocals' hcodes
      rw [hid, hid', hsame, hparameters', hlocals', hcodes]

/-! ### Programs -/

/-- The block of a function behind the constants. -/
def Value.sections (v : Value) (index : Nat) : List (List String) :=
  match v with
  | .function f => [functionHeader index f :: Code.itemLines f.code]
  | _ => []

/-- The lines of a listing, cut where there is an empty one. -/
def Chunk.blocks (chunk : Chunk) : List (List String) :=
  ("== main ==" :: Code.itemLines chunk.code) ::
    if chunk.constants.isEmpty then []
    else
      ("== constants ==" :: chunk.constants.toList.zipIdx.map fun p => constantText p.2 p.1) ::
        chunk.constants.toList.zipIdx.flatMap fun p => p.1.sections p.2

theorem unlines_intercalate (b : List String) (bs : List (List String)) :
    unlines ([""].intercalate (b :: bs)) =
      unlines b ++ String.join (bs.map fun b => "\n" ++ unlines b) := by
  induction bs generalizing b with
  | nil =>
    rw [List.intercalate_singleton]
    exact String.append_empty.symm
  | cons b' bs ih =>
    rw [List.intercalate_cons_cons, unlines_append, unlines_append, ih, List.map_cons,
      String.join_cons]
    simp only [String.append_assoc]
    rfl

theorem join_codeListing (ps : List (Value × Nat)) :
    String.join (ps.map fun p => codeListing p.1 p.2) =
      String.join ((ps.flatMap fun p => p.1.sections p.2).map fun b => "\n" ++ unlines b) := by
  induction ps with
  | nil => rfl
  | cons p ps ih =>
    have hone : codeListing p.1 p.2 =
        String.join ((p.1.sections p.2).map fun b => "\n" ++ unlines b) := by
      cases hv : p.1 with
      | function f =>
        rw [codeListing, functionListing_eq, Value.sections, List.map_singleton, unlines_cons,
          ← Code.listing_eq]
        simp only [String.join_cons, String.join_nil, String.append_empty, String.append_assoc]
      | _ => rfl
    rw [List.map_cons, String.join_cons, ih, hone, List.flatMap_cons, List.map_append,
      String.join_append]

theorem join_constantLine (ps : List (Value × Nat)) :
    String.join (ps.map fun p => constantLine p.2 p.1) =
      unlines (ps.map fun p => constantText p.2 p.1) := by
  rw [unlines, List.map_map]
  exact congrArg String.join (List.map_congr_left fun p _ => constantLine_eq p.2 p.1)

/-- **The listing of a program is made of blocks**, with an empty line between them. -/
theorem Chunk.listing_eq (chunk : Chunk) :
    chunk.listing = unlines ([""].intercalate chunk.blocks) := by
  have hmain : "== main ==\n" = "== main ==" ++ "\n" := rfl
  have hconstants : "\n== constants ==\n" = "\n" ++ "== constants ==" ++ "\n" := rfl
  rw [blocks, unlines_intercalate, unlines_cons, ← Code.listing_eq]
  by_cases hempty : chunk.constants.isEmpty
  · rw [if_pos hempty, listing_of_isEmpty hempty, hmain]
    exact String.append_empty.symm
  · rw [if_neg hempty, listing_of_not_isEmpty hempty, join_codeListing, join_constantLine, hmain,
      hconstants, List.map_cons, String.join_cons, unlines_cons]
    simp only [String.append_assoc]

/-- The program is one that its listing tells. -/
structure Chunk.Legible (chunk : Chunk) : Prop where
  code : ¬ Code.IsCutOff chunk.code
  constants : ∀ p ∈ chunk.constants.toList.zipIdx, p.1.Legible p.2

/-! ### Lines of programs -/

/-- A line that has a blank is not empty. -/
theorem ne_empty_of_blank {l : String} (h : ' ' ∈ l.toList) : l ≠ "" := by
  rintro rfl
  cases h

theorem mem_append_left {c : Char} {s t : String} (h : c ∈ s.toList) : c ∈ (s ++ t).toList := by
  rw [String.toList_append]
  exact List.mem_append_left _ h

theorem mem_append_right {c : Char} {s t : String} (h : c ∈ t.toList) : c ∈ (s ++ t).toList := by
  rw [String.toList_append]
  exact List.mem_append_right _ h

theorem Item.line_ne_empty (item : Item) : item.line ≠ "" := by
  apply ne_empty_of_blank
  cases item with
  | instruction i => exact mem_append_left (mem_append_right (by decide))
  | undefined b => exact mem_append_left (by decide)
  | cutOff offset op available => exact mem_append_left (mem_append_right (by decide))

theorem constantText_ne_empty (i : Nat) (v : Value) : constantText i v ≠ "" :=
  ne_empty_of_blank (mem_append_left (mem_append_right (by decide)))

theorem functionHeader_ne_empty (i : Nat) (f : Function) : functionHeader i f ≠ "" :=
  ne_empty_of_blank (mem_append_right (by decide))

theorem Value.isLine_shown {i : Nat} {v : Value} (h : v.Legible i) : IsLine v.shown := by
  cases v with
  | integer n => exact isLine_toString_int n.toInt
  | string s => exact isLine_quoted s
  | function f =>
    have hparameters : IsLine ("<fn/" ++ toString f.parameters) :=
      IsLine.append (by decide) (isLine_toString f.parameters)
    exact hparameters.append (by decide)
  | boolean _ | array _ | hash _ | null => cases h

theorem ValueType.isLine_name (t : ValueType) : IsLine t.name := by
  cases t <;> decide

theorem isLine_constantText {i : Nat} {v : Value} (h : v.Legible i) : IsLine (constantText i v) := by
  have hblank : IsLine " " := by decide
  have htype : IsLine (alignRight 4 '0' i ++ " " ++ v.type.name) :=
    ((isLine_alignRight 4 i).append hblank).append v.type.isLine_name
  exact (htype.append hblank).append (Value.isLine_shown h)

theorem isLine_functionHeader {i : Nat} {f : Function} (h : ∀ x, f.name = some x → IsName x) :
    IsLine (functionHeader i f) := by
  have hname : IsLine (f.name.getD "<anonymous>") := by
    cases hf : f.name with
    | none => decide
    | some x => exact (h x hf).isLine
  have hindex : IsLine ("== constant " ++ toString i ++ " ") :=
    (IsLine.append (by decide) (isLine_toString i)).append (by decide)
  have hparameters : IsLine (" (params: " ++ toString f.parameters) :=
    IsLine.append (by decide) (isLine_toString f.parameters)
  have hlocals : IsLine (", locals: " ++ toString f.locals ++ ") ==") :=
    (IsLine.append (by decide) (isLine_toString f.locals)).append (by decide)
  have hall := ((hindex.append hname).append hparameters).append hlocals
  unfold functionHeader
  simpa only [String.append_assoc] using hall

/-- The lines of a program. None of them is empty, so the empty lines are those between the blocks. -/
theorem Chunk.Legible.lines {chunk : Chunk} (h : chunk.Legible) :
    ∀ b ∈ chunk.blocks, ∀ l ∈ b, IsLine l ∧ l ≠ "" := by
  have hcode : ∀ code : Code, ∀ l ∈ Code.itemLines code, IsLine l ∧ l ≠ "" := by
    intro code l hl
    refine ⟨Code.isLine_itemLines code l hl, ?_⟩
    obtain ⟨item, -, rfl⟩ := List.mem_map.mp hl
    exact item.line_ne_empty
  intro b hb
  rcases List.mem_cons.mp hb with rfl | hb
  · exact List.forall_mem_cons.mpr ⟨by decide, hcode chunk.code⟩
  · split at hb
    · cases hb
    rcases List.mem_cons.mp hb with rfl | hb
    · refine List.forall_mem_cons.mpr ⟨by decide, List.forall_mem_map.mpr fun p hp => ?_⟩
      exact ⟨isLine_constantText (h.constants p hp), constantText_ne_empty p.2 p.1⟩
    · obtain ⟨p, hp, hb⟩ := List.mem_flatMap.mp hb
      have hlegible := h.constants p hp
      cases hv : p.1 with
      | function f =>
        rw [hv] at hb hlegible
        obtain rfl := List.mem_singleton.mp hb
        refine List.forall_mem_cons.mpr ⟨?_, hcode f.code⟩
        exact ⟨isLine_functionHeader hlegible.2.1, functionHeader_ne_empty p.2 f⟩
      | _ =>
        rw [hv] at hb
        cases hb

/-! ### Reading a program back -/

/-- The lines and the blocks of the constants tell them. -/
theorem constants_eq_of_blocks {vs vs' : List Value} {n : Nat}
    (h : ∀ p ∈ vs.zipIdx n, p.1.Legible p.2) (h' : ∀ p ∈ vs'.zipIdx n, p.1.Legible p.2)
    (hlines : ((vs.zipIdx n).map fun p => constantText p.2 p.1) =
      (vs'.zipIdx n).map fun p => constantText p.2 p.1)
    (hsections : ((vs.zipIdx n).flatMap fun p => p.1.sections p.2) =
      (vs'.zipIdx n).flatMap fun p => p.1.sections p.2) : vs = vs' := by
  induction vs generalizing vs' n with
  | nil =>
    cases vs' with
    | nil => rfl
    | cons v' vs' => cases hlines
  | cons v vs ih =>
    cases vs' with
    | nil => cases hlines
    | cons v' vs' =>
      rw [List.zipIdx_cons, List.forall_mem_cons] at h h'
      rw [List.zipIdx_cons, List.zipIdx_cons, List.map_cons, List.map_cons] at hlines
      rw [List.zipIdx_cons, List.zipIdx_cons, List.flatMap_cons, List.flatMap_cons] at hsections
      obtain ⟨hline, hrest⟩ := List.cons.inj hlines
      rcases Value.eq_of_constantText h.1 h'.1 hline with rfl | ⟨f, f', rfl, rfl⟩
      · rw [ih h.2 h'.2 hrest (List.append_cancel_left hsections)]
      · -- a function has a block of its own
        obtain ⟨hblock, hbehind⟩ := List.cons.inj hsections
        obtain ⟨hheader, hcode⟩ := List.cons.inj hblock
        rw [Function.eq_of_lines h.1 h'.1 hheader hcode, ih h.2 h'.2 hrest hbehind]

namespace Chunk

variable {chunk chunk' : Chunk}

theorem eq_of_blocks (h : chunk.Legible) (h' : chunk'.Legible) (heq : chunk.blocks = chunk'.blocks) :
    chunk = chunk' := by
  obtain ⟨hmain, hrest⟩ := List.cons.inj heq
  have hcode := Code.eq_of_lines h.code h'.code (List.cons.inj hmain).2
  have hconstants : chunk.constants.toList = chunk'.constants.toList := by
    split at hrest
    · next hempty =>
      split at hrest
      · next hempty' => rw [Array.isEmpty_iff.mp hempty, Array.isEmpty_iff.mp hempty']
      · cases hrest
    · split at hrest
      · cases hrest
      · obtain ⟨hlines, hsections⟩ := List.cons.inj hrest
        exact constants_eq_of_blocks h.constants h'.constants (List.cons.inj hlines).2 hsections
  cases chunk with
  | mk code constants =>
    cases chunk' with
    | mk code' constants' =>
      rw [Array.toList_inj] at hconstants
      exact congr (congrArg Chunk.mk hcode) hconstants

theorem forall_mem_intercalate {P : String → Prop} (hempty : P "") {bs : List (List String)}
    (h : ∀ b ∈ bs, ∀ l ∈ b, P l) : ∀ l ∈ [""].intercalate bs, P l := by
  induction bs with
  | nil => exact List.forall_mem_nil P
  | cons b bs ih =>
    obtain ⟨hb, hbs⟩ := List.forall_mem_cons.mp h
    cases bs with
    | nil =>
      rw [List.intercalate_singleton]
      exact hb
    | cons b' bs =>
      rw [List.intercalate_cons_cons, List.forall_mem_append, List.forall_mem_append]
      exact ⟨⟨hb, List.forall_mem_singleton.mpr hempty⟩, ih hbs⟩

/-- **A program can be read back from its listing.** -/
theorem eq_of_listing (h : chunk.Legible) (h' : chunk'.Legible)
    (heq : chunk.listing = chunk'.listing) : chunk = chunk' := by
  rw [listing_eq, listing_eq] at heq
  have hempty : IsLine "" := by decide
  have hlines := unlines_injective
    (forall_mem_intercalate hempty fun b hb l hl => (h.lines b hb l hl).1)
    (forall_mem_intercalate hempty fun b hb l hl => (h'.lines b hb l hl).1) heq
  -- the text is cut at its empty lines
  have hsplit : ∀ {c : Chunk}, c.Legible → List.splitOn "" ([""].intercalate c.blocks) = c.blocks := by
    intro c hc
    exact List.splitOn_intercalate "" (fun b hb hmem => (hc.lines b hb "" hmem).2 rfl)
      (List.cons_ne_nil _ _)
  apply eq_of_blocks h h'
  rw [← hsplit h, ← hsplit h', hlines]

end Chunk

/-! ### Compiled programs -/

/-- The constants that literals become are told by their lines. -/
theorem Compilation.Follows.legible {c : Compilation} {w : Walk} (hc : c.Follows w)
    (hw : w.Named) {i : Nat} {v : Value} (hi : c.constants[i]? = some v) : v.Legible i := by
  rw [hc.constants, Literal.getElem?_values] at hi
  obtain ⟨l, hl, rfl⟩ := Option.map_eq_some_iff.mp hi
  cases l with
  | integer n => trivial
  | string s => trivial
  | function name parameters names body =>
    have hnamed := hw _ (Array.mem_of_getElem? hl)
    refine ⟨rfl, ?_, ?_⟩
    · rintro x rfl
      exact hnamed
    · exact Code.not_isCutOff_of_instructions
        (Code.instructions_of_layout rfl (hc.fits i name parameters names body hl))

/-- A compiled text is one that can be read, and whose program can be compiled. -/
theorem exists_of_compile {source : String} {chunk : Chunk} (h : compile source = .ok chunk) :
    ∃ p c, Program.parse source = .ok p ∧ Compilation.empty.add p = (.ok (), c) ∧
      c.chunk = chunk := by
  unfold compile at h
  split at h
  · cases h
  · next p hparse =>
    split at h
    · cases h
    · next chunk' hcompile =>
      obtain rfl := Except.ok.inj h
      obtain ⟨c, hadd, hchunk⟩ := Program.exists_of_compile hcompile
      exact ⟨p, c, hparse, hadd, hchunk⟩

/-- Compiled programs are told by their listings. -/
theorem legible_of_compile {source : String} {chunk : Chunk} (h : compile source = .ok chunk) :
    chunk.Legible := by
  obtain ⟨p, c, hparse, hadd, rfl⟩ := exists_of_compile h
  -- what was read from a text has names that come from tokens
  have hlabelled : p.Labelled := by
    have hread := Program.labelled_read source
    rwa [Program.parse_eq_ok_iff.mp hparse] at hread
  obtain ⟨cs, w, hresolve, hc⟩ :=
    Compilation.follows_nothing.compiled Walk.sound_nothing rfl hadd
  have hnothing : Walk.nothing.Named := fun l hl => absurd hl (Array.not_mem_empty l)
  have hw := Stmt.keep_named p.statements hlabelled hresolve hnothing
  constructor
  · exact Code.not_isCutOff_of_instructions (Code.instructions_of_layout hc.code hc.fits)
  · rintro ⟨v, i⟩ hp
    have hi := List.mem_zipIdx_iff_getElem?.mp hp
    rw [Array.getElem?_toList] at hi
    exact hc.follows.legible hw hi

/-- **Listings lose nothing.** Streams that have the same listing are made of the same bytes, also of
bytes that are no opcodes, as long as neither ends in an instruction that is cut off. And compiled programs
that have the same listing are the same: they have the same code at the top level and the same constants,
with the same numbers, strings and functions. -/
theorem listing_injective :
    (∀ code code' : Code, ¬ Code.IsCutOff code → ¬ Code.IsCutOff code' →
      Code.listing code = Code.listing code' → code = code') ∧
    ∀ (source source' : String) (chunk chunk' : Chunk), compile source = .ok chunk →
      compile source' = .ok chunk' → chunk.listing = chunk'.listing → chunk = chunk' := by
  constructor
  · intro code code' h h' heq
    apply Code.eq_of_lines h h'
    rw [← Code.lines_listing, ← Code.lines_listing, heq]
  · intro source source' chunk chunk' h h' heq
    exact Chunk.eq_of_listing (legible_of_compile h) (legible_of_compile h') heq

/-- A program that is a function without a body. -/
def emptyFunction : Chunk where
  code := #[0, 0, 0, 2]
  constants := #[.function ⟨0, #[23], 0, 0, none⟩]

/-- A stream with a byte that is no opcode, and a program that is written in two ways. -/
theorem listing_injective_undefined :
    (∀ code : Code, ¬ Code.IsCutOff code →
      Code.listing code = "ERROR: opcode 200 undefined\n0001 OpAdd\n" → code = #[200, 1]) ∧
    compile "fn()\x7b\x7d" = .ok emptyFunction ∧
    ∃ chunk, compile "(fn() \x7b \x7d);" = .ok chunk ∧ chunk.listing = emptyFunction.listing ∧
      chunk = emptyFunction := by
  have hcut : ¬ Code.IsCutOff #[200, 1] := by
    unfold Code.IsCutOff
    decide +kernel
  have hlisting : Code.listing #[200, 1] = "ERROR: opcode 200 undefined\n0001 OpAdd\n" := by
    decide +kernel
  have hscan : Token.scan "fn()\x7b\x7d" =
      ([⟨.function, "fn", ⟨0, 2, 1, 1⟩⟩, ⟨.lparen, "(", ⟨2, 3, 1, 3⟩⟩, ⟨.rparen, ")", ⟨3, 4, 1, 4⟩⟩,
        ⟨.lbrace, "\x7b", ⟨4, 5, 1, 5⟩⟩, ⟨.rbrace, "\x7d", ⟨5, 6, 1, 6⟩⟩],
        ⟨.eof, "", ⟨6, 6, 1, 7⟩⟩) := by decide +kernel
  have hscan' : Token.scan "(fn() \x7b \x7d);" =
      ([⟨.lparen, "(", ⟨0, 1, 1, 1⟩⟩, ⟨.function, "fn", ⟨1, 3, 1, 2⟩⟩, ⟨.lparen, "(", ⟨3, 4, 1, 4⟩⟩,
        ⟨.rparen, ")", ⟨4, 5, 1, 5⟩⟩, ⟨.lbrace, "\x7b", ⟨6, 7, 1, 7⟩⟩, ⟨.rbrace, "\x7d", ⟨8, 9, 1, 9⟩⟩,
        ⟨.rparen, ")", ⟨9, 10, 1, 10⟩⟩, ⟨.semicolon, ";", ⟨10, 11, 1, 11⟩⟩],
        ⟨.eof, "", ⟨11, 11, 1, 12⟩⟩) := by decide +kernel
  have hcompile : compile "fn()\x7b\x7d" = .ok emptyFunction := by
    unfold compile Program.parse Program.read
    rw [hscan]
    rfl
  obtain ⟨chunk, hcompile', hsame⟩ : ∃ chunk, compile "(fn() \x7b \x7d);" = .ok chunk ∧
      chunk.listing = emptyFunction.listing := by
    unfold compile Program.parse Program.read
    rw [hscan']
    exact ⟨_, rfl, rfl⟩
  refine ⟨fun code h heq => listing_injective.1 code _ h hcut (heq.trans hlisting.symm), hcompile, ?_⟩
  exact ⟨chunk, hcompile', hsame, listing_injective.2 _ _ chunk _ hcompile' hcompile hsame⟩

end Monkey
