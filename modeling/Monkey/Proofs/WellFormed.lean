import Monkey.Proofs.Compiled
import Monkey.Proofs.Inventory
import Monkey.Proofs.Operands

/-!
# Compiled programs are well formed

`Code.WellFormed` is what can be asked of a stream by looking at its instructions alone. Every stream
of a compiled program is well formed, that of the top level and that of every function that was added
to the constants (`Carried.wellFormed`).

Streams are layouts of pieces, so this comes down to two facts about pieces: where the jumps of
branches go (`Piece.targets`), and which operands the other instructions have
(`Command.plain_pieces`).
-/

namespace Monkey

open Piece

/-- A stream with the instructions `is` is well formed, in a program with as many constants and
global names as given. `locals?` is the number of local slots, inside a function, and `counts` are the
lengths of the literals and argument lists that the stream was made from. -/
structure Code.WellFormed (code : Code) (constants globals : Nat) (locals? : Option Nat)
    (counts : List (Opcode × Nat)) (is : List Instruction) : Prop where
  /-- The instructions make up the whole stream. -/
  decodes : code.instructions = .ok is
  /-- A jump goes to an instruction behind it, and not to the end of the stream. -/
  jumps : ∀ i ∈ is, i.op.isJump → ∃ j ∈ is, i.operands = [j.offset] ∧ i.offset < j.offset ∧
    j.offset < code.size
  operands : ∀ i ∈ is, i.op.InRange constants globals locals? i.operands
  /-- The lengths are the real ones. -/
  counts : is.filterMap Instruction.count? = counts
  /-- A function ends in a return. -/
  final : locals?.isSome → ∃ i, is.getLast? = some i ∧ (i.op = .returnValue ∨ i.op = .ret)

/-! ### Where jumps go -/

namespace Piece

/-- The offset `t` is that of one of the instructions `is`, or `last`, the end of their stream. -/
def Target (last : Nat) (is : List Instruction) (t : Nat) : Prop :=
  t = last ∨ t < last ∧ ∃ j ∈ is, j.offset = t

theorem Target.mono {last t : Nat} {is is' : List Instruction} (h : Target last is t)
    (hsub : ∀ j ∈ is, j ∈ is') : Target last is' t := by
  obtain rfl | ⟨hlt, j, hj, hoffset⟩ := h
  · exact .inl rfl
  · exact .inr ⟨hlt, j, hsub j hj, hoffset⟩

/-- The end of a stream is the place where the next one starts. -/
theorem Target.append {last last' t : Nat} {is is' : List Instruction} (h : Target last is t)
    (h' : Target last' is' last) : Target last' (is ++ is') t := by
  obtain rfl | ⟨hlt, j, hj, hoffset⟩ := h
  · exact h'.mono fun j hj => List.mem_append_right is hj
  · refine .inr ⟨?_, j, List.mem_append_left is' hj, hoffset⟩
    rcases h' with rfl | ⟨hlt', -⟩ <;> omega

/-- Pieces start with an instruction, unless there are none. -/
theorem target_start (start : Nat) (ps : List Piece) :
    Target (start + sizeAll ps) (instructionsAll start ps) start := by
  cases ps with
  | nil => exact .inl rfl
  | cons p ps =>
    refine .inr ⟨?_, ?_⟩
    · cases p <;> simp only [sizeAll, size] <;> omega
    · cases p with
      | op o ns => exact ⟨_, List.mem_cons_self, rfl⟩
      | branch yes no => exact ⟨_, List.mem_cons_self, rfl⟩
      | skip no => exact ⟨_, List.mem_cons_self, rfl⟩

mutual

/-- The jumps of a piece go forward, and at most to its end. -/
theorem targets {start : Nat} (p : Piece) (h : p.Each fun op _ => op.isJump = false)
    {i : Instruction} (hi : i ∈ p.instructions start) (hjump : i.op.isJump) :
    ∃ t, i.operands = [t] ∧ i.offset < t ∧ Target (start + p.size) (p.instructions start) t := by
  cases p with
  | op o ns =>
    obtain rfl := List.mem_singleton.mp hi
    exact absurd hjump (by simp [show o.isJump = false from h])
  | branch yes no =>
    have hend : start + (branch yes no).size = start + 3 + sizeAll yes + 3 + sizeAll no := by
      simp only [size]
      omega
    rw [hend]
    have hno := target_start (start + 3 + sizeAll yes + 3) no
    rw [instructions] at hi ⊢
    simp only [List.mem_cons, List.mem_append] at hi
    rcases hi with rfl | hi | rfl | hi
    · refine ⟨_, rfl, by dsimp only; omega, hno.mono fun j hj => ?_⟩
      simp [hj]
    · -- a jump out of the first side goes to the jump over the second one
      obtain ⟨t, hoperands, hlt, htarget⟩ := targetsAll yes h.1 hi hjump
      refine ⟨t, hoperands, hlt, ?_⟩
      obtain rfl | ⟨hlt', j, hj, hoffset⟩ := htarget
      · refine .inr ⟨by omega, ⟨start + 3 + sizeAll yes, .jump,
          [start + 3 + sizeAll yes + 3 + sizeAll no]⟩, ?_, rfl⟩
        exact List.mem_cons_of_mem _ (List.mem_append_right _ List.mem_cons_self)
      · exact .inr ⟨by omega, j, by simp [hj], hoffset⟩
    · exact ⟨_, rfl, by dsimp only; omega, .inl rfl⟩
    · obtain ⟨t, hoperands, hlt, htarget⟩ := targetsAll no h.2 hi hjump
      exact ⟨t, hoperands, hlt, htarget.mono fun j hj => by simp [hj]⟩
  | skip no =>
    have hend : start + (skip no).size = start + 3 + sizeAll no := by
      simp only [size]
      omega
    rw [hend]
    rw [instructions] at hi ⊢
    rcases List.mem_cons.mp hi with rfl | hi
    · exact ⟨_, rfl, by dsimp only; omega, .inl rfl⟩
    · obtain ⟨t, hoperands, hlt, htarget⟩ := targetsAll no h hi hjump
      exact ⟨t, hoperands, hlt, htarget.mono fun j hj => List.mem_cons_of_mem _ hj⟩
termination_by structural p

/-- The jumps of pieces go forward, and at most to their end. -/
theorem targetsAll {start : Nat} (ps : List Piece) (h : EachAll (fun op _ => op.isJump = false) ps)
    {i : Instruction} (hi : i ∈ instructionsAll start ps) (hjump : i.op.isJump) :
    ∃ t, i.operands = [t] ∧ i.offset < t ∧
      Target (start + sizeAll ps) (instructionsAll start ps) t := by
  cases ps with
  | nil => cases hi
  | cons p ps =>
    rw [instructionsAll] at hi ⊢
    rw [sizeAll, ← Nat.add_assoc]
    rcases List.mem_append.mp hi with hi | hi
    · obtain ⟨t, hoperands, hlt, htarget⟩ := targets p h.1 hi hjump
      exact ⟨t, hoperands, hlt, htarget.append (target_start _ ps)⟩
    · obtain ⟨t, hoperands, hlt, htarget⟩ := targetsAll ps h.2 hi hjump
      exact ⟨t, hoperands, hlt, htarget.mono fun j hj => List.mem_append_right _ hj⟩
termination_by structural ps

end

/-! ### Instructions of plain pieces -/

mutual

/-- What holds of all instructions of a piece but its jumps holds of the others where they stand. -/
theorem each_instructions {P : Opcode → List Nat → Prop} {start : Nat} (p : Piece)
    (h : p.Each P) {i : Instruction} (hi : i ∈ p.instructions start) :
    i.op.isJump ∨ P i.op i.operands := by
  cases p with
  | op o ns =>
    obtain rfl := List.mem_singleton.mp hi
    exact .inr h
  | branch yes no =>
    rw [instructions] at hi
    simp only [List.mem_cons, List.mem_append] at hi
    rcases hi with rfl | hi | rfl | hi
    · exact .inl rfl
    · exact eachAll_instructions yes h.1 hi
    · exact .inl rfl
    · exact eachAll_instructions no h.2 hi
  | skip no =>
    rw [instructions] at hi
    rcases List.mem_cons.mp hi with rfl | hi
    · exact .inl rfl
    · exact eachAll_instructions no h hi
termination_by structural p

theorem eachAll_instructions {P : Opcode → List Nat → Prop} {start : Nat} (ps : List Piece)
    (h : EachAll P ps) {i : Instruction} (hi : i ∈ instructionsAll start ps) :
    i.op.isJump ∨ P i.op i.operands := by
  cases ps with
  | nil => cases hi
  | cons p ps =>
    rcases List.mem_append.mp hi with hi | hi
    · exact each_instructions p h.1 hi
    · exact eachAll_instructions ps h.2 hi
termination_by structural ps

end

end Piece

theorem Opcode.inRange_of_isJump {op : Opcode} (h : op.isJump) (constants globals : Nat)
    (locals? : Option Nat) (ns : List Nat) : op.InRange constants globals locals? ns := by
  cases op <;> trivial

/-! ### Streams -/

variable {v : Visible} {code : Code} {ps : List Piece}

/-- A stream of plain pieces is well formed when it ends in an instruction that is no jump. -/
theorem Code.wellFormed_of_concat {op : Opcode} {ns : List Nat} {counts : List (Opcode × Nat)}
    (hcode : code.toList = bytesAll 0 (ps ++ [.op op ns])) (hfits : FitsAll 0 (ps ++ [.op op ns]))
    (hplain : EachAll v.Plain (ps ++ [.op op ns]))
    (hcounts : Piece.counts 0 (ps ++ [.op op ns]) = counts)
    (hfinal : v.locals?.isSome → op = .returnValue ∨ op = .ret) :
    ∃ is, code.WellFormed v.literals.size v.globals.size (v.locals?.map Numbering.size) counts
      is := by
  have hsize : code.size = sizeAll ps + (Piece.op op ns).size := by
    rw [← Array.length_toList, hcode, length_bytesAll _ hfits]
    simp [sizeAll]
  have hinstructions : instructionsAll 0 (ps ++ [.op op ns]) =
      instructionsAll 0 ps ++ [⟨sizeAll ps, op, ns⟩] := by
    simp [instructionsAll, Piece.instructions]
  have hnojump := EachAll.mono (fun _ _ h => h.1) _ hplain
  refine ⟨_, Code.instructions_of_layout hcode hfits, fun i hi hjump => ?_, fun i hi => ?_, hcounts,
    fun h => ⟨⟨sizeAll ps, op, ns⟩, by rw [hinstructions, List.getLast?_concat], hfinal ?_⟩⟩
  · rw [hinstructions] at hi ⊢
    rcases List.mem_append.mp hi with hi | hi
    · obtain ⟨t, hoperands, hlt, htarget⟩ := targetsAll ps (eachAll_append.mp hnojump).1 hi hjump
      -- the end of the pieces before is the place of the last instruction
      obtain rfl | ⟨hlt', j, hj, rfl⟩ := htarget
      · refine ⟨⟨sizeAll ps, op, ns⟩, by simp, by simpa using hoperands, by simpa using hlt, ?_⟩
        simp only [hsize, size]
        omega
      · exact ⟨j, by simp [hj], hoperands, hlt, by omega⟩
    · obtain rfl := List.mem_singleton.mp hi
      exact absurd hjump (by simp [show op.isJump = false from (eachAll_append.mp hnojump).2.1])
  · rcases eachAll_instructions _ hplain hi with hjump | hplain
    · exact Opcode.inRange_of_isJump hjump ..
    · exact hplain.2
  · simpa using h

/-- Commands end in an instruction that is no branch. -/
theorem Command.pieces_eq_concat (c : Command) : ∃ ps op ns, c.pieces = ps ++ [.op op ns] := by
  cases c with
  | store s t =>
    cases hs : s.storage with
    | global => exact ⟨t.pieces, _, _, by rw [pieces, Symbol.storePiece, hs]⟩
    | frame => exact ⟨t.pieces, _, _, by rw [pieces, Symbol.storePiece, hs]⟩
  | ret t => exact ⟨t.pieces, _, _, rfl⟩
  | drop t => exact ⟨t.pieces, _, _, rfl⟩

theorem Command.piecesAll_eq_concat {cs : List Command} (h : cs ≠ []) :
    ∃ ps op ns, piecesAll cs = ps ++ [.op op ns] := by
  obtain ⟨ps, op, ns, hpieces⟩ := (cs.getLast h).pieces_eq_concat
  refine ⟨piecesAll cs.dropLast ++ ps, op, ns, ?_⟩
  rw [List.append_assoc, ← hpieces]
  conv_lhs => rw [← List.dropLast_concat_getLast h]
  rw [piecesAll_append, piecesAll, piecesAll, List.flatMap_singleton]

/-- The stream of a top level is well formed. -/
theorem Command.wellFormed_piecesAll {cs : List Command} {counts : List (Opcode × Nat)}
    (hv : v.Dense) (hlocals : v.locals? = none) (hcs : Command.ScopedAll v cs)
    (hcode : code.toList = bytesAll 0 (piecesAll cs)) (hfits : FitsAll 0 (piecesAll cs))
    (hcounts : Piece.counts 0 (piecesAll cs) = counts) :
    ∃ is, code.WellFormed v.literals.size v.globals.size none counts is := by
  have hplain := plain_piecesAll hv cs hcs
  by_cases h : cs = []
  · subst h
    exact ⟨[], Code.instructions_of_layout hcode hfits, by simp, by simp, hcounts, by simp⟩
  · obtain ⟨ps, op, ns, hpieces⟩ := piecesAll_eq_concat h
    rw [hpieces] at hcode hfits hcounts hplain
    have := Code.wellFormed_of_concat hcode hfits hplain hcounts (by simp [hlocals])
    rwa [hlocals] at this

/-- The body of a function ends in a return. -/
theorem Command.bodyPieces_eq_concat (cs : List Command) :
    ∃ ps op ns, bodyPieces cs = ps ++ [.op op ns] ∧ (op = .returnValue ∨ op = .ret) := by
  rcases bodyPieces_cases cs with ⟨ds, t, -, hpieces⟩ | ⟨ds, t, -, hpieces⟩ | hpieces
  · exact ⟨piecesAll ds ++ t.pieces, _, _, by rw [hpieces, List.append_assoc], .inl rfl⟩
  · exact ⟨piecesAll ds ++ t.pieces, _, _, by rw [hpieces, List.append_assoc], .inl rfl⟩
  · exact ⟨piecesAll cs, _, _, hpieces, .inr rfl⟩

/-- The stream of a function is well formed. -/
theorem Command.wellFormed_bodyPieces {cs : List Command} {names : Numbering String}
    {counts : List (Opcode × Nat)} (hv : v.Dense) (hlocals : v.locals? = some names)
    (hcs : Command.ScopedAll v cs) (hfits : FitsAll 0 (bodyPieces cs))
    (hcounts : Piece.counts 0 (bodyPieces cs) = counts) :
    ∃ is, (bodyCode cs).WellFormed v.literals.size v.globals.size (some names.size) counts is := by
  have hplain := plain_bodyPieces hv cs hcs
  have hcode : (bodyCode cs).toList = bytesAll 0 (bodyPieces cs) := rfl
  obtain ⟨ps, op, ns, hpieces, hop⟩ := bodyPieces_eq_concat cs
  rw [hpieces] at hcode hfits hcounts hplain
  have := Code.wellFormed_of_concat hcode hfits hplain hcounts fun _ => hop
  rwa [hlocals] at this

/-! ### Programs -/

/-- The function that a value is, if it is one. -/
def Value.function? : Value → Option Function
  | function f => some f
  | _ => none

/-- The function is the given literal, compiled, and its stream is well formed. -/
def Function.WellFormed (constants globals : Nat) (f : Function) (literal : List Ident × Block) :
    Prop :=
  f.parameters = literal.1.length ∧
    ∃ is, f.code.WellFormed constants globals (some f.locals) literal.2.counts is

/-- What holds of each function literal with the function that it is compiled to holds of all of them,
one after the other. -/
theorem Literal.forall₂_functions {R : Function → List Ident × Block → Prop} {ls : List Literal}
    {fs : List (List Ident × Block)} (hof : List.Forall₂ Literal.Of (ls.filter Literal.isFunction) fs)
    (hR : ∀ i name names body f, Literal.function name (f.1.map Ident.name) names body ∈ ls →
      (∀ start, Piece.counts start (Command.bodyPieces body) = f.2.counts) →
      Resolves f names body → R ⟨i, Command.bodyCode body, names.size, f.1.length, name⟩ f) (n : Nat) :
    List.Forall₂ R ((ls.mapIdx fun i => Literal.value (i + n)).filterMap Value.function?) fs := by
  induction ls generalizing n fs with
  | nil =>
    obtain rfl : fs = [] := by simpa using hof
    exact .nil
  | cons l ls ih =>
    -- the literals behind the first one are numbered from the next number on
    have hrest : ∀ fs, List.Forall₂ Literal.Of (ls.filter Literal.isFunction) fs →
        List.Forall₂ R
          ((ls.mapIdx fun i => Literal.value (i + (n + 1))).filterMap Value.function?) fs := by
      intro fs hof
      apply ih hof
      intro i name names body f hmem
      exact hR i name names body f (List.mem_cons_of_mem _ hmem)
    have hidx : ∀ ls : List Literal, ls.mapIdx (fun i => Literal.value (i + 1 + n)) =
        ls.mapIdx fun i => Literal.value (i + (n + 1)) := by
      intro ls
      congr 1
      funext i
      rw [Nat.add_assoc, Nat.add_comm 1]
    rw [List.mapIdx_cons, hidx]
    cases l with
    | integer m => exact hrest fs hof
    | string s => exact hrest fs hof
    | function name parameters names body =>
      obtain ⟨f, fs, hf, hof', rfl⟩ := List.forall₂_cons_left_iff.mp hof
      refine .cons ?_ (hrest fs hof')
      obtain ⟨name', names', body', heq, hcounts, hresolves⟩ := hf
      injection heq with hname hparameters hnames hbody
      subst hname hparameters hnames hbody
      have hfunction := hR (0 + n) name names body f List.mem_cons_self hcounts hresolves
      rwa [← List.length_map (f := Ident.name)] at hfunction

/-- The functions among constants are well formed when their literals are well scoped. -/
theorem Literal.forall₂_wellFormed {globals : Numbering String} {literals : Array Literal}
    (hglobals : globals.Dense) {ls : List Literal} {fs : List (List Ident × Block)}
    (hof : List.Forall₂ Literal.Of (ls.filter Literal.isFunction) fs)
    (hscoped : ∀ l ∈ ls, l.Scoped globals literals)
    (hfits : ∀ name parameters names body, Literal.function name parameters names body ∈ ls →
      FitsAll 0 (Command.bodyPieces body)) (n : Nat) :
    List.Forall₂ (Function.WellFormed literals.size globals.size)
      ((ls.mapIdx fun i => Literal.value (i + n)).filterMap Value.function?) fs := by
  refine Literal.forall₂_functions hof (fun i name names body f hmem hcounts _ => ⟨rfl, ?_⟩) n
  obtain ⟨hdense, hbody, -⟩ := hscoped _ hmem
  exact Command.wellFormed_bodyPieces (.function hglobals hdense _) rfl hbody (hfits _ _ _ _ hmem)
    (hcounts 0)

/-- The program `p`, compiled to `c` when there were the constants `k` before. -/
structure Compilation.WellFormed (c : Compilation) (k : Array Value) (p : Program) : Prop where
  /-- The stream of the top level. -/
  main : ∃ is, c.chunk.code.WellFormed c.chunk.constants.size c.scope.size none
    (Stmt.countsAll p.statements) is
  /-- The new constants stand behind the old ones, and the functions among them are the function
  literals of the program, in the order of their ends. -/
  functions : ∃ added, c.chunk.constants.toList = k.toList ++ added ∧
    List.Forall₂ (Function.WellFormed c.chunk.constants.size c.scope.size)
      (added.filterMap Value.function?) p.functions

/-- **Compiled programs are well formed**, whatever was compiled before them. -/
theorem Carried.wellFormed {s : Scope} {k : Array Value} {p : Program} {c : Compilation}
    (h : Carried s k) (hadd : (Compilation.resume s k).add p = (.ok (), c)) : c.WellFormed k p := by
  obtain ⟨w, cs, w', hw, hcs, hc⟩ := h.compiled hadd
  obtain ⟨hcounts, ls, hls, hof⟩ := Stmt.resolveAll_inventory p.statements hcs
  have hconstants : c.chunk.constants.size = w'.literals.size := hc.follows.size_constants
  have hglobals : w'.scope.globals.size = c.scope.size := by
    rw [hc.follows.scope, Scope.size, Scope.names_of_outermost hc.outermost]
  have hdense := hc.walk.sound.dense.globals
  constructor
  all_goals rw [hconstants, ← hglobals]
  · exact Command.wellFormed_piecesAll hc.dense hc.outermost hc.commands hc.code hc.fits (hcounts 0)
  · refine ⟨ls.mapIdx fun i => Literal.value (i + w.literals.size), ?_, ?_⟩
    · have hk : k = Literal.values w.literals := hw.constants
      simp [hk, Compilation.chunk, hc.follows.constants, Literal.values, hls, List.mapIdx_append]
    · have hnew : ∀ l ∈ ls, ∃ i : Nat, w'.literals[i]? = some l := by
        intro l hl
        have hmem : l ∈ w'.literals := by simp [← Array.mem_toList_iff, hls, hl]
        obtain ⟨i, hi, rfl⟩ := Array.mem_iff_getElem.mp hmem
        exact ⟨i, Array.getElem?_eq_getElem hi⟩
      refine Literal.forall₂_wellFormed hdense hof (fun l hl => ?_)
        (fun name parameters names body hl => ?_) w.literals.size
      · obtain ⟨i, hi⟩ := hnew l hl
        exact hc.walk.sound.literals i l hi
      · obtain ⟨i, hi⟩ := hnew _ hl
        exact hc.follows.fits i _ _ _ _ hi

/-- The program `if (true) { [1, fn() { return "a"; }] }`. -/
def Program.arrayInBranch : Program where
  statements := [.expr default (.cond default (.boolean default true) (.mk default
    [.expr default (.array default [.integer default 1,
      .function default [] (.mk default [.ret default (.string default "a")])])]) none)]

/-- Its code has jumps, constants of three kinds, and a function that ends in its own return. -/
theorem Program.wellFormed_arrayInBranch :
    ∃ c, (Compilation.resume .empty #[]).add arrayInBranch = (.ok (), c) ∧
      c.WellFormed #[] arrayInBranch := by
  have h : (Compilation.resume .empty #[]).add arrayInBranch =
      (.ok (), ((Compilation.resume .empty #[]).add arrayInBranch).2) := Prod.ext (by decide) rfl
  exact ⟨_, h, Carried.wellFormed .nothing h⟩

end Monkey
