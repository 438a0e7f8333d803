import Mathlib.Data.List.Nodup
import Monkey.Proofs.Marks
import Monkey.Proofs.Safety
import Monkey.Proofs.WellFormed

/-!
# The bindings that a run carries out

`Machine.bindings` follows a run and collects the names that it binds outside functions, with their
values: an entry is made when the instruction that is done for the mark of a `let` statement has been
carried out. `Machine.run_bindings` says that these are all that a run does to the globals: the global
slot of a name holds the value that the run bound to the name last, and what it held before when there
is none.

The invariant is that the frames go through listings (`Frame.Within`). The instructions left to the
frame of the top level are always an end of the listing of the whole program, so each of them has its
place in the table of marks; the listings of functions store no global.
-/

namespace Monkey

/-! ### Offsets in a listing -/

namespace Piece

/-- The offsets of the instructions go up, and they are those from `start` up to `stop`. -/
def Ascending (start stop : Nat) (is : List Instruction) : Prop :=
  is.Pairwise (·.offset < ·.offset) ∧ ∀ i ∈ is, start ≤ i.offset ∧ i.offset < stop

theorem Ascending.append {start middle stop : Nat} {is js : List Instruction}
    (h : Ascending start middle is) (h' : Ascending middle stop js) (hstart : start ≤ middle)
    (hstop : middle ≤ stop) : Ascending start stop (is ++ js) := by
  refine ⟨List.pairwise_append.mpr ⟨h.1, h'.1, fun i hi j hj => ?_⟩, fun i hi => ?_⟩
  · exact lt_of_lt_of_le (h.2 i hi).2 (h'.2 j hj).1
  · rcases List.mem_append.mp hi with hi | hi
    · exact ⟨(h.2 i hi).1, lt_of_lt_of_le (h.2 i hi).2 hstop⟩
    · exact ⟨hstart.trans (h'.2 i hi).1, (h'.2 i hi).2⟩

/-- One instruction before others. -/
theorem Ascending.cons {start middle stop : Nat} {op : Opcode} {ns : List Nat}
    {is : List Instruction} (h : Ascending middle stop is) (hstart : start < middle)
    (hstop : middle ≤ stop) : Ascending start stop (⟨start, op, ns⟩ :: is) := by
  have hone : Ascending start middle [⟨start, op, ns⟩] :=
    ⟨List.pairwise_singleton _ _, List.forall_mem_singleton.mpr ⟨Nat.le_refl _, hstart⟩⟩
  exact hone.append h (Nat.le_of_lt hstart) hstop

mutual

theorem ascending_instructions (start : Nat) (p : Piece) :
    Ascending start (start + p.size) (p.instructions start) := by
  cases p with
  | op o ns =>
    have hnil : Ascending (start + (op o ns).size) (start + (op o ns).size) [] :=
      ⟨.nil, List.forall_mem_nil _⟩
    exact hnil.cons (by simp only [size]; omega) (Nat.le_refl _)
  | branch yes no =>
    have hstop : start + (branch yes no).size = start + 3 + sizeAll yes + 3 + sizeAll no := by
      simp only [size]
      omega
    rw [instructions, hstop]
    have hno := ascending_instructionsAll (start + 3 + sizeAll yes + 3) no
    have hyes := ascending_instructionsAll (start + 3) yes
    exact (hyes.append (hno.cons (by omega) (by omega)) (by omega) (by omega)).cons (by omega)
      (by omega)
  | skip no =>
    have hstop : start + (skip no).size = start + 3 + sizeAll no := by
      simp only [size]
      omega
    rw [instructions, hstop]
    exact (ascending_instructionsAll (start + 3) no).cons (by omega) (by omega)
termination_by structural p

/-- The offsets of a listing go up. -/
theorem ascending_instructionsAll (start : Nat) (ps : List Piece) :
    Ascending start (start + sizeAll ps) (instructionsAll start ps) := by
  cases ps with
  | nil => exact ⟨.nil, List.forall_mem_nil _⟩
  | cons p ps =>
    rw [sizeAll, ← Nat.add_assoc]
    exact (ascending_instructions start p).append (ascending_instructionsAll _ ps) (by omega)
      (by omega)
termination_by structural ps

end

/-- No two instructions of a listing stand at the same offset. -/
theorem nodup_offsets (start : Nat) (ps : List Piece) :
    ((instructionsAll start ps).map Instruction.offset).Nodup := by
  rw [List.Nodup, List.pairwise_map]
  exact (ascending_instructionsAll start ps).1.imp fun h => Nat.ne_of_lt h

end Piece

open Piece

/-! ### Tables of marks -/

/-- The mark that the instruction at each offset is done for: the marked instructions of the code are
those of the marks of the program, in this order. -/
def Program.marksOf (p : Program) (code : Code) : List (Nat × Mark) :=
  match code.instructions with
  | .ok is => ((is.filter Instruction.isMarked).map Instruction.offset).zip p.marks
  | .error _ => []

/-- An entry of a table that pairs instructions. -/
theorem exists_lookup_zip {R : Mark → Instruction → Prop} {marks : List Mark}
    {is : List Instruction} (h : List.Forall₂ R marks is)
    (hnodup : (is.map Instruction.offset).Nodup) {i : Instruction} (hi : i ∈ is) :
    ∃ mark, ((is.map Instruction.offset).zip marks).lookup i.offset = some mark ∧ R mark i := by
  induction h with
  | nil => cases hi
  | @cons mark j marks is hmark _ ih =>
    obtain ⟨hfresh, hnodup⟩ := List.nodup_cons.mp hnodup
    rw [List.map_cons, List.zip_cons_cons, List.lookup_cons]
    rcases List.mem_cons.mp hi with rfl | hi
    · exact ⟨mark, by simp, hmark⟩
    · -- the first entry is that of another instruction, which stands elsewhere
      have hne : i.offset ≠ j.offset := fun heq => hfresh (heq ▸ List.mem_map_of_mem hi)
      rw [beq_false_of_ne hne]
      exact ih hnodup hi

/-- The table tells the instructions of a listing that are done for a mark from those that are not. -/
structure Tells (names : Numbering String) (table : List (Nat × Mark)) (is : List Instruction) :
    Prop where
  marked : ∀ i ∈ is, i.isMarked → ∃ mark, table.lookup i.offset = some mark ∧ mark.DoneBy names i
  unmarked : ∀ i ∈ is, i.isMarked = false → table.lookup i.offset = none

/-- **The table of a compiled program is right.** -/
theorem Compiled.tells {c : Compilation} {w w' : Walk} {p : Program} {cs : List Command}
    (hc : Compiled c w w' cs) (hcs : Stmt.resolveAll p.statements w = some (cs, w'))
    (hw : w.scope.locals? = none) :
    Tells w'.scope.globals (p.marksOf c.chunk.code)
      (instructionsAll 0 (Command.piecesAll cs)) := by
  have hmarked : List.Forall₂ (Mark.DoneBy w'.scope.globals) p.marks
      ((instructionsAll 0 (Command.piecesAll cs)).filter Instruction.isMarked) :=
    (Stmt.markedAll p.statements hw hcs).done 0
  have hnodup := nodup_offsets 0 (Command.piecesAll cs)
  rw [Program.marksOf, Compilation.chunk, Code.instructions_of_layout hc.code hc.fits]
  refine ⟨fun i hi hmark => ?_, fun i hi hmark => ?_⟩
  · have hsub := List.Sublist.map Instruction.offset
      (List.filter_sublist (p := Instruction.isMarked)
        (l := instructionsAll 0 (Command.piecesAll cs)))
    exact exists_lookup_zip hmarked (hnodup.sublist hsub) (List.mem_filter.mpr ⟨hi, hmark⟩)
  · rw [List.lookup_eq_none_iff]
    rintro ⟨offset, mark⟩ hmem
    obtain ⟨j, hj, rfl⟩ := List.mem_map.mp (List.of_mem_zip hmem).1
    obtain ⟨hj, hjmark⟩ := List.mem_filter.mp hj
    rw [bne_iff_ne]
    intro heq
    -- the instruction would be marked itself
    rw [List.inj_on_of_nodup_map hnodup hi hj heq, hjmark] at hmark
    cases hmark

/-! ### Frames in a listing -/

/-- From its place on, the frame has the rest of the listing before it. -/
def Frame.Within (f : Frame) (is : List Instruction) : Prop :=
  ∃ ps, Code.Remaining f.function.code f.ip ps ∧ EachAll (fun op _ => op.isJump = false) ps ∧
    instructionsAll f.ip ps <:+ is

/-- How a frame goes on in a listing: not at all, or with an instruction of the listing. -/
theorem Frame.Within.cases {f : Frame} {is : List Instruction} (h : f.Within is) :
    f.function.code.size ≤ f.ip ∨ ∃ i ∈ is, ∃ next, i.offset = f.ip ∧
      f.ip < f.function.code.size ∧
      Code.fetch f.function.code f.ip = .ok (i.op, i.operands.headD 0, next) ∧
      (i.op ≠ .jump → Frame.Within { f with ip := next } is) ∧
      (i.op = .jump ∨ i.op = .jumpNotTruthy →
        Frame.Within { f with ip := i.operands.headD 0 } is) := by
  obtain ⟨ps, hps, hplain, hsuffix⟩ := h
  -- the frame stands at the first of the pieces left, or behind the last one
  cases ps with
  | nil => exact .inl hps.size_le
  | cons p ps =>
    right
    cases p with
    | op o ns =>
      obtain ⟨hlt, hfetch, hrest⟩ := hps.op
      have hrest' : instructionsAll (f.ip + (Piece.op o ns).size) ps <:+ is :=
        (List.suffix_cons _ _).trans hsuffix
      refine ⟨⟨f.ip, o, ns⟩, hsuffix.subset List.mem_cons_self, _, rfl, hlt, hfetch,
        fun _ => ⟨ps, hrest, hplain.2, hrest'⟩, ?_⟩
      have hjump : o.isJump = false := hplain.1
      rintro (rfl | rfl)
      · cases hjump
      · cases hjump
    | branch yes no =>
      obtain ⟨hlt, hfetch, hyes, hno⟩ := hps.branch
      rw [instructionsAll, instructions, List.cons_append, List.append_assoc, List.cons_append]
        at hsuffix
      have hbranch := (List.suffix_cons _ _).trans hsuffix
      have hend : f.ip + (Piece.branch yes no).size =
          f.ip + 3 + sizeAll yes + 3 + sizeAll no := by
        simp only [Piece.size]
        omega
      rw [hend] at hsuffix hbranch
      refine ⟨_, hsuffix.subset List.mem_cons_self, _, rfl, hlt, hfetch,
        fun _ => ⟨_, hyes, eachAll_append.mpr ⟨hplain.1.1, hplain.1.2, hplain.2⟩, ?_⟩,
        fun _ => ⟨_, hno, eachAll_append.mpr ⟨hplain.1.2, hplain.2⟩, ?_⟩⟩
      · -- the left side ends with the jump over the right one
        have hskip : f.ip + 3 + sizeAll yes + (Piece.skip no).size =
            f.ip + 3 + sizeAll yes + 3 + sizeAll no := by
          simp only [Piece.size]
          omega
        rw [instructionsAll_append, instructionsAll, instructions, hskip]
        exact hbranch
      · rw [instructionsAll_append]
        exact (List.suffix_cons _ _).trans ((List.suffix_append _ _).trans hbranch)
    | skip no =>
      obtain ⟨hlt, hfetch, hend, -⟩ := hps.skip
      have hsize : f.ip + (Piece.skip no).size = f.ip + 3 + sizeAll no := by
        simp only [Piece.size]
        omega
      rw [instructionsAll, instructions, List.cons_append, hsize] at hsuffix
      refine ⟨_, hsuffix.subset List.mem_cons_self, _, rfl, hlt, hfetch,
        fun hne => absurd rfl hne, fun _ => ⟨ps, hend, hplain.2, ?_⟩⟩
      exact (List.suffix_append _ _).trans ((List.suffix_cons _ _).trans hsuffix)

/-- Calls of the function go through a listing that stores no global. -/
def Function.Listed (f : Function) : Prop :=
  ∃ is, (∀ base, Frame.Within ⟨f, 0, base⟩ is) ∧ ∀ i ∈ is, i.op ≠ .setGlobal

/-- The frame of the top level goes through the listing, and those above it through listings that
store no global. -/
inductive Listed (is : List Instruction) : Array Frame → Prop
  | done : Listed is #[]
  | main {f : Frame} : f.Within is → Listed is (Array.push #[] f)
  | call {fs : Array Frame} {f : Frame} {js : List Instruction} : Listed is fs → fs.size ≠ 0 →
      f.Within js → (∀ i ∈ js, i.op ≠ .setGlobal) → Listed is (fs.push f)

/-- What frames look like from the one on top. -/
theorem Listed.cases {is : List Instruction} {frames : Array Frame} (h : Listed is frames) :
    frames = #[] ∨ ∃ fs f js, frames = fs.push f ∧ f.Within js ∧ Listed is fs ∧
      (∀ ip, Frame.Within { f with ip } js → Listed is (fs.push { f with ip })) ∧
      (fs = #[] ∧ js = is ∨ fs.size ≠ 0 ∧ ∀ i ∈ js, i.op ≠ .setGlobal) := by
  cases h with
  | done => exact .inl rfl
  | @main f hf => exact .inr ⟨#[], f, is, rfl, hf, .done, fun ip h => .main h, .inl ⟨rfl, rfl⟩⟩
  | @call fs f js hfs hsize hf hjs =>
    exact .inr ⟨fs, f, js, rfl, hf, hfs, fun ip h => .call hfs hsize h hjs, .inr ⟨hsize, hjs⟩⟩

/-- A function among the constants of a compiled program stores no global. -/
theorem Compilation.Follows.function_listed {c : Compilation} {w : Walk} (hc : c.Follows w)
    (hw : w.Sound) {f : Function} (hf : Value.function f ∈ c.constants) : f.Listed := by
  obtain ⟨i, name, parameters, names, body, hi, rfl⟩ := hc.function_mem hf
  obtain ⟨hnames, hbody, -⟩ := hw.literals i _ hi
  have hplain := Command.plain_bodyPieces
    (.function hw.dense.globals hnames w.literals) body hbody
  refine ⟨instructionsAll 0 (Command.bodyPieces body), fun base => ⟨_,
    ⟨rfl, hc.fits i _ _ _ _ hi⟩, EachAll.mono (fun _ _ h => h.1) _ hplain, List.suffix_rfl⟩,
    fun j hj hop => ?_⟩
  rcases eachAll_instructions _ hplain hj with hjump | ⟨-, hrange⟩
  · rw [hop] at hjump
    cases hjump
  · rw [hop] at hrange
    cases hrange.1

/-- The top level of a compiled program goes through its listing. -/
theorem Compiled.within {c : Compilation} {w w' : Walk} {cs : List Command}
    (hc : Compiled c w w' cs) : (Machine.mainFrame c.chunk.code).Within
      (instructionsAll 0 (Command.piecesAll cs)) := by
  have hplain := Command.plain_piecesAll hc.dense cs hc.commands
  exact ⟨_, ⟨hc.code, hc.fits⟩, EachAll.mono (fun _ _ h => h.1) _ hplain, List.suffix_rfl⟩

/-! ### Globals change by bindings only -/

namespace Executing

variable {m : Machine} {globals : Array (Option Value)}

/-- The step leaves the globals as given, whether it succeeds or not. -/
def LeavesGlobals (globals : Array (Option Value)) (x : Executing Unit) (m : Machine) : Prop :=
  x.Ensures m (fun _ m' => m'.globals = globals) (fun _ m' => m'.globals = globals)

theorem leavesGlobals_push {v : Value} (h : m.globals = globals) :
    LeavesGlobals globals (push v) m := by
  rw [LeavesGlobals, ensures_push]
  split <;> exact h

theorem leavesGlobals_give {r : Except Fault Value} (h : m.globals = globals) :
    LeavesGlobals globals (give r) m := by
  cases r with
  | ok v => exact leavesGlobals_push h
  | error e => exact h

theorem leavesGlobals_binary {f : Value → Value → Except Fault Value} (h : m.globals = globals) :
    LeavesGlobals globals (binary f) m := by
  rw [LeavesGlobals, ensures_binary]
  split
  · exact h
  · exact leavesGlobals_give h

theorem leavesGlobals_unary {f : Value → Except Fault Value} (h : m.globals = globals) :
    LeavesGlobals globals (unary f) m := by
  rw [LeavesGlobals, ensures_unary]
  split
  · exact h
  · exact leavesGlobals_give h

theorem leavesGlobals_pop {x : Value → Executing Unit} (h : m.globals = globals)
    (hx : ∀ v, LeavesGlobals globals (x v) { m with sp := m.sp - 1 }) :
    LeavesGlobals globals (pop >>= x) m := by
  rw [LeavesGlobals, ensures_bind, ensures_pop]
  split
  · exact h
  · exact hx _

theorem leavesGlobals_leave {fs : Array Frame} {f : Frame} {v : Value}
    (h : m.globals = globals) (hframes : m.frames = fs.push f) :
    LeavesGlobals globals (leave v) m := by
  rw [LeavesGlobals, ensures_leave hframes]
  split
  · exact h
  · exact leavesGlobals_push h

theorem leavesGlobals_call (count : Nat) : LeavesGlobals m.globals (call count) m := by
  rw [LeavesGlobals, ensures_call]
  split
  · rfl
  · split
    · split
      · rfl
      · split
        · rfl
        · split <;> rfl
    · rfl

theorem leavesGlobals_execute {fs : Array Frame} {f : Frame} (hframes : m.frames = fs.push f)
    (op : Opcode) (operand : Nat) (hop : op ≠ .setGlobal) :
    LeavesGlobals m.globals (execute op operand) m := by
  cases op with
  | setGlobal => exact absurd rfl hop
  | constant =>
    simp only [LeavesGlobals, execute, ensures_bind, ensures_get]
    split
    · exact leavesGlobals_push rfl
    · rfl
  | pop => exact leavesGlobals_pop rfl fun _ => rfl
  | add | sub | mul | div | greaterThan | index => exact leavesGlobals_binary rfl
  | true | false | null => exact leavesGlobals_push rfl
  | equal | notEqual =>
    rw [execute]
    exact leavesGlobals_binary rfl
  | minus => exact leavesGlobals_unary rfl
  | bang =>
    rw [execute]
    exact leavesGlobals_unary rfl
  | jumpNotTruthy =>
    refine leavesGlobals_pop rfl fun v => ?_
    cases v.isTruthy <;> rfl
  | jump => rfl
  | getGlobal =>
    simp only [LeavesGlobals, execute, ensures_bind, ensures_get]
    split
    · exact leavesGlobals_push rfl
    · rfl
    · rfl
  | array =>
    rw [LeavesGlobals, execute, ensures_bind, ensures_popMany]
    split
    · rfl
    · exact leavesGlobals_push rfl
  | hash =>
    rw [LeavesGlobals, execute, ensures_bind, ensures_popMany]
    split
    · rfl
    · exact leavesGlobals_give rfl
  | call => exact leavesGlobals_call operand
  | returnValue => exact leavesGlobals_pop rfl fun _ => leavesGlobals_leave rfl hframes
  | ret => exact leavesGlobals_leave rfl hframes
  | getLocal =>
    rw [LeavesGlobals, execute, ensures_bind, ensures_localSlot]
    split
    · exact leavesGlobals_push rfl
    · rfl
  | setLocal =>
    refine leavesGlobals_pop rfl fun v => ?_
    rw [LeavesGlobals, ensures_bind, ensures_localSlot]
    split <;> rfl

/-- **Only one instruction changes the globals**: it stores the top of the stack in a slot that there
is. -/
theorem execute_globals {fs : Array Frame} {f : Frame} (hframes : m.frames = fs.push f)
    (op : Opcode) (operand : Nat) :
    (execute op operand).Ensures m
      (fun _ m' => if op = .setGlobal then operand < m.globals.size ∧ m'.globals =
          m.globals.setIfInBounds operand (some (m.stack.getD (m.sp - 1) .null))
        else m'.globals = m.globals)
      (fun _ m' => m'.globals = m.globals) := by
  by_cases hop : op = .setGlobal
  · subst hop
    rw [execute, ensures_bind, ensures_pop]
    split
    · rfl
    · rw [ensures_bind, ensures_get]
      split
      · next h => exact ⟨h, rfl⟩
      · rfl
  · refine (leavesGlobals_execute hframes op operand hop).mono (fun _ m' h => ?_) fun _ _ h => h
    rw [if_neg hop]
    exact h

end Executing

namespace Machine

/-- What the instruction that the frame on top stands at does to the globals. -/
theorem steps_fetched_globals {m : Machine} {fs : Array Frame} {f : Frame} {op : Opcode}
    {operand next : Nat} (hframes : m.frames = fs.push f) (hlt : f.ip < f.function.code.size)
    (hfetch : Code.fetch f.function.code f.ip = .ok (op, operand, next)) :
    m.Steps (fun m' => if op = .setGlobal then operand < m.globals.size ∧ m'.globals =
          m.globals.setIfInBounds operand (some (m.stack.getD (m.sp - 1) .null))
        else m'.globals = m.globals)
      (fun _ m' => m'.globals = m.globals) (fun _ => False) := by
  rw [steps_instruction hframes hlt hfetch]
  exact Executing.execute_globals rfl op operand

/-- The end of the code does nothing to the globals. -/
theorem steps_ended_globals {m : Machine} {fs : Array Frame} {f : Frame}
    (hframes : m.frames = fs.push f) (hge : f.function.code.size ≤ f.ip) :
    m.Steps (fun m' => m'.globals = m.globals) (fun _ m' => m'.globals = m.globals)
      (fun m' => m'.globals = m.globals) := by
  rw [steps_end hframes hge]
  split
  · rfl
  · exact Executing.leavesGlobals_leave rfl hframes

end Machine

/-! ### Bindings of a run -/

namespace Machine

/-- The binding that the next instruction carries out, when it is done for one of the table. The value
is the top of the stack. -/
def binding? (table : List (Nat × Mark)) (m : Machine) : Option (String × Value) :=
  match m.frames.toList with
  | [f] =>
    match table.lookup f.ip with
    | some (.bound x) => some (x, m.stack.getD (m.sp - 1) .null)
    | _ => none
  | _ => none

/-- The bindings that a run of at most the given number of steps carries out, the latest last. -/
def bindings (table : List (Nat × Mark)) : Nat → Machine → List (String × Value)
  | 0, _ => []
  | steps + 1, m =>
    match m.step with
    | (none, m') => (m.binding? table).toList ++ bindings table steps m'
    | (some _, _) => []

/-- The globals after a binding, if there is one. -/
def Binds (names : Numbering String) (globals globals' : Array (Option Value)) :
    Option (String × Value) → Prop
  | none => globals' = globals
  | some (x, v) => ∃ slot, names.find? x = some slot ∧ slot < globals.size ∧
      globals' = globals.setIfInBounds slot (some v)

/-- The machine goes through the listing of a program and the listings of the functions among the
constants `k`. -/
structure Lists (k : Array Value) (is : List Instruction) (m : Machine) : Prop where
  holds : m.Holds fun f => Value.function f ∈ k
  frames : Listed is m.frames

variable {k : Array Value} {is : List Instruction} {names : Numbering String}
  {table : List (Nat × Mark)} {m : Machine}

/-- No binding is carried out while a call is running. -/
theorem binding?_call {fs : Array Frame} {f : Frame} (hframes : m.frames = fs.push f)
    (hfs : fs.size ≠ 0) : m.binding? table = none := by
  unfold binding?
  rw [hframes, Array.toList_push]
  have hne : fs.toList ≠ [] := by
    intro h
    rw [← Array.length_toList, h] at hfs
    exact hfs rfl
  obtain ⟨g, gs, hgs⟩ := List.exists_cons_of_ne_nil hne
  rw [hgs]
  cases gs <;> rfl

theorem binding?_main {f : Frame} (hframes : m.frames = Array.push #[] f) :
    m.binding? table = match table.lookup f.ip with
      | some (.bound x) => some (x, m.stack.getD (m.sp - 1) .null)
      | _ => none := by
  unfold binding?
  rw [hframes]
  rfl

/-- What an instruction of the top level does to the globals is the binding that the table tells. -/
theorem binds_of_tells (htable : Tells names table is) {f : Frame} {m' : Machine}
    (hframes : m.frames = Array.push #[] f) {i : Instruction} (hi : i ∈ is) (hoffset : i.offset = f.ip)
    (hglobals : if i.op = .setGlobal then i.operands.headD 0 < m.globals.size ∧ m'.globals =
        m.globals.setIfInBounds (i.operands.headD 0) (some (m.stack.getD (m.sp - 1) .null))
      else m'.globals = m.globals) :
    Binds names m.globals m'.globals (m.binding? table) := by
  rw [binding?_main hframes, ← hoffset]
  -- only the marked instructions set a global slot, and the table has a line for each
  cases hmark : i.isMarked with
  | false =>
    have hne : i.op ≠ .setGlobal := by
      intro hop
      simp [Instruction.isMarked, hop] at hmark
    rw [htable.unmarked i hi hmark]
    rwa [if_neg hne] at hglobals
  | true =>
    obtain ⟨mark, hlookup, hdone⟩ := htable.marked i hi hmark
    rw [hlookup]
    cases mark with
    | returned =>
      have hne : i.op ≠ .setGlobal := by
        intro hop
        cases hop.symm.trans hdone
      rwa [if_neg hne] at hglobals
    | bound x =>
      obtain ⟨slot, hslot, hstore, hoperands⟩ := hdone
      rw [if_pos hstore, hoperands] at hglobals
      exact ⟨slot, hslot, hglobals⟩

/-- **One step** goes on through the listings, and what it does to the globals is the binding that it
carries out. -/
theorem Lists.steps (hm : m.Lists k is) (hk : ∀ f, Value.function f ∈ k → f.Listed)
    (htable : Tells names table is) :
    m.Steps (fun m' => m'.Lists k is ∧ Binds names m.globals m'.globals (m.binding? table))
      (fun _ m' => m'.globals = m.globals) (fun m' => m'.globals = m.globals) := by
  rcases hm.frames.cases with hframes | ⟨fs, f, js, hframes, hf, hbelow, hon, hkind⟩
  · rw [steps_done hframes]
  rcases hf.cases with hge | ⟨i, hi, next, hoffset, hlt, hfetch, hnext, hjump⟩
  · -- the frame has come to the end of its code, and the one below goes on
    refine ((steps_ended hm.holds hframes hge).and (steps_ended_globals hframes hge)).mono ?_
      (fun _ _ h => h.2) (fun _ h => h.2)
    rintro m' ⟨⟨hm', -, hsize, hframes', -⟩, hglobals⟩
    refine ⟨⟨hm', hframes' ▸ hbelow⟩, ?_⟩
    rw [binding?_call hframes hsize]
    exact hglobals
  refine ((steps_fetched hm.holds hframes hlt hfetch).and
    (steps_fetched_globals hframes hlt hfetch)).mono ?_ (fun _ _ h => h.2) (fun _ h => h.1.elim)
  rintro m' ⟨⟨hm', -, hmoves⟩, hglobals⟩
  refine ⟨⟨hm', ?_⟩, ?_⟩
  · cases hmoves with
    | next hne hframes' _ _ => exact hframes' ▸ hon _ (hnext hne)
    | jump hor hframes' _ _ => exact hframes' ▸ hon _ (hjump hor)
    | call g hcall hg _ _ hframes' _ =>
      obtain ⟨gs, hwithin, hgs⟩ := hk g hg
      rw [hframes']
      exact .call (hon _ (hnext (by rw [hcall]; decide))) (by simp) (hwithin _) hgs
    | leave _ hframes' _ => exact hframes' ▸ hbelow
  · obtain ⟨rfl, rfl⟩ | ⟨hsize, hjs⟩ := hkind
    · exact binds_of_tells htable hframes hi hoffset hglobals
    · -- during a call nothing is bound, and functions store no global
      rw [binding?_call hframes hsize]
      rwa [if_neg (hjs i hi)] at hglobals

end Machine

/-! ### What globals hold -/

/-- The value that is bound to a name last. -/
def lastBound (bindings : List (String × Value)) (x : String) : Option Value :=
  bindings.reverse.lookup x

@[simp] theorem lastBound_nil (x : String) : lastBound [] x = none := rfl

theorem lastBound_append (bs bs' : List (String × Value)) (x : String) :
    lastBound (bs ++ bs') x = (lastBound bs' x).or (lastBound bs x) := by
  rw [lastBound, List.reverse_append, List.lookup_append]
  rfl

/-- The value that the globals hold for a name. -/
def valueOf (names : Numbering String) (globals : Array (Option Value)) (x : String) :
    Option Value :=
  (names.find? x).bind fun slot => globals.getD slot none

namespace Machine

variable {k : Array Value} {is : List Instruction} {names : Numbering String}
  {table : List (Nat × Mark)} {m : Machine} {globals globals' : Array (Option Value)}
  {bound? : Option (String × Value)}

theorem Binds.valueOf (h : Binds names globals globals' bound?) (hnames : names.Dense)
    (x : String) : valueOf names globals' x =
      (lastBound bound?.toList x).or (Monkey.valueOf names globals x) := by
  cases bound? with
  | none =>
    rw [show globals' = globals from h]
    rfl
  | some b =>
    obtain ⟨y, v⟩ := b
    obtain ⟨slot, hslot, hlt, rfl⟩ := h
    unfold Monkey.valueOf lastBound
    rw [Option.toList_some, List.reverse_singleton, List.lookup_cons]
    by_cases hxy : x = y
    · subst hxy
      simp [hslot, hlt]
    · -- another name has another slot
      have hother : ∀ slot', names.find? x = some slot' → slot ≠ slot' :=
        fun slot' hslot' heq => hxy (hnames.injective hslot' (heq ▸ hslot))
      rw [beq_false_of_ne hxy]
      cases hx : names.find? x with
      | none => rfl
      | some slot' => simp [Array.getElem?_setIfInBounds, hother slot' hx]

theorem Binds.unnamed (h : Binds names globals globals' bound?) {i : Nat}
    (hi : ∀ x, names.find? x ≠ some i) : globals'.getD i none = globals.getD i none := by
  cases bound? with
  | none => rw [show globals' = globals from h]
  | some b =>
    obtain ⟨slot, hslot, -, rfl⟩ := h
    have hne : slot ≠ i := fun heq => hi _ (heq ▸ hslot)
    simp [hne]

/-- **What a run does to the globals** is to carry out its bindings: every name has the value that it
was bound to last, and slots that have no name are left alone. -/
theorem Lists.run_bindings (hm : m.Lists k is) (hk : ∀ f, Value.function f ∈ k → f.Listed)
    (htable : Tells names table is) (hnames : names.Dense) (n : Nat) :
    (∀ x, Monkey.valueOf names (m.run n).2.globals x =
        (lastBound (m.bindings table n) x).or (Monkey.valueOf names m.globals x)) ∧
      ∀ i, (∀ x, names.find? x ≠ some i) →
        (m.run n).2.globals.getD i none = m.globals.getD i none := by
  induction n generalizing m with
  | zero => exact ⟨fun x => rfl, fun i _ => rfl⟩
  | succ n ih =>
    have hstep := hm.steps hk htable
    unfold Steps at hstep
    rw [run, bindings]
    split at hstep
    · -- the binding of the step counts unless the rest of the run binds the name again
      next m' heq =>
      obtain ⟨hm', hbinds⟩ := hstep
      obtain ⟨hvalues, hunnamed⟩ := ih hm'
      rw [heq]
      refine ⟨fun x => ?_, fun i hi => ?_⟩
      · rw [lastBound_append, Option.or_assoc, ← hbinds.valueOf hnames]
        exact hvalues x
      · rw [← hbinds.unnamed hi]
        exact hunnamed i hi
    · next heq =>
      rw [heq]
      exact ⟨fun x => by rw [hstep]; rfl, fun i _ => by rw [hstep]⟩
    · next heq =>
      rw [heq]
      exact ⟨fun x => by rw [hstep]; rfl, fun i _ => by rw [hstep]⟩
    · exact hstep.elim

end Machine

end Monkey
