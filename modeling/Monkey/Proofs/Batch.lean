import Monkey.Proofs.Lockstep
import Monkey.Proofs.Marks
import Monkey.Proofs.Parsed
import Monkey.Proofs.Sessions
import Monkey.Proofs.WellFormed
import Monkey.Proofs.Writing

/-!
# A session is one long program

Texts that are evaluated one after the other do the same as one program that consists of their
statements (`Session.eval_batch`): the session ends up with the names and the constants of that program,
its globals are those that a run of the program leaves, and the value of the last text is the value that
the run has popped last. Texts that are rejected leave no trace.

The program is compiled in one walk, which goes through the same points as the walks of the texts, so
its code is that of the texts, one behind the other. Its machine keeps in lockstep with the machine of
each text and is then in front of the code of the next one.
-/

namespace Monkey

open Piece

/-! ### Straight code -/

namespace Piece

mutual

theorem Each.of_instructions {P Q : Opcode → List Nat → Prop} {start : Nat} (p : Piece)
    (hp : p.Each P)
    (h : ∀ i ∈ p.instructions start, P i.op i.operands → Q i.op i.operands) : p.Each Q := by
  cases p with
  | op o ns => exact h _ (List.mem_singleton.mpr rfl) hp
  | branch yes no =>
    have hyes : ∀ i ∈ instructionsAll (start + 3) yes, P i.op i.operands → Q i.op i.operands :=
      fun i hi => h i (by simp [instructions, hi])
    have hno : ∀ i ∈ instructionsAll (start + 3 + sizeAll yes + 3) no,
        P i.op i.operands → Q i.op i.operands :=
      fun i hi => h i (by simp [instructions, hi])
    exact ⟨EachAll.of_instructions yes hp.1 hyes, EachAll.of_instructions no hp.2 hno⟩
  | skip no => exact EachAll.of_instructions no hp fun i hi => h i (List.mem_cons_of_mem _ hi)
termination_by structural p

/-- What holds of the instructions of pieces where they stand holds of the pieces. -/
theorem EachAll.of_instructions {P Q : Opcode → List Nat → Prop} {start : Nat} (ps : List Piece)
    (hps : EachAll P ps)
    (h : ∀ i ∈ instructionsAll start ps, P i.op i.operands → Q i.op i.operands) :
    EachAll Q ps := by
  cases ps with
  | nil => trivial
  | cons p ps =>
    exact ⟨Each.of_instructions p hps.1 fun i hi => h i (List.mem_append_left _ hi),
      EachAll.of_instructions ps hps.2 fun i hi => h i (List.mem_append_right _ hi)⟩
termination_by structural ps

end

end Piece

/-- Without a return outside functions, the code of the top level is straight. -/
theorem Walk.Marked.straight {w w' : Walk} {marks : List Mark} {ps : List Piece}
    (h : w.Marked w' marks ps) (hmarks : Mark.returned ∉ marks)
    (hplain : EachAll (fun op _ => op.isJump = false) ps) : EachAll Opcode.Straight ps := by
  have hreturn : ∀ i ∈ instructionsAll 0 ps, i.op ≠ .returnValue ∧ i.op ≠ .ret := by
    intro i hi
    rw [← not_or]
    intro hop
    have hmarked : i.isMarked = true := by
      unfold Instruction.isMarked
      rcases hop with hop | hop <;> rw [hop]
    obtain ⟨mark, hmark, hdone⟩ :=
      exists_of_forall₂ (h.done 0).flip (List.mem_filter.mpr ⟨hi, hmarked⟩)
    cases mark with
    | returned => exact hmarks hmark
    | bound x =>
      obtain ⟨slot, -, hstore, -⟩ := hdone
      rw [hstore] at hop
      rcases hop with hop | hop <;> cases hop
  exact EachAll.of_instructions ps hplain fun i hi hjump => ⟨hjump, hreturn i hi⟩

/-- Straight code of commands ends by taking a value off the stack. -/
theorem Command.drops_piecesAll {cs : List Command} (hcs : cs ≠ [])
    (h : EachAll Opcode.Straight (piecesAll cs)) : Drops (piecesAll cs) := by
  obtain ⟨ds, c, rfl⟩ := (List.eq_nil_or_concat cs).resolve_left hcs
  rw [List.concat_eq_append, piecesAll_append, eachAll_append] at h
  rw [List.concat_eq_append, piecesAll_append]
  refine Drops.append ?_ _
  have hc := h.2
  rw [piecesAll, List.flatMap_singleton] at hc ⊢
  cases c with
  | store s t =>
    rw [pieces, Symbol.storePiece]
    cases s.storage with
    | global => exact ⟨t.pieces, .setGlobal, _, rfl, .inr (.inl rfl)⟩
    | frame => exact ⟨t.pieces, .setLocal, _, rfl, .inr (.inr rfl)⟩
  | ret t =>
    rw [pieces, eachAll_append, eachAll_op] at hc
    exact absurd rfl hc.2.2.1
  | drop t => exact ⟨t.pieces, .pop, [], rfl, .inl rfl⟩

/-! ### Programs of texts -/

/-- A program that was parsed can be written. -/
theorem Program.writable_of_parse {source : String} {p : Program} (h : parse source = .ok p) :
    p.Writable := by
  have hspelled := spelled_read source
  rw [parse_eq_ok_iff.mp h] at hspelled
  exact Stmt.SpelledAll.writable p.statements (hspelled rfl)

/-- Statements that can be written are no blocks, so that each of them is a command. -/
theorem Stmt.resolve_ne_nil {s : Stmt} (hs : s.Writable) {w w' : Walk} {cs : List Command}
    (h : s.resolve w = some (cs, w')) : cs ≠ [] := by
  have hstore : ∀ {x : String} {value : Resolving Term},
      (do let s ← Resolving.define x; return [Command.store s (← value)]) w = some (cs, w') →
        cs ≠ [] := by
    intro x value h
    obtain ⟨symbol, w₁, -, t, -, rfl⟩ := Resolving.store_eq_some.mp h
    exact List.cons_ne_nil _ _
  cases s with
  | bind _ id value =>
    cases value with
    | function _ parameters body => exact hstore h
    | _ => exact hstore h
  | ret _ value =>
    obtain ⟨t, -, rfl⟩ := Stmt.resolve_ret.mp h
    exact List.cons_ne_nil _ _
  | expr _ value =>
    obtain ⟨t, -, rfl⟩ := Stmt.resolve_expr.mp h
    exact List.cons_ne_nil _ _
  | block body => exact hs.elim

/-- A program with a statement has a command. -/
theorem Program.Writable.commands_ne_nil {p : Program} (hp : p.Writable) (hne : p.statements ≠ [])
    {w w' : Walk} {cs : List Command} (h : Stmt.resolveAll p.statements w = some (cs, w')) :
    cs ≠ [] := by
  obtain ⟨ss⟩ := p
  cases ss with
  | nil => exact absurd rfl hne
  | cons s ss =>
    obtain ⟨cs₁, w₁, h₁, cs₂, -, rfl⟩ := Stmt.resolveAll_cons.mp h
    exact List.append_ne_nil_of_left_ne_nil (Stmt.resolve_ne_nil hp.1 h₁) cs₂

/-! ### Texts one after the other -/

namespace Session

/-- The session after texts. -/
def evalAll (s : Session) (sources : List String) : Session :=
  sources.foldl (fun s source => (s.eval source).2) s

/-- The results of texts. -/
def results (s : Session) : List String → List (Except Error Value)
  | [] => []
  | source :: sources => (s.eval source).1 :: (s.eval source).2.results sources

/-- The programs of the texts that pass parsing and compilation, with their results. -/
def accepted (s : Session) : List String → List (Program × Except Error Value)
  | [] => []
  | source :: sources =>
    match s.accepts? source with
    | none => (s.eval source).2.accepted sources
    | some (p, _) => (p, (s.eval source).1) :: (s.eval source).2.accepted sources

/-- The program that consists of the statements of the accepted texts. -/
def batch (s : Session) (sources : List String) : Program :=
  ⟨(s.accepted sources).flatMap fun a => a.1.statements⟩

/-- The session has come to the point `w` of a walk, and a machine with its globals stands before the
pieces `qs`, with the constants `k` and an empty stack. -/
structure Keeps (s : Session) (w : Walk) (k : Array Value) (qs : List Piece) (m : Machine) :
    Prop where
  sound : s.Sound
  follows : (Compilation.resume s.scope s.constants).Follows w
  walk : w.Sound
  outermost : w.scope.locals? = none
  waits : m.Waits s.limits k qs
  sp : m.sp = 0
  globals : ∀ chunk, (Machine.start chunk s.globals s.limits).globals = m.globals

variable {s : Session} {w w₁ w' : Walk} {k : Array Value} {qs : List Piece} {m : Machine}
  {cs : List Command} {source : String} {p : Program} {c : Compilation}

/-- The machine of an accepted text starts in lockstep with one that stands before its code. -/
theorem Keeps.together (h : s.Keeps w k (Command.piecesAll cs ++ qs) m) (hc : Compiled c w w₁ cs)
    (hk : ∀ (i : Nat) v, c.constants[i]? = some v → k[i]? = some v)
    (hstraight : EachAll Opcode.Straight (Command.piecesAll cs)) :
    Machine.Together s.limits k qs (cs ≠ []) (Machine.start c.chunk s.globals s.limits) m := by
  obtain ⟨f, hframes, hcode⟩ := h.waits.code
  refine ⟨Machine.mainFrame c.chunk.code, f, #[], 0, Command.piecesAll cs, ?_, ⟨hc.code, hc.fits⟩,
    hcode, rfl, hstraight, fun hne => .inr (Command.drops_piecesAll hne hstraight)⟩
  exact {
    constants := hk
    constants' := h.waits.constants
    globals := (h.globals c.chunk).symm
    globalsSize := by
      simp only [Machine.start, Array.size_append, Array.size_replicate]
      omega
    maxFrames := rfl
    maxFrames' := h.waits.maxFrames
    size := Array.size_replicate
    size' := h.waits.size
    frames := rfl
    frames' := by rw [hframes, Array.append_empty]
    sp := h.sp
    sp_le := Nat.le_refl _
    stack := fun i hi => absurd hi (Nat.not_lt_zero i)
    locals := fun f hf => absurd hf (Array.not_mem_empty f) }

/-- **An accepted text** brings the machine behind its code. -/
theorem Keeps.accept (h : s.Keeps w k (Command.piecesAll cs ++ qs) m)
    (haccepts : s.accepts? source = some (p, c))
    (hcs : Stmt.resolveAll p.statements w = some (cs, w₁))
    (hk : ∀ (i : Nat) v, (Literal.values w₁.literals)[i]? = some v → k[i]? = some v)
    (hreturned : Mark.returned ∉ p.marks) {v : Value} (hresult : (s.eval source).1 = .ok v) :
    ∃ m', m.Reaches m' ∧ (s.eval source).2.Keeps w₁ k qs m' ∧
      (p.statements ≠ [] → m'.lastPopped = v) := by
  obtain ⟨hparse, hadd⟩ := accepts?_eq_some.mp haccepts
  have hsound := h.sound.eval source
  obtain ⟨cs', w₁', hcs', hc⟩ := h.follows.compiled h.walk h.outermost hadd
  obtain ⟨rfl, rfl⟩ := Prod.mk.inj (Option.some.inj (hcs'.symm.trans hcs))
  have hmarked := Stmt.markedAll p.statements h.outermost hcs
  have hplain := Command.plain_piecesAll hc.dense cs' hc.commands
  have hstraight := hmarked.straight hreturned (EachAll.mono (fun _ _ h => h.1) _ hplain)
  have htogether := h.together hc (hc.follows.constants ▸ hk) hstraight
  -- the run of the text has finished, with an empty stack
  have hsafe := (h.sound.carried.run_safe hadd s.limits h.sound.globals s.steps).2
  rw [eval_of_accepted haccepts] at hresult hsound ⊢
  generalize hr : (Machine.start c.chunk s.globals s.limits).run s.steps = r
    at hresult hsafe hsound ⊢
  obtain ⟨outcome, m₁⟩ := r
  obtain ⟨rfl, rfl⟩ : outcome = .finished ∧ m₁.lastPopped = v := by
    cases outcome with
    | finished => exact ⟨rfl, Except.ok.inj hresult⟩
    | failed e => cases hresult
    | unfinished => cases hresult
  obtain ⟨m', hreaches, harrives⟩ := htogether.run (congrArg Prod.fst hr)
  rw [hr] at harrives
  have hsp : m₁.sp = 0 := hsafe
  refine ⟨m', hreaches, ⟨hsound, ⟨hc.follows.scope, hc.follows.constants, hc.follows.fits⟩,
    hc.walk.sound, hc.outermost, harrives.waits, harrives.sp.trans hsp, fun chunk => ?_⟩,
    fun hne => ?_⟩
  · -- there is no slot to be added
    have hsize : s.limits.globalsSize - m₁.globals.size = 0 :=
      Nat.sub_eq_zero_of_le harrives.globalsSize
    simp only [Machine.start, hsize, harrives.globals]
    simp
  · have hp := Program.writable_of_parse hparse
    exact harrives.lastPopped (hp.commands_ne_nil hne hcs) hsp

/-- A result that the comparison allows: a value, or a rejection. -/
def Regular (r : Except Error Value) : Prop :=
  (∃ v, r = .ok v) ∨ (∃ ds, r = .error (.parse ds)) ∨ ∃ e, r = .error (.compile e)

instance : DecidablePred Regular := fun r =>
  match r with
  | .ok v => .isTrue (.inl ⟨v, rfl⟩)
  | .error (.parse ds) => .isTrue (.inr (.inl ⟨ds, rfl⟩))
  | .error (.compile e) => .isTrue (.inr (.inr ⟨e, rfl⟩))
  | .error (.runtime _) => .isFalse (by simp [Regular])
  | .error (.limits _) => .isFalse (by simp [Regular])
  | .error (.unreadable _) => .isFalse (by simp [Regular])
  | .error .unfinished => .isFalse (by simp [Regular])

/-- A text that is accepted is not rejected after all. -/
theorem ok_of_accepted (haccepts : s.accepts? source = some (p, c))
    (hregular : Regular (s.eval source).1) : ∃ v, (s.eval source).1 = .ok v := by
  rw [eval_of_accepted haccepts] at hregular ⊢
  generalize (Machine.start c.chunk s.globals s.limits).run s.steps = r at *
  obtain ⟨outcome, m⟩ := r
  cases outcome with
  | finished => exact ⟨_, rfl⟩
  | failed e => rcases hregular with ⟨v, h⟩ | ⟨ds, h⟩ | ⟨e, h⟩ <;> cases h
  | unfinished => rcases hregular with ⟨v, h⟩ | ⟨ds, h⟩ | ⟨e, h⟩ <;> cases h

/-- **Texts one after the other** bring the machine behind the code of all of them. -/
theorem Keeps.evalAll (h : s.Keeps w (Literal.values w'.literals) (Command.piecesAll cs) m)
    (sources : List String)
    (hcs : Stmt.resolveAll (s.batch sources).statements w = some (cs, w'))
    (hresults : ∀ r ∈ s.results sources, Regular r)
    (hreturned : ∀ a ∈ s.accepted sources, Mark.returned ∉ a.1.marks) :
    ∃ m', m.Reaches m' ∧ (s.evalAll sources).Keeps w' (Literal.values w'.literals) [] m' ∧
      (s.accepted sources = [] → m' = m) ∧
      ∀ p r, (s.accepted sources).getLast? = some (p, r) → p.statements ≠ [] →
        r = .ok m'.lastPopped := by
  induction sources generalizing s w cs m with
  | nil =>
    obtain ⟨rfl, rfl⟩ := Stmt.resolveAll_nil.mp hcs
    exact ⟨m, .refl m, h, fun _ => rfl, fun _ _ hq => by cases hq⟩
  | cons source sources ih =>
    have hregular := hresults _ List.mem_cons_self
    have hresults' : ∀ r ∈ (s.eval source).2.results sources, Regular r :=
      fun r hr => hresults r (List.mem_cons_of_mem _ hr)
    rw [batch, accepted] at hcs
    rw [accepted] at hreturned ⊢
    cases haccepts : s.accepts? source with
    | none =>
      -- a rejected text leaves the session alone, and it is no part of the program
      rw [haccepts] at hcs hreturned
      rw [(eval_of_rejected haccepts).1] at hcs hreturned hresults'
      have hrest := ih h hcs hresults' hreturned
      rw [Session.evalAll, List.foldl_cons, (eval_of_rejected haccepts).1]
      exact hrest
    | some pc =>
      obtain ⟨p, c⟩ := pc
      rw [haccepts] at hcs hreturned
      obtain ⟨v, hv⟩ := ok_of_accepted haccepts hregular
      rw [List.flatMap_cons] at hcs
      obtain ⟨cs₁, w₁, hcs₁, cs₂, hcs₂, rfl⟩ := Stmt.resolveAll_append.mp hcs
      rw [Command.piecesAll_append] at h
      -- the constants go on from those of the text
      have hto : w₁.To w' := by
        obtain ⟨hto₁, -⟩ := Stmt.resolveAll_spec p.statements h.walk hcs₁
        exact (Stmt.resolveAll_spec _ hto₁.sound hcs₂).1
      obtain ⟨m₁, hreaches₁, hkeeps₁, hpopped₁⟩ := h.accept haccepts hcs₁
        (fun _ _ hi => hto.values hi) (hreturned _ List.mem_cons_self) hv
      obtain ⟨m', hreaches', hkeeps', hsame, hlast⟩ := ih hkeeps₁ hcs₂ hresults'
        fun a ha => hreturned a (List.mem_cons_of_mem _ ha)
      refine ⟨m', hreaches₁.trans hreaches', hkeeps', fun hnil => absurd hnil (List.cons_ne_nil _ _),
        fun q r hq hne => ?_⟩
      cases hrest : (s.eval source).2.accepted sources with
      | nil =>
        -- the text is the last one that is accepted
        rw [hrest] at hq
        obtain ⟨rfl, rfl⟩ := Prod.mk.inj (Option.some.inj hq)
        rw [hsame hrest, hpopped₁ hne, hv]
      | cons a as =>
        rw [hrest, List.getLast?_cons_cons] at hq
        exact hlast q r (by rw [hrest, hq]) hne

/-- **A session is one long program.** When every text has a value or is rejected, and no text that is
accepted returns outside functions, a program that consists of the statements of the accepted texts
does the same, if it compiles: names and constants are the same, its run finishes with the same values
in the global slots, and it has popped the value of the last text, unless that has no statement. -/
theorem eval_batch (limits : Limits) (steps : Nat) (sources : List String)
    (hresults : ∀ r ∈ (start limits steps).results sources, Regular r)
    (hreturned : ∀ a ∈ (start limits steps).accepted sources, Mark.returned ∉ a.1.marks)
    {c : Compilation} (hc : Compilation.empty.add ((start limits steps).batch sources) = (.ok (), c)) :
    let s := (start limits steps).evalAll sources
    s.scope = c.scope ∧ s.constants = c.constants ∧
    ∃ n m, (Machine.start c.chunk #[] limits).run n = (.finished, m) ∧
      (∀ i, s.globals.getD i none = m.globals.getD i none) ∧
      ∀ p r, ((start limits steps).accepted sources).getLast? = some (p, r) → p.statements ≠ [] →
        r = .ok m.lastPopped := by
  have hfollows : (Compilation.resume Scope.empty #[]).Follows .nothing := Compilation.follows_nothing
  obtain ⟨cs, w', hcs, hcompiled⟩ := hfollows.compiled Walk.sound_nothing rfl hc
  have hkeeps : (start limits steps).Keeps .nothing (Literal.values w'.literals)
      (Command.piecesAll cs) (Machine.start c.chunk #[] limits) :=
    { sound := sound_start limits steps
      follows := hfollows
      walk := Walk.sound_nothing
      outermost := rfl
      waits := ⟨⟨Machine.mainFrame c.chunk.code, rfl, hcompiled.code, hcompiled.fits⟩,
        hcompiled.follows.constants, rfl, Array.size_replicate⟩
      sp := rfl
      globals := fun chunk => rfl }
  obtain ⟨m, ⟨n, hn⟩, hkeeps', -, hlast⟩ := hkeeps.evalAll sources hcs hresults hreturned
  refine ⟨hkeeps'.follows.scope.trans hcompiled.follows.scope.symm,
    hkeeps'.follows.constants.trans hcompiled.follows.constants.symm, n + 1,
    { m with frames := #[] }, ?_, fun i => ?_, hlast⟩
  · -- no code is left
    rw [hn, hkeeps'.waits.run_one]
  · rw [← Machine.getD_globals_start c.chunk, hkeeps'.globals]

/-- Two texts on a small machine, and one between them that is no program. -/
theorem eval_batch_aroundRejected :
    let sources := ["1 + 2;", "]", "if (3 > 4) { 5 } else { 6 }"]
    (∀ r ∈ (start ⟨4, 4, 2⟩ 100).results sources, Regular r) ∧
    (∀ a ∈ (start ⟨4, 4, 2⟩ 100).accepted sources, Mark.returned ∉ a.1.marks) ∧
    ∃ c n m, Compilation.empty.add ((start ⟨4, 4, 2⟩ 100).batch sources) = (.ok (), c) ∧
      (Machine.start c.chunk #[] ⟨4, 4, 2⟩).run n = (.finished, m) ∧
      ((start ⟨4, 4, 2⟩ 100).accepted sources).getLast?.map Prod.snd = some (.ok m.lastPopped) := by
  intro sources
  have hresults : ∀ r ∈ (start ⟨4, 4, 2⟩ 100).results sources, Regular r := by decide +kernel
  have hreturned : ∀ a ∈ (start ⟨4, 4, 2⟩ 100).accepted sources, Mark.returned ∉ a.1.marks := by
    decide +kernel
  have hlast : ((start ⟨4, 4, 2⟩ 100).accepted sources).getLast?.any
      fun a => !a.1.statements.isEmpty := by decide +kernel
  have hcompiles : (Compilation.empty.add ((start ⟨4, 4, 2⟩ 100).batch sources)).1 = .ok () := by
    decide +kernel
  have hadd : Compilation.empty.add ((start ⟨4, 4, 2⟩ 100).batch sources) =
      (.ok (), (Compilation.empty.add ((start ⟨4, 4, 2⟩ 100).batch sources)).2) :=
    Prod.ext hcompiles rfl
  obtain ⟨-, -, n, m, hrun, -, hvalue⟩ :=
    eval_batch ⟨4, 4, 2⟩ 100 sources hresults hreturned hadd
  refine ⟨hresults, hreturned, _, n, m, hadd, hrun, ?_⟩
  cases ha : ((start ⟨4, 4, 2⟩ 100).accepted sources).getLast? with
  | none => simp [ha] at hlast
  | some a =>
    have hne : a.1.statements ≠ [] := by
      rw [ha] at hlast
      simpa using hlast
    rw [Option.map_some, hvalue a.1 a.2 ha hne]

end Session

end Monkey
