import Monkey.Proofs.Calls
import Monkey.Proofs.Compiled
import Monkey.Proofs.Inventory

/-!
# The compiler is correct

A program that compiles also resolves, and the machine that runs its code gives what the evaluation
of the resolved program gives (`Program.compile_correct`): the same value, or the same fault, and the
same values of the global names. The machine may also run out of room, for its stack and its frames
are bounded.

The theorem is about programs that bind no parameter of a function twice. A parameter that is bound
twice has one slot for two arguments, and all parameters behind it have the slots of others.
-/

namespace Monkey

open Executing

/-! ### Parameters -/

/-- The parameters of the functions among the literals are those of the function literals. -/
theorem Literal.nodup_of_forall₂ {ls : List Literal} {fs : List (List Ident × Block)}
    (h : List.Forall₂ Literal.Of ls fs) (hfs : ∀ f ∈ fs, (f.1.map Ident.name).Nodup)
    {name : Option String} {parameters : List String} {names : Numbering String}
    {body : List Command} (hmem : .function name parameters names body ∈ ls) :
    parameters.Nodup := by
  induction h with
  | nil => cases hmem
  | @cons l f ls fs hof _ ih =>
    rcases List.mem_cons.mp hmem with rfl | hmem
    · obtain ⟨name', names', body', heq, -⟩ := hof
      injection heq with _ hparameters
      rw [hparameters]
      exact hfs f List.mem_cons_self
    · exact ih (fun f hf => hfs f (List.mem_cons_of_mem _ hf)) hmem

theorem Walk.Adds.nodup {w : Walk} {fs : List (List Ident × Block)} (h : Walk.nothing.Adds w fs)
    (hfs : ∀ f ∈ fs, (f.1.map Ident.name).Nodup) {i : Nat} {name : Option String}
    {parameters : List String} {names : Numbering String} {body : List Command}
    (hi : w.literals[i]? = some (.function name parameters names body)) : parameters.Nodup := by
  obtain ⟨ls, hls, hof⟩ := h
  have hmem : .function name parameters names body ∈ ls := by
    have hmem := Array.mem_of_getElem? hi
    rw [← Array.mem_toList_iff, hls] at hmem
    simpa [Walk.nothing] using hmem
  exact Literal.nodup_of_forall₂ hof hfs (List.mem_filter.mpr ⟨hmem, rfl⟩)

/-! ### The top level -/

/-- The top level of a program, as a call. -/
def Activation.main (code : Code) : Activation where
  frames := #[]
  function := (Machine.mainFrame code).function
  locals? := none
  below := []

/-- The setting of a program that is resolved by a walk to `w`. -/
def Walk.setting (w : Walk) (limits : Limits) : Setting where
  literals := w.literals
  names := w.scope.globals
  maxFrames := limits.maxFrames

variable {S : Setting} {c : Compilation} {w w' : Walk} {cs : List Command} {limits : Limits}
  {env : Env} {m : Machine} {v : Value}

theorem Compiled.sound (h : Compiled c w w' cs) (limits : Limits)
    (hnodup : ∀ (i : Nat) name parameters names body,
      w'.literals[i]? = some (.function name parameters names body) → parameters.Nodup) :
    (w'.setting limits).Sound where
  dense := h.walk.sound.dense.globals
  inScope := h.walk.sound.literals
  fits := h.follows.fits
  distinct := hnodup

theorem Compiled.sound_main (h : Compiled c w w' cs) (code : Code) :
    (Activation.main code).Sound (w'.setting limits) where
  dense := .outermost h.walk.sound.dense.globals rfl
  locals _ hns := nomatch hns

/-- A machine that is about to run a compiled program. -/
theorem Compiled.popped_start (h : Compiled c w w' cs) (hlimits : limits.globalsSize = 65536)
    (locals : String → Value) :
    Popped (w'.setting limits) (.main c.chunk.code) [] (Command.piecesAll cs ++ []) .null
      ⟨fun _ => none, locals⟩ (Machine.start c.chunk #[] limits) := by
  have hconstants : c.constants = Literal.values w'.literals := h.follows.constants
  have hready : (Machine.start c.chunk #[] limits).Ready (w'.setting limits) := by
    refine ⟨.start ?_ (by simp) limits, hconstants, ?_, rfl⟩
    · refine h.follows.constants_all fun f hf => ?_
      rw [hconstants] at hf
      exact hf
    · simp [Machine.start, hlimits]
  refine ⟨⟨⟨hready, fun x i _ => ?_⟩, ⟨0, rfl, ?_⟩, [], ⟨Nat.zero_le _, rfl⟩, rfl, ?_⟩, ?_⟩
  · have hget : (Machine.start c.chunk #[] limits).globals.getD i none = none := by
      simp only [Machine.start, Array.getD_eq_getD_getElem?, Array.empty_append,
        Array.getElem?_replicate]
      split <;> rfl
    rw [hget]
    rfl
  · rw [List.append_nil]
    exact ⟨h.code, h.fits⟩
  · intro ns hns
    cases hns
  · have hlast : (Machine.start c.chunk #[] limits).lastPopped = .null := by
      simp only [Machine.start, Machine.lastPopped, Array.getD_eq_getD_getElem?,
        Array.getElem?_replicate]
      split <;> rfl
    rw [hlast]
    rfl

/-- The machine ends the program with its next step, and the value `v` is the one that was popped
last. -/
def Finishes (S : Setting) (v : Value) (env : Env) (m : Machine) : Prop :=
  ∃ m', m.step = (some .finished, m') ∧ m'.lastPopped.erase = v ∧ m'.Represents S env

/-- The code of the program is at its end. -/
theorem Popped.finishes {code : Code} (h : Popped S (.main code) [] [] v env m) :
    Finishes S v env m := by
  obtain ⟨ip, hframes, hcode⟩ := h.running.code
  refine Machine.Steps.finished ((Machine.steps_end hframes hcode.size_le).mpr ?_)
  rw [if_pos (show (Activation.main code).frames.size = 0 from rfl)]
  exact ⟨h.lastPopped, h.running.represents.move _ _⟩

/-- The program was left by a `return`. -/
theorem Returned.finishes {code : Code} (h : Returned S (.main code) v env m) :
    Finishes S v env m := by
  refine Machine.Steps.finished ((Machine.steps_done h.frames).mpr ?_)
  have hlast := h.stack
  rw [if_pos (show (Activation.main code).frames.size = 0 from rfl)] at hlast
  exact ⟨hlast, h.represents⟩

/-! ### Programs -/

theorem Program.resolve_of_resolveAll {p : Program}
    (h : Stmt.resolveAll p.statements .nothing = some (cs, w)) :
    p.resolve = some ⟨cs, w.literals, w.scope.names⟩ := by
  have hrun : (Stmt.resolveAll p.statements).run ⟨.empty, #[]⟩ = some (cs, w) := h
  rw [resolve, hrun]

/-- The way in which a run stopped is the one that the evaluation with the given result says, and the
global names have the same values. Nothing is said of a run that was not given enough steps. -/
def Outcome.Agrees (names : Numbering String) (result : Except Stop Value × Env) (o : Outcome)
    (m : Machine) : Prop :=
  match o with
  | unfinished => True
  | finished => result.1 = .ok m.lastPopped.erase ∧ result.2.Agrees names m.globals
  | failed e =>
    e.fault.isOverflow ∨ result.1 = .error (.fault e.fault) ∧ result.2.Agrees names m.globals

/-- The machine does what the evaluation of the whole program says. -/
theorem Compiled.simulates (h : Compiled c w w' cs) (hS : (w'.setting limits).Sound)
    (hlimits : limits.globalsSize = 65536) {depth : Nat} (hdepth : limits.maxFrames ≤ depth + 1) :
    Simulates (w'.setting limits) (Machine.start c.chunk #[] limits)
      (Resolved.eval ⟨cs, w'.literals, w'.scope.names⟩ depth)
      (Finishes (w'.setting limits)) (fun _ _ _ => False) := by
  have hcalls : Calls (w'.setting limits) (Evaluating.call w'.literals depth) 0 :=
    hS.calls depth (by
      change limits.maxFrames ≤ 0 + 1 + depth
      omega)
  have hcommands := h.commands
  rw [Walk.visible, h.outermost] at hcommands
  have hbody := Command.simulatesLast (h.sound_main c.chunk.code) hcalls cs hcommands
    (h.popped_start hlimits fun _ => .null)
  have hends := hbody.onward
    (fun v env m (hpopped : Popped _ _ _ _ v env m) => Simulates.ok hpopped.finishes)
    (fun v env m hreturned => .now hreturned.finishes)
  refine Simulates.inside hends ?_
  rintro v env m ⟨m', hstep, hlast, hrepresents⟩
  exact ⟨m', hstep, hlast, hrepresents.congr rfl⟩

/-- A machine that represents the value of a program ends as the evaluation says. -/
theorem Evaluated.ends {result : Except Stop Value × Env}
    (h : Evaluated result (Finishes S) (fun _ _ _ => False) m) :
    ∃ m', m.step = (some .finished, m') ∧ Outcome.finished.Agrees S.names result m' := by
  obtain ⟨result, env⟩ := result
  cases result with
  | ok v =>
    obtain ⟨m', hstep, hlast, hrepresents⟩ := h
    exact ⟨m', hstep, congrArg Except.ok hlast.symm, hrepresents.globals⟩
  | error stop => cases stop <;> exact h.elim

/-- What the machine does that follows a whole program. -/
theorem Simulates.agrees {result : Except Stop Value × Env}
    (h : Simulates S m result (Finishes S) (fun _ _ _ => False)) (n : Nat) :
    (m.run n).1.Agrees S.names result (m.run n).2 := by
  have hrun := h.run (fun _ => Evaluated.ends) n
  rcases hresult : m.run n with ⟨outcome, m'⟩
  rw [hresult] at hrun
  cases outcome with
  | unfinished => trivial
  | finished => exact hrun
  | failed e => exact hrun.imp_right fun h => ⟨h.1, h.2.globals⟩

/-- A compiled program resolves, and its machine follows the evaluation at every depth that the frames
do not exceed. -/
theorem Program.simulates_of_compile {p : Program} {chunk : Chunk} (hcompile : p.compile = .ok chunk)
    (hdistinct : ∀ f ∈ p.functions, (f.1.map Ident.name).Nodup) :
    ∃ r, p.resolve = some r ∧ ∀ limits, limits.globalsSize = 65536 → ∃ S, S.names = r.names ∧
      ∀ depth, limits.maxFrames ≤ depth + 1 →
        Simulates S (Machine.start chunk #[] limits) (r.eval depth) (Finishes S)
          (fun _ _ _ => False) := by
  obtain ⟨c, hadd, rfl⟩ := Program.exists_of_compile hcompile
  obtain ⟨cs, w, hresolve, hc⟩ :=
    Compilation.follows_nothing.compiled Walk.sound_nothing rfl hadd
  have hadds := (Stmt.resolveAll_inventory p.statements hresolve).2
  refine ⟨⟨cs, w.literals, w.scope.names⟩, Program.resolve_of_resolveAll hresolve,
    fun limits hlimits => ⟨w.setting limits, ?_, fun depth hdepth => ?_⟩⟩
  · exact (Scope.names_of_outermost hc.outermost).symm
  · have hS := hc.sound limits fun i name parameters names body hi => hadds.nodup hdistinct hi
    exact hc.simulates hS hlimits hdepth

/-- **The compiler is correct.** The run of a compiled program ends, and it agrees with the evaluation
of the resolved program at every depth that the frames of the machine do not exceed. -/
theorem Program.compile_correct {p : Program} {chunk : Chunk} (hcompile : p.compile = .ok chunk)
    (hdistinct : ∀ f ∈ p.functions, (f.1.map Ident.name).Nodup)
    (hlimits : limits.globalsSize = 65536) :
    ∃ r, p.resolve = some r ∧ (Machine.start chunk #[] limits).Halts ∧
      ∀ n depth, limits.maxFrames ≤ depth + 1 →
        ((Machine.start chunk #[] limits).run n).1.Agrees r.names (r.eval depth)
          ((Machine.start chunk #[] limits).run n).2 := by
  obtain ⟨r, hresolve, hmachine⟩ := simulates_of_compile hcompile hdistinct
  obtain ⟨S, hnames, hsimulates⟩ := hmachine limits hlimits
  refine ⟨r, hresolve, (hsimulates limits.maxFrames (Nat.le_succ _)).halts fun _ => Evaluated.ends,
    fun n depth hdepth => ?_⟩
  rw [← hnames]
  exact (hsimulates depth hdepth).agrees n

/-- The program `if (1 < 2) { fn() { return 3; }() }`. -/
def Program.callInBranch : Program where
  statements := [.expr default (.cond default
    (.binary default .lt (.integer default 1) (.integer default 2))
    (.mk default [.expr default (.call default (.function default []
      (.mk default [.ret default (.integer default 3)])) [])]) none)]

/-- Its value is 3, and one call within the program is deep enough. -/
theorem Program.compile_correct_callInBranch :
    ∃ chunk, callInBranch.compile = .ok chunk ∧
      (∀ f ∈ callInBranch.functions, (f.1.map Ident.name).Nodup) ∧
      ∃ r, callInBranch.resolve = some r ∧ (r.eval 1).1 = .ok (.integer 3) ∧
        (Machine.start chunk #[] ⟨8, 65536, 2⟩).Halts ∧
        ∀ n depth, 2 ≤ depth + 1 →
          ((Machine.start chunk #[] ⟨8, 65536, 2⟩).run n).1.Agrees r.names (r.eval depth)
            ((Machine.start chunk #[] ⟨8, 65536, 2⟩).run n).2 := by
  have hadd : Compilation.empty.add callInBranch =
      (.ok (), (Compilation.empty.add callInBranch).2) := Prod.ext (by decide) rfl
  have hcompile : callInBranch.compile = .ok (Compilation.empty.add callInBranch).2.chunk := by
    rw [Program.compile, hadd]
  have hdistinct : ∀ f ∈ callInBranch.functions, (f.1.map Ident.name).Nodup := by decide
  obtain ⟨r, hresolve, hhalts, hagrees⟩ := Program.compile_correct hcompile hdistinct
    (show (⟨8, 65536, 2⟩ : Limits).globalsSize = 65536 from rfl)
  have hvalue : callInBranch.resolve.map (fun r => (r.eval 1).1) = some (.ok (.integer 3)) := rfl
  rw [hresolve] at hvalue
  exact ⟨_, hcompile, hdistinct, r, hresolve, Option.some.inj hvalue, hhalts, hagrees⟩

end Monkey
