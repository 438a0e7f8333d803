import Monkey.Proofs.Bindings
import Monkey.Proofs.Listing
import Monkey.Proofs.Robust
import Monkey.Proofs.Sessions

/-!
# Faults are found in the listing

A fault names an instruction and its offset. When compiled code raises it, the instruction stands at this
offset in the listing of the code that was running (`Carried.fault_listed`), which is the code of the top
level or that of a function among the constants.

A listing walks through the code from its first byte on, but a run gets to its offsets by jumps, calls and
returns. The invariant is that each open frame stands where the walk through its code comes along
(`Frame.Traces`), also while it waits for a call.
-/

namespace Monkey

open Piece

/-! ### Frames -/

/-- The walk through the function's code meets instructions only, and a call goes through them. -/
def Function.Walked (f : Function) : Prop :=
  ∃ is, Code.instructions f.code = .ok is ∧ ∀ base, Frame.Within ⟨f, 0, base⟩ is

/-- The listing of the program shows the code of the frame, and the frame stands at one of its
instructions or at its end. -/
structure Frame.Traces (chunk : Chunk) (f : Frame) : Prop where
  part : ∃ part, chunk.Part f.function part
  within : ∃ is, Code.instructions f.function.code = .ok is ∧ f.Within is

/-- A function among the constants of a compiled program. -/
theorem Compilation.Follows.function_walked {c : Compilation} {w : Walk} (hc : c.Follows w)
    (hw : w.Sound) {f : Function} (hf : Value.function f ∈ c.constants) : f.Walked := by
  obtain ⟨i, name, parameters, names, body, hi, rfl⟩ := hc.function_mem hf
  obtain ⟨hnames, hbody, -⟩ := hw.literals i _ hi
  have hplain := Command.plain_bodyPieces
    (.function hw.dense.globals hnames w.literals) body hbody
  have hfits := hc.fits i _ _ _ _ hi
  refine ⟨instructionsAll 0 (Command.bodyPieces body), ?_, fun base => ?_⟩
  · exact Code.instructions_of_layout rfl hfits
  · exact ⟨_, ⟨rfl, hfits⟩, EachAll.mono (fun _ _ h => h.1) _ hplain, List.suffix_rfl⟩

theorem Compiled.mainFrame_traces {c : Compilation} {w w' : Walk} {cs : List Command}
    (hc : Compiled c w w' cs) : (Machine.mainFrame c.chunk.code).Traces c.chunk :=
  ⟨⟨_, .main⟩, _, Code.instructions_of_layout hc.code hc.fits, hc.within⟩

/-- The frame of a call starts where the walk through its code does. -/
theorem Function.Walked.traces {chunk : Chunk} {f : Function} (h : f.Walked)
    (hf : Value.function f ∈ chunk.constants) (base : Nat) : Frame.Traces chunk ⟨f, 0, base⟩ := by
  obtain ⟨i, hi⟩ := Array.mem_iff_getElem?.mp hf
  obtain ⟨is, his, hwithin⟩ := h
  exact ⟨⟨_, .constant hi⟩, is, his, hwithin base⟩

/-! ### Machines -/

namespace Machine

/-- The open frames run code that the listing of the program shows. -/
structure Traces (chunk : Chunk) (m : Machine) : Prop where
  holds : m.Holds fun f => Value.function f ∈ chunk.constants
  frames : ∀ f ∈ m.frames, f.Traces chunk

variable {chunk : Chunk} {m m' : Machine} {fs : Array Frame} {f : Frame}

theorem Traces.top (hm : m.Traces chunk) (hframes : m.frames = fs.push f) : f.Traces chunk :=
  hm.frames f (by rw [hframes]; exact Array.mem_push_self)

theorem Traces.below (hm : m.Traces chunk) (hframes : m.frames = fs.push f) :
    ∀ g ∈ fs, g.Traces chunk :=
  fun g hg => hm.frames g (by rw [hframes]; exact Array.mem_push_of_mem f hg)

/-- Frames with one more on top. -/
theorem traces_push {f : Frame} (hfs : ∀ g ∈ fs, g.Traces chunk) (hf : f.Traces chunk) :
    ∀ g ∈ fs.push f, g.Traces chunk := by
  intro g hg
  rcases Array.mem_push.mp hg with hg | rfl
  · exact hfs g hg
  · exact hf

/-- **One step** leads from walked code to walked code. -/
theorem Traces.steps (hm : m.Traces chunk)
    (hk : ∀ f, Value.function f ∈ chunk.constants → f.Walked) :
    m.Steps (Traces chunk) (fun _ _ => True) (fun _ => True) := by
  by_cases hempty : m.frames = #[]
  · rw [steps_done hempty]
    trivial
  obtain ⟨fs, f, hframes⟩ := Array.exists_push_of_ne_empty hempty
  have hfs := hm.below hframes
  obtain ⟨hpart, is, his, hf⟩ := hm.top hframes
  rcases hf.cases with hge | ⟨i, hi, next, hoffset, hlt, hfetch, hnext, hjump⟩
  · refine (steps_ended hm.holds hframes hge).mono ?_ (fun _ _ _ => trivial) (fun _ _ => trivial)
    rintro m' ⟨hm', -, -, hframes', -⟩
    exact ⟨hm', hframes' ▸ hfs⟩
  · refine (steps_fetched hm.holds hframes hlt hfetch).mono ?_ (fun _ _ _ => trivial)
      (fun _ h => h.elim)
    rintro m' ⟨hm', -, hmoves⟩
    refine ⟨hm', ?_⟩
    cases hmoves with
    | next hne hframes' _ _ =>
      rw [hframes']
      exact traces_push hfs ⟨hpart, is, his, hnext hne⟩
    | jump hor hframes' _ _ =>
      rw [hframes']
      exact traces_push hfs ⟨hpart, is, his, hjump hor⟩
    | call g hcall hg _ _ hframes' _ =>
      -- the caller already stands behind the call
      have hne : i.op ≠ .jump := by
        rw [hcall]
        decide
      rw [hframes']
      exact traces_push (traces_push hfs ⟨hpart, is, his, hnext hne⟩) ((hk g hg).traces hg _)
    | leave _ hframes' _ =>
      rw [hframes']
      exact hfs

/-- A fault names an instruction that the walk through the running code meets, and its offset. -/
theorem Traces.step_failed (hm : m.Traces chunk) (hbounds : m.InBounds) {e : RuntimeError}
    (hstep : m.step = (some (.failed e), m')) :
    ∃ (fs : Array Frame) (f : Frame) (op : Opcode) (ns : List Nat) (is : List Instruction),
      m.frames = fs.push f ∧ e.site = .at op ∧
        Code.instructions f.function.code = .ok is ∧ ⟨e.ip, op, ns⟩ ∈ is := by
  by_cases hempty : m.frames = #[]
  · rw [step_done hempty] at hstep
    cases hstep
  obtain ⟨fs, f, hframes⟩ := Array.exists_push_of_ne_empty hempty
  obtain ⟨-, is, his, hf⟩ := hm.top hframes
  rcases hf.cases with hge | ⟨i, hi, next, hoffset, hlt, hfetch, -, -⟩
  · -- the end of a call raises no fault
    exfalso
    by_cases hsize : fs.size = 0
    · rw [step_finished hframes hge hsize] at hstep
      cases hstep
    · have hend := (step_failed_site hbounds hstep).1
      rw [step_returned hframes hge hsize] at hstep
      exact hend (attempt_failed hstep (Executing.ensures_trivial _)).1
  · rw [step_instruction hframes hlt hfetch] at hstep
    have hsite : e.site = .at i.op := (attempt_failed hstep (Executing.ensures_trivial _)).1
    refine ⟨fs, f, i.op, i.operands, is, hframes, hsite, his, ?_⟩
    rw [attempt_failed_ip hstep, ← hoffset]
    exact hi

end Machine

/-! ### Runs of compiled programs -/

/-- A compiled program starts at the beginning of its listing. -/
theorem Carried.start_traces {s : Scope} {k : Array Value} {p : Program} {c : Compilation}
    (h : Carried s k) (hadd : (Compilation.resume s k).add p = (.ok (), c)) (limits : Limits)
    {globals : Array (Option Value)}
    (hglobals : ∀ v, some v ∈ globals → v.All fun f => Value.function f ∈ k) :
    (Machine.start c.chunk globals limits).Traces c.chunk := by
  obtain ⟨w, cs, w', -, -, hc⟩ := h.compiled hadd
  refine ⟨(h.start_safe hadd limits hglobals).holds, ?_⟩
  intro f hf
  obtain rfl := Array.mem_singleton.mp hf
  exact hc.mainFrame_traces

/-- Its functions are walked through as well. -/
theorem Carried.functions_walked {s : Scope} {k : Array Value} {p : Program} {c : Compilation}
    (h : Carried s k) (hadd : (Compilation.resume s k).add p = (.ok (), c)) :
    ∀ f, Value.function f ∈ c.chunk.constants → f.Walked := by
  obtain ⟨w, cs, w', -, -, hc⟩ := h.compiled hadd
  exact fun f hf => hc.follows.function_walked hc.walk.sound hf

/-- **Faults are found in the listing.** Take a compiled program, globals that earlier ones have left, and
any limits. When its run raises a fault, one part of its listing shows the code of the frame that was on
top, and a line there shows the offset and the instruction that the fault names. So the fault belongs to an
instruction, and not to a byte that is no opcode or to the end of a call. -/
theorem Carried.fault_listed {s : Scope} {k : Array Value} {p : Program} {c : Compilation}
    (h : Carried s k) (hadd : (Compilation.resume s k).add p = (.ok (), c)) (limits : Limits)
    {globals : Array (Option Value)}
    (hglobals : ∀ v, some v ∈ globals → v.All fun f => Value.function f ∈ k) {n : Nat}
    {e : RuntimeError} {m : Machine}
    (hrun : (Machine.start c.chunk globals limits).run n = (.failed e, m)) :
    ∃ (j : Nat) (f : Frame) (part before behind : String) (op : Opcode) (ns : List Nat),
      ((Machine.start c.chunk globals limits).run j).2.step = (some (.failed e), m) ∧
      ((Machine.start c.chunk globals limits).run j).2.frames.back? = some f ∧
      c.chunk.Part f.function part ∧ c.chunk.listing = before ++ part ++ behind ∧
      e.site = .at op ∧
      alignRight 4 '0' e.ip ++ " " ++ instructionText op.name ns ∈ lines part := by
  obtain ⟨j, -, hm, hstep⟩ := Machine.run_failed_of_step
    (fun m m' hm hnext => (hm.steps (h.functions_walked hadd)).of_goes hnext)
    (h.start_traces hadd limits hglobals) hrun
  have hbounds := (Machine.inBounds_after (.start c.chunk globals limits) [j]).1
  obtain ⟨fs, f, op, ns, is, hframes, hsite, his, hmem⟩ := hm.step_failed hbounds hstep
  obtain ⟨part, hpart⟩ := (hm.top hframes).part
  obtain ⟨before, behind, hlisting⟩ := hpart.exists_listing_eq
  refine ⟨j, f, part, before, behind, op, ns, hstep, ?_, hpart, hlisting, hsite, ?_⟩
  · rw [hframes, Array.back?_push]
  · exact hpart.line_mem his hmem

/-- `fn() { 1 / 0; }();` -/
def Program.callDivision : Program where
  statements := [.expr default (.call default (.function default [] (.mk default [.expr default
    (.binary default .divide (.integer default 1) (.integer default 0))])) [])]

/-- The division is the third instruction of the function. -/
theorem Carried.fault_listed_callDivision :
    ∃ (c : Compilation) (m : Machine) (f : Frame) (part : String) (ns : List Nat),
      (Compilation.resume .empty #[]).add Program.callDivision = (.ok (), c) ∧
      (∀ v, some v ∈ (#[] : Array (Option Value)) →
        v.All fun f => Value.function f ∈ (#[] : Array Value)) ∧
      (Machine.start c.chunk #[] ⟨4, 4, 2⟩).run 10 = (.failed ⟨.divisionByZero, .at .div, 6⟩, m) ∧
      c.chunk.Part f.function part ∧
      alignRight 4 '0' 6 ++ " " ++ instructionText "OpDiv" ns ∈ lines part := by
  have hadd : (Compilation.resume .empty #[]).add Program.callDivision =
      (.ok (), ((Compilation.resume .empty #[]).add Program.callDivision).2) :=
    Prod.ext (by decide) rfl
  have hglobals : ∀ v, some v ∈ (#[] : Array (Option Value)) →
      v.All fun f => Value.function f ∈ (#[] : Array Value) := fun v hv => by simp at hv
  have hfails : ((Machine.start ((Compilation.resume .empty #[]).add Program.callDivision).2.chunk
      #[] ⟨4, 4, 2⟩).run 10).1 = .failed ⟨.divisionByZero, .at .div, 6⟩ := by decide +kernel
  have hrun := Machine.run_eq_of_fst hfails
  obtain ⟨j, f, part, before, behind, op, ns, -, -, hpart, -, hsite, hline⟩ :=
    Carried.fault_listed .nothing hadd ⟨4, 4, 2⟩ hglobals hrun
  cases hsite
  exact ⟨_, _, f, part, ns, hadd, hglobals, hrun, hpart, hline⟩

end Monkey
