import Monkey.Evaluation
import Monkey.Proofs.Safety

/-!
# Sessions are safe

A session compiles every text with the names and constants of those before it, and runs it with
their globals, so a function can be called by a text that came long after its own. Whatever a session
has gone through, the invariant `Session.Sound` holds: its names and constants are those of a chain of
successful compilations, and the functions in its globals are among its constants. Hence no text raises
a fault that is not harmless, and a text that is run to its end leaves the stack empty
(`Session.eval_safe`).

`Session.accepts?` tells the texts that are run from those that are rejected, which leave the session
as it was (`Session.eval_of_accepted`, `Session.eval_of_rejected`).
-/

namespace Monkey

/-! ### Runs of compiled programs -/

/-- A function among the constants of a compiled program runs safe code. -/
theorem Compilation.Follows.function_safe {c : Compilation} {w : Walk} (hc : c.Follows w)
    (hw : w.Sound) {f : Function} (hf : Value.function f ∈ c.constants) :
    f.Safe c.constants.size := by
  obtain ⟨i, name, parameters, names, body, hi, rfl⟩ := hc.function_mem hf
  obtain ⟨hnames, hbody, -⟩ := hw.literals i _ hi
  refine ⟨0, Command.bodyPieces body, w.scope.globals.size, ⟨rfl, hc.fits i _ _ _ _ hi⟩,
    Command.takes_bodyPieces body 0, ?_⟩
  rw [hc.size_constants]
  exact Command.plain_bodyPieces (.function hw.dense.globals hnames _) body hbody

/-- The code of the top level of a compiled program is safe. -/
theorem Compiled.safe {c : Compilation} {w w' : Walk} {cs : List Command} (hc : Compiled c w w' cs) :
    c.buffer.code.SafeFrom c.constants.size none 0 0 0 := by
  refine ⟨Command.piecesAll cs, w'.scope.globals.size, ⟨hc.code, hc.fits⟩,
    Command.takes_piecesAll cs 0, ?_⟩
  have hplain := Command.plain_piecesAll hc.dense cs hc.commands
  unfold Visible.Plain at hplain
  rwa [Walk.visible, hc.outermost, ← hc.follows.size_constants] at hplain

/-- What holds of a machine with the constants `k` when it stops: its functions are among the
constants, a fault is harmless, and the stack is empty when there is none. -/
def Outcome.Safe (k : Array Value) (globalsSize : Nat) (outcome : Outcome) (m : Machine) : Prop :=
  (m.Holds fun f => Value.function f ∈ k) ∧
  match outcome with
  | .finished => m.sp = 0
  | .failed e => e.fault.Harmless globalsSize
  | .unfinished => True

/-- The functions among the constants of a compiled program run safe code. -/
theorem Carried.functions_safe {s : Scope} {k : Array Value} {p : Program} {c : Compilation}
    (h : Carried s k) (hadd : (Compilation.resume s k).add p = (.ok (), c)) :
    ∀ f, Value.function f ∈ c.constants → f.Safe c.constants.size := by
  obtain ⟨w, cs, w', hw, -, hc⟩ := h.compiled hadd
  exact fun f hf => hc.follows.function_safe hc.walk.sound hf

/-- A compiled program starts on a safe machine when the functions that it finds in its globals are
constants, too. -/
theorem Carried.start_safe {s : Scope} {k : Array Value} {p : Program} {c : Compilation}
    (h : Carried s k) (hadd : (Compilation.resume s k).add p = (.ok (), c)) (limits : Limits)
    {globals : Array (Option Value)}
    (hglobals : ∀ v, some v ∈ globals → v.All fun f => Value.function f ∈ k) :
    (Machine.start c.chunk globals limits).Safe c.constants := by
  obtain ⟨w, cs, w', hw, -, hc⟩ := h.compiled hadd
  refine ⟨.start (hc.follows.constants_all fun f hf => hf) (fun v hv => ?_) limits, rfl,
    .inr (.main hc.safe)⟩
  exact (hglobals v hv).mono (fun f hf => hc.mem_constants hw hf) v

/-- **Runs of compiled programs are safe.** -/
theorem Carried.run_safe {s : Scope} {k : Array Value} {p : Program} {c : Compilation}
    (h : Carried s k) (hadd : (Compilation.resume s k).add p = (.ok (), c)) (limits : Limits)
    {globals : Array (Option Value)}
    (hglobals : ∀ v, some v ∈ globals → v.All fun f => Value.function f ∈ k) (n : Nat) :
    Outcome.Safe c.constants limits.globalsSize ((Machine.start c.chunk globals limits).run n).1
      ((Machine.start c.chunk globals limits).run n).2 := by
  have hsize : limits.globalsSize ≤ (Machine.start c.chunk globals limits).globals.size := by
    simp only [Machine.start, Array.size_append, Array.size_replicate]
    omega
  -- the invariant, together with the number of global slots
  have hstep : ∀ m : Machine, m.Safe c.constants ∧ limits.globalsSize ≤ m.globals.size →
      m.Steps (fun m' => m'.Safe c.constants ∧ limits.globalsSize ≤ m'.globals.size)
        (fun e m' => ∀ site ip,
          Outcome.Safe c.constants limits.globalsSize (.failed ⟨e, site, ip⟩) m')
        (Outcome.Safe c.constants limits.globalsSize .finished) := by
    rintro m ⟨hm, hglobals'⟩
    refine (hm.steps (h.functions_safe hadd)).mono ?_ ?_ ?_
    · rintro m' ⟨hm', hsame⟩
      exact ⟨hm', hsame ▸ hglobals'⟩
    · rintro e m' ⟨he, hm'⟩ site ip
      exact ⟨hm', he.mono hglobals'⟩
    · rintro m' ⟨hsp, hm'⟩
      exact ⟨hm', hsp⟩
  exact Machine.run_spec hstep (fun m hm => ⟨hm.1.holds, trivial⟩)
    ⟨h.start_safe hadd limits hglobals, hsize⟩ n

namespace Machine

/-- The slots that a machine adds to its globals are empty. -/
theorem getD_globals_start (chunk : Chunk) (globals : Array (Option Value)) (limits : Limits)
    (i : Nat) : (start chunk globals limits).globals.getD i none = globals.getD i none := by
  simp only [start, Array.getD_eq_getD_getElem?, Array.getElem?_append, Array.getElem?_replicate]
  split
  · rfl
  · next h =>
    rw [Array.getElem?_eq_none (Nat.le_of_not_lt h)]
    split <;> rfl

end Machine

/-! ### Sessions -/

namespace Session

/-- What can be done with a session. -/
inductive Action where
  | eval (source : String)
  | reset

/-- The session after an action. -/
def act (s : Session) : Action → Session
  | .eval source => (s.eval source).2
  | .reset => s.reset

/-- The session after actions, from one in which nothing is known. -/
def after (limits : Limits) (steps : Nat) (actions : List Action) : Session :=
  actions.foldl act (start limits steps)

/-- What holds of a session in which nothing is known, and is kept by every action, always holds. -/
theorem after_of_act {P : Session → Prop} {limits : Limits} {steps : Nat}
    (hstart : P (start limits steps)) (hact : ∀ s a, P s → P (s.act a)) (actions : List Action) :
    P (after limits steps actions) := by
  unfold after
  generalize start limits steps = s at hstart
  induction actions generalizing s with
  | nil => exact hstart
  | cons a actions ih => exact ih (s.act a) (hact s a hstart)

/-- What is known comes from successful compilations, and the functions in the globals are among the
constants. -/
structure Sound (s : Session) : Prop where
  carried : Carried s.scope s.constants
  globals : ∀ v, some v ∈ s.globals → v.All fun f => Value.function f ∈ s.constants

theorem sound_start (limits : Limits) (steps : Nat) : (start limits steps).Sound :=
  ⟨.nothing, fun v hv => by simp [start] at hv⟩

/-- Evaluating a text keeps a session sound, whatever comes out. -/
theorem Sound.eval {s : Session} (h : s.Sound) (source : String) : (s.eval source).2.Sound := by
  unfold Session.eval
  split
  · exact h
  next p hp =>
  split
  · exact h
  next c hadd =>
  exact ⟨.more h.carried hadd, (h.carried.run_safe hadd s.limits h.globals s.steps).1.globals⟩

theorem Sound.act {s : Session} (h : s.Sound) (a : Action) : (s.act a).Sound := by
  cases a with
  | eval source => exact h.eval source
  | reset => exact sound_start _ _

@[simp] theorem limits_act (s : Session) (a : Action) : (s.act a).limits = s.limits := by
  cases a with
  | eval source =>
    simp only [Session.act, Session.eval]
    split
    · rfl
    · split <;> rfl
  | reset => rfl

/-- Every session is sound. -/
theorem sound_after (limits : Limits) (steps : Nat) (actions : List Action) :
    (after limits steps actions).Sound ∧ (after limits steps actions).limits = limits := by
  refine ⟨after_of_act (sound_start limits steps) (fun s a h => h.act a) actions, ?_⟩
  have hlimits : ∀ (s : Session) a, s.limits = limits → (s.act a).limits = limits := by
    intro s a h
    rw [limits_act, h]
  exact after_of_act (P := fun s => s.limits = limits) rfl hlimits actions

/-- **Compiled code never trips the checks of the machine.** After whatever a session went through, a
text raises harmless faults only, and when its run finishes the stack is empty. -/
theorem eval_safe (limits : Limits) (steps : Nat) (actions : List Action) (source : String) :
    let s := after limits steps actions
    (∀ e, (s.eval source).1 = .error (.runtime e) → e.fault.Harmless limits.globalsSize) ∧
    ∀ p c m, Program.parse source = .ok p →
      (Compilation.resume s.scope s.constants).add p = (.ok (), c) →
      (Machine.start c.chunk s.globals s.limits).run s.steps = (.finished, m) → m.top? = none := by
  intro s
  obtain ⟨hs, hlimits⟩ := sound_after limits steps actions
  constructor
  · intro e he
    unfold Session.eval at he
    split at he
    · cases he
    next p hp =>
    split at he
    · cases he
    next c hadd =>
    -- the session carries all that the run of the program relies on
    have hsafe := (hs.carried.run_safe hadd s.limits hs.globals s.steps).2
    rcases hrun : (Machine.start c.chunk s.globals s.limits).run s.steps with ⟨outcome, m⟩
    rw [hrun] at he hsafe
    cases outcome with
    | finished => cases he
    | unfinished => cases he
    | failed e' =>
      obtain rfl : e' = e := by
        injection he with he
        injection he
      rw [← hlimits]
      exact hsafe
  · intro p c m _ hadd hrun
    have hsafe := (hs.carried.run_safe hadd s.limits hs.globals s.steps).2
    rw [hrun] at hsafe
    exact if_pos hsafe

/-- The fault that a result is, if it is one of running code. -/
def runtimeError? (result : Except Error Value) : Option RuntimeError :=
  match result with
  | .error (.runtime e) => some e
  | _ => none

theorem eq_of_runtimeError? {result : Except Error Value} {e : RuntimeError}
    (h : runtimeError? result = some e) : result = .error (.runtime e) := by
  unfold runtimeError? at h
  split at h
  · rw [Option.some.inj h]
  · cases h

/-- A division by zero on a small machine, after a text that is no program and one that is. -/
theorem eval_division_safe :
    ((after ⟨4, 4, 2⟩ 100 [.eval "]", .eval "2;"]).eval "1/0;").1 =
        .error (.runtime ⟨.divisionByZero, .at .div, 6⟩) ∧
      Fault.divisionByZero.Harmless 4 := by
  have h : ((after ⟨4, 4, 2⟩ 100 [.eval "]", .eval "2;"]).eval "1/0;").1 =
      .error (.runtime ⟨.divisionByZero, .at .div, 6⟩) := eq_of_runtimeError? (by decide +kernel)
  exact ⟨h, (eval_safe ⟨4, 4, 2⟩ 100 [.eval "]", .eval "2;"] "1/0;").1 _ h⟩

/-! ### Accepted texts -/

/-- The program of a text that passes parsing and compilation, and what it compiles to. -/
def accepts? (s : Session) (source : String) : Option (Program × Compilation) :=
  match Program.parse source with
  | .error _ => none
  | .ok p =>
    match (Compilation.resume s.scope s.constants).add p with
    | (.error _, _) => none
    | (.ok (), c) => some (p, c)

variable {s : Session} {source : String} {p : Program} {c : Compilation}

/-- A text is accepted if it is a program that compiles. -/
theorem accepts?_eq_some : s.accepts? source = some (p, c) ↔
    Program.parse source = .ok p ∧
      (Compilation.resume s.scope s.constants).add p = (.ok (), c) := by
  constructor
  · intro h
    unfold accepts? at h
    split at h
    · cases h
    next hp =>
    split at h
    · cases h
    next hadd =>
    obtain ⟨rfl, rfl⟩ := Prod.mk.inj (Option.some.inj h)
    exact ⟨hp, hadd⟩
  · rintro ⟨hp, hadd⟩
    simp only [accepts?, hp, hadd]

/-- A text that is not accepted leaves the session as it was. -/
theorem eval_of_rejected (h : s.accepts? source = none) :
    (s.eval source).2 = s ∧ ((∃ ds, (s.eval source).1 = .error (.parse ds)) ∨
      ∃ e, (s.eval source).1 = .error (.compile e)) := by
  unfold Session.eval
  cases hp : Program.parse source with
  | error ds => exact ⟨rfl, .inl ⟨ds, rfl⟩⟩
  | ok p =>
    cases hadd : (Compilation.resume s.scope s.constants).add p with
    | mk result c =>
      cases result with
      | error e =>
        simp only [hadd]
        exact ⟨trivial, .inr ⟨e, rfl⟩⟩
      | ok u => cases h.symm.trans (accepts?_eq_some.mpr ⟨hp, hadd⟩)

/-- A text that is accepted is run. -/
theorem eval_of_accepted (h : s.accepts? source = some (p, c)) :
    let r := (Machine.start c.chunk s.globals s.limits).run s.steps
    s.eval source = (r.1.result r.2, { s with
      scope := c.scope
      constants := c.constants
      globals := r.2.globals }) := by
  obtain ⟨hp, hadd⟩ := accepts?_eq_some.mp h
  simp only [Session.eval, hp, hadd]

end Session

end Monkey
