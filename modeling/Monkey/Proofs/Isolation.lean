import Monkey.Proofs.Bindings
import Monkey.Proofs.Checked
import Monkey.Proofs.Parallel
import Monkey.Proofs.Sessions
import Monkey.Proofs.Stack

/-!
# Calls are isolated

All calls share one stack, and what a call leaves in its slots is still there when the next one comes. In
a compiled program a call shows nothing of this. It reads no slot below its first argument, and when it
returns, the slots below the function that was called are what they were, and so are the globals and the
calls that wait (`Machine.Inside.returns`). Its result depends on nothing but the function, the arguments
and the globals: two calls that agree in these end alike, wherever on the stack they stand
(`Machine.ends_alike`). `Carried.call_isolated` says all of this for every call that a program comes to.
-/

namespace Monkey

/-! ### Code of functions -/

/-- The code of a function stores no global. -/
theorem Code.SafeFrom.ne_setGlobal {code : Code} {constants locals last ip h : Nat}
    (hsafe : code.SafeFrom constants (some locals) last ip h) (hlt : ip < code.size) {op : Opcode}
    {operand next : Nat} (hfetch : Code.fetch code ip = .ok (op, operand, next)) :
    op ≠ .setGlobal := by
  obtain ⟨ps, globals, hps, -, hplain⟩ := hsafe
  rintro rfl
  cases ps with
  | nil => exact absurd hlt (Nat.not_lt.mpr hps.size_le)
  | cons p ps =>
    cases p with
    | op o ns =>
      obtain ⟨-, hfetch', -⟩ := hps.op
      rw [hfetch] at hfetch'
      cases hfetch'
      cases hplain.1.2.1
    | branch yes no =>
      obtain ⟨-, hfetch', -⟩ := hps.branch
      rw [hfetch] at hfetch'
      cases hfetch'
    | skip no =>
      obtain ⟨-, hfetch', -⟩ := hps.skip
      rw [hfetch] at hfetch'
      cases hfetch'

/-- Above the top level the frame on top runs the code of a function, and its operands lie above its
local slots. -/
theorem Stacked.inner {constants sp : Nat} {fs : Array Frame} {f : Frame}
    (h : Stacked constants (fs.push f) sp) (hfs : fs.size ≠ 0) : ∃ height last,
      sp = f.floor + height ∧
        f.function.code.SafeFrom constants (some f.function.locals) last f.ip height := by
  generalize hframes : fs.push f = frames at h
  cases h with
  | main hsafe =>
    obtain ⟨rfl, rfl⟩ := Array.push_eq_push.mp hframes
    exact absurd rfl hfs
  | @call gs g height last _ _ hsafe =>
    obtain ⟨rfl, rfl⟩ := Array.push_eq_push.mp hframes
    exact ⟨height, last, rfl, hsafe⟩

namespace Machine

open Executing

variable {k : Array Value} {m m' : Machine} {fs : Array Frame} {f : Frame}

/-! ### Steps above the top level -/

theorem Steps.goes (h : m.Steps (· = m') (fun _ _ => False) (fun _ => False)) :
    m.step = (none, m') := by
  rcases h.cases with ⟨m₁, hstep, rfl⟩ | ⟨_, _, _, hfalse⟩ | ⟨_, _, hfalse⟩
  · exact hstep
  · exact hfalse.elim
  · exact hfalse.elim

theorem Safe.inner (h : m.Safe k) (hframes : m.frames = fs.push f) (hfs : fs.size ≠ 0) :
    ∃ height last, m.sp = f.floor + height ∧
      f.function.code.SafeFrom k.size (some f.function.locals) last f.ip height := by
  rcases h.stacked with ⟨hempty, -⟩ | hstacked
  · rw [hframes] at hempty
    exact absurd hempty (Array.push_ne_empty)
  · rw [hframes] at hstacked
    exact hstacked.inner hfs

/-- A function finds its operands above its slots. -/
theorem Safe.floor_le (h : m.Safe k) (hframes : m.frames = fs.push f) (hfs : fs.size ≠ 0)
    {op : Opcode} {operand next : Nat} (hlt : f.ip < f.function.code.size)
    (hfetch : Code.fetch f.function.code f.ip = .ok (op, operand, next)) :
    f.floor + op.pops operand ≤ m.sp := by
  obtain ⟨height, last, hsp, hsafe⟩ := h.inner hframes hfs
  rcases hsafe.cases with ⟨hge, -⟩ | ⟨op', operand', next', -, hfetch', hpops, -⟩
  · exact absurd hlt (Nat.not_lt.mpr hge)
  · rw [hfetch] at hfetch'
    cases hfetch'
    omega

/-- A function finds its operands above its first argument. -/
theorem Safe.above (h : m.Safe k) (hframes : m.frames = fs.push f) (hfs : fs.size ≠ 0) {low : Nat}
    (hlow : low ≤ f.base) : m.Above low := by
  intro gs g hgs
  obtain ⟨rfl, rfl⟩ := Array.push_eq_push.mp (hframes.symm.trans hgs)
  refine ⟨hlow, fun op operand next hlt hfetch => ?_⟩
  have hfloor := h.floor_le hframes hfs hlt hfetch
  rw [Frame.floor] at hfloor
  omega

/-- A step of a function leaves the globals alone. -/
theorem Safe.globals_step (h : m.Safe k) (hframes : m.frames = fs.push f) (hfs : fs.size ≠ 0)
    (hstep : m.step = (none, m')) : m'.globals = m.globals := by
  by_cases hlt : f.ip < f.function.code.size
  · cases hfetch : Code.fetch f.function.code f.ip with
    | error e =>
      rw [step_malformed hframes hlt hfetch] at hstep
      cases hstep
    | ok instruction =>
      obtain ⟨op, operand, next⟩ := instruction
      obtain ⟨height, last, -, hsafe⟩ := h.inner hframes hfs
      have hglobals := (steps_fetched_globals hframes hlt hfetch).of_goes hstep
      rwa [if_neg (hsafe.ne_setGlobal hlt hfetch)] at hglobals
  · exact (steps_ended_globals hframes (Nat.le_of_not_lt hlt)).of_goes hstep

/-! ### Steps that end a call -/

/-- A step that ends a call puts the result into the slot of the function that was called. -/
theorem step_returning (h : m.InBounds) (hframes : m.frames = fs.push f) (hfs : fs.size ≠ 0)
    {v : Value} (hv : m.returning? = some v) :
    m.step = (none, { m with
      frames := fs
      sp := f.base
      stack := m.stack.setIfInBounds (f.base - 1) v }) := by
  have hbase : 1 ≤ f.base := h.base_pos hframes hfs
  have hroom : f.base + f.function.locals ≤ m.stack.size := h.base_add_locals_le hframes
  -- leaving the frame, whatever happened to its offset and to the stack pointer
  have hleave : ∀ (g : Frame) (sp : Nat), g.base = f.base →
      (leave v).Ensures { m with frames := fs.push g, sp }
        (fun _ m' => m' = { m with
          frames := fs
          sp := f.base
          stack := m.stack.setIfInBounds (f.base - 1) v }) (fun _ _ => False) := by
    intro g sp hg
    rw [ensures_leave rfl, if_neg hfs, ensures_push, hg]
    rw [if_pos (by dsimp only; omega)]
    dsimp only
    rw [Nat.sub_add_cancel hbase]
  apply Steps.goes
  simp only [returning?, hframes, Array.back?_push] at hv
  split at hv
  · next hlt =>
    split at hv
    · next operand next hfetch =>
      -- the value returned is the one on top
      have hsp : m.sp ≠ 0 := by
        intro hsp
        rw [top?, if_pos hsp] at hv
        cases hv
      rw [top?, if_neg hsp] at hv
      have htop : m.stack.getD (m.sp - 1) .null = v := by
        rw [Array.getD_eq_getD_getElem?, hv]
        rfl
      rw [steps_instruction hframes hlt hfetch, execute, ensures_bind, ensures_pop, if_neg hsp, htop]
      exact hleave { f with ip := next } (m.sp - 1) rfl
    · next operand next hfetch =>
      obtain rfl := Option.some.inj hv
      rw [steps_instruction hframes hlt hfetch]
      exact hleave { f with ip := next } m.sp rfl
    · cases hv
  · next hge =>
    obtain rfl := Option.some.inj hv
    rw [steps_end hframes (Nat.le_of_not_lt hge), if_neg hfs]
    have hsame := hleave f m.sp rfl
    rwa [← hframes] at hsame

/-- A step that ends no call leaves all calls open. -/
theorem size_frames_le {P : Function → Prop} (hm : m.Holds P) (h : m.InBounds) (hsp : m.sp ≠ 0)
    (hnone : m.returning? = none) (hstep : m.step = (none, m')) :
    m.frames.size ≤ m'.frames.size := by
  cases m.next with
  | done hframes =>
    rw [step_done hframes] at hstep
    cases hstep
  | malformed fs f e hframes hlt hfetch =>
    rw [step_malformed hframes hlt hfetch] at hstep
    cases hstep
  | instruction fs f op operand next hframes hlt hfetch =>
    obtain ⟨-, -, hmoves⟩ := (steps_fetched hm hframes hlt hfetch).of_goes hstep
    rw [hframes, Array.size_push]
    cases hmoves with
    | next _ hframes' =>
      rw [hframes', Array.size_push]
    | jump _ hframes' =>
      rw [hframes', Array.size_push]
    | call g _ _ _ _ hframes' =>
      rw [hframes', Array.size_push, Array.size_push]
      exact Nat.le_succ _
    | leave hop =>
      -- an instruction that leaves the frame has a value to return, since the stack is not empty
      have hreturns : ∃ op operand next,
          Code.fetch f.function.code f.ip = .ok (op, operand, next) ∧
            (op = .returnValue ∨ op = .ret) := ⟨op, operand, next, hfetch, hop⟩
      exact absurd hnone (returning?_ne_none hframes hsp h.sp_le (.inr hreturns))
  | ended fs f hframes hge =>
    exact absurd hnone (returning?_ne_none hframes hsp h.sp_le (.inl hge))

/-! ### Opening a call -/

/-- The machine is about to call the function `f` with `args`, and `us` are the values below them. The
frame `caller` is on top, and goes on at `next` when the call has returned. -/
structure Calls (m : Machine) (fs : Array Frame) (caller : Frame) (next : Nat) (us : List Value)
    (f : Function) (args : List Value) : Prop where
  frames : m.frames = fs.push caller
  lt_size : caller.ip < caller.function.code.size
  fetch : Code.fetch caller.function.code caller.ip = .ok (.call, args.length, next)
  stack : StackHas m.stack m.sp (us ++ .function f :: args)

/-- What the call of a function stands on. -/
def callee (m : Machine) (fs : Array Frame) (caller : Frame) (next : Nat) (us : List Value) : Footing :=
  ⟨fs.push { caller with ip := next }, us.length + 1, m.stack.size, m.maxFrames⟩

/-- The function `f` has just been called with `args`. -/
structure Opened (A : Footing) (f : Function) (args : List Value) (m : Machine) : Prop where
  on : m.On A #[⟨f, 0, 0⟩] (max f.locals args.length)
  stack : ∀ i < max f.locals args.length,
    m.stack.getD (A.low + i) .null = args.getD i .null

variable {caller : Frame} {next : Nat} {us args : List Value} {g : Function}

/-- A call is opened if the number of arguments is right and there is room. -/
theorem Calls.steps (h : m.Calls fs caller next us g args) (hin : m.InBounds) :
    m.Steps
      (fun m₁ => args.length = g.parameters ∧ Opened (m.callee fs caller next us) g args m₁ ∧
        m₁.constants = m.constants ∧ m₁.globals = m.globals ∧ StackHas m₁.stack us.length us)
      (fun e _ => e.isOverflow ∨
        args.length ≠ g.parameters ∧ e = .wrongArity g.parameters args.length)
      (fun _ => False) := by
  obtain ⟨hcount, hcallee⟩ := h.stack.getD_below
  have hlength := h.stack.length
  rw [List.length_append, List.length_cons] at hlength
  rw [steps_instruction h.frames h.lt_size h.fetch, execute, ensures_call]
  rw [if_neg (Nat.not_le.mpr hcount), hcallee]
  dsimp only
  split
  · next harity => exact .inr ⟨harity, rfl⟩
  next harity =>
  split
  · exact .inl rfl
  next hframes =>
  split
  · exact .inl rfl
  next htop =>
  have hbase : m.sp - args.length = us.length + 1 := by omega
  have hgo : InBounds { m with frames := fs.push { caller with ip := next } } :=
    hin.goto h.frames next
  have hopen : InBounds { m with
      stack := clearSlots m.stack m.sp (m.sp - args.length + max g.locals args.length - m.sp)
      sp := m.sp - args.length + max g.locals args.length
      frames := (fs.push { caller with ip := next }).push ⟨g, 0, m.sp - args.length⟩ } := by
    apply hgo.call (size_clearSlots _ _ _)
    · exact Nat.le_of_not_lt htop
    · dsimp only
      omega
    · simp
    · dsimp only
      omega
    · exact Nat.lt_of_not_le hframes
  have hbelow : StackHas m.stack us.length us := by
    have htake := h.stack.take (show us.length ≤ m.sp by omega)
    rwa [List.take_left] at htake
  refine ⟨not_not.mp harity, ⟨⟨?_, ?_, size_clearSlots _ _ _, rfl, hopen⟩, ?_⟩, rfl, rfl, ?_⟩
  · simp [callee, Frame.raise, hbase]
  · show m.sp - args.length + max g.locals args.length = us.length + 1 + max g.locals args.length
    rw [hbase]
  · -- an argument is below the slots that are cleared, and the other slots hold null
    intro i hi
    show (clearSlots _ _ _).getD (us.length + 1 + i) _ = _
    rw [getD_clearSlots]
    split
    · next hcleared =>
      rw [List.getD_eq_getElem?_getD, List.getElem?_eq_none (by omega)]
      rfl
    · next hargument =>
      have harg : StackHas m.stack m.sp ((us ++ [.function g]) ++ (args ++ [])) := by
        rw [List.append_nil, List.append_assoc]
        exact h.stack
      have hvalue := harg.getD_between (i := i) (by omega)
      rwa [List.length_append, List.length_singleton] at hvalue
  · apply hbelow.congr
    · rw [size_clearSlots]
      exact hbelow.room
    · intro i hi
      exact getElem?_clearSlots_of_lt (by omega) _ _

/-! ### Inside a call -/

variable {A B : Footing} {height reach : Nat}

/-- The calls of a function that a machine runs on a footing. -/
theorem On.exists_push (h : m.On A fs height) (hcalls : A.below.size < m.frames.size) :
    ∃ (gs : Array Frame) (f : Frame), fs = gs.push f := by
  apply Array.exists_push_of_ne_empty
  rintro rfl
  have hsize := h.size_frames
  rw [Array.size_empty] at hsize
  omega

theorem On.above (h : m.On A (fs.push f) height) (hbelow : A.below.size ≠ 0) (hm : m.Safe k) :
    m.Above A.low := by
  apply hm.above h.frames_push
  · rw [Array.size_append]
    omega
  · exact Nat.le_add_right _ _

/-- How a call on a footing ends. -/
theorem On.step_returning (h : m.On A (fs.push f) height) (hbelow : A.below.size ≠ 0) {v : Value}
    (hv : m.returning? = some v) :
    m.step = (none, { m with
      frames := A.below ++ fs.map (Frame.raise A.low)
      sp := A.low + f.base
      stack := m.stack.setIfInBounds (A.low + f.base - 1) v }) := by
  refine Machine.step_returning h.inBounds h.frames_push ?_ hv
  rw [Array.size_append]
  omega

/-- A step after which a call is still open does not end the first one on the footing. -/
theorem On.not_returning (h : m.On A (fs.push f) height) (hbelow : A.below.size ≠ 0)
    (hstep : m.step = (none, m')) (hcalls : A.below.size < m'.frames.size) :
    m.returning? = none ∨ 2 ≤ (fs.push f).size := by
  cases hv : m.returning? with
  | none => exact .inl rfl
  | some v =>
    rw [h.step_returning hbelow hv] at hstep
    obtain rfl := (Prod.mk.inj hstep).2
    rw [Array.size_append, Array.size_map] at hcalls
    rw [Array.size_push]
    exact .inr (by omega)

/-- The value that a step returns is the same on parallel machines. -/
theorem Parallel.returning?_eq (h : Parallel A B (fs.push f) height reach m m') (hlow : 1 ≤ A.low)
    (habove : m.Above A.low) : m'.returning? = m.returning? := by
  have hframes := h.left.frames_push
  simp only [returning?, hframes, h.right.frames_push, Array.back?_push, Frame.raise]
  split
  · next hlt =>
    split
    · next operand next hfetch =>
      have hpops : A.low ≤ m.sp - 1 := (habove _ _ hframes).2 .returnValue operand next hlt hfetch
      have hsp := h.left.sp
      exact h.top?_eq (.inl (by omega))
    · rfl
    · rfl
  · rfl

/-- The machine is inside the call of a function, above the values `us` and with the globals given. -/
structure Inside (k : Array Value) (A : Footing) (us : List Value) (globals : Array (Option Value))
    (m : Machine) : Prop where
  safe : m.Safe k
  parallel : ParallelFrom A A 0 m m
  calls : A.below.size < m.frames.size
  globals : m.globals = globals
  stack : StackHas m.stack us.length us

variable {globals : Array (Option Value)}

/-- A step inside a call reads no slot below the first argument. -/
theorem Inside.stepChecked (h : m.Inside k A us globals) (hbelow : A.below.size ≠ 0) :
    m.stepChecked A.low = some m.step := by
  obtain ⟨gs, height, reach, -, hparallel⟩ := h.parallel
  obtain ⟨gs, f, rfl⟩ := hparallel.left.exists_push h.calls
  exact stepChecked_eq hparallel.left.inBounds (hparallel.left.above hbelow h.safe)

/-- **A step that does not end the call stays inside it.** -/
theorem Inside.goes (h : m.Inside k A us globals) (hbelow : A.below.size ≠ 0)
    (hlow : A.low = us.length + 1) (hk : ∀ f, Value.function f ∈ k → f.Safe k.size)
    (hstep : m.step = (none, m')) (hcalls : A.below.size < m'.frames.size) :
    m'.Inside k A us globals := by
  obtain ⟨gs, height, reach, hreach, hparallel⟩ := h.parallel
  obtain ⟨gs, f, rfl⟩ := hparallel.left.exists_push h.calls
  have hframes := hparallel.left.frames_push
  have hne : (A.below ++ gs.map (Frame.raise A.low)).size ≠ 0 := by
    rw [Array.size_append]
    omega
  have habove := hparallel.left.above hbelow h.safe
  constructor
  · exact ((h.safe.steps hk).of_goes hstep).1
  · have hlow' : 1 ≤ A.low := by omega
    have hsize : (gs.push f).size ≠ 0 := by simp
    have halike := hparallel.steps (.inr ⟨hlow', habove, hsize,
      hparallel.left.not_returning hbelow hstep hcalls⟩)
    rcases halike.of_goes hstep with ⟨m₁, hstep₁, h₁⟩ | ⟨e, m₁, hstep₁, -⟩
    · rw [hstep] at hstep₁
      cases hstep₁
      exact h₁.mono hreach
    · rw [hstep] at hstep₁
      cases hstep₁
  · exact hcalls
  · exact (h.safe.globals_step hframes hne hstep).trans h.globals
  · -- the result of an inner call goes above the function of this one
    have hconfined : m.Steps (m.Confined us.length) (fun _ => m.Confined us.length)
        (m.Confined us.length) := by
      apply steps_confined hparallel.left.inBounds
      · intro fs' f' hframes'
        obtain ⟨hbase, hpops⟩ := habove fs' f' hframes'
        refine ⟨by omega, fun op operand next hlt hfetch => ?_⟩
        have hle := hpops op operand next hlt hfetch
        omega
      · intro fs' f' hframes'
        obtain ⟨rfl, rfl⟩ := Array.push_eq_push.mp (hframes.symm.trans hframes')
        refine ⟨?_, fun hzero => absurd hzero hne⟩
        show us.length ≤ A.low + f.base - 1
        omega
    have hm' := hconfined.of_goes hstep
    apply h.stack.congr
    · rw [hm'.size]
      exact h.stack.room
    · exact hm'.below

/-- **When a call returns**, its result stands in the place of the function, above the values that were
there before, and the frame of the caller is on top. -/
theorem Inside.returns (h : m.Inside k A us globals) (hbelow : A.below.size ≠ 0)
    (hlow : A.low = us.length + 1) (hstep : m.step = (none, m'))
    (hcalls : m'.frames.size ≤ A.below.size) :
    ∃ v, m.returning? = some v ∧ StackHas m'.stack m'.sp (us ++ [v]) ∧ m'.globals = globals ∧
      m'.frames = A.below := by
  obtain ⟨gs, height, reach, -, hparallel⟩ := h.parallel
  obtain ⟨gs, f, rfl⟩ := hparallel.left.exists_push h.calls
  have hon := hparallel.left
  have hroom := hon.height_le
  have hsp := hon.sp
  cases hv : m.returning? with
  | none =>
    have hle := size_frames_le h.safe.holds hon.inBounds (by omega) hv hstep
    exact absurd (Nat.lt_of_lt_of_le h.calls (Nat.le_trans hle hcalls)) (Nat.lt_irrefl _)
  | some v =>
    rw [hon.step_returning hbelow hv] at hstep
    obtain rfl := (Prod.mk.inj hstep).2
    -- the call that ends is the first one on the footing
    obtain rfl : gs = #[] := by
      rw [Array.size_append, Array.size_map] at hcalls
      exact Array.size_eq_zero_iff.mp (by omega)
    have hbase : f.base = 0 := (hparallel.rooted 0 f (by simp)).mpr rfl
    have hfree : us.length < m.stack.size := by
      rw [hon.size]
      omega
    refine ⟨v, rfl, ?_, h.globals, ?_⟩
    · show StackHas (m.stack.setIfInBounds (A.low + f.base - 1) v) (A.low + f.base) _
      rw [hlow, hbase]
      exact h.stack.push hfree v
    · simp

/-! ### How calls end -/

/-- The machine gets to another one by steps that go on, with more than `depth` calls open all the
time. -/
inductive Within (depth : Nat) (m : Machine) : Machine → Prop
  | here : depth < m.frames.size → Within depth m m
  | step {m₁ m₂ : Machine} : Within depth m m₁ → m₁.step = (none, m₂) → depth < m₂.frames.size →
      Within depth m m₂

/-- The call that the machine `m` is about to open is still open on the machine `m'`. -/
def During (m m' : Machine) : Prop := ∃ m₁, m.step = (none, m₁) ∧ Within m.frames.size m₁ m'

/-- How a run goes on until it falls back to `depth` open calls: it returns a value, or raises a
fault. -/
inductive Ends (depth : Nat) : Machine → Except Fault Value → Prop
  | returns {m m' : Machine} {v : Value} : m.step = (none, m') → m'.frames.size ≤ depth →
      m.returning? = some v → Ends depth m (.ok v)
  | fails {m m' : Machine} {e : RuntimeError} : m.step = (some (.failed e), m') →
      Ends depth m (.error e.fault)
  | goes {m m' : Machine} {r : Except Fault Value} : m.step = (none, m') →
      depth < m'.frames.size → Ends depth m' r → Ends depth m r

section

variable {depth : Nat} {r : Except Fault Value}

theorem Ends.of_goes (h : Ends depth m r) (hstep : m.step = (none, m'))
    (hcalls : depth < m'.frames.size) : Ends depth m' r := by
  cases h with
  | returns hstep' hsize =>
    rw [hstep] at hstep'
    cases hstep'
    exact absurd hcalls (Nat.not_lt.mpr hsize)
  | fails hstep' =>
    rw [hstep] at hstep'
    cases hstep'
  | goes hstep' _ hrest =>
    rw [hstep] at hstep'
    cases hstep'
    exact hrest

theorem Ends.of_returns (h : Ends depth m r) (hstep : m.step = (none, m'))
    (hcalls : m'.frames.size ≤ depth) {v : Value} (hv : m.returning? = some v) : r = .ok v := by
  cases h with
  | returns _ _ hv' =>
    rw [hv] at hv'
    rw [Option.some.inj hv']
  | fails hstep' =>
    rw [hstep] at hstep'
    cases hstep'
  | goes hstep' hsize =>
    rw [hstep] at hstep'
    cases hstep'
    exact absurd hsize (Nat.not_lt.mpr hcalls)

theorem Ends.of_fails (h : Ends depth m r) {e : RuntimeError}
    (hstep : m.step = (some (.failed e), m')) : r = .error e.fault := by
  cases h with
  | returns hstep' =>
    rw [hstep] at hstep'
    cases hstep'
  | fails hstep' =>
    rw [hstep] at hstep'
    cases hstep'
    rfl
  | goes hstep' =>
    rw [hstep] at hstep'
    cases hstep'

end

/-- The result is not that there is too little room. -/
def FindsRoom (r : Except Fault Value) : Prop := ∀ e, r = .error e → ¬e.isOverflow

/-- **Calls of the same function end alike**, wherever they stand. -/
theorem ends_alike (hbelow : A.below.size ≠ 0) (hbelow' : B.below.size ≠ 0) (hlow : 1 ≤ A.low)
    (hk : ∀ f, Value.function f ∈ k → f.Safe k.size) {r r' : Except Fault Value}
    (hends : Ends A.below.size m r) (hroom : FindsRoom r) (hroom' : FindsRoom r') (hm : m.Safe k)
    (h : ParallelFrom A B 0 m m') (hcalls : A.below.size < m.frames.size)
    (hends' : Ends B.below.size m' r') : r = r' := by
  induction hends generalizing m' with
  | @returns m m₁ v hstep hsize hv =>
    obtain ⟨gs, height, reach, -, h⟩ := h
    obtain ⟨gs, f, rfl⟩ := h.left.exists_push hcalls
    have hv' := (h.returning?_eq hlow (h.left.above hbelow hm)).trans hv
    rw [h.left.step_returning hbelow hv] at hstep
    obtain rfl := (Prod.mk.inj hstep).2
    rw [Array.size_append, Array.size_map] at hsize
    -- there is no inner call, so that the second call has ended, too
    refine (hends'.of_returns (h.right.step_returning hbelow' hv') ?_ hv').symm
    rw [Array.size_append, Array.size_map]
    omega
  | @fails m m₁ e hstep =>
    obtain ⟨gs, height, reach, -, h⟩ := h
    obtain ⟨gs, f, rfl⟩ := h.left.exists_push hcalls
    have hnone : m.returning? = none := by
      cases hv : m.returning? with
      | none => rfl
      | some v =>
        rw [h.left.step_returning hbelow hv] at hstep
        cases hstep
    have halike := h.steps (.inr ⟨hlow, h.left.above hbelow hm, by simp, .inl hnone⟩)
    rcases halike.of_stops hstep with ⟨e', he', hoverflow⟩ | ⟨m₁', hstep', -⟩
    · cases he'
      exact absurd hoverflow (hroom _ rfl)
    · exact (hends'.of_fails hstep').symm
  | @goes m m₁ r hstep hsize _ ih =>
    obtain ⟨gs, height, reach, -, h⟩ := h
    obtain ⟨gs, f, rfl⟩ := h.left.exists_push hcalls
    have hopen := h.left.not_returning hbelow hstep hsize
    have halike := h.steps (.inr ⟨hlow, h.left.above hbelow hm, by simp, hopen⟩)
    rcases halike.of_goes hstep with ⟨m₁', hstep', h₁⟩ | ⟨e, m₁', hstep', hoverflow, -⟩
    · have hsize' : B.below.size < m₁'.frames.size := by
        obtain ⟨gs₁, height₁, reach₁, -, h₁⟩ := h₁
        have hleft := h₁.left.size_frames
        have hright := h₁.right.size_frames
        omega
      exact ih hroom ((hm.steps hk).of_goes hstep).1 (h₁.mono (Nat.zero_le _)) hsize
        (hends'.of_goes hstep' hsize')
    · exact absurd hoverflow (hroom' _ (hends'.of_fails hstep'))

/-- Two calls of the same function with the same arguments start alike. -/
theorem Opened.parallel (h : Opened A g args m) (h' : Opened B g args m')
    (hconstants : m'.constants = m.constants) (hglobals : m'.globals = m.globals) :
    Parallel A B #[⟨g, 0, 0⟩] (max g.locals args.length) (max g.locals args.length) m m' where
  left := h.on
  right := h'.on
  constants := hconstants
  globals := hglobals
  height_le := Nat.le_refl _
  locals_le f hf := by
    obtain rfl : f = ⟨g, 0, 0⟩ := Array.mem_singleton.mp hf
    show 0 + g.locals ≤ _
    omega
  rooted := .singleton rfl
  stack i hi := (h'.stack i hi).trans (h.stack i hi).symm

/-- A call that has just been opened is inside. -/
theorem Opened.inside (h : Opened A g args m) (hm : m.Safe k) (hstack : StackHas m.stack us.length us) :
    m.Inside k A us m.globals where
  safe := hm
  parallel := (h.parallel h rfl rfl).from (Nat.zero_le _)
  calls := by
    rw [h.on.size_frames]
    exact Nat.lt_succ_self _
  globals := rfl
  stack := hstack

theorem Calls.size_below (h : m.Calls fs caller next us g args) :
    (m.callee fs caller next us).below.size = m.frames.size := by
  rw [h.frames, callee, Array.size_push, Array.size_push]

/-- All machines during a call are inside it. -/
theorem Calls.inside (h : m.Calls fs caller next us g args) (hm : m.Safe k) (hin : m.InBounds)
    (hk : ∀ f, Value.function f ∈ k → f.Safe k.size) (hduring : m.During m') :
    m'.Inside k (m.callee fs caller next us) us m.globals := by
  obtain ⟨m₁, hstep, hwithin⟩ := hduring
  have hbelow : (m.callee fs caller next us).below.size ≠ 0 := by simp [callee]
  induction hwithin with
  | here =>
    obtain ⟨-, hopened, -, hglobals, hstack⟩ := (h.steps hin).of_goes hstep
    have hinside := hopened.inside ((hm.steps hk).of_goes hstep).1 hstack
    rwa [hglobals] at hinside
  | step _ hstep' hcalls ih =>
    apply ih.goes hbelow rfl hk hstep'
    rwa [h.size_below]

/-- Two calls of the same function, with the same arguments and globals, end alike. -/
theorem Calls.ends_alike {fs' : Array Frame} {caller' : Frame} {next' : Nat} {us' : List Value}
    (h : m.Calls fs caller next us g args) (h' : m'.Calls fs' caller' next' us' g args)
    (hm : m.Safe k) (hm' : m'.Safe k) (hin : m.InBounds) (hin' : m'.InBounds)
    (hk : ∀ f, Value.function f ∈ k → f.Safe k.size) (hglobals : m'.globals = m.globals)
    {r r' : Except Fault Value} (hends : Ends m.frames.size m r) (hends' : Ends m'.frames.size m' r')
    (hroom : FindsRoom r) (hroom' : FindsRoom r') : r = r' := by
  have hbelow : (m.callee fs caller next us).below.size ≠ 0 := by simp [callee]
  have hbelow' : (m'.callee fs' caller' next' us').below.size ≠ 0 := by simp [callee]
  rcases (h.steps hin).cases with
    ⟨m₁, hstep, harity, hopened, hconstants₁, hglobals₁, -⟩ | ⟨e, m₁, hstep, hfault⟩ | ⟨_, _, hfalse⟩
  · rcases (h'.steps hin').cases with
      ⟨m₁', hstep', -, hopened', hconstants₁', hglobals₁', -⟩ | ⟨e', m₁', hstep', hfault'⟩ |
      ⟨_, _, hfalse⟩
    · -- both calls are opened
      have hparallel := hopened.parallel hopened'
        (by rw [hconstants₁', hconstants₁, hm'.constants, hm.constants])
        (by rw [hglobals₁', hglobals₁, hglobals])
      have hcalls : m.frames.size < m₁.frames.size := by
        rw [hopened.on.size_frames, h.size_below]
        exact Nat.lt_succ_self _
      have hcalls' : m'.frames.size < m₁'.frames.size := by
        rw [hopened'.on.size_frames, h'.size_below]
        exact Nat.lt_succ_self _
      have hrest := hends.of_goes hstep hcalls
      have hrest' := hends'.of_goes hstep' hcalls'
      rw [← h.size_below] at hrest hcalls
      rw [← h'.size_below] at hrest'
      exact Machine.ends_alike hbelow hbelow' (Nat.le_add_left 1 _) hk hrest hroom hroom'
        ((hm.steps hk).of_goes hstep).1 (hparallel.from (Nat.zero_le _)) hcalls hrest'
    · rcases hfault' with hoverflow | ⟨hwrong, -⟩
      · exact absurd hoverflow (hroom' _ (hends'.of_fails hstep'))
      · exact absurd harity hwrong
    · exact hfalse.elim
  · rcases hfault with hoverflow | ⟨hwrong, hfault⟩
    · exact absurd hoverflow (hroom _ (hends.of_fails hstep))
    rcases (h'.steps hin').cases with
      ⟨m₁', hstep', harity, -⟩ | ⟨e', m₁', hstep', hfault'⟩ | ⟨_, _, hfalse⟩
    · exact absurd harity hwrong
    · rcases hfault' with hoverflow | ⟨-, hfault'⟩
      · exact absurd hoverflow (hroom' _ (hends'.of_fails hstep'))
      · rw [hends.of_fails hstep, hends'.of_fails hstep', hfault, hfault']
    · exact hfalse.elim
  · exact hfalse.elim

end Machine

/-! ### Compiled programs -/

/-- Where a run of a compiled program gets to without stopping, the machine is safe and in bounds. -/
theorem Carried.run_unfinished {s : Scope} {k : Array Value} {p : Program} {c : Compilation}
    (h : Carried s k) (hadd : (Compilation.resume s k).add p = (.ok (), c)) {limits : Limits}
    {globals : Array (Option Value)}
    (hglobals : ∀ v, some v ∈ globals → v.All fun f => Value.function f ∈ k) {n : Nat} {m : Machine}
    (hrun : (Machine.start c.chunk globals limits).run n = (.unfinished, m)) :
    m.Safe c.constants ∧ m.InBounds := by
  have hstep : ∀ m : Machine, m.Safe c.constants ∧ m.InBounds →
      m.Steps (fun m' => m'.Safe c.constants ∧ m'.InBounds)
        (fun e m' => ∀ site ip, Outcome.failed ⟨e, site, ip⟩ = .unfinished →
          m'.Safe c.constants ∧ m'.InBounds)
        (fun m' => Outcome.finished = .unfinished → m'.Safe c.constants ∧ m'.InBounds) := by
    rintro m ⟨hm, hin⟩
    refine ((hm.steps (h.functions_safe hadd)).and hin.steps).mono ?_ ?_ ?_
    · intro m' hm'
      exact ⟨hm'.1.1, hm'.2.inBounds⟩
    · intro e m' _ site ip hunfinished
      cases hunfinished
    · intro m' _ hunfinished
      cases hunfinished
  have hend := Machine.run_spec (R := fun outcome m => outcome = .unfinished →
    m.Safe c.constants ∧ m.InBounds) hstep (fun m hm _ => hm)
    ⟨h.start_safe hadd limits hglobals, .start _ _ _⟩ n
  rw [hrun] at hend
  exact hend rfl

/-- **Calls are isolated.** Let a run of a compiled program get to a machine `m` that is about to call a
function. While the call is open, no step reads a slot below its first argument. When it returns, the values
`us` below the function are what they were, with the result on top of them, the globals and the calls that
wait are the same, and the caller goes on behind the call. And when another run of the same program gets
to a call of the same function with the same arguments and globals, then both calls come to the same result,
unless one of them runs out of room. -/
theorem Carried.call_isolated {s : Scope} {k : Array Value} {p : Program} {c : Compilation}
    (h : Carried s k) (hadd : (Compilation.resume s k).add p = (.ok (), c)) {limits : Limits}
    {globals : Array (Option Value)}
    (hglobals : ∀ v, some v ∈ globals → v.All fun f => Value.function f ∈ k) {n : Nat} {m : Machine}
    (hrun : (Machine.start c.chunk globals limits).run n = (.unfinished, m)) {fs : Array Frame}
    {caller : Frame} {next : Nat} {us : List Value} {f : Function} {args : List Value}
    (hcall : m.Calls fs caller next us f args) :
    (∀ m₁, m.During m₁ → m₁.stepChecked (us.length + 1) = some m₁.step) ∧
    (∀ m₁ m₂, m.During m₁ → m₁.step = (none, m₂) → m₂.frames.size ≤ m.frames.size →
      ∃ v, m₁.returning? = some v ∧ StackHas m₂.stack m₂.sp (us ++ [v]) ∧
        m₂.globals = m.globals ∧ m₂.frames = fs.push { caller with ip := next }) ∧
    ∀ (limits' : Limits) (globals' : Array (Option Value)) (n' : Nat) (m' : Machine)
      (fs' : Array Frame) (caller' : Frame) (next' : Nat) (us' : List Value),
      (∀ v, some v ∈ globals' → v.All fun f => Value.function f ∈ k) →
      (Machine.start c.chunk globals' limits').run n' = (.unfinished, m') →
      m'.Calls fs' caller' next' us' f args → m'.globals = m.globals →
      ∀ r r', Machine.Ends m.frames.size m r → Machine.Ends m'.frames.size m' r' →
        Machine.FindsRoom r → Machine.FindsRoom r' → r = r' := by
  have hk := h.functions_safe hadd
  obtain ⟨hm, hin⟩ := h.run_unfinished hadd hglobals hrun
  have hbelow : (m.callee fs caller next us).below.size ≠ 0 := by simp [Machine.callee]
  refine ⟨?_, ?_, ?_⟩
  · intro m₁ hduring
    exact (hcall.inside hm hin hk hduring).stepChecked hbelow
  · intro m₁ m₂ hduring hstep hcalls
    rw [← hcall.size_below] at hcalls
    exact (hcall.inside hm hin hk hduring).returns hbelow rfl hstep hcalls
  · intro limits' globals' n' m' fs' caller' next' us' hglobals' hrun' hcall' hsame r r' hends hends'
      hroom hroom'
    obtain ⟨hm', hin'⟩ := h.run_unfinished hadd hglobals' hrun'
    exact hcall.ends_alike hcall' hm hm' hin hin' hk hsame hends hends' hroom hroom'

/-- The program `1 + fn() { 2 }()`. -/
def Program.callInSum : Program where
  statements := [.expr default (.binary default .plus (.integer default 1)
    (.call default (.function default [] (.mk default [.expr default (.integer default 2)])) []))]

/-- The machine that runs it, about to call the function. -/
def Program.callInSumCalling (limits : Limits) : Machine :=
  ((Machine.start (Compilation.empty.add callInSum).2.chunk #[] limits).run 2).2

/-- The call returns after two more steps. It leaves `1` alone and gives `2`, and under other limits it
gives nothing else. -/
theorem Carried.call_isolated_callInSum :
    (∃ m₁ m₂ m₃ v, (Program.callInSumCalling ⟨8, 1, 2⟩).step = (none, m₁) ∧ m₁.step = (none, m₂) ∧
      m₂.step = (none, m₃) ∧ StackHas m₃.stack m₃.sp [.integer 1, v]) ∧
    ∀ r, (Program.callInSumCalling ⟨5, 1, 9⟩).Ends 1 r → Machine.FindsRoom r →
      r = .ok (.integer 2) := by
  have hadd : (Compilation.resume .empty #[]).add Program.callInSum =
      (.ok (), (Compilation.empty.add Program.callInSum).2) := Prod.ext (by decide) rfl
  have hglobals : ∀ v, some v ∈ (#[] : Array (Option Value)) →
      v.All fun f => Value.function f ∈ (#[] : Array Value) := by
    intro v hv
    cases Array.not_mem_empty _ hv
  have hroom : Machine.FindsRoom (.ok (.integer 2)) := by
    intro e he
    cases he
  have hrun : ∀ limits : Limits,
      ((Machine.start (Compilation.empty.add Program.callInSum).2.chunk #[] limits).run 2).1 =
        .unfinished →
      (Machine.start (Compilation.empty.add Program.callInSum).2.chunk #[] limits).run 2 =
        (.unfinished, Program.callInSumCalling limits) := by
    intro limits h
    rw [Program.callInSumCalling]
    exact Machine.run_eq_of_fst h
  -- both machines are about to carry out the instruction at the offset 6, with `1` below the function
  have hrunA := hrun ⟨8, 1, 2⟩ (by decide +kernel)
  have hrunB := hrun ⟨5, 1, 9⟩ (by decide +kernel)
  have hcallA : (Program.callInSumCalling ⟨8, 1, 2⟩).Calls #[]
      ⟨⟨0, #[0, 0, 0, 0, 0, 2, 21, 0, 1, 2], 0, 0, none⟩, 6, 0⟩ 8 [.integer 1]
      ⟨2, #[0, 0, 1, 22], 0, 0, none⟩ [] :=
    ⟨by decide +kernel, by decide, by decide, by decide +kernel, rfl⟩
  have hcallB : (Program.callInSumCalling ⟨5, 1, 9⟩).Calls #[]
      ⟨⟨0, #[0, 0, 0, 0, 0, 2, 21, 0, 1, 2], 0, 0, none⟩, 6, 0⟩ 8 [.integer 1]
      ⟨2, #[0, 0, 1, 22], 0, 0, none⟩ [] :=
    ⟨by decide +kernel, by decide, by decide, by decide +kernel, rfl⟩
  have hglobalsB : (Program.callInSumCalling ⟨5, 1, 9⟩).globals =
      (Program.callInSumCalling ⟨8, 1, 2⟩).globals := rfl
  -- the call is opened, `2` is pushed, and then returned
  have hsteps : ∃ m₁ m₂ m₃, (Program.callInSumCalling ⟨8, 1, 2⟩).step = (none, m₁) ∧
      m₁.step = (none, m₂) ∧ m₂.step = (none, m₃) ∧ 1 < m₁.frames.size ∧ 1 < m₂.frames.size ∧
      m₃.frames.size ≤ 1 ∧ m₂.returning? = some (.integer 2) :=
    ⟨_, _, _, Prod.ext (by decide +kernel) rfl, Prod.ext (by decide +kernel) rfl,
      Prod.ext (by decide +kernel) rfl, by decide +kernel, by decide +kernel, by decide +kernel, rfl⟩
  obtain ⟨m₁, m₂, m₃, hopens, hgoes, hreturns, hcalls₁, hcalls₂, hcalls₃, hvalue⟩ := hsteps
  have hdepth : (Program.callInSumCalling ⟨8, 1, 2⟩).frames.size = 1 := by decide +kernel
  have hdepth' : (Program.callInSumCalling ⟨5, 1, 9⟩).frames.size = 1 := by decide +kernel
  obtain ⟨-, hisolated, halike⟩ := Carried.call_isolated .nothing hadd hglobals hrunA hcallA
  generalize Program.callInSumCalling ⟨8, 1, 2⟩ = m at *
  generalize Program.callInSumCalling ⟨5, 1, 9⟩ = m' at *
  constructor
  · have hduring : m.During m₂ :=
      ⟨m₁, hopens, .step (.here (by omega)) hgoes (by omega)⟩
    obtain ⟨v, -, hstack, -⟩ := hisolated m₂ m₃ hduring hreturns (by omega)
    exact ⟨m₁, m₂, m₃, v, hopens, hgoes, hreturns, hstack⟩
  · intro r hends' hroom'
    have hends : m.Ends 1 (.ok (.integer 2)) :=
      .goes hopens hcalls₁ (.goes hgoes hcalls₂ (.returns hreturns hcalls₃ hvalue))
    rw [← hdepth] at hends
    rw [← hdepth'] at hends'
    exact (halike _ #[] 2 m' #[] _ 8 [.integer 1] hglobals hrunB hcallB hglobalsB _ r hends hends'
      hroom hroom').symm

end Monkey
