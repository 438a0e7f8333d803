import Monkey.Proofs.Isolation
import Monkey.Proofs.Locals

/-!
# What local names start from

When a call is opened, the arguments lie in its first slots, and the slots behind them are cleared. Until
something is stored in a slot, every read of it finds what was there at the start (`Machine.Keeps`), for
the operands of the call and the calls inside it all lie above its slots.

So a name that the body of a function binds starts from null, unless its slot is that of an argument, and
this can only be when a parameter is repeated (`Carried.locals_start`).
-/

namespace Monkey

/-! ### Frames above a slot -/

/-- Of the frames, the one with `depth` others below it has the given base, and a slot with the given
number, and the frames above it leave this slot alone. -/
structure Guarded (depth base slot : Nat) (frames : Array Frame) : Prop where
  own : ∃ f, frames[depth]? = some f ∧ f.base = base ∧ slot < f.function.locals
  above : ∀ (i : Nat) f, depth < i → frames[i]? = some f → base + slot + 2 ≤ f.base

namespace Guarded

variable {depth base slot : Nat} {fs : Array Frame} {f g : Frame}

theorem lt_size (h : Guarded depth base slot fs) : depth < fs.size := by
  obtain ⟨f, hf, -⟩ := h.own
  exact (Array.getElem?_eq_some_iff.mp hf).1

/-- There is no frame above the one on top. -/
theorem here (fs : Array Frame) (hslot : slot < f.function.locals) :
    Guarded fs.size f.base slot (fs.push f) := by
  refine ⟨⟨f, Array.getElem?_push_size, rfl, hslot⟩, ?_⟩
  intro i g hi hg
  obtain ⟨hlt, -⟩ := Array.getElem?_eq_some_iff.mp hg
  rw [Array.size_push] at hlt
  omega

/-- The frame on top is the one with the slot, or another one above it. -/
theorem last (h : Guarded depth base slot (fs.push f)) :
    (fs.size = depth ∧ f.base = base ∧ slot < f.function.locals) ∨
      (depth < fs.size ∧ base + slot + 2 ≤ f.base) := by
  have hle : depth < (fs.push f).size := h.lt_size
  rw [Array.size_push] at hle
  rcases Nat.lt_or_eq_of_le (Nat.le_of_lt_succ hle) with hlt | rfl
  · exact .inr ⟨hlt, h.above fs.size f hlt Array.getElem?_push_size⟩
  · obtain ⟨g, hg, hbase, hslot⟩ := h.own
    rw [Array.getElem?_push_size] at hg
    obtain rfl := Option.some.inj hg
    exact .inl ⟨rfl, hbase, hslot⟩

theorem push (h : Guarded depth base slot fs) (hg : base + slot + 2 ≤ g.base) :
    Guarded depth base slot (fs.push g) := by
  constructor
  · obtain ⟨f, hf, hown⟩ := h.own
    refine ⟨f, ?_, hown⟩
    rw [Array.getElem?_push, if_neg (Nat.ne_of_lt h.lt_size), hf]
  · intro i f hi hf
    rw [Array.getElem?_push] at hf
    split at hf
    · obtain rfl := Option.some.inj hf
      exact hg
    · exact h.above i f hi hf

theorem pop (h : Guarded depth base slot (fs.push f)) (hdepth : depth < fs.size) :
    Guarded depth base slot fs := by
  have hsame : ∀ (i : Nat) g, fs[i]? = some g → (fs.push f)[i]? = some g := by
    intro i g hg
    obtain ⟨hi, -⟩ := Array.getElem?_eq_some_iff.mp hg
    rw [Array.getElem?_push, if_neg (Nat.ne_of_lt hi), hg]
  constructor
  · obtain ⟨g, hg, hown⟩ := h.own
    rw [Array.getElem?_push, if_neg (Nat.ne_of_lt hdepth)] at hg
    exact ⟨g, hg, hown⟩
  · intro i g hi hg
    exact h.above i g hi (hsame i g hg)

/-- Going on at another place of the code changes nothing. -/
theorem goto (h : Guarded depth base slot (fs.push f)) (ip : Nat) :
    Guarded depth base slot (fs.push { f with ip }) := by
  rcases h.last with ⟨rfl, rfl, hslot⟩ | ⟨hdepth, habove⟩
  · exact here (f := { f with ip }) fs hslot
  · exact (h.pop hdepth).push habove

end Guarded

namespace Machine

variable {k : Array Value} {m m' : Machine} {depth base slot : Nat} {v : Value} {fs : Array Frame}
  {f : Frame}

/-! ### Reads and stores -/

/-- The machine is about to carry out an instruction of the call that has `depth` others below it. -/
def AboutTo (m : Machine) (depth : Nat) (op : Opcode) (operand : Nat) : Prop :=
  ∃ (fs : Array Frame) (f : Frame) (next : Nat), m.frames = fs.push f ∧ fs.size = depth ∧
    f.ip < f.function.code.size ∧ Code.fetch f.function.code f.ip = .ok (op, operand, next)

/-- The machine gets to another one by steps that go on. The call with `depth` others below it stays open
on the way, and stores nothing in the slot. -/
inductive Unstored (depth slot : Nat) (m : Machine) : Machine → Prop
  | here : Unstored depth slot m m
  | step {m₁ m₂ : Machine} : Unstored depth slot m m₁ → ¬m₁.AboutTo depth .setLocal slot →
      m₁.step = (none, m₂) → depth < m₂.frames.size → Unstored depth slot m m₂

/-- The call with `depth` others below it has the value in its slot, and the calls inside it leave it
there. -/
structure Keeps (k : Array Value) (depth base slot : Nat) (v : Value) (m : Machine) : Prop where
  safe : m.Safe k
  inBounds : m.InBounds
  guarded : Guarded depth base slot m.frames
  value : m.stack[base + slot]? = some v

/-- A store into a slot leaves the others alone. -/
theorem steps_setLocal {operand next : Nat} (hframes : m.frames = fs.push f)
    (hlt : f.ip < f.function.code.size)
    (hfetch : Code.fetch f.function.code f.ip = .ok (.setLocal, operand, next)) :
    m.Steps (fun m' => ∀ i, i ≠ f.base + operand → m'.stack[i]? = m.stack[i]?) (fun _ _ => True)
      (fun _ => False) := by
  rw [steps_instruction hframes hlt hfetch, Executing.execute, Executing.ensures_bind,
    Executing.ensures_pop]
  split
  · trivial
  · rw [Executing.ensures_bind, Executing.ensures_localSlot]
    split
    · intro i hi
      dsimp only
      rw [Array.back?_push]
      exact Array.getElem?_setIfInBounds_ne (Ne.symm hi)
    · trivial

/-- A step of a call that goes on with the call is an instruction, and not a return. -/
theorem exists_fetch_of_open (hm : m.Safe k) (hin : m.InBounds) (hframes : m.frames = fs.push f)
    (hfs : fs.size ≠ 0) (hstep : m.step = (none, m')) (hopen : fs.size < m'.frames.size) :
    ∃ op operand next, f.ip < f.function.code.size ∧
      Code.fetch f.function.code f.ip = .ok (op, operand, next) ∧ op ≠ .returnValue ∧ op ≠ .ret := by
  have hbase := hin.base_pos hframes hfs
  have hsp : m.sp ≠ 0 := by
    obtain ⟨height, -, hsp, -⟩ := hm.inner hframes hfs
    rw [Frame.floor] at hsp
    omega
  -- a return would close the call
  have hnone : m.returning? = none := by
    cases hv : m.returning? with
    | none => rfl
    | some v =>
      rw [step_returning hin hframes hfs hv] at hstep
      obtain rfl := (Prod.mk.inj hstep).2
      exact absurd hopen (Nat.lt_irrefl _)
  by_cases hlt : f.ip < f.function.code.size
  · cases hfetch : Code.fetch f.function.code f.ip with
    | error e =>
      rw [step_malformed hframes hlt hfetch] at hstep
      cases hstep
    | ok instruction =>
      obtain ⟨op, operand, next⟩ := instruction
      have hne : ¬(op = .returnValue ∨ op = .ret) := fun hop =>
        returning?_ne_none hframes hsp hin.sp_le (.inr ⟨op, operand, next, hfetch, hop⟩) hnone
      exact ⟨op, operand, next, hlt, rfl, fun h => hne (.inl h), fun h => hne (.inr h)⟩
  · exact absurd hnone
      (returning?_ne_none hframes hsp hin.sp_le (.inl (Nat.le_of_not_lt hlt)))

/-- A step of the call with the slot keeps the value, unless it is a store into this slot. -/
theorem Keeps.value_own (h : m.Keeps k depth base slot v) (hdepth : depth ≠ 0)
    (hframes : m.frames = fs.push f) (hown : fs.size = depth) (hbase : f.base = base)
    (hslot : slot < f.function.locals) (hstore : ¬m.AboutTo depth .setLocal slot)
    (hstep : m.step = (none, m')) (hopen : depth < m'.frames.size) :
    m'.stack[base + slot]? = some v := by
  have hfs : fs.size ≠ 0 := hown ▸ hdepth
  obtain ⟨op, operand, next, hlt, hfetch, hreturns⟩ :=
    exists_fetch_of_open h.safe h.inBounds hframes hfs hstep (hown ▸ hopen)
  rw [← h.value]
  by_cases hset : op = .setLocal
  · -- it stores in another slot
    subst hset
    have hne : operand ≠ slot := by
      rintro rfl
      exact hstore ⟨fs, f, next, hframes, hown, hlt, hfetch⟩
    exact (steps_setLocal hframes hlt hfetch).of_goes hstep _ (by omega)
  · -- it changes the stack above the slots of the call only
    have hfloor := h.safe.floor_le hframes hfs hlt hfetch
    rw [Frame.floor] at hfloor
    have hlow : base + slot + 1 ≤ m.sp - op.pops operand := by omega
    have hconfined := Executing.execute_confined_stack (h.inBounds.goto hframes next) rfl
      ⟨hreturns.1, hreturns.2, hset⟩ hlow
    have hsteps : m.Steps (fun m' => ∀ i < base + slot + 1, m'.stack[i]? = m.stack[i]?)
        (fun _ _ => True) (fun _ => False) := by
      rw [steps_instruction hframes hlt hfetch]
      exact hconfined.mono (fun _ m' h' => h'.below) fun _ _ _ => trivial
    exact hsteps.of_goes hstep _ (Nat.lt_succ_self _)

/-- A step of a call inside the one with the slot keeps the value. -/
theorem Keeps.value_inner (h : m.Keeps k depth base slot v) (hframes : m.frames = fs.push f)
    (hfs : fs.size ≠ 0) (habove : base + slot + 2 ≤ f.base) (hstep : m.step = (none, m')) :
    m'.stack[base + slot]? = some v := by
  -- the slot lies below all that a call inside the one it belongs to can reach
  have hconfined : m.Steps (m.Confined (base + slot + 1)) (fun _ => m.Confined (base + slot + 1))
      (m.Confined (base + slot + 1)) := by
    apply steps_confined h.inBounds (h.safe.above hframes hfs (by omega))
    intro gs g hgs
    obtain ⟨rfl, rfl⟩ := Array.push_eq_push.mp (hframes.symm.trans hgs)
    exact ⟨by omega, fun hzero => absurd hzero hfs⟩
  rw [(hconfined.of_goes hstep).below _ (Nat.lt_succ_self _), h.value]

/-- A step leaves the calls above the slot there. -/
theorem Keeps.guarded_step (h : m.Keeps k depth base slot v) (hdepth : depth ≠ 0)
    (hstep : m.step = (none, m')) (hopen : depth < m'.frames.size) :
    Guarded depth base slot m'.frames := by
  have hguarded := h.guarded
  cases m.next with
  | done hframes =>
    rw [step_done hframes] at hstep
    cases hstep
  | malformed fs f e hframes hlt hfetch =>
    rw [step_malformed hframes hlt hfetch] at hstep
    cases hstep
  | ended fs f hframes hge =>
    obtain ⟨-, -, -, hframes', -⟩ := (steps_ended h.safe.holds hframes hge).of_goes hstep
    rw [hframes'] at hopen ⊢
    rw [hframes] at hguarded
    exact hguarded.pop hopen
  | instruction fs f op operand next hframes hlt hfetch =>
    rw [hframes] at hguarded
    obtain ⟨-, -, hmoves⟩ := (steps_fetched h.safe.holds hframes hlt hfetch).of_goes hstep
    cases hmoves with
    | next _ hframes' =>
      rw [hframes']
      exact hguarded.goto next
    | jump _ hframes' =>
      rw [hframes']
      exact hguarded.goto operand
    | call g hop _ _ _ hframes' =>
      rw [hframes']
      refine (hguarded.goto next).push ?_
      -- the arguments lie above the slots of the caller, and so does the function
      have hle : depth < (fs.push f).size := hguarded.lt_size
      rw [Array.size_push] at hle
      have hfloor := h.safe.floor_le hframes (by omega) hlt hfetch
      rw [Frame.floor, hop, Opcode.pops] at hfloor
      rcases hguarded.last with ⟨-, hbase, hslot⟩ | ⟨-, habove⟩
      · dsimp only
        omega
      · dsimp only
        omega
    | leave _ hframes' =>
      rw [hframes'] at hopen ⊢
      exact hguarded.pop hopen

/-- **A step keeps the value**, unless it is a store into the slot. -/
theorem Keeps.step (h : m.Keeps k depth base slot v) (hdepth : depth ≠ 0)
    (hk : ∀ f, Value.function f ∈ k → f.Safe k.size) (hstore : ¬m.AboutTo depth .setLocal slot)
    (hstep : m.step = (none, m')) (hopen : depth < m'.frames.size) :
    m'.Keeps k depth base slot v where
  safe := ((h.safe.steps hk).of_goes hstep).1
  inBounds := (h.inBounds.steps.of_goes hstep).inBounds
  guarded := h.guarded_step hdepth hstep hopen
  value := by
    have hne : m.frames ≠ #[] := by
      intro hempty
      rw [step_done hempty] at hstep
      cases hstep
    obtain ⟨fs, f, hframes⟩ := Array.exists_push_of_ne_empty hne
    have hguarded := h.guarded
    rw [hframes] at hguarded
    rcases hguarded.last with ⟨hown, hbase, hslot⟩ | ⟨hinner, habove⟩
    · exact h.value_own hdepth hframes hown hbase hslot hstore hstep hopen
    · exact h.value_inner hframes (by omega) habove hstep

/-- **As long as nothing is stored in the slot, it keeps the value.** -/
theorem Unstored.keeps (h : m.Unstored depth slot m') (hm : m.Keeps k depth base slot v)
    (hdepth : depth ≠ 0) (hk : ∀ f, Value.function f ∈ k → f.Safe k.size) :
    m'.Keeps k depth base slot v := by
  induction h with
  | here => exact hm
  | step _ hstore hstep hopen ih => exact ih.step hdepth hk hstore hstep hopen

/-- A read of the slot finds the value, if there is room for it. -/
theorem Keeps.reads (h : m.Keeps k depth base slot v) (hread : m.AboutTo depth .getLocal slot) :
    m.Steps (fun m' => m'.top? = some v) (fun e _ => e = .stackOverflow) fun _ => False := by
  obtain ⟨fs, f, next, hframes, rfl, hlt, hfetch⟩ := hread
  have hguarded := h.guarded
  rw [hframes] at hguarded
  obtain ⟨-, hbase, hslot⟩ | ⟨hinner, -⟩ := hguarded.last
  · rw [steps_instruction hframes hlt hfetch, Executing.execute, Executing.ensures_bind,
      Executing.ensures_localSlot]
    dsimp only
    rw [Array.back?_push, Option.getD_some, if_pos hslot, Executing.ensures_bind,
      Executing.ensures_get, Executing.ensures_push, hbase]
    split
    · next hroom =>
      rw [top?, if_neg (Nat.succ_ne_zero _), Nat.add_sub_cancel, Array.getElem?_setIfInBounds_self,
        if_pos hroom, Array.getD_eq_getD_getElem?, h.value]
      rfl
    · trivial
  · exact absurd hinner (Nat.lt_irrefl _)

/-- A call that has just been opened starts with its arguments, and with null in its other slots. -/
theorem Opened.keeps {A : Footing} {g : Function} {args : List Value} (h : Opened A g args m)
    (hm : m.Safe k) (hslot : slot < g.locals) :
    m.Keeps k A.below.size A.low slot (args.getD slot .null) := by
  have hon : m.On A (Array.push #[] ⟨g, 0, 0⟩) (max g.locals args.length) := h.on
  refine ⟨hm, hon.inBounds, ?_, ?_⟩
  · have hframe : slot < (Frame.raise A.low ⟨g, 0, 0⟩).function.locals := hslot
    have hguarded := Guarded.here A.below hframe
    rw [hon.frames_push]
    simpa [Frame.raise] using hguarded
  · have hroom := hon.locals_le
    have hlt : A.low + slot < m.stack.size := by
      rw [hon.size]
      dsimp only at hroom
      omega
    have hvalue := h.stack slot (Nat.lt_of_lt_of_le hslot (Nat.le_max_left _ _))
    rw [Array.getD_eq_getD_getElem?, Array.getElem?_eq_getElem hlt] at hvalue
    rw [Array.getElem?_eq_getElem hlt]
    exact congrArg some hvalue

end Machine

/-! ### Compiled programs -/

/-- Whatever program of whatever session calls the function, a read of the slot finds the value that
`first` gives for the arguments, as long as the call has stored nothing there. -/
def Function.Starts (f : Function) (slot : Nat) (first : List Value → Value) : Prop :=
  ∀ (s : Scope) (k : Array Value) (p : Program) (c : Compilation), Carried s k →
    (Compilation.resume s k).add p = (.ok (), c) →
    ∀ (limits : Limits) (globals : Array (Option Value)),
      (∀ v, some v ∈ globals → v.All fun f => Value.function f ∈ k) →
      ∀ (n : Nat) (m m₁ m₂ : Machine) (fs : Array Frame) (caller : Frame) (next : Nat)
        (us args : List Value),
        (Machine.start c.chunk globals limits).run n = (.unfinished, m) →
        m.Calls fs caller next us f args → m.step = (none, m₁) →
        m₁.Unstored m.frames.size slot m₂ → m₂.AboutTo m.frames.size .getLocal slot →
        m₂.Steps (fun m₃ => m₃.top? = some (first args)) (fun e _ => e = .stackOverflow)
          fun _ => False

/-- A slot starts from the argument with its number, and from null when there is none. -/
theorem Function.starts_getD {f : Function} {slot : Nat} (hslot : slot < f.locals) :
    f.Starts slot fun args => args.getD slot .null := by
  intro s k p c h hadd limits globals hglobals n m m₁ m₂ fs caller next us args hrun hcall hstep
    hunstored hread
  have hk := h.functions_safe hadd
  obtain ⟨hm, hin⟩ := h.run_unfinished hadd hglobals hrun
  obtain ⟨-, hopened, -⟩ := (hcall.steps hin).of_goes hstep
  have hkeeps := hopened.keeps ((hm.steps hk).of_goes hstep).1 hslot
  rw [hcall.size_below] at hkeeps
  have hdepth : m.frames.size ≠ 0 := by
    rw [hcall.frames, Array.size_push]
    exact Nat.succ_ne_zero _
  exact (hunstored.keeps hkeeps hdepth hk).reads hread

/-- A slot behind the arguments starts from null. -/
theorem Function.starts_null {f : Function} {slot : Nat} (hslot : slot < f.locals)
    (hparameters : f.parameters ≤ slot) : f.Starts slot fun _ => .null := by
  intro s k p c h hadd limits globals hglobals n m m₁ m₂ fs caller next us args hrun hcall hstep
    hunstored hread
  obtain ⟨-, hin⟩ := h.run_unfinished hadd hglobals hrun
  obtain ⟨harity, -⟩ := (hcall.steps hin).of_goes hstep
  have hfirst := Function.starts_getD hslot s k p c h hadd limits globals hglobals n m m₁ m₂ fs caller
    next us args hrun hcall hstep hunstored hread
  have hnull : args.getD slot .null = .null := by
    rw [List.getD_eq_getElem?_getD, List.getElem?_eq_none (by omega)]
    rfl
  show m₂.Steps (fun m₃ => m₃.top? = some .null) _ _
  rw [← hnull]
  exact hfirst

/-- Every name that the body of the function literal binds and that is no parameter has a slot in the
function, which starts from the value that `first` gives for the slot and the arguments. -/
def Function.LocalsStart (f : Function) (literal : List Ident × Block)
    (first : Nat → List Value → Value) : Prop :=
  ∀ x, Mark.bound x ∈ literal.2.marks → x ∉ literal.1.map Ident.name →
    ∃ slot, f.HasLocal literal x slot ∧ f.Starts slot (first slot)

/-- The machine that runs a compilation on a small stack, after a number of steps. -/
def Compilation.machineAfter (c : Compilation) (n : Nat) : Machine :=
  ((Machine.start c.chunk #[] ⟨8, 1, 2⟩).run n).2

/-- What a function reads from a slot with its first instruction. -/
theorem Function.Starts.first_read {f : Function} {slot : Nat} {first : List Value → Value}
    (h : f.Starts slot first) {p : Program} {c : Compilation}
    (hadd : (Compilation.resume .empty #[]).add p = (.ok (), c)) {n : Nat}
    (hrun : ((Machine.start c.chunk #[] ⟨8, 1, 2⟩).run n).1 = .unfinished) {fs : Array Frame}
    {caller : Frame} {next : Nat} {us args : List Value}
    (hcall : (c.machineAfter n).Calls fs caller next us f args)
    (hopens : (c.machineAfter n).step.1 = none) (hgoes : (c.machineAfter n).step.2.step.1 = none)
    (hread : (c.machineAfter n).step.2.AboutTo (c.machineAfter n).frames.size .getLocal slot) :
    (c.machineAfter n).step.2.step.2.top? = some (first args) := by
  have hglobals : ∀ v, some v ∈ (#[] : Array (Option Value)) →
      v.All fun f => Value.function f ∈ (#[] : Array Value) := by
    intro v hv
    cases Array.not_mem_empty _ hv
  have hsteps := h _ _ p c .nothing hadd ⟨8, 1, 2⟩ #[] hglobals n _ _ _ fs caller next us args
    (Machine.run_eq_of_fst hrun) hcall (Prod.ext hopens rfl) .here hread
  exact hsteps.of_goes (Prod.ext hgoes rfl)

/-- **What local names start from.** A program compiles to its function literals, in the order of their
ends. In a call of one of them a read of a name that the body binds, before the call has stored something
in the slot of the name, gives null when no parameter of the function is repeated. Otherwise it gives the
argument with the number of the slot, and null if there is none. -/
theorem Carried.locals_start {s : Scope} {k : Array Value} {p : Program} {c : Compilation}
    (h : Carried s k) (hadd : (Compilation.resume s k).add p = (.ok (), c)) :
    ∃ added, c.chunk.constants.toList = k.toList ++ added ∧
      List.Forall₂ (fun f literal =>
          (f.LocalsStart literal fun slot args => args.getD slot .null) ∧
          ((literal.1.map Ident.name).Nodup → f.LocalsStart literal fun _ _ => .null))
        (added.filterMap Value.function?) p.functions := by
  obtain ⟨added, hconstants, hfunctions⟩ := h.compiles hadd
  refine ⟨added, hconstants, hfunctions.imp ?_⟩
  rintro f literal ⟨names, hcompiles⟩
  constructor
  · intro x hx hparameter
    obtain ⟨slot, hlocal, hslot, -⟩ := hcompiles.exists_slot hx hparameter
    exact ⟨slot, hlocal, Function.starts_getD hslot⟩
  · intro hnodup x hx hparameter
    obtain ⟨slot, hlocal, hslot, hbehind⟩ := hcompiles.exists_slot hx hparameter
    exact ⟨slot, hlocal, Function.starts_null hslot (hbehind hnodup)⟩

/-- In the call `fn(x) { let b = b; b }(1)` the first instruction reads null. -/
theorem Carried.locals_start_selfBound :
    ∃ m₁ m₂, (Compilation.selfBoundOne.machineAfter 2).step = (none, m₁) ∧ m₁.step = (none, m₂) ∧
      m₂.top? = some .null := by
  obtain ⟨added, hconstants, hlocals⟩ := Carried.locals_start .nothing Program.add_selfBound_one
  -- the one function of the program, and the slot of the name in it
  obtain rfl : [.function (.selfBound 1), .integer 1] = added := hconstants
  obtain ⟨⟨-, hnull⟩, -⟩ := List.forall₂_cons.mp hlocals
  obtain ⟨slot, hlocal, hstarts⟩ := hnull (by decide) "b" (by decide) (by decide)
  obtain rfl : slot = 1 := hlocal.selfBound
  have hcall : (Compilation.selfBoundOne.machineAfter 2).Calls #[]
      ⟨⟨0, #[0, 0, 0, 0, 0, 1, 21, 1, 2], 0, 0, none⟩, 6, 0⟩ 8 [] (.selfBound 1) [.integer 1] :=
    ⟨by decide +kernel, by decide, by decide, by decide +kernel, rfl⟩
  have hopens : (Compilation.selfBoundOne.machineAfter 2).step.1 = none := by decide +kernel
  have hgoes : (Compilation.selfBoundOne.machineAfter 2).step.2.step.1 = none := by decide +kernel
  have hread : (Compilation.selfBoundOne.machineAfter 2).step.2.AboutTo
      (Compilation.selfBoundOne.machineAfter 2).frames.size .getLocal 1 :=
    ⟨#[⟨⟨0, #[0, 0, 0, 0, 0, 1, 21, 1, 2], 0, 0, none⟩, 8, 0⟩], ⟨.selfBound 1, 0, 1⟩, 2,
      by decide +kernel, by decide +kernel, by decide, by decide⟩
  have htop := hstarts.first_read Program.add_selfBound_one (by decide +kernel) hcall hopens hgoes
    hread
  exact ⟨_, _, Prod.ext hopens rfl, Prod.ext hgoes rfl, htop⟩

/-- In the call `fn(x, x) { let b = b; b }(1, 2)` it reads the second argument, for the two parameters
have one slot, and the name has the next. -/
theorem Function.locals_start_repeated :
    (Compilation.resume .empty #[]).add (.selfBound [1, 2]) = (.ok (), .selfBoundTwo) ∧
      (Program.selfBound [1, 2]).functions = [([.named "x", .named "x"], Block.selfBound)] ∧
      ¬Function.LocalsStart (.selfBound 2) ([.named "x", .named "x"], Block.selfBound)
        fun _ _ => .null := by
  refine ⟨Program.add_selfBound_two, rfl, fun hnull => ?_⟩
  obtain ⟨slot, hlocal, hstarts⟩ := hnull "b" (by decide) (by decide)
  obtain rfl : slot = 1 := hlocal.selfBound
  have hcall : (Compilation.selfBoundTwo.machineAfter 3).Calls #[]
      ⟨⟨0, #[0, 0, 0, 0, 0, 1, 0, 0, 2, 21, 2, 2], 0, 0, none⟩, 9, 0⟩ 11 [] (.selfBound 2)
      [.integer 1, .integer 2] :=
    ⟨by decide +kernel, by decide, by decide, by decide +kernel, rfl⟩
  have hopens : (Compilation.selfBoundTwo.machineAfter 3).step.1 = none := by decide +kernel
  have hgoes : (Compilation.selfBoundTwo.machineAfter 3).step.2.step.1 = none := by decide +kernel
  have hread : (Compilation.selfBoundTwo.machineAfter 3).step.2.AboutTo
      (Compilation.selfBoundTwo.machineAfter 3).frames.size .getLocal 1 :=
    ⟨#[⟨⟨0, #[0, 0, 0, 0, 0, 1, 0, 0, 2, 21, 2, 2], 0, 0, none⟩, 11, 0⟩], ⟨.selfBound 2, 0, 1⟩, 2,
      by decide +kernel, by decide +kernel, by decide, by decide⟩
  -- what is read is the second argument in any case, so it cannot be null
  have htop : ∀ first, Function.Starts (.selfBound 2) 1 first →
      (Compilation.selfBoundTwo.machineAfter 3).step.2.step.2.top? =
        some (first [.integer 1, .integer 2]) := by
    intro first hfirst
    exact hfirst.first_read Program.add_selfBound_two (by decide +kernel) hcall hopens hgoes hread
  have hargument := htop _ (Function.starts_getD (by decide))
  exact Value.noConfusion (Option.some.inj (hargument.symm.trans (htop _ hstarts)))

end Monkey
