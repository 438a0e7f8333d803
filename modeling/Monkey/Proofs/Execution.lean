import Monkey.Machine.Step
import Monkey.Proofs.Steps

/-!
# What an instruction does

`Executing.Ensures` says of a step of running code what holds when it succeeds and what holds when it
raises a fault. Every primitive has a lemma that opens it, so that a statement about an instruction
comes down to one about machines. A machine with a frame on top carries out the instruction that this
frame stands at (`Machine.step_eq`).
-/

namespace Monkey

namespace Executing

variable {α β : Type} {m : Machine} {E : Fault → Machine → Prop}

/-- When the step `x` succeeds on `m` then `Q` holds of its result and of the machine it leaves, and
when it raises a fault then `E` does. -/
def Ensures (x : Executing α) (m : Machine) (Q : α → Machine → Prop) (E : Fault → Machine → Prop) :
    Prop :=
  match x.run.run m with
  | (.ok a, m') => Q a m'
  | (.error e, m') => E e m'

theorem Ensures.mono {x : Executing α} {Q Q' : α → Machine → Prop} {E' : Fault → Machine → Prop}
    (h : x.Ensures m Q E) (hQ : ∀ a m', Q a m' → Q' a m') (hE : ∀ e m', E e m' → E' e m') :
    x.Ensures m Q' E' := by
  unfold Ensures at h ⊢
  split at h
  · exact hQ _ _ h
  · exact hE _ _ h

theorem Ensures.and {x : Executing α} {Q Q' : α → Machine → Prop} {E' : Fault → Machine → Prop}
    (h : x.Ensures m Q E) (h' : x.Ensures m Q' E') :
    x.Ensures m (fun a m' => Q a m' ∧ Q' a m') (fun e m' => E e m' ∧ E' e m') := by
  unfold Ensures at h h' ⊢
  revert h h'
  cases x.run.run m with
  | mk r m' =>
    intro h h'
    cases r with
    | ok a => exact ⟨h, h'⟩
    | error e => exact ⟨h, h'⟩

theorem ensures_trivial (x : Executing α) :
    x.Ensures m (fun _ _ => True) (fun _ _ => True) := by
  unfold Ensures
  split <;> trivial

@[simp] theorem ensures_pure {a : α} {Q : α → Machine → Prop} :
    (pure a : Executing α).Ensures m Q E ↔ Q a m := Iff.rfl

@[simp] theorem ensures_throw {e : Fault} {Q : α → Machine → Prop} :
    (throw e : Executing α).Ensures m Q E ↔ E e m := Iff.rfl

@[simp] theorem ensures_get {Q : Machine → Machine → Prop} :
    (get : Executing Machine).Ensures m Q E ↔ Q m m := Iff.rfl

@[simp] theorem ensures_set {m' : Machine} {Q : Unit → Machine → Prop} :
    (set m' : Executing PUnit).Ensures m Q E ↔ Q () m' := Iff.rfl

@[simp] theorem ensures_modify {f : Machine → Machine} {Q : Unit → Machine → Prop} :
    (modify f : Executing PUnit).Ensures m Q E ↔ Q () (f m) := Iff.rfl

@[simp] theorem ensures_bind {x : Executing α} {f : α → Executing β} {Q : β → Machine → Prop} :
    (x >>= f).Ensures m Q E ↔ x.Ensures m (fun a m' => (f a).Ensures m' Q E) E := by
  unfold Ensures
  rw [run_bind]
  cases x.run.run m with
  | mk r m' => cases r <;> rfl

/-! ### Primitives -/

variable {Q : Unit → Machine → Prop}

@[simp] theorem ensures_push {v : Value} :
    (push v).Ensures m Q E ↔
      if m.sp < m.stack.size then
        Q () { m with stack := m.stack.setIfInBounds m.sp v, sp := m.sp + 1 }
      else E .stackOverflow m := by
  simp only [push, ensures_bind, ensures_get]
  split <;> simp

@[simp] theorem ensures_pop {Q : Value → Machine → Prop} :
    pop.Ensures m Q E ↔
      if m.sp = 0 then E .stackUnderflow m
      else Q (m.stack.getD (m.sp - 1) .null) { m with sp := m.sp - 1 } := by
  simp only [pop, ensures_bind, ensures_get]
  split
  · rfl
  · simp only [ensures_bind, ensures_set, ensures_pure]

@[simp] theorem ensures_popMany {count : Nat} {Q : List Value → Machine → Prop} :
    (popMany count).Ensures m Q E ↔
      if m.sp < count then E .stackUnderflow m
      else Q (m.stack.extract (m.sp - count) m.sp).toList { m with sp := m.sp - count } := by
  simp only [popMany, ensures_bind, ensures_get]
  split
  · rfl
  · simp only [ensures_bind, ensures_set, ensures_pure]

@[simp] theorem ensures_jump {target : Nat} :
    (jump target).Ensures m Q E ↔
      Q () { m with frames := m.frames.modify (m.frames.size - 1) fun f => { f with ip := target } } :=
  Iff.rfl

@[simp] theorem ensures_localSlot {slot : Nat} {Q : Nat → Machine → Prop} :
    (localSlot slot).Ensures m Q E ↔
      if slot < (m.frames.back?.getD default).function.locals then
        Q ((m.frames.back?.getD default).base + slot) m
      else E (.localOutOfRange slot) m := by
  simp only [localSlot, ensures_bind, ensures_get]
  split <;> simp

/-- Pushes the result of an operator, or raises the fault that it is. -/
def give (r : Except Fault Value) : Executing Unit :=
  match r with
  | .ok v => push v
  | .error e => throw e

/-- Two operands are taken off the stack before the operator is applied. -/
theorem ensures_binary {f : Value → Value → Except Fault Value} :
    (binary f).Ensures m Q E ↔
      if m.sp < 2 then E .stackUnderflow { m with sp := 0 }
      else
        (give (f (m.stack.getD (m.sp - 2) .null) (m.stack.getD (m.sp - 1) .null))).Ensures
          { m with sp := m.sp - 2 } Q E := by
  simp only [binary, ensures_bind, ensures_pop]
  by_cases h : 2 ≤ m.sp
  · rw [if_neg (by omega), if_neg (by omega), if_neg (by omega), Nat.sub_sub]
    cases f (m.stack.getD (m.sp - 2) .null) (m.stack.getD (m.sp - 1) .null) <;> exact Iff.rfl
  · rw [if_pos (by omega : m.sp < 2), if_pos (by omega : m.sp - 1 = 0)]
    obtain ⟨constants, stack, sp, globals, frames, maxFrames⟩ := m
    obtain rfl | rfl : sp = 0 ∨ sp = 1 := by
      change ¬2 ≤ sp at h
      omega
    · exact Iff.rfl
    · exact Iff.rfl

theorem ensures_unary {f : Value → Except Fault Value} :
    (unary f).Ensures m Q E ↔
      if m.sp = 0 then E .stackUnderflow m
      else (give (f (m.stack.getD (m.sp - 1) .null))).Ensures { m with sp := m.sp - 1 } Q E := by
  simp only [unary, ensures_bind, ensures_pop]
  cases f (m.stack.getD (m.sp - 1) .null) <;> exact Iff.rfl

theorem ensures_leave {v : Value} {fs : Array Frame} {f : Frame} (h : m.frames = fs.push f) :
    (leave v).Ensures m Q E ↔
      if fs.size = 0 then
        Q () { m with frames := fs, sp := 0, stack := m.stack.setIfInBounds 0 v }
      else
        (push v).Ensures { m with frames := fs, sp := f.base - 1 } Q E := by
  simp only [leave, ensures_bind, ensures_get, h, Array.back?_push, Array.size_push,
    Nat.add_eq_right, Array.pop_push]
  split
  · exact Iff.rfl
  · exact Iff.rfl

theorem ensures_call {count : Nat} :
    (call count).Ensures m Q E ↔
      if m.sp ≤ count then E .stackUnderflow m
      else
        match m.stack.getD (m.sp - 1 - count) .null with
        | .function f =>
          if count ≠ f.parameters then E (.wrongArity f.parameters count) m
          else if m.maxFrames ≤ m.frames.size then E (.frameOverflow m.maxFrames) m
          else if m.stack.size < m.sp - count + max f.locals count then E .stackOverflow m
          else
            Q () { m with
              stack := clearSlots m.stack m.sp (m.sp - count + max f.locals count - m.sp)
              sp := m.sp - count + max f.locals count
              frames := m.frames.push ⟨f, 0, m.sp - count⟩ }
        | v => E (.notCallable v.type) m := by
  simp only [call, ensures_bind, ensures_get]
  split
  · rfl
  · cases m.stack.getD (m.sp - 1 - count) .null with
    | function f =>
      dsimp only
      split
      · rfl
      · split
        · rfl
        · split <;> rfl
    | integer n => rfl
    | boolean b => rfl
    | string s => rfl
    | array vs => rfl
    | hash es => rfl
    | null => rfl

end Executing

/-! ### Frames -/

/-- The frame on top goes on at another offset. -/
theorem modify_last_ip (fs : Array Frame) (f : Frame) (ip : Nat) :
    (fs.push f).modify ((fs.push f).size - 1) (fun f => { f with ip }) = fs.push { f with ip } := by
  rw [Array.size_push, Nat.add_sub_cancel]
  apply Array.ext_getElem?
  intro i
  rw [Array.getElem?_modify, Array.getElem?_push, Array.getElem?_push]
  split
  · next h =>
    subst h
    simp
  · next h =>
    rw [if_neg (Ne.symm h), if_neg (Ne.symm h)]

/-! ### Steps and runs -/

namespace Machine

open Executing

variable {m : Machine} {fs : Array Frame} {f : Frame} {Q : Machine → Prop}
  {E : Fault → Machine → Prop} {F : Machine → Prop}

/-- What holds after the next step: `Q` when the machine goes on, `E` when the step raises a fault,
and `F` when the program has ended. -/
def Steps (m : Machine) (Q : Machine → Prop) (E : Fault → Machine → Prop) (F : Machine → Prop) :
    Prop :=
  match m.step with
  | (none, m') => Q m'
  | (some (.failed e), m') => E e.fault m'
  | (some .finished, m') => F m'
  | (some .unfinished, _) => False

theorem steps_attempt {x : Executing Unit} {site : Site} {ip : Nat}
    (h : m.step = m.attempt site ip x) : m.Steps Q E F ↔ x.Ensures m (fun _ => Q) E := by
  unfold Steps Ensures
  rw [h, attempt]
  cases x.run.run m with
  | mk r m' => cases r <;> exact Iff.rfl

/-- A machine without a frame has ended. -/
theorem step_done (h : m.frames = #[]) : m.step = (some .finished, m) := by simp [step, h]

theorem steps_done (h : m.frames = #[]) : m.Steps Q E F ↔ F m := by
  rw [Steps, step_done h]

/-- Bytes that are no instruction are an error, which leaves the machine as it was. -/
theorem step_malformed {e : RuntimeError} (h : m.frames = fs.push f)
    (hlt : f.ip < f.function.code.size) (hfetch : Code.fetch f.function.code f.ip = .error e) :
    m.step = (some (.failed e), m) := by
  simp only [step, h, Array.back?_push, hfetch]
  rw [if_pos hlt]

theorem step_instruction {op : Opcode} {operand next : Nat} (h : m.frames = fs.push f)
    (hlt : f.ip < f.function.code.size)
    (hfetch : Code.fetch f.function.code f.ip = .ok (op, operand, next)) :
    m.step = m.attempt (.at op) f.ip (jump next >>= fun _ => execute op operand) := by
  simp only [step, h, Array.back?_push, hfetch]
  rw [if_pos hlt]

theorem step_finished (h : m.frames = fs.push f) (hge : f.function.code.size ≤ f.ip)
    (hsize : fs.size = 0) : m.step = (some .finished, { m with frames := #[] }) := by
  simp [step, h, Nat.not_lt.mpr hge, hsize]

theorem step_returned (h : m.frames = fs.push f) (hge : f.function.code.size ≤ f.ip)
    (hsize : fs.size ≠ 0) : m.step = m.attempt .codeEnd f.ip (leave .null) := by
  simp only [step, h, Array.back?_push]
  rw [if_neg (by omega), if_neg (by simpa using hsize)]

/-- The frame on top carries out the instruction that it stands at. -/
theorem steps_instruction {op : Opcode} {operand next : Nat} (h : m.frames = fs.push f)
    (hlt : f.ip < f.function.code.size)
    (hfetch : Code.fetch f.function.code f.ip = .ok (op, operand, next)) :
    m.Steps Q E F ↔ (execute op operand).Ensures
      { m with frames := fs.push { f with ip := next } } (fun _ => Q) E := by
  rw [steps_attempt (step_instruction h hlt hfetch), ensures_bind, ensures_jump, h, modify_last_ip]

/-- A frame without a further instruction ends the program, or returns null to the frame below. -/
theorem steps_end (h : m.frames = fs.push f) (hge : f.function.code.size ≤ f.ip) :
    m.Steps Q E F ↔ if fs.size = 0 then F { m with frames := #[] }
      else (leave .null).Ensures m (fun _ => Q) E := by
  by_cases hsize : fs.size = 0
  · rw [if_pos hsize, Steps, step_finished h hge hsize]
  · rw [if_neg hsize, steps_attempt (step_returned h hge hsize)]

/-- How a step begins: there is no frame left, or the frame on top stands at bytes that are no
instruction, at an instruction, or at the end of its code. -/
inductive Next (m : Machine) : Prop
  | done : m.frames = #[] → Next m
  | malformed (fs : Array Frame) (f : Frame) (e : RuntimeError) : m.frames = fs.push f →
      f.ip < f.function.code.size → Code.fetch f.function.code f.ip = .error e → Next m
  | instruction (fs : Array Frame) (f : Frame) (op : Opcode) (operand next : Nat) :
      m.frames = fs.push f → f.ip < f.function.code.size →
      Code.fetch f.function.code f.ip = .ok (op, operand, next) → Next m
  | ended (fs : Array Frame) (f : Frame) : m.frames = fs.push f →
      f.function.code.size ≤ f.ip → Next m

theorem next (m : Machine) : m.Next := by
  by_cases hempty : m.frames = #[]
  · exact .done hempty
  obtain ⟨fs, f, hframes⟩ := Array.exists_push_of_ne_empty hempty
  by_cases hlt : f.ip < f.function.code.size
  · cases hfetch : Code.fetch f.function.code f.ip with
    | error e => exact .malformed fs f e hframes hlt hfetch
    | ok instruction => exact .instruction fs f _ _ _ hframes hlt hfetch
  · exact .ended fs f hframes (Nat.le_of_not_lt hlt)

/-- A machine that can only end does end. -/
theorem Steps.finished (h : m.Steps (fun _ => False) (fun _ _ => False) F) :
    ∃ m', m.step = (some .finished, m') ∧ F m' := by
  unfold Steps at h
  split at h
  · exact h.elim
  · exact h.elim
  · next hstep => exact ⟨_, hstep, h⟩
  · exact h.elim

/-- The ways in which a step comes out. -/
theorem Steps.cases (h : m.Steps Q E F) :
    (∃ m', m.step = (none, m') ∧ Q m') ∨
      (∃ e m', m.step = (some (.failed e), m') ∧ E e.fault m') ∨
      ∃ m', m.step = (some .finished, m') ∧ F m' := by
  unfold Steps at h
  split at h
  · next m' hstep => exact .inl ⟨m', hstep, h⟩
  · next e m' hstep => exact .inr (.inl ⟨e, m', hstep, h⟩)
  · next m' hstep => exact .inr (.inr ⟨m', hstep, h⟩)
  · exact h.elim

/-- What holds when a step goes on holds of a step that does. -/
theorem Steps.of_goes {m' : Machine} (h : m.Steps Q E F) (hstep : m.step = (none, m')) : Q m' := by
  rwa [Steps, hstep] at h

/-- What holds when a step raises a fault holds of a step that does. -/
theorem Steps.of_fails {m' : Machine} {e : RuntimeError} (h : m.Steps Q E F)
    (hstep : m.step = (some (.failed e), m')) : E e.fault m' := by
  rwa [Steps, hstep] at h

/-- What every step preserves holds of whole runs: `Q` is the invariant, and `R` what is to hold in
the end. -/
theorem run_spec {R : Outcome → Machine → Prop}
    (hstep : ∀ m, Q m → m.Steps Q (fun e m' => ∀ site ip, R (.failed ⟨e, site, ip⟩) m') (R .finished))
    (hQ : ∀ m, Q m → R .unfinished m) (h : Q m) (n : Nat) : R (m.run n).1 (m.run n).2 := by
  induction n generalizing m with
  | zero => exact hQ m h
  | succ n ih =>
    have hm := hstep m h
    unfold Steps at hm
    rw [run]
    split at hm
    · next heq =>
      rw [heq]
      exact ih hm
    · next e m' heq =>
      rw [heq]
      exact hm e.site e.ip
    · next heq =>
      rw [heq]
      exact hm
    · exact hm.elim

theorem run_eq_of_fst {n : Nat} {outcome : Outcome} (h : (m.run n).1 = outcome) :
    m.run n = (outcome, (m.run n).2) := by rw [← h]

/-- Enough steps bring the machine to an end. -/
def Halts (m : Machine) : Prop := ∃ n, (m.run n).1 ≠ .unfinished

/-- A machine halts when it does so from the next step on. -/
theorem halts_of_steps (h : m.Steps Halts (fun _ _ => True) (fun _ => True)) : m.Halts := by
  unfold Steps at h
  split at h
  · next m' heq =>
    obtain ⟨n, hn⟩ := h
    exact ⟨n + 1, by rwa [run, heq]⟩
  · next heq => exact ⟨1, by rw [run, heq]; simp⟩
  · next heq => exact ⟨1, by rw [run, heq]; simp⟩
  · exact h.elim

theorem Steps.mono {Q' : Machine → Prop} {E' : Fault → Machine → Prop} {F' : Machine → Prop}
    (h : m.Steps Q E F) (hQ : ∀ m', Q m' → Q' m') (hE : ∀ e m', E e m' → E' e m')
    (hF : ∀ m', F m' → F' m') : m.Steps Q' E' F' := by
  unfold Steps at h ⊢
  split at h
  · exact hQ _ h
  · exact hE _ _ h
  · exact hF _ h
  · exact h

theorem Steps.and {Q' : Machine → Prop} {E' : Fault → Machine → Prop} {F' : Machine → Prop}
    (h : m.Steps Q E F) (h' : m.Steps Q' E' F') :
    m.Steps (fun m' => Q m' ∧ Q' m') (fun e m' => E e m' ∧ E' e m') (fun m' => F m' ∧ F' m') := by
  unfold Steps at h h' ⊢
  split at h
  · next hstep => exact ⟨h, by simpa only [hstep] using h'⟩
  · next hstep => exact ⟨h, by simpa only [hstep] using h'⟩
  · next hstep => exact ⟨h, by simpa only [hstep] using h'⟩
  · exact h

end Machine

end Monkey
