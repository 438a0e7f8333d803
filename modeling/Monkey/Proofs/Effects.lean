import Monkey.Proofs.Execution
import Monkey.Proofs.Functions

/-!
# The effect of an instruction

`Executing.execute_spec` says once what any instruction can do to a machine. When it succeeds, it either
goes on in its frame and changes the height of the stack as `Opcode.pops` and `Opcode.pushes` say, or
jumps, or opens a frame, or closes one (`Moves`). When it raises a fault, this is one that the
instruction can raise (`Fault.Possible`). In both cases the sizes of the stores stay what they are
(`Machine.Kept`), and no function appears that the machine did not hold before (`Machine.Holds`).
-/

namespace Monkey

/-! ### Heights -/

/-- How many values an instruction takes off the stack. -/
def Opcode.pops (op : Opcode) (operand : Nat) : Nat :=
  match op with
  | .add | .sub | .mul | .div | .equal | .notEqual | .greaterThan | .index => 2
  | .pop | .minus | .bang | .jumpNotTruthy | .setGlobal | .setLocal | .returnValue => 1
  | .array | .hash => operand
  | .call => operand + 1
  | .constant | .true | .false | .null | .jump | .getGlobal | .getLocal | .ret => 0

/-- How many values an instruction puts on the stack. -/
def Opcode.pushes : Opcode → Nat
  | constant | add | sub | mul | div | true | false | null => 1
  | equal | notEqual | greaterThan | minus | bang => 1
  | getGlobal | getLocal | array | hash | index | call => 1
  | pop | jumpNotTruthy | jump | setGlobal | setLocal | returnValue | ret => 0

/-! ### Machines before and after -/

/-- All functions among the values of a machine have a property. -/
structure Machine.Holds (P : Function → Prop) (m : Machine) : Prop where
  constants : ∀ v ∈ m.constants, v.All P
  stack : ∀ v ∈ m.stack, v.All P
  globals : ∀ v, some v ∈ m.globals → v.All P

/-- What no instruction changes. -/
structure Machine.Kept (m m' : Machine) : Prop where
  constants : m'.constants = m.constants
  stackSize : m'.stack.size = m.stack.size
  globalsSize : m'.globals.size = m.globals.size
  maxFrames : m'.maxFrames = m.maxFrames

theorem Machine.Kept.refl (m : Machine) : m.Kept m := ⟨rfl, rfl, rfl, rfl⟩

theorem Machine.Kept.trans {m₁ m₂ m₃ : Machine} (h : m₁.Kept m₂) (h' : m₂.Kept m₃) : m₁.Kept m₃ :=
  ⟨h'.constants.trans h.constants, h'.stackSize.trans h.stackSize, h'.globalsSize.trans h.globalsSize,
    h'.maxFrames.trans h.maxFrames⟩

/-- How a machine goes on after an instruction, of which `f` is the frame, and `fs` are the frames
below it. -/
inductive Moves (P : Function → Prop) (fs : Array Frame) (f : Frame) (op : Opcode) (operand : Nat)
    (m m' : Machine) : Prop
  /-- With the next instruction. -/
  | next : op ≠ .jump → m'.frames = m.frames → op.pops operand ≤ m.sp →
      m'.sp + op.pops operand = m.sp + op.pushes → Moves P fs f op operand m m'
  /-- At the offset of a jump. -/
  | jump : op = .jump ∨ op = .jumpNotTruthy → m'.frames = fs.push { f with ip := operand } →
      op.pops operand ≤ m.sp →
      m'.sp + op.pops operand = m.sp → Moves P fs f op operand m m'
  /-- With a call. -/
  | call (g : Function) : op = .call → P g → m.frames.size < m.maxFrames →
      operand + 1 ≤ m.sp → m'.frames = m.frames.push ⟨g, 0, m.sp - operand⟩ →
      m'.sp = m.sp - operand + max g.locals g.parameters → Moves P fs f op operand m m'
  /-- With the frame below, or not at all. -/
  | leave : op = .returnValue ∨ op = .ret → m'.frames = fs →
      m'.sp = (if fs.size = 0 then 0 else f.base - 1 + 1) → Moves P fs f op operand m m'

/-- A fault that an instruction can raise. It runs out of room only where no slot is left for a result, or
not enough of them for the function that is called, or no frame. -/
def Fault.Possible (m : Machine) (f : Frame) (op : Opcode) (operand : Nat) : Fault → Prop
  | .stackUnderflow => m.sp < op.pops operand
  | .stackOverflow => m.stack.size ≤ m.sp ∨ m.stack.size ≤ f.base ∨
      ∃ g, Value.function g ∈ m.stack ∧ m.stack.size < m.sp + max g.locals g.parameters
  | .frameOverflow _ => m.maxFrames ≤ m.frames.size
  | .constantOutOfRange _ => op = .constant ∧ m.constants.size ≤ operand
  | .globalOutOfRange _ => (op = .getGlobal ∨ op = .setGlobal) ∧ m.globals.size ≤ operand
  | .localOutOfRange _ => (op = .getLocal ∨ op = .setLocal) ∧ f.function.locals ≤ operand
  | .instruction _ => False
  | _ => True

/-- Whether a fault is one of too little room. -/
def Fault.isOverflow : Fault → Bool
  | stackOverflow | frameOverflow _ => true
  | _ => false

/-! ### Values stay -/

namespace Machine.Holds

variable {P : Function → Prop} {m : Machine}

theorem stack_getD (h : m.Holds P) (i : Nat) : (m.stack.getD i .null).All P := by
  rw [Array.getD_eq_getD_getElem?]
  cases hi : m.stack[i]? with
  | none => trivial
  | some v => exact h.stack v (Array.mem_of_getElem? hi)

/-- Values that come with a machine stay when a value is written to the stack. -/
theorem write (h : m.Holds P) {v : Value} (hv : v.All P) (i sp : Nat) (frames : Array Frame) :
    Machine.Holds P { m with stack := m.stack.setIfInBounds i v, sp, frames } where
  constants := h.constants
  globals := h.globals
  stack w hw := by
    rcases Array.mem_or_eq_of_mem_setIfInBounds hw with hw | rfl
    · exact h.stack w hw
    · exact hv

theorem move (h : m.Holds P) (sp : Nat) (frames : Array Frame) :
    Machine.Holds P { m with sp, frames } := ⟨h.constants, h.stack, h.globals⟩

theorem popMany (h : m.Holds P) (i j : Nat) : Value.AllIn P (m.stack.extract i j).toList := by
  refine Value.allIn_iff.mpr fun v hv => h.stack v ?_
  rw [Array.toList_extract, List.extract_eq_take_drop] at hv
  exact Array.mem_toList_iff.mp (List.mem_of_mem_drop (List.mem_of_mem_take hv))

/-- A machine that is about to run holds what it was given. -/
theorem start {chunk : Chunk} {globals : Array (Option Value)}
    (hconstants : ∀ v ∈ chunk.constants, v.All P) (hglobals : ∀ v, some v ∈ globals → v.All P)
    (limits : Limits) : (Machine.start chunk globals limits).Holds P where
  constants := hconstants
  stack v hv := by
    obtain ⟨-, rfl⟩ := Array.mem_replicate.mp hv
    trivial
  globals v hv := by
    rcases Array.mem_append.mp hv with hv | hv
    · exact hglobals v hv
    · obtain ⟨-, hv⟩ := Array.mem_replicate.mp hv
      cases hv

end Machine.Holds

theorem Executing.size_clearSlots (stack : Array Value) (slot count : Nat) :
    (clearSlots stack slot count).size = stack.size := by
  induction count generalizing stack slot with
  | zero => rfl
  | succ count ih => rw [clearSlots, ih, Array.size_setIfInBounds]

theorem Executing.mem_clearSlots {stack : Array Value} {slot count : Nat} {v : Value}
    (h : v ∈ clearSlots stack slot count) : v ∈ stack ∨ v = .null := by
  induction count generalizing stack slot with
  | zero => exact .inl h
  | succ count ih =>
    rcases ih h with h | h
    · exact Array.mem_or_eq_of_mem_setIfInBounds h
    · exact .inr h

/-- Clearing slots is seen slot by slot. -/
theorem Executing.getD_clearSlots (stack : Array Value) (slot count i : Nat) :
    (clearSlots stack slot count).getD i .null =
      if slot ≤ i ∧ i < slot + count then .null else stack.getD i .null := by
  induction count generalizing stack slot with
  | zero => rw [clearSlots, if_neg (by omega)]
  | succ count ih =>
    rw [clearSlots, ih]
    by_cases hi : slot = i
    · subst hi
      rw [if_neg (by omega), if_pos (by omega)]
      simp only [Array.getD_eq_getD_getElem?, Array.getElem?_setIfInBounds, if_true]
      split <;> rfl
    · have hset : (stack.setIfInBounds slot .null).getD i .null = stack.getD i .null := by
        simp only [Array.getD_eq_getD_getElem?, Array.getElem?_setIfInBounds, if_neg hi]
      rw [hset]
      split <;> split <;> first | rfl | omega

/-- A function that is found on the stack is there. -/
theorem Executing.function_mem_of_getD {stack : Array Value} {i : Nat} {f : Function}
    (h : stack.getD i .null = .function f) : Value.function f ∈ stack := by
  rw [Array.getD_eq_getD_getElem?] at h
  cases hi : stack[i]? with
  | none =>
    rw [hi] at h
    cases h
  | some v =>
    rw [hi] at h
    obtain rfl : v = .function f := h
    exact Array.mem_of_getElem? hi

/-! ### Instructions -/

namespace Executing

/-- What is said of the instruction `op` when its step `x` is carried out on `m₁`, which the machine
`m` has become in the meantime. -/
def Does (P : Function → Prop) (fs : Array Frame) (f : Frame) (op : Opcode) (operand : Nat)
    (m : Machine) (x : Executing Unit) (m₁ : Machine) : Prop :=
  x.Ensures m₁ (fun _ m' => m'.Holds P ∧ m.Kept m' ∧ Moves P fs f op operand m m')
    (fun e m' => m'.Holds P ∧ m.Kept m' ∧ e.Possible m f op operand)

variable {P : Function → Prop} {fs : Array Frame} {f : Frame} {op : Opcode} {operand : Nat}
  {m : Machine}

/-- Pushing a result, once the operands are taken off. -/
theorem does_push {v : Value} (hm : m.Holds P) (hv : v.All P) (hpops : op.pops operand ≤ m.sp)
    (hpushes : op.pushes = 1) :
    Does P fs f op operand m (push v) { m with sp := m.sp - op.pops operand } := by
  unfold Does
  rw [ensures_push]
  split
  · refine ⟨hm.write hv _ _ _, ⟨rfl, by simp, rfl, rfl⟩, .next ?_ rfl hpops ?_⟩
    · rintro rfl
      cases hpushes
    rw [hpushes]
    dsimp only
    omega
  · next hfull =>
    refine ⟨hm.move _ _, ⟨rfl, rfl, rfl, rfl⟩, .inl ?_⟩
    dsimp only at hfull
    omega

/-- Pushing what an operator makes of operands. -/
theorem does_give {r : Except Fault Value} (hm : m.Holds P) (hr : Operated P r)
    (hpops : op.pops operand ≤ m.sp) (hpushes : op.pushes = 1) :
    Does P fs f op operand m (give r) { m with sp := m.sp - op.pops operand } := by
  cases r with
  | ok v => exact does_push hm hr hpops hpushes
  | error e =>
    refine ⟨hm.move _ _, ⟨rfl, rfl, rfl, rfl⟩, ?_⟩
    cases e <;> trivial

theorem does_binary {g : Value → Value → Except Fault Value} (hm : m.Holds P)
    (hg : ∀ v w, v.All P → w.All P → Operated P (g v w)) (hpops : op.pops operand = 2)
    (hpushes : op.pushes = 1) : Does P fs f op operand m (binary g) m := by
  unfold Does
  rw [ensures_binary]
  split
  · next h => exact ⟨hm.move _ _, ⟨rfl, rfl, rfl, rfl⟩, by rw [Fault.Possible, hpops]; exact h⟩
  · next h =>
    have hle : op.pops operand ≤ m.sp := by omega
    have hresult := hg _ _ (hm.stack_getD (m.sp - 2)) (hm.stack_getD (m.sp - 1))
    have hdoes : Does P fs f op operand m _ _ := does_give hm hresult hle hpushes
    rwa [hpops] at hdoes

theorem does_unary {g : Value → Except Fault Value} (hm : m.Holds P)
    (hg : ∀ v, Operated P (g v)) (hpops : op.pops operand = 1)
    (hpushes : op.pushes = 1) : Does P fs f op operand m (unary g) m := by
  unfold Does
  rw [ensures_unary]
  split
  · next h => exact ⟨hm, .refl m, by rw [Fault.Possible, hpops, h]; exact Nat.one_pos⟩
  · next h =>
    have hle : op.pops operand ≤ m.sp := by omega
    have hdoes : Does P fs f op operand m _ _ :=
      does_give hm (hg (m.stack.getD (m.sp - 1) .null)) hle hpushes
    rwa [hpops] at hdoes

/-- Pushing a value that takes no operands. -/
theorem does_load {v : Value} (hm : m.Holds P) (hv : v.All P) (hpops : op.pops operand = 0)
    (hpushes : op.pushes = 1) : Does P fs f op operand m (push v) m := by
  have hle : op.pops operand ≤ m.sp := by omega
  have hdoes : Does P fs f op operand m _ _ := does_push hm hv hle hpushes
  rwa [hpops] at hdoes

/-- Taking an operand off before the rest of the step. -/
theorem does_pop {x : Value → Executing Unit} (hm : m.Holds P) (hpops : op.pops operand = 1)
    (hx : ∀ v, v.All P → 1 ≤ m.sp → Does P fs f op operand m (x v) { m with sp := m.sp - 1 }) :
    Does P fs f op operand m (pop >>= x) m := by
  unfold Does
  rw [ensures_bind, ensures_pop]
  split
  · next h => exact ⟨hm, .refl m, by rw [Fault.Possible, hpops, h]; exact Nat.one_pos⟩
  · next h => exact hx _ (hm.stack_getD _) (by omega)

/-- Taking operands off before the rest of the step. -/
theorem does_popMany {x : List Value → Executing Unit} (hm : m.Holds P)
    (hpops : op.pops operand = operand) (hx : ∀ vs, Value.AllIn P vs → operand ≤ m.sp →
      Does P fs f op operand m (x vs) { m with sp := m.sp - operand }) :
    Does P fs f op operand m (popMany operand >>= x) m := by
  unfold Does
  rw [ensures_bind, ensures_popMany]
  split
  · next h => exact ⟨hm, .refl m, by rw [Fault.Possible, hpops]; exact h⟩
  · next h => exact hx _ (hm.popMany _ _) (by omega)

/-- Ending a call, once the result is taken off. -/
theorem does_leave {v : Value} (hop : op = .returnValue ∨ op = .ret) (hm : m.Holds P)
    (hframes : m.frames = fs.push f) (hv : v.All P) (sp : Nat) :
    Does P fs f op operand m (leave v) { m with sp } := by
  have hframes' : Machine.frames { m with sp } = fs.push f := hframes
  unfold Does
  rw [ensures_leave hframes', ensures_push]
  split
  · next h => exact ⟨hm.write hv _ _ _, ⟨rfl, by simp, rfl, rfl⟩, .leave hop rfl (by simp [h])⟩
  · next h =>
    split
    · exact ⟨hm.write hv _ _ _, ⟨rfl, by simp, rfl, rfl⟩, .leave hop rfl (by simp [h])⟩
    · next hfull =>
      refine ⟨hm.move _ _, ⟨rfl, rfl, rfl, rfl⟩, .inr (.inl ?_)⟩
      dsimp only at hfull
      omega

/-- Opening a call. -/
theorem does_call (hm : m.Holds P) : Does P fs f .call operand m (call operand) m := by
  unfold Does
  rw [ensures_call]
  split
  · next h =>
    refine ⟨hm, .refl m, ?_⟩
    simp only [Fault.Possible, Opcode.pops]
    omega
  next h =>
  split
  · next g hg =>
    have hall : P g := by
      have := hm.stack_getD (m.sp - 1 - operand)
      rwa [hg] at this
    split
    · exact ⟨hm, .refl m, trivial⟩
    next hcount =>
    split
    · next hframes => exact ⟨hm, .refl m, hframes⟩
    next hframes =>
    split
    · next hfull =>
      exact ⟨hm, .refl m, .inr (.inr ⟨g, function_mem_of_getD hg, by omega⟩)⟩
    · refine ⟨⟨hm.constants, fun v hv => ?_, hm.globals⟩,
        ⟨rfl, size_clearSlots _ _ _, rfl, rfl⟩,
        .call g rfl hall (by omega) (by omega) rfl ?_⟩
      · rcases mem_clearSlots hv with hv | rfl
        · exact hm.stack v hv
        · trivial
      · dsimp only
        rw [show operand = g.parameters by omega]
  · exact ⟨hm, .refl m, trivial⟩

/-- **The effect of an instruction.** -/
theorem execute_spec (hm : m.Holds P) (hframes : m.frames = fs.push f) (op : Opcode)
    (operand : Nat) : Does P fs f op operand m (execute op operand) m := by
  have hback : m.frames.back?.getD default = f := by rw [hframes, Array.back?_push]; rfl
  cases op with
  | constant =>
    unfold Does
    simp only [execute, ensures_bind, ensures_get]
    split
    · next v hv => exact does_load hm (hm.constants v (Array.mem_of_getElem? hv)) rfl rfl
    · next hv => exact ⟨hm, .refl m, rfl, by simpa using hv⟩
  | pop =>
    refine does_pop hm rfl fun v _ hsp => ?_
    exact ⟨hm.move _ _, ⟨rfl, rfl, rfl, rfl⟩, .next (by decide) rfl hsp (Nat.sub_add_cancel hsp)⟩
  | add => exact does_binary hm (fun v w _ _ => ArithOp.operated_apply .add v w) rfl rfl
  | sub => exact does_binary hm (fun v w _ _ => ArithOp.operated_apply .sub v w) rfl rfl
  | mul => exact does_binary hm (fun v w _ _ => ArithOp.operated_apply .mul v w) rfl rfl
  | div => exact does_binary hm (fun v w _ _ => ArithOp.operated_apply .div v w) rfl rfl
  | true => exact does_load hm trivial rfl rfl
  | false => exact does_load hm trivial rfl rfl
  | null => exact does_load hm trivial rfl rfl
  | equal =>
    have hg : ∀ v w : Value, Operated P (.ok (.boolean (v == w))) := fun _ _ => trivial
    rw [execute]
    exact does_binary hm (fun v w _ _ => hg v w) rfl rfl
  | notEqual =>
    have hg : ∀ v w : Value, Operated P (.ok (.boolean (v != w))) := fun _ _ => trivial
    rw [execute]
    exact does_binary hm (fun v w _ _ => hg v w) rfl rfl
  | greaterThan => exact does_binary hm (fun v w _ _ => Value.operated_greater v w) rfl rfl
  | minus => exact does_unary hm Value.operated_negate rfl rfl
  | bang =>
    have hg : ∀ v : Value, Operated P (.ok (.boolean !v.isTruthy)) := fun _ => trivial
    exact does_unary hm hg rfl rfl
  | index => exact does_binary hm (fun v w hv _ => Value.operated_lookup hv w) rfl rfl
  | jumpNotTruthy =>
    refine does_pop hm rfl fun v _ hsp => ?_
    cases v.isTruthy with
    | true =>
      exact ⟨hm.move _ _, ⟨rfl, rfl, rfl, rfl⟩,
        .next (by decide) rfl hsp (Nat.sub_add_cancel hsp)⟩
    | false =>
      refine ⟨hm.move _ _, ⟨rfl, rfl, rfl, rfl⟩, .jump (.inr rfl) ?_ hsp (Nat.sub_add_cancel hsp)⟩
      dsimp only
      rw [hframes, modify_last_ip]
  | jump =>
    refine ⟨hm.move _ _, ⟨rfl, rfl, rfl, rfl⟩, .jump (.inl rfl) ?_ (Nat.zero_le _) rfl⟩
    dsimp only
    rw [hframes, modify_last_ip]
  | getGlobal =>
    unfold Does
    simp only [execute, ensures_bind, ensures_get]
    split
    · next v hv => exact does_load hm (hm.globals v (Array.mem_of_getElem? hv)) rfl rfl
    · exact ⟨hm, .refl m, trivial⟩
    · next hv => exact ⟨hm, .refl m, .inl rfl, by simpa using hv⟩
  | setGlobal =>
    refine does_pop hm rfl fun v hv hsp => ?_
    unfold Does
    rw [ensures_bind, ensures_get]
    split
    · refine ⟨⟨hm.constants, hm.stack, fun w hw => ?_⟩, ⟨rfl, rfl, by simp, rfl⟩,
        .next (by decide) rfl hsp (Nat.sub_add_cancel hsp)⟩
      rcases Array.mem_or_eq_of_mem_setIfInBounds hw with hw | hw
      · exact hm.globals w hw
      · obtain rfl := Option.some.inj hw
        exact hv
    · next h => exact ⟨hm.move _ _, ⟨rfl, rfl, rfl, rfl⟩, .inr rfl, Nat.le_of_not_lt h⟩
  | array =>
    refine does_popMany hm rfl fun vs hvs hsp => ?_
    exact does_push hm hvs hsp rfl
  | hash =>
    refine does_popMany hm rfl fun vs hvs hsp => ?_
    exact does_give hm (Value.operated_hashOf hvs) hsp rfl
  | call => exact does_call hm
  | returnValue => exact does_pop hm rfl fun v hv _ => does_leave (.inl rfl) hm hframes hv _
  | ret =>
    have hnull : Value.null.All P := trivial
    exact does_leave (.inr rfl) hm hframes hnull _
  | getLocal =>
    unfold Does
    simp only [execute, ensures_bind, ensures_localSlot, ensures_get]
    rw [hback]
    split
    · exact does_load hm (hm.stack_getD _) rfl rfl
    · next h => exact ⟨hm, .refl m, .inl rfl, Nat.le_of_not_lt h⟩
  | setLocal =>
    refine does_pop hm rfl fun v hv hsp => ?_
    unfold Does
    rw [ensures_bind, ensures_localSlot, hback]
    split
    · exact ⟨hm.write hv _ _ _, ⟨rfl, by simp, rfl, rfl⟩,
        .next (by decide) rfl hsp (Nat.sub_add_cancel hsp)⟩
    · next h => exact ⟨hm.move _ _, ⟨rfl, rfl, rfl, rfl⟩, .inr rfl, Nat.le_of_not_lt h⟩

end Executing

namespace Machine

variable {P : Function → Prop} {fs : Array Frame} {f : Frame} {m : Machine}

/-- The effect of the instruction that the frame on top stands at. -/
theorem steps_fetched {op : Opcode} {operand next : Nat} (hm : m.Holds P)
    (hframes : m.frames = fs.push f) (hlt : f.ip < f.function.code.size)
    (hfetch : Code.fetch f.function.code f.ip = .ok (op, operand, next)) :
    m.Steps
      (fun m' => m'.Holds P ∧ m.Kept m' ∧ Moves P fs { f with ip := next } op operand
        { m with frames := fs.push { f with ip := next } } m')
      (fun e m' => m'.Holds P ∧ m.Kept m' ∧ e.Possible m f op operand) (fun _ => False) := by
  rw [steps_instruction hframes hlt hfetch]
  refine (Executing.execute_spec (hm.move m.sp _) rfl op operand).mono ?_ ?_
  · rintro _ m' ⟨hm', hkept, hmoves⟩
    exact ⟨hm', ⟨hkept.1, hkept.2, hkept.3, hkept.4⟩, hmoves⟩
  · rintro e m' ⟨hm', hkept, hpossible⟩
    refine ⟨hm', ⟨hkept.1, hkept.2, hkept.3, hkept.4⟩, ?_⟩
    cases e with
    | frameOverflow limit =>
      show m.maxFrames ≤ m.frames.size
      rw [hframes, Array.size_push, ← Array.size_push]
      exact hpossible
    | _ => exact hpossible

/-- The effect of the end of the code that the frame on top carries out. -/
theorem steps_ended (hm : m.Holds P) (hframes : m.frames = fs.push f)
    (hge : f.function.code.size ≤ f.ip) :
    m.Steps
      (fun m' => m'.Holds P ∧ m.Kept m' ∧ fs.size ≠ 0 ∧ m'.frames = fs ∧ m'.sp = f.base - 1 + 1)
      (fun e m' => m'.Holds P ∧ m.Kept m' ∧ e = .stackOverflow ∧ m.stack.size ≤ f.base)
      (fun m' => fs.size = 0 ∧ m' = { m with frames := #[] }) := by
  rw [steps_end hframes hge, Executing.ensures_leave hframes, Executing.ensures_push]
  have hnull : Value.null.All P := trivial
  by_cases h : fs.size = 0
  · rw [if_pos h]
    exact ⟨h, rfl⟩
  · rw [if_neg h, if_neg h]
    split
    · exact ⟨hm.write hnull _ _ _, ⟨rfl, by simp, rfl, rfl⟩, h, rfl, rfl⟩
    · next hfull =>
      refine ⟨hm.move _ _, ⟨rfl, rfl, rfl, rfl⟩, rfl, ?_⟩
      dsimp only at hfull
      omega

end Machine

end Monkey
