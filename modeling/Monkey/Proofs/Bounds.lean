import Monkey.Proofs.Effects

/-!
# Machines in bounds

Code can be any bytes, so nothing can be relied on about the operands that it names or the values that
it takes off the stack. A function may even take off values that lie below its own parameters, and then
call another one. `Machine.InBounds` says what holds of a machine nevertheless: the stack pointer and
the local slots of every open call lie within the stack, and every call but the top level has a slot
below its parameters, where its result will go.

`Executing.execute_confined` says that every instruction keeps a machine in bounds, also one that raises
a fault. It says at the same time which slots an instruction leaves alone: those below `low`, if its
operands and its parameters lie above.
-/

namespace Monkey

/-- The first call has its parameters at the bottom. Every other one has a slot for its result below
them. -/
def Rooted (fs : Array Frame) : Prop := ∀ i f, fs[i]? = some f → (f.base = 0 ↔ i = 0)

namespace Rooted

variable {fs : Array Frame} {f : Frame}

theorem goto (h : Rooted (fs.push f)) (ip : Nat) : Rooted (fs.push { f with ip }) := by
  intro i g hg
  have hbase := h i
  rw [Array.getElem?_push] at hg hbase
  split at hg
  · next hi =>
    rw [if_pos hi] at hbase
    obtain rfl := Option.some.inj hg
    exact hbase f rfl
  · next hi =>
    rw [if_neg hi] at hbase
    exact hbase g hg

theorem below (h : Rooted (fs.push f)) : Rooted fs := by
  intro i g hg
  refine h i g ?_
  have hlt : i < fs.size := (Array.getElem?_eq_some_iff.mp hg).1
  rwa [Array.getElem?_push, if_neg (Nat.ne_of_lt hlt)]

theorem push (h : Rooted fs) (hfs : fs.size ≠ 0) (hbase : 1 ≤ f.base) : Rooted (fs.push f) := by
  intro i g hg
  rw [Array.getElem?_push] at hg
  split at hg
  · next hi =>
    obtain rfl := Option.some.inj hg
    omega
  · exact h i g hg

theorem last (h : Rooted (fs.push f)) (hfs : fs.size ≠ 0) : 1 ≤ f.base := by
  have hbase := h fs.size f Array.getElem?_push_size
  omega

theorem singleton (hbase : f.base = 0) : Rooted (Array.push #[] f) := by
  intro i g hg
  obtain ⟨hi, rfl⟩ := Array.getElem?_eq_some_iff.mp hg
  obtain rfl : i = 0 := Nat.lt_one_iff.mp hi
  exact ⟨fun _ => rfl, fun _ => hbase⟩

end Rooted

namespace Machine

/-- The machine is in bounds. -/
structure InBounds (m : Machine) : Prop where
  sp_le : m.sp ≤ m.stack.size
  locals_le : ∀ f ∈ m.frames, f.base + f.function.locals ≤ m.stack.size
  rooted : Rooted m.frames
  frames_le : m.frames.size ≤ max 1 m.maxFrames

namespace InBounds

variable {m m' : Machine} {fs : Array Frame} {f : Frame}

/-- A machine with the same frames is in bounds when its stack pointer is. -/
theorem of_frames (h : m.InBounds) (hsize : m'.stack.size = m.stack.size)
    (hmax : m'.maxFrames = m.maxFrames) (hframes : m'.frames = m.frames)
    (hsp : m'.sp ≤ m.stack.size) : m'.InBounds where
  sp_le := by rwa [hsize]
  locals_le g hg := by
    rw [hsize]
    exact h.locals_le g (hframes ▸ hg)
  rooted := hframes ▸ h.rooted
  frames_le := by
    rw [hframes, hmax]
    exact h.frames_le

/-- Moving the stack pointer. -/
theorem move (h : m.InBounds) {sp : Nat} (hsp : sp ≤ m.stack.size) :
    InBounds { m with sp } := h.of_frames rfl rfl rfl hsp

/-- Writing to a slot. -/
theorem write (h : m.InBounds) {sp : Nat} (hsp : sp ≤ m.stack.size) (i : Nat) (v : Value) :
    InBounds { m with stack := m.stack.setIfInBounds i v, sp } :=
  h.of_frames Array.size_setIfInBounds rfl rfl hsp

/-- The frame on top goes on at another offset. -/
theorem goto (h : m.InBounds) (hframes : m.frames = fs.push f) (ip : Nat) :
    InBounds { m with frames := fs.push { f with ip } } where
  sp_le := h.sp_le
  locals_le g hg := by
    rcases Array.mem_push.mp hg with hg | rfl
    · exact h.locals_le g (hframes ▸ Array.mem_push.mpr (.inl hg))
    · exact h.locals_le f (hframes ▸ Array.mem_push_self)
  rooted := Rooted.goto (hframes ▸ h.rooted) ip
  frames_le := by
    have hle := h.frames_le
    rw [hframes, Array.size_push] at hle
    rwa [Array.size_push]

/-- The frame on top is left. -/
theorem below (h : m.InBounds) (hframes : m.frames = fs.push f) {sp : Nat}
    (hsp : sp ≤ m.stack.size) : InBounds { m with frames := fs, sp } where
  sp_le := hsp
  locals_le g hg := h.locals_le g (hframes ▸ Array.mem_push.mpr (.inl hg))
  rooted := Rooted.below (hframes ▸ h.rooted)
  frames_le := by
    have hle := h.frames_le
    rw [hframes, Array.size_push] at hle
    exact Nat.le_trans (Nat.le_succ _) hle

/-- Another frame is opened. -/
theorem call (h : m.InBounds) {g : Frame} {stack : Array Value} {sp : Nat}
    (hsize : stack.size = m.stack.size) (hsp : sp ≤ m.stack.size)
    (hlocals : g.base + g.function.locals ≤ m.stack.size) (hfs : m.frames.size ≠ 0)
    (hbase : 1 ≤ g.base) (hmax : m.frames.size < m.maxFrames) :
    InBounds { m with stack, sp, frames := m.frames.push g } where
  sp_le := hsize ▸ hsp
  locals_le g' hg' := by
    dsimp only
    rw [hsize]
    rcases Array.mem_push.mp hg' with hg' | rfl
    · exact h.locals_le g' hg'
    · exact hlocals
  rooted := h.rooted.push hfs hbase
  frames_le := by
    rw [Array.size_push]
    exact Nat.le_trans hmax (Nat.le_max_right 1 _)

theorem base_pos (h : m.InBounds) (hframes : m.frames = fs.push f) (hfs : fs.size ≠ 0) :
    1 ≤ f.base := Rooted.last (hframes ▸ h.rooted) hfs

theorem base_add_locals_le (h : m.InBounds) (hframes : m.frames = fs.push f) :
    f.base + f.function.locals ≤ m.stack.size :=
  h.locals_le f (hframes ▸ Array.mem_push_self)

/-- The slots of a machine about to run are all in bounds. -/
theorem start (chunk : Chunk) (globals : Array (Option Value)) (limits : Limits) :
    (Machine.start chunk globals limits).InBounds where
  sp_le := Nat.zero_le _
  locals_le f hf := by
    obtain rfl : f = mainFrame chunk.code := Array.mem_singleton.mp hf
    exact Nat.zero_le _
  rooted := .singleton rfl
  frames_le := Nat.le_max_left 1 _

end InBounds

/-- The machine `m'`, which `m` has become, is in bounds, and its slots below `low` hold what they
did. -/
structure Confined (low : Nat) (m m' : Machine) : Prop where
  inBounds : m'.InBounds
  size : m'.stack.size = m.stack.size
  below : ∀ i < low, m'.stack[i]? = m.stack[i]?

namespace Confined

variable {low : Nat} {m m₁ : Machine}

theorem refl (h : m.InBounds) : m.Confined low m := ⟨h, rfl, fun _ _ => rfl⟩

theorem move (h : m.Confined low m₁) {sp : Nat} (hsp : sp ≤ m₁.stack.size) :
    m.Confined low { m₁ with sp } := ⟨h.inBounds.move hsp, h.size, h.below⟩

/-- A slot from `low` on is written to. -/
theorem write (h : m.Confined low m₁) {i sp : Nat} (hi : low ≤ i) (hsp : sp ≤ m₁.stack.size)
    (v : Value) : m.Confined low { m₁ with stack := m₁.stack.setIfInBounds i v, sp } where
  inBounds := h.inBounds.write hsp i v
  size := Array.size_setIfInBounds.trans h.size
  below j hj := by
    dsimp only
    rw [Array.getElem?_setIfInBounds_ne (by omega)]
    exact h.below j hj

end Confined

end Machine

/-! ### Instructions -/

namespace Executing

open Machine

/-- The step `x`, carried out on `m₁`, which `m` has become in the meantime, leaves the slots of `m`
below `low` alone and the machine in bounds, whether it succeeds or raises a fault. -/
def Confines (low : Nat) (m : Machine) (x : Executing Unit) (m₁ : Machine) : Prop :=
  x.Ensures m₁ (fun _ m' => m.Confined low m') (fun _ m' => m.Confined low m')

variable {low : Nat} {m m₁ : Machine} {fs : Array Frame} {f : Frame}

theorem confines_push (h : m.Confined low m₁) (hlow : low ≤ m₁.sp) (v : Value) :
    Confines low m (push v) m₁ := by
  rw [Confines, ensures_push]
  split
  · next hroom => exact h.write hlow hroom v
  · exact h

theorem confines_give (h : m.Confined low m₁) (hlow : low ≤ m₁.sp) (r : Except Fault Value) :
    Confines low m (give r) m₁ := by
  cases r with
  | ok v => exact confines_push h hlow v
  | error e => exact h

theorem confines_pop {x : Value → Executing Unit} (h : m.Confined low m₁)
    (hx : ∀ v, m.Confined low { m₁ with sp := m₁.sp - 1 } →
      Confines low m (x v) { m₁ with sp := m₁.sp - 1 }) :
    Confines low m (pop >>= x) m₁ := by
  rw [Confines, ensures_bind, ensures_pop]
  split
  · exact h
  · exact hx _ (h.move (Nat.le_trans (Nat.sub_le _ _) h.inBounds.sp_le))

theorem confines_popMany {count : Nat} {x : List Value → Executing Unit}
    (h : m.Confined low m₁)
    (hx : ∀ vs, m.Confined low { m₁ with sp := m₁.sp - count } →
      Confines low m (x vs) { m₁ with sp := m₁.sp - count }) :
    Confines low m (popMany count >>= x) m₁ := by
  rw [Confines, ensures_bind, ensures_popMany]
  split
  · exact h
  · exact hx _ (h.move (Nat.le_trans (Nat.sub_le _ _) h.inBounds.sp_le))

theorem confines_binary (h : m.Confined low m₁) (hlow : low ≤ m₁.sp - 2)
    (g : Value → Value → Except Fault Value) : Confines low m (binary g) m₁ := by
  have hsp := h.inBounds.sp_le
  rw [Confines, ensures_binary]
  split
  · exact h.move (Nat.zero_le _)
  · exact confines_give (h.move (Nat.le_trans (Nat.sub_le _ _) hsp)) hlow _

theorem confines_unary (h : m.Confined low m₁) (hlow : low ≤ m₁.sp - 1)
    (g : Value → Except Fault Value) : Confines low m (unary g) m₁ := by
  have hsp := h.inBounds.sp_le
  rw [Confines, ensures_unary]
  split
  · exact h
  · exact confines_give (h.move (Nat.le_trans (Nat.sub_le _ _) hsp)) hlow _

/-- The result of a call goes below its parameters, and that of the top level into the first slot. -/
theorem confines_leave (h : m.Confined low m₁) (hframes : m₁.frames = fs.push f)
    (hmain : fs.size = 0 → low = 0) (hbase : low ≤ f.base - 1) (v : Value) :
    Confines low m (leave v) m₁ := by
  have hle := h.inBounds.base_add_locals_le hframes
  have hleft : ∀ sp ≤ m₁.stack.size, m.Confined low { m₁ with frames := fs, sp } :=
    fun sp hsp => ⟨h.inBounds.below hframes hsp, h.size, h.below⟩
  rw [Confines, ensures_leave hframes]
  split
  · next hsize =>
    have hzero : low = 0 := hmain hsize
    exact (hleft 0 (Nat.zero_le _)).write (by omega) (Nat.zero_le _) v
  · exact confines_push (hleft (f.base - 1) (by omega)) hbase v

/-- Slots below those that are cleared keep their values. -/
theorem getElem?_clearSlots_of_lt {slot i : Nat} (hi : i < slot) (stack : Array Value)
    (count : Nat) : (clearSlots stack slot count)[i]? = stack[i]? := by
  induction count generalizing stack slot with
  | zero => rfl
  | succ count ih =>
    rw [clearSlots, ih (Nat.lt_succ_of_lt hi), Array.getElem?_setIfInBounds_ne (by omega)]

theorem confines_call (h : m.Confined low m₁) (hframes : m₁.frames = fs.push f)
    (hlow : low ≤ m₁.sp) (count : Nat) : Confines low m (call count) m₁ := by
  have hsp := h.inBounds.sp_le
  have hfs : m₁.frames.size ≠ 0 := by
    rw [hframes, Array.size_push]
    omega
  rw [Confines, ensures_call]
  split
  · exact h
  next hcount =>
  split
  · next g hg =>
    split
    · exact h
    split
    · exact h
    next hframes =>
    split
    · exact h
    next htop =>
    refine ⟨h.inBounds.call (size_clearSlots _ _ _) (by omega) ?_ hfs ?_ (by omega), ?_, ?_⟩
    · dsimp only
      omega
    · dsimp only
      omega
    · exact (size_clearSlots _ _ _).trans h.size
    · -- the slots that are cleared lie above the arguments
      intro i hi
      dsimp only
      rw [getElem?_clearSlots_of_lt (by omega)]
      exact h.below i hi
  · exact h

/-- An instruction that neither ends the call nor stores into one of its slots leaves the slots below
`low` alone, when its operands lie from there on. -/
theorem execute_confined_stack (h : m.InBounds) (hframes : m.frames = fs.push f) {op : Opcode}
    {operand : Nat} (hop : op ≠ .returnValue ∧ op ≠ .ret ∧ op ≠ .setLocal)
    (hlow : low ≤ m.sp - op.pops operand) : Confines low m (execute op operand) m := by
  have hrefl : m.Confined low m := .refl h
  have hsp : low ≤ m.sp := Nat.le_trans hlow (Nat.sub_le _ _)
  cases op with
  | constant =>
    simp only [Confines, execute, ensures_bind, ensures_get]
    split
    · exact confines_push hrefl hsp _
    · exact hrefl
  | pop => exact confines_pop hrefl fun v h' => h'
  | add | sub | mul | div | greaterThan | index => exact confines_binary hrefl hlow _
  | true | false | null => exact confines_push hrefl hsp _
  | equal | notEqual =>
    rw [execute]
    exact confines_binary hrefl hlow _
  | minus => exact confines_unary hrefl hlow _
  | bang =>
    rw [execute]
    exact confines_unary hrefl hlow _
  | jumpNotTruthy =>
    refine confines_pop hrefl fun v h' => ?_
    cases v.isTruthy with
    | true => exact h'
    | false =>
      -- a jump moves the frame and leaves the slots alone
      have hgoto : m.Confined low
          { m with sp := m.sp - 1, frames := fs.push { f with ip := operand } } :=
        ⟨h'.inBounds.goto hframes operand, rfl, fun _ _ => rfl⟩
      rw [← modify_last_ip, ← hframes] at hgoto
      exact hgoto
  | jump =>
    rw [Confines, execute, ensures_jump, hframes, modify_last_ip]
    exact ⟨h.goto hframes operand, rfl, fun _ _ => rfl⟩
  | getGlobal =>
    simp only [Confines, execute, ensures_bind, ensures_get]
    split
    · exact confines_push hrefl hsp _
    · exact hrefl
    · exact hrefl
  | setGlobal =>
    refine confines_pop hrefl fun v h' => ?_
    rw [Confines, ensures_bind, ensures_get]
    split
    · exact ⟨h'.inBounds.of_frames rfl rfl rfl h'.inBounds.sp_le, rfl, fun _ _ => rfl⟩
    · exact h'
  | array => exact confines_popMany hrefl fun vs h' => confines_push h' hlow _
  | hash =>
    refine confines_popMany hrefl fun vs h' => ?_
    exact confines_give h' hlow (Value.hashOf vs)
  | call => exact confines_call hrefl hframes hsp operand
  | getLocal =>
    rw [Confines, execute, ensures_bind, ensures_localSlot]
    split
    · exact confines_push hrefl hsp _
    · exact hrefl
  | returnValue => exact absurd rfl hop.1
  | ret => exact absurd rfl hop.2.1
  | setLocal => exact absurd rfl hop.2.2

/-- **Every instruction keeps a machine in bounds**, and it leaves the slots below `low` alone, when its
operands, its parameters and the place of its result lie from there on. -/
theorem execute_confined (h : m.InBounds) (hframes : m.frames = fs.push f) {op : Opcode}
    {operand : Nat} (hlow : low ≤ m.sp - op.pops operand) (hbase : low ≤ f.base - 1)
    (hmain : fs.size = 0 → low = 0) : Confines low m (execute op operand) m := by
  have hrefl : m.Confined low m := .refl h
  cases op with
  | returnValue =>
    exact confines_pop hrefl fun v h' => confines_leave h' hframes hmain hbase v
  | ret => exact confines_leave hrefl hframes hmain hbase .null
  | setLocal =>
    refine confines_pop hrefl fun v h' => ?_
    have hback : (m.frames.back?.getD default).base = f.base := by
      rw [hframes, Array.back?_push]
      rfl
    rw [Confines, ensures_bind, ensures_localSlot]
    split
    · exact h'.write (by dsimp only; omega) h'.inBounds.sp_le v
    · exact h'
  | _ => exact execute_confined_stack h hframes (by simp) hlow

end Executing

/-! ### Steps -/

namespace Machine

variable {low : Nat} {m : Machine}

/-- What holds however a step comes out holds of the machine that it leaves. -/
theorem Steps.always {Q : Machine → Prop} (h : m.Steps Q (fun _ => Q) Q) : Q m.step.2 := by
  unfold Steps at h
  split at h
  · next hstep => rwa [hstep]
  · next hstep => rwa [hstep]
  · next hstep => rwa [hstep]
  · exact h.elim

/-- A step goes on, raises a fault or finishes. -/
theorem Steps.ne_unfinished {Q F : Machine → Prop} {E : Fault → Machine → Prop}
    (h : m.Steps Q E F) : m.step.1 ≠ some .unfinished := by
  intro hstep
  unfold Steps at h
  split at h
  · next heq => simp [heq] at hstep
  · next heq => simp [heq] at hstep
  · next heq => simp [heq] at hstep
  · exact h

/-- The next step finds its operands and its local slots from `low` on. -/
def Above (low : Nat) (m : Machine) : Prop :=
  ∀ (fs : Array Frame) (f : Frame), m.frames = fs.push f → low ≤ f.base ∧ ∀ op operand next,
    f.ip < f.function.code.size → Code.fetch f.function.code f.ip = .ok (op, operand, next) →
    low ≤ m.sp - op.pops operand

theorem above_zero (m : Machine) : m.Above 0 :=
  fun _ _ _ => ⟨Nat.zero_le _, fun _ _ _ _ _ => Nat.zero_le _⟩

/-- **A step keeps a machine in bounds**, and leaves the slots below `low` alone, when everything that
it uses lies from there on. -/
theorem steps_confined (h : m.InBounds) (habove : m.Above low)
    (hbase : ∀ (fs : Array Frame) (f : Frame), m.frames = fs.push f →
      low ≤ f.base - 1 ∧ (fs.size = 0 → low = 0)) :
    m.Steps (m.Confined low) (fun _ => m.Confined low) (m.Confined low) := by
  have hrefl : m.Confined low m := .refl h
  cases m.next with
  | done hframes =>
    rw [steps_done hframes]
    exact hrefl
  | malformed fs f e hframes hlt hfetch =>
    rw [Steps, step_malformed hframes hlt hfetch]
    exact hrefl
  | instruction fs f op operand next hframes hlt hfetch =>
    obtain ⟨hlow, hmain⟩ := hbase fs f hframes
    have hpops : low ≤ m.sp - op.pops operand :=
      (habove fs f hframes).2 op operand next hlt hfetch
    have hgo : InBounds { m with frames := fs.push { f with ip := next } } := h.goto hframes next
    rw [steps_instruction hframes hlt hfetch]
    refine (Executing.execute_confined hgo rfl hpops hlow hmain).mono ?_ ?_
    · intro _ m' h'
      exact ⟨h'.inBounds, h'.size, h'.below⟩
    · intro _ m' h'
      exact ⟨h'.inBounds, h'.size, h'.below⟩
  | ended fs f hframes hge =>
    obtain ⟨hlow, hmain⟩ := hbase fs f hframes
    rw [steps_end hframes hge]
    split
    · next hsize =>
      have hfs : fs = #[] := Array.size_eq_zero_iff.mp hsize
      rw [← hfs]
      exact ⟨h.below hframes h.sp_le, rfl, fun _ _ => rfl⟩
    · exact Executing.confines_leave hrefl hframes hmain hlow .null

theorem InBounds.steps (h : m.InBounds) :
    m.Steps (m.Confined 0) (fun _ => m.Confined 0) (m.Confined 0) :=
  steps_confined h (above_zero m) fun _ _ _ => ⟨Nat.zero_le _, fun _ => rfl⟩

end Machine

end Monkey
