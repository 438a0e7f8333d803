import Monkey.Proofs.Effects
import Monkey.Proofs.Operands

/-!
# Two runs in lockstep

A piece of code does the same wherever it stands. One machine runs it alone, from an empty stack; on
the other one more code follows, its constants may go on, and values of earlier code lie above the top
of its stack. As long as the first machine raises no fault, both go on step by step
(`Machine.Together.steps`), and when the first one has finished, the second one stands before the code
that follows, with the same globals and the same value popped last (`Machine.Together.run`).

`Machine.Agrees` says what the two have in common. They may differ in the slots of the stack from
`high` on, which the code has never written to; it has never read them either, because a call clears
the slots of its locals first.
-/

namespace Monkey

/-! ### Machines that agree -/

namespace Machine

/-- The machines have the limits given, the second one has the constants `k`, and they agree up to the
frame of the top level, which is `f₀` for one and `f₀'` for the other, and up to the slots of the stack
from `high` on. The frames above the top level are `fs`. -/
structure Agrees (limits : Limits) (k : Array Value) (f₀ f₀' : Frame) (fs : Array Frame)
    (high : Nat) (m m' : Machine) : Prop where
  constants : ∀ (i : Nat) v, m.constants[i]? = some v → k[i]? = some v
  constants' : m'.constants = k
  globals : m'.globals = m.globals
  globalsSize : limits.globalsSize ≤ m.globals.size
  maxFrames : m.maxFrames = limits.maxFrames
  maxFrames' : m'.maxFrames = limits.maxFrames
  size : m.stack.size = limits.stackSize
  size' : m'.stack.size = limits.stackSize
  frames : m.frames = #[f₀] ++ fs
  frames' : m'.frames = #[f₀'] ++ fs
  sp : m'.sp = m.sp
  sp_le : m.sp ≤ high
  stack : ∀ i < high, m'.stack.getD i .null = m.stack.getD i .null
  locals : ∀ f ∈ fs, f.base + f.function.locals ≤ high

variable {limits : Limits} {k : Array Value} {f₀ f₀' : Frame} {fs : Array Frame} {high : Nat}
  {m m' : Machine}

theorem Agrees.getElem? (h : Agrees limits k f₀ f₀' fs high m m') {i : Nat} (hi : i < high) :
    m'.stack[i]? = m.stack[i]? := by
  have hstack := h.stack i hi
  simp only [Array.getD_eq_getD_getElem?] at hstack
  by_cases hlt : i < limits.stackSize
  · have hlt' : i < m.stack.size := h.size ▸ hlt
    have hlt'' : i < m'.stack.size := h.size' ▸ hlt
    simpa [hlt', hlt''] using hstack
  · rw [Array.getElem?_eq_none (by rw [h.size']; omega), Array.getElem?_eq_none (by rw [h.size]; omega)]

/-- The value on top of the stack is the same. -/
theorem Agrees.top (h : Agrees limits k f₀ f₀' fs high m m') (hsp : m.sp ≠ 0) :
    m'.stack.getD (m'.sp - 1) .null = m.stack.getD (m.sp - 1) .null := by
  have hle := h.sp_le
  rw [h.sp]
  exact h.stack _ (by omega)

/-- During a call the frame on top is the same, and those of the top level are at the bottom. -/
theorem Agrees.frames_push {f : Frame} (h : Agrees limits k f₀ f₀' (fs.push f) high m m') :
    m.frames = (#[f₀] ++ fs).push f ∧ m'.frames = (#[f₀'] ++ fs).push f := by
  rw [h.frames, h.frames', Array.append_push, Array.append_push]
  exact ⟨rfl, rfl⟩

/-- During a call both go on at the same offset. -/
theorem Agrees.go {f : Frame} (h : Agrees limits k f₀ f₀' (fs.push f) high m m') (ip : Nat) :
    Agrees limits k f₀ f₀' (fs.push { f with ip }) high
      { m with frames := (#[f₀] ++ fs).push { f with ip } }
      { m' with frames := (#[f₀'] ++ fs).push { f with ip } } :=
  { h with
    frames := Array.append_push.symm
    frames' := Array.append_push.symm
    locals := fun g hg => by
      rcases Array.mem_push.mp hg with hg | rfl
      · exact h.locals g (Array.mem_push.mpr (.inl hg))
      · exact h.locals f (Array.mem_push.mpr (.inr rfl)) }

/-- At the top level each goes on at an offset of its own. -/
theorem Agrees.goTop (h : Agrees limits k f₀ f₀' #[] high m m') (ip ip' : Nat) :
    Agrees limits k { f₀ with ip } { f₀' with ip := ip' } #[] high
      { m with frames := Array.push #[] { f₀ with ip } }
      { m' with frames := Array.push #[] { f₀' with ip := ip' } } :=
  { h with
    frames := by rw [Array.append_empty]; rfl
    frames' := by rw [Array.append_empty]; rfl }

/-- Taking values off the stack. -/
theorem Agrees.drop (h : Agrees limits k f₀ f₀' fs high m m') (count : Nat) :
    Agrees limits k f₀ f₀' fs high { m with sp := m.sp - count }
      { m' with sp := m'.sp - count } :=
  { h with sp := by simp only [h.sp], sp_le := (Nat.sub_le _ _).trans h.sp_le }

/-- Writing the same value to a slot, which may be the first one that was never written to. -/
theorem Agrees.write (h : Agrees limits k f₀ f₀' fs high m m') {i : Nat} (hi : i ≤ high)
    (v : Value) : Agrees limits k f₀ f₀' fs (max high (i + 1))
      { m with stack := m.stack.setIfInBounds i v }
      { m' with stack := m'.stack.setIfInBounds i v } where
  constants := h.constants
  constants' := h.constants'
  globals := h.globals
  globalsSize := h.globalsSize
  maxFrames := h.maxFrames
  maxFrames' := h.maxFrames'
  size := by rw [Array.size_setIfInBounds, h.size]
  size' := by rw [Array.size_setIfInBounds, h.size']
  frames := h.frames
  frames' := h.frames'
  sp := h.sp
  sp_le := h.sp_le.trans (Nat.le_max_left _ _)
  stack j hj := by
    simp only [Array.getD_eq_getD_getElem?, Array.getElem?_setIfInBounds, h.size, h.size']
    split
    · rfl
    · have hstack := h.stack j (by omega)
      simpa only [Array.getD_eq_getD_getElem?] using hstack
  locals f hf := (h.locals f hf).trans (Nat.le_max_left _ _)

end Machine

/-! ### Instructions on both machines -/

namespace Executing

open Machine

/-- When the step `x` succeeds on `m`, it also does on `m'`, and the machines still agree. -/
def Mirrored (limits : Limits) (k : Array Value) (f₀ f₀' : Frame) (high : Nat)
    (x : Executing Unit) (m m' : Machine) : Prop :=
  x.Ensures m (fun _ m₁ => x.Ensures m' (fun _ m₁' => ∃ fs₁ high₁, high ≤ high₁ ∧
    Agrees limits k f₀ f₀' fs₁ high₁ m₁ m₁') (fun _ _ => False)) (fun _ _ => True)

variable {limits : Limits} {k : Array Value} {f₀ f₀' : Frame} {fs : Array Frame} {high : Nat}
  {m m' : Machine}

theorem mirrored_pure (h : Agrees limits k f₀ f₀' fs high m m') :
    Mirrored limits k f₀ f₀' high (pure ()) m m' :=
  ⟨fs, high, Nat.le_refl _, h⟩

theorem mirrored_push (h : Agrees limits k f₀ f₀' fs high m m') (v : Value) :
    Mirrored limits k f₀ f₀' high (push v) m m' := by
  rw [Mirrored, ensures_push]
  split
  · next hlt =>
    have hlt' : m'.sp < m'.stack.size := by rwa [h.sp, h.size', ← h.size]
    rw [ensures_push, if_pos hlt', h.sp]
    have hwrite := h.write h.sp_le v
    exact ⟨fs, _, Nat.le_max_left _ _,
      { hwrite with sp := rfl, sp_le := Nat.le_max_right _ _ }⟩
  · trivial

theorem mirrored_give (h : Agrees limits k f₀ f₀' fs high m m') (r : Except Fault Value) :
    Mirrored limits k f₀ f₀' high (give r) m m' := by
  cases r with
  | ok v => exact mirrored_push h v
  | error e => trivial

theorem mirrored_pop {x : Value → Executing Unit} (h : Agrees limits k f₀ f₀' fs high m m')
    (hx : ∀ v, m.sp ≠ 0 → Mirrored limits k f₀ f₀' high (x v) { m with sp := m.sp - 1 }
      { m' with sp := m'.sp - 1 }) :
    Mirrored limits k f₀ f₀' high (pop >>= x) m m' := by
  rw [Mirrored, ensures_bind, ensures_pop]
  split
  · trivial
  · next hsp =>
    have hsp' : m'.sp ≠ 0 := h.sp ▸ hsp
    simp only [ensures_bind, ensures_pop, if_neg hsp', h.top hsp]
    exact hx _ hsp

theorem mirrored_popMany {count : Nat} {x : List Value → Executing Unit}
    (h : Agrees limits k f₀ f₀' fs high m m')
    (hx : ∀ vs, Mirrored limits k f₀ f₀' high (x vs) { m with sp := m.sp - count }
      { m' with sp := m'.sp - count }) :
    Mirrored limits k f₀ f₀' high (popMany count >>= x) m m' := by
  rw [Mirrored, ensures_bind, ensures_popMany]
  split
  · trivial
  · next hsp =>
    have hsp' : ¬m'.sp < count := h.sp ▸ hsp
    have hvalues : m'.stack.extract (m'.sp - count) m'.sp =
        m.stack.extract (m.sp - count) m.sp := by
      have hle := h.sp_le
      rw [h.sp]
      apply Array.ext_getElem?
      intro i
      rw [Array.getElem?_extract, Array.getElem?_extract, h.size, h.size']
      split
      · exact h.getElem? (by omega)
      · rfl
    simp only [ensures_bind, ensures_popMany, if_neg hsp', hvalues]
    exact hx _

theorem mirrored_binary (h : Agrees limits k f₀ f₀' fs high m m')
    (g : Value → Value → Except Fault Value) :
    Mirrored limits k f₀ f₀' high (binary g) m m' := by
  refine mirrored_pop h fun v _ => mirrored_pop (h.drop 1) fun w _ => ?_
  have hgive := mirrored_give ((h.drop 1).drop 1) (g w v)
  cases hg : g w v with
  | ok u =>
    rw [hg] at hgive
    exact hgive
  | error e => trivial

theorem mirrored_unary (h : Agrees limits k f₀ f₀' fs high m m') (g : Value → Except Fault Value) :
    Mirrored limits k f₀ f₀' high (unary g) m m' := by
  refine mirrored_pop h fun v _ => ?_
  have hgive := mirrored_give (h.drop 1) (g v)
  cases hg : g v with
  | ok u =>
    rw [hg] at hgive
    exact hgive
  | error e => trivial

/-- A local slot lies in the part of the stack that the machines agree on. At the top level there is
none. -/
theorem mirrored_localSlot {x : Nat → Executing Unit} (hlocals : f₀.function.locals = 0)
    (h : Agrees limits k f₀ f₀' fs high m m') (slot : Nat)
    (hx : ∀ i, i < high → Mirrored limits k f₀ f₀' high (x i) m m') :
    Mirrored limits k f₀ f₀' high (localSlot slot >>= x) m m' := by
  rw [Mirrored, ensures_bind, ensures_localSlot]
  split
  · next hlt =>
    by_cases hfs : fs = #[]
    · subst hfs
      rw [h.frames] at hlt
      simp [hlocals] at hlt
    · obtain ⟨gs, f, rfl⟩ := Array.exists_push_of_ne_empty hfs
      have hback : m.frames.back?.getD default = f := by rw [h.frames]; simp
      have hback' : m'.frames.back?.getD default = f := by rw [h.frames']; simp
      rw [hback] at hlt ⊢
      simp only [ensures_bind, ensures_localSlot, hback', if_pos hlt]
      have hle := h.locals f (by simp)
      exact hx _ (by omega)
  · trivial

theorem mirrored_leave (h : Agrees limits k f₀ f₀' fs high m m') (hfs : fs ≠ #[]) (v : Value) :
    Mirrored limits k f₀ f₀' high (leave v) m m' := by
  obtain ⟨gs, f, rfl⟩ := Array.exists_push_of_ne_empty hfs
  obtain ⟨hframes, hframes'⟩ := h.frames_push
  have hne : ∀ g : Frame, (#[g] ++ gs).size ≠ 0 := fun g => by simp
  simp only [Mirrored, ensures_leave hframes, ensures_leave hframes', if_neg (hne _)]
  have hle := h.locals f (by simp)
  have hagrees : Agrees limits k f₀ f₀' gs high { m with frames := #[f₀] ++ gs, sp := f.base - 1 }
      { m' with frames := #[f₀'] ++ gs, sp := f.base - 1 } :=
    { h with
      frames := rfl
      frames' := rfl
      sp := rfl
      sp_le := by dsimp only; omega
      locals := fun g hg => h.locals g (by simp [hg]) }
  exact mirrored_push hagrees v

theorem mirrored_call (h : Agrees limits k f₀ f₀' fs high m m') (count : Nat) :
    Mirrored limits k f₀ f₀' high (call count) m m' := by
  rw [Mirrored, ensures_call]
  split
  · trivial
  next hcount =>
  split
  · next g hg =>
    split
    · trivial
    next hparameters =>
    split
    · trivial
    next hframes =>
    split
    · trivial
    next htop =>
    -- every check of the call comes out the same
    have hle := h.sp_le
    have hg' : m'.stack.getD (m.sp - 1 - count) .null = .function g := by
      rw [h.stack _ (by omega), hg]
    have hframes' : ¬m'.maxFrames ≤ m'.frames.size := by
      rw [h.maxFrames', h.frames']
      rw [h.maxFrames, h.frames] at hframes
      simpa using hframes
    have hcount' : ¬m'.sp ≤ count := h.sp ▸ hcount
    have htop' : ¬m'.stack.size < m.sp - count + max g.locals count := by
      rwa [h.size', ← h.size]
    simp only [ensures_call, h.sp, hg', if_neg hcount, if_neg hparameters, if_neg hframes',
      if_neg htop']
    refine ⟨fs.push ⟨g, 0, m.sp - count⟩, max high (m.sp - count + max g.locals count),
      Nat.le_max_left _ _, { h with
        size := by rw [size_clearSlots, h.size]
        size' := by rw [size_clearSlots, h.size']
        frames := ?_
        frames' := ?_
        sp := rfl
        sp_le := Nat.le_max_right _ _
        stack := fun i hi => ?_
        locals := fun f hf => ?_ }⟩
    · simp only [h.frames, Array.append_push]
    · simp only [h.frames', Array.append_push]
    · -- the slots of the locals are cleared on both machines, whatever they held
      rw [getD_clearSlots, getD_clearSlots]
      split
      · rfl
      · exact h.stack i (by omega)
    · rcases Array.mem_push.mp hf with hf | rfl
      · exact (h.locals f hf).trans (Nat.le_max_left _ _)
      · dsimp only
        omega
  · trivial

/-- A jump inside a call. Both machines have the code of the call, so the target is the same. -/
theorem mirrored_jump (h : Agrees limits k f₀ f₀' fs high m m') (hfs : fs ≠ #[]) (target : Nat) :
    Mirrored limits k f₀ f₀' high (jump target) m m' := by
  obtain ⟨gs, f, rfl⟩ := Array.exists_push_of_ne_empty hfs
  obtain ⟨hframes, hframes'⟩ := h.frames_push
  simp only [Mirrored, ensures_jump, hframes, hframes', modify_last_ip]
  exact ⟨_, high, Nat.le_refl _, h.go target⟩

/-- **Every instruction is mirrored**, but for jumps and returns of the top level. -/
theorem execute_mirrored (h : Agrees limits k f₀ f₀' fs high m m')
    (hlocals : f₀.function.locals = 0) (op : Opcode) (operand : Nat)
    (hop : fs ≠ #[] ∨ op.isJump = false ∧ op ≠ .returnValue ∧ op ≠ .ret) :
    Mirrored limits k f₀ f₀' high (execute op operand) m m' := by
  cases op with
  | constant =>
    rw [Mirrored, execute, ensures_bind, ensures_get]
    split
    · next v hv =>
      have hv' : m'.constants[operand]? = some v := by
        rw [h.constants']
        exact h.constants _ _ hv
      simp only [ensures_bind, ensures_get, hv']
      exact mirrored_push h v
    · trivial
  | pop => exact mirrored_pop h fun v _ => mirrored_pure (h.drop 1)
  | add | sub | mul | div | greaterThan | index => exact mirrored_binary h _
  | true | false | null => exact mirrored_push h _
  | equal | notEqual =>
    rw [execute]
    exact mirrored_binary h _
  | minus => exact mirrored_unary h _
  | bang =>
    rw [execute]
    exact mirrored_unary h _
  | jumpNotTruthy =>
    -- the frame of the main program does not jump here, so a called one does
    have hfs : fs ≠ #[] := hop.resolve_right fun hne => Bool.false_ne_true hne.1.symm
    refine mirrored_pop h fun v _ => ?_
    cases v.isTruthy with
    | true => exact mirrored_pure (h.drop 1)
    | false => exact mirrored_jump (h.drop 1) hfs operand
  | jump => exact mirrored_jump h (hop.resolve_right fun hne => Bool.false_ne_true hne.1.symm) operand
  | getGlobal =>
    rw [Mirrored, execute, ensures_bind, ensures_get]
    split
    · next v hv =>
      simp only [ensures_bind, ensures_get, h.globals, hv]
      exact mirrored_push h v
    · trivial
    · trivial
  | setGlobal =>
    refine mirrored_pop h fun v _ => ?_
    rw [Mirrored, ensures_bind, ensures_get]
    split
    · next hlt =>
      have hlt' : operand < m'.globals.size := by rwa [h.globals]
      simp only [ensures_bind, ensures_get, ensures_modify, if_pos hlt']
      exact ⟨fs, high, Nat.le_refl _, { h.drop 1 with
        globals := congrArg (·.setIfInBounds operand (some v)) h.globals
        globalsSize := h.globalsSize.trans (Nat.le_of_eq Array.size_setIfInBounds.symm) }⟩
    · trivial
  | array => exact mirrored_popMany h fun vs => mirrored_push (h.drop operand) _
  | hash =>
    refine mirrored_popMany h fun vs => ?_
    have hgive := mirrored_give (h.drop operand) (Value.hashOf vs)
    cases hvs : Value.hashOf vs with
    | ok u =>
      rw [hvs] at hgive
      exact hgive
    | error e => trivial
  | call => exact mirrored_call h operand
  | returnValue =>
    have hfs : fs ≠ #[] := hop.resolve_right fun hne => hne.2.1 rfl
    exact mirrored_pop h fun v _ => mirrored_leave (h.drop 1) hfs v
  | ret => exact mirrored_leave h (hop.resolve_right fun hne => hne.2.2 rfl) .null
  | getLocal =>
    refine mirrored_localSlot hlocals h operand fun i hi => ?_
    simp only [Mirrored, ensures_bind, ensures_get, h.stack i hi]
    exact mirrored_push h _
  | setLocal =>
    refine mirrored_pop h fun v _ => mirrored_localSlot hlocals (h.drop 1) operand fun i hi => ?_
    exact ⟨fs, _, Nat.le_max_left _ _, (h.drop 1).write (Nat.le_of_lt hi) v⟩

end Executing

/-! ### Steps of both machines -/

open Piece

/-- An instruction that neither jumps nor returns. -/
def Opcode.Straight (op : Opcode) (_ : List Nat) : Prop :=
  op.isJump = Bool.false ∧ op ≠ .returnValue ∧ op ≠ .ret

/-- The last instruction takes a value off the stack. -/
def Piece.Drops (ps : List Piece) : Prop :=
  ∃ qs op ns, ps = qs ++ [.op op ns] ∧ (op = .pop ∨ op = .setGlobal ∨ op = .setLocal)

/-- Pieces are dropped from the front until the last one is left. -/
theorem Piece.Drops.tail {p : Piece} {ps : List Piece} (h : Drops (p :: ps)) :
    Drops ps ∨ ps = [] ∧ ∃ op ns, p = .op op ns ∧ (op = .pop ∨ op = .setGlobal ∨ op = .setLocal) := by
  obtain ⟨qs, op, ns, heq, hop⟩ := h
  cases qs with
  | nil =>
    obtain ⟨rfl, rfl⟩ := List.cons.inj heq
    exact .inr ⟨rfl, op, ns, rfl, hop⟩
  | cons q qs =>
    obtain ⟨rfl, rfl⟩ := List.cons.inj heq
    exact .inl ⟨qs, op, ns, rfl, hop⟩

/-- A jump is not the last instruction. -/
theorem Piece.Drops.tail_of_ne {p : Piece} {ps : List Piece} (h : Drops (p :: ps))
    (hp : ∀ op ns, p ≠ .op op ns) : Drops ps := by
  refine h.tail.resolve_right ?_
  rintro ⟨-, op, ns, heq, -⟩
  exact hp op ns heq

theorem Piece.Drops.append {ps : List Piece} (h : Drops ps) (qs : List Piece) : Drops (qs ++ ps) := by
  obtain ⟨rs, op, ns, rfl, hop⟩ := h
  exact ⟨qs ++ rs, op, ns, (List.append_assoc ..).symm, hop⟩

namespace Machine

/-- The machine stands before the pieces `qs` at the top level. -/
structure Waits (limits : Limits) (k : Array Value) (qs : List Piece) (m : Machine) : Prop where
  code : ∃ f, m.frames = #[f] ∧ Code.Remaining f.function.code f.ip qs
  constants : m.constants = k
  maxFrames : m.maxFrames = limits.maxFrames
  size : m.stack.size = limits.stackSize

/-- The machines agree, the first one has `ps` left to run at the top level, and the second one has
`qs` behind it. When `started` holds, a value is on the way to the stack. -/
structure Lockstep (limits : Limits) (k : Array Value) (qs : List Piece) (started : Prop)
    (f₀ f₀' : Frame) (fs : Array Frame) (high : Nat) (ps : List Piece) (m m' : Machine) : Prop where
  agrees : Agrees limits k f₀ f₀' fs high m m'
  code : Code.Remaining f₀.function.code f₀.ip ps
  code' : Code.Remaining f₀'.function.code f₀'.ip (ps ++ qs)
  locals : f₀.function.locals = 0
  straight : EachAll Opcode.Straight ps
  written : started → 1 ≤ high ∨ Drops ps

/-- The machines are in lockstep at some place. -/
def Together (limits : Limits) (k : Array Value) (qs : List Piece) (started : Prop)
    (m m' : Machine) : Prop :=
  ∃ f₀ f₀' fs high ps, Lockstep limits k qs started f₀ f₀' fs high ps m m'

/-- The first machine has finished, and the second one stands before `qs`. -/
structure Arrives (limits : Limits) (k : Array Value) (qs : List Piece) (started : Prop)
    (m m' : Machine) : Prop where
  waits : m'.Waits limits k qs
  globals : m'.globals = m.globals
  globalsSize : limits.globalsSize ≤ m.globals.size
  sp : m'.sp = m.sp
  lastPopped : started → m.sp = 0 → m'.lastPopped = m.lastPopped

variable {limits : Limits} {k : Array Value} {qs : List Piece} {started : Prop} {f₀ f₀' : Frame}
  {fs : Array Frame} {high : Nat} {ps : List Piece} {m m' : Machine}

/-- An instruction that takes a value off the stack finds one. -/
theorem ensures_drops {op : Opcode} (hop : op = .pop ∨ op = .setGlobal ∨ op = .setLocal)
    (operand : Nat) : (Executing.execute op operand).Ensures m (fun _ _ => m.sp ≠ 0)
      (fun _ _ => True) := by
  have hpop : ∀ x : Value → Executing Unit, (Executing.pop >>= x).Ensures m (fun _ _ => m.sp ≠ 0)
      (fun _ _ => True) := by
    intro x
    rw [Executing.ensures_bind, Executing.ensures_pop]
    split
    · trivial
    · next hsp =>
      unfold Executing.Ensures
      split
      · exact hsp
      · trivial
  rcases hop with rfl | rfl | rfl <;> exact hpop _

/-- The last instruction finds a value on the stack, so that the first slot has been written to when it
has been carried out. -/
theorem ensures_written {op : Opcode} {ns : List Nat} (hle : m.sp ≤ high)
    (hwritten : started → 1 ≤ high ∨ Drops (.op op ns :: ps)) :
    (Executing.execute op (ns.headD 0)).Ensures m (fun _ _ => started → 1 ≤ high ∨ Drops ps)
      (fun _ _ => True) := by
  by_cases hlast : started ∧ ¬(1 ≤ high ∨ Drops ps)
  · -- the instruction is the last one
    obtain ⟨hstarted, hnot⟩ := hlast
    have htail := ((hwritten hstarted).resolve_left fun hhigh => hnot (.inl hhigh)).tail
    obtain ⟨-, op', ns', heq, hop⟩ := htail.resolve_left fun hdrops => hnot (.inr hdrops)
    obtain ⟨rfl, rfl⟩ := Piece.op.inj heq
    refine (ensures_drops hop _).mono (fun _ _ hsp _ => .inl ?_) fun _ _ h => h
    omega
  · have hgoal : started → 1 ≤ high ∨ Drops ps := fun hstarted =>
      Classical.not_not.mp fun hnot => hlast ⟨hstarted, hnot⟩
    unfold Executing.Ensures
    split
    · exact hgoal
    · trivial

/-- When the first machine goes on, so does the second one, and they are in lockstep again. When the
first one has finished, the second one has arrived. -/
def StepsTogether (limits : Limits) (k : Array Value) (qs : List Piece) (started : Prop)
    (m m' : Machine) : Prop :=
  m.Steps (fun m₁ => m'.Steps (Together limits k qs started m₁) (fun _ _ => False) (fun _ => False))
    (fun _ _ => True) (Arrives limits k qs started · m')

/-- A step that is mirrored while the top level is left alone. -/
theorem Lockstep.ensures_mirrored (h : Lockstep limits k qs started f₀ f₀' fs high ps m m')
    {x : Executing Unit} {m₁ m₁' : Machine}
    (hx : Executing.Mirrored limits k f₀ f₀' high x m₁ m₁') :
    x.Ensures m₁ (fun _ m₂ => x.Ensures m₁' (fun _ m₂' => Together limits k qs started m₂ m₂')
      (fun _ _ => False)) (fun _ _ => True) := by
  refine hx.mono (fun _ m₂ h₂ => h₂.mono (fun _ m₂' h₂' => ?_) fun _ _ h => h) fun _ _ h => h
  obtain ⟨fs₁, high₁, hhigh, hagrees⟩ := h₂'
  exact ⟨f₀, f₀', fs₁, high₁, ps, { h with
    agrees := hagrees
    written := fun hstarted => (h.written hstarted).imp_left hhigh.trans' }⟩

/-- Inside a call both machines do the same. -/
theorem Lockstep.steps_call (h : Lockstep limits k qs started f₀ f₀' fs high ps m m')
    (hfs : fs ≠ #[]) : StepsTogether limits k qs started m m' := by
  obtain ⟨gs, f, rfl⟩ := Array.exists_push_of_ne_empty hfs
  obtain ⟨hframes, hframes'⟩ := h.agrees.frames_push
  unfold StepsTogether
  by_cases hlt : f.ip < f.function.code.size
  · cases hfetch : Code.fetch f.function.code f.ip with
    | error e =>
      rw [Steps, step_malformed hframes hlt hfetch]
      trivial
    | ok instruction =>
      obtain ⟨op, operand, next⟩ := instruction
      have hmirrored := Executing.execute_mirrored (h.agrees.go next) h.locals op operand
        (.inl (by simp))
      rw [steps_instruction hframes hlt hfetch]
      refine (h.ensures_mirrored hmirrored).mono (fun _ m₁ h₁ => ?_) fun _ _ h => h
      rw [steps_instruction hframes' hlt hfetch]
      exact h₁
  · -- the end of the code returns null
    have hne : ∀ g : Frame, (#[g] ++ gs).size ≠ 0 := fun g => by simp
    have hmirrored := Executing.mirrored_leave h.agrees hfs .null
    rw [steps_end hframes (by omega), if_neg (hne f₀)]
    refine (h.ensures_mirrored hmirrored).mono (fun _ m₁ h₁ => ?_) fun _ _ h => h
    rw [steps_end hframes' (by omega), if_neg (hne f₀')]
    exact h₁

/-- What frames look like at the top level. -/
theorem Lockstep.frames_main (h : Lockstep limits k qs started f₀ f₀' #[] high ps m m') :
    m.frames = Array.push #[] f₀ ∧ m'.frames = Array.push #[] f₀' := by
  rw [h.agrees.frames, h.agrees.frames', Array.append_empty, Array.append_empty]
  exact ⟨rfl, rfl⟩

/-- At the end of its code the first machine has finished. -/
theorem Lockstep.steps_nil (h : Lockstep limits k qs started f₀ f₀' #[] high [] m m') :
    StepsTogether limits k qs started m m' := by
  obtain ⟨hframes, hframes'⟩ := h.frames_main
  have hwaits : m'.Waits limits k qs :=
    ⟨⟨f₀', hframes', h.code'⟩, h.agrees.constants', h.agrees.maxFrames', h.agrees.size'⟩
  rw [StepsTogether, steps_end hframes h.code.size_le, if_pos Array.size_empty]
  refine ⟨hwaits, h.agrees.globals, h.agrees.globalsSize, h.agrees.sp, fun hstarted hsp => ?_⟩
  -- something has been written to the first slot
  have hhigh : 1 ≤ high := by
    refine (h.written hstarted).resolve_right ?_
    rintro ⟨rs, op, ns, heq, -⟩
    cases rs <;> cases heq
  have hsp' : m.sp = 0 := hsp
  simp only [lastPopped, h.agrees.sp, hsp']
  exact h.agrees.stack 0 hhigh

/-- The next instruction of the top level, which is the same for both machines. -/
theorem Lockstep.steps_op {op : Opcode} {ns : List Nat}
    (h : Lockstep limits k qs started f₀ f₀' #[] high (.op op ns :: ps) m m') :
    StepsTogether limits k qs started m m' := by
  obtain ⟨hframes, hframes'⟩ := h.frames_main
  obtain ⟨hlt, hfetch, hrest⟩ := h.code.op
  obtain ⟨hlt', hfetch', hrest'⟩ := h.code'.op
  have hgo := h.agrees.goTop (f₀.ip + (Piece.op op ns).size) (f₀'.ip + (Piece.op op ns).size)
  have hmirrored := Executing.execute_mirrored hgo h.locals op (ns.headD 0) (.inr h.straight.1)
  rw [StepsTogether, steps_instruction hframes hlt hfetch]
  refine (hmirrored.and (ensures_written hgo.sp_le h.written)).mono (fun _ m₁ h₁ => ?_)
    fun _ _ h => h.1
  rw [steps_instruction hframes' hlt' hfetch']
  refine h₁.1.mono (fun _ m₁' h₁' => ?_) fun _ _ h => h
  obtain ⟨fs₁, high₁, hhigh, hagrees⟩ := h₁'
  exact ⟨_, _, fs₁, high₁, ps, hagrees, hrest, hrest', h.locals, h.straight.2,
    fun hstarted => (h₁.2 hstarted).imp_left hhigh.trans'⟩

/-- A branch: both machines take the same side, because the value on top is the same. -/
theorem Lockstep.steps_branch {yes no : List Piece}
    (h : Lockstep limits k qs started f₀ f₀' #[] high (.branch yes no :: ps) m m') :
    StepsTogether limits k qs started m m' := by
  obtain ⟨hframes, hframes'⟩ := h.frames_main
  obtain ⟨hlt, hfetch, hyes, hno⟩ := h.code.branch
  obtain ⟨hlt', hfetch', hyes', hno'⟩ := h.code'.branch
  obtain ⟨⟨hstraightYes, hstraightNo⟩, hstraight⟩ := h.straight
  -- a branch is not the last instruction, so the value is still on the way
  have hwritten : started → 1 ≤ high ∨ Drops ps := fun hstarted =>
    (h.written hstarted).imp_right fun hdrops => hdrops.tail_of_ne (by simp)
  rw [StepsTogether, steps_instruction hframes hlt hfetch, Executing.execute,
    Executing.ensures_bind, Executing.ensures_pop]
  split
  · trivial
  next hsp =>
  have hsp' : m'.sp ≠ 0 := h.agrees.sp ▸ hsp
  simp only [steps_instruction hframes' hlt' hfetch', Executing.execute, Executing.ensures_bind,
    Executing.ensures_pop, if_neg hsp', h.agrees.top hsp]
  cases (m.stack.getD (m.sp - 1) .null).isTruthy with
  | true =>
    refine ⟨_, _, #[], high, yes ++ .skip no :: ps, (h.agrees.goTop _ _).drop 1, hyes, ?_, h.locals,
      ?_, fun hstarted => (hwritten hstarted).imp_right fun hps => ?_⟩
    · rwa [List.append_assoc]
    · exact eachAll_append.mpr ⟨hstraightYes, hstraightNo, hstraight⟩
    · rw [List.append_cons]
      exact hps.append _
  | false =>
    simp only [Bool.false_eq_true, if_false, Executing.ensures_jump, modify_last_ip]
    refine ⟨_, _, #[], high, no ++ ps, (h.agrees.goTop _ _).drop 1, hno, ?_, h.locals, ?_,
      fun hstarted => (hwritten hstarted).imp_right fun hps => hps.append no⟩
    · rwa [List.append_assoc]
    · exact eachAll_append.mpr ⟨hstraightNo, hstraight⟩

/-- The jump over the side that was not taken. -/
theorem Lockstep.steps_skip {no : List Piece}
    (h : Lockstep limits k qs started f₀ f₀' #[] high (.skip no :: ps) m m') :
    StepsTogether limits k qs started m m' := by
  obtain ⟨hframes, hframes'⟩ := h.frames_main
  obtain ⟨hlt, hfetch, hend, -⟩ := h.code.skip
  obtain ⟨hlt', hfetch', hend', -⟩ := h.code'.skip
  have hwritten : started → 1 ≤ high ∨ Drops ps := fun hstarted =>
    (h.written hstarted).imp_right fun hdrops => hdrops.tail_of_ne (by simp)
  rw [StepsTogether, steps_instruction hframes hlt hfetch, Executing.execute, Executing.ensures_jump,
    steps_instruction hframes' hlt' hfetch', Executing.execute, Executing.ensures_jump]
  simp only [modify_last_ip]
  exact ⟨_, _, #[], high, ps, h.agrees.goTop _ _, hend, hend', h.locals, h.straight.2, hwritten⟩

/-- **One step in lockstep.** When the first machine goes on, so does the second one, and when the first
one has finished, the second one has arrived. -/
theorem Together.steps (h : Together limits k qs started m m') :
    StepsTogether limits k qs started m m' := by
  obtain ⟨f₀, f₀', fs, high, ps, hlockstep⟩ := h
  by_cases hfs : fs = #[]
  · subst hfs
    cases ps with
    | nil => exact hlockstep.steps_nil
    | cons p ps =>
      cases p with
      | op op ns => exact hlockstep.steps_op
      | branch yes no => exact hlockstep.steps_branch
      | skip no => exact hlockstep.steps_skip
  · exact hlockstep.steps_call hfs

/-- A machine that stands before nothing finishes. -/
theorem Waits.run_one (h : m.Waits limits k []) :
    m.run 1 = (.finished, { m with frames := #[] }) := by
  obtain ⟨f, hframes, hcode⟩ := h.code
  have hpush : m.frames = Array.push #[] f := hframes
  have hsteps : m.Steps (fun _ => False) (fun _ _ => False) (· = { m with frames := #[] }) := by
    rw [steps_end hpush hcode.size_le, if_pos Array.size_empty]
  obtain ⟨m', hstep, rfl⟩ := hsteps.finished
  rw [Machine.run, hstep]

/-- The second machine gets to `m'` by steps that raise no fault. -/
def Reaches (m m' : Machine) : Prop := ∃ n, ∀ steps, m.run (n + steps) = m'.run steps

theorem Reaches.refl (m : Machine) : m.Reaches m := ⟨0, fun steps => by rw [Nat.zero_add]⟩

theorem Reaches.trans {m₁ m₂ m₃ : Machine} (h : m₁.Reaches m₂) (h' : m₂.Reaches m₃) :
    m₁.Reaches m₃ := by
  obtain ⟨n, hn⟩ := h
  obtain ⟨n', hn'⟩ := h'
  exact ⟨n + n', fun steps => by rw [Nat.add_assoc, hn, hn']⟩

/-- One step that goes on. -/
theorem Steps.reaches {Q : Machine → Prop} (h : m.Steps Q (fun _ _ => False) (fun _ => False)) :
    ∃ m', Q m' ∧ m.Reaches m' := by
  unfold Steps at h
  split at h
  · next m₁ hstep => exact ⟨m₁, h, 1, fun steps => by rw [Nat.add_comm, run, hstep]⟩
  · exact h.elim
  · exact h.elim
  · exact h.elim

/-- **Runs in lockstep.** When the first machine finishes, the second one gets to the code that
follows. -/
theorem Together.run (h : Together limits k qs started m m') {n : Nat}
    (hrun : (m.run n).1 = .finished) :
    ∃ m₁', m'.Reaches m₁' ∧ Arrives limits k qs started (m.run n).2 m₁' := by
  induction n generalizing m m' with
  | zero => cases hrun
  | succ n ih =>
    have hsteps := h.steps
    unfold StepsTogether Steps at hsteps
    rw [Machine.run] at hrun ⊢
    split at hsteps
    · next m₁ hstep =>
      rw [hstep] at hrun ⊢
      obtain ⟨m₁', htogether, hreaches⟩ := Steps.reaches hsteps
      obtain ⟨m₂', hreaches', harrives⟩ := ih htogether hrun
      exact ⟨m₂', hreaches.trans hreaches', harrives⟩
    · next hstep =>
      rw [hstep] at hrun
      cases hrun
    · next hstep =>
      rw [hstep]
      exact ⟨m', .refl m', hsteps⟩
    · exact hsteps.elim

end Machine

end Monkey
