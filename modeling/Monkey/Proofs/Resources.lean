import Mathlib.Data.List.MinMax
import Monkey.Proofs.Parallel

/-!
# Limits are exact

The limits of a machine say how many slots of the stack and how many calls may be in use at a time. A run
that gets by with its limits shows nothing else of them: under any other limits that leave enough room, the
same code comes to the same end (`Machine.run_limits`). Under limits that do not, it runs out of room. What
is enough is the most that the run uses (`Machine.Uses`), and not one slot or call more.
-/

namespace Monkey

namespace Machine

/-- The machines that a run goes through, the first and the last one included. -/
def visited : Nat → Machine → List Machine
  | 0, m => [m]
  | n + 1, m =>
    match m.step with
    | (none, m₁) => m :: visited n m₁
    | (some _, m₁) => [m, m₁]

theorem mem_visited (n : Nat) (m : Machine) : m ∈ visited n m := by
  cases n with
  | zero => exact List.mem_singleton.mpr rfl
  | succ n =>
    rw [visited]
    split
    · exact List.mem_cons_self
    · exact List.mem_cons_self

theorem run_mem_visited (n : Nat) (m : Machine) : (m.run n).2 ∈ visited n m := by
  induction n generalizing m with
  | zero => exact mem_visited 0 m
  | succ n ih =>
    rw [run, visited]
    cases m.step with
    | mk outcome? m₁ =>
      cases outcome? with
      | none => exact List.mem_cons_of_mem _ (ih m₁)
      | some o => exact List.mem_cons_of_mem _ (List.mem_singleton_self m₁)

/-- A run uses at most `slots` slots of the stack and `calls` calls at a time, and it does use as many. -/
structure Uses (n : Nat) (m : Machine) (slots calls : Nat) : Prop where
  slots_le : ∀ m₁ ∈ visited n m, m₁.sp ≤ slots
  slots_mem : ∃ m₁ ∈ visited n m, m₁.sp = slots
  calls_le : ∀ m₁ ∈ visited n m, m₁.frames.size ≤ calls
  calls_mem : ∃ m₁ ∈ visited n m, m₁.frames.size = calls

/-- What is enough for a run is enough for all its machines. -/
theorem Uses.le_iff {n : Nat} {m : Machine} {slots calls stackSize maxFrames : Nat}
    (h : Uses n m slots calls) :
    (slots ≤ stackSize ∧ calls ≤ maxFrames) ↔
      ∀ m₁ ∈ visited n m, m₁.sp ≤ stackSize ∧ m₁.frames.size ≤ maxFrames := by
  constructor
  · rintro ⟨hslots, hcalls⟩ m₁ hm₁
    exact ⟨Nat.le_trans (h.slots_le m₁ hm₁) hslots, Nat.le_trans (h.calls_le m₁ hm₁) hcalls⟩
  · intro hall
    obtain ⟨m₁, hm₁, hslots⟩ := h.slots_mem
    obtain ⟨m₂, hm₂, hcalls⟩ := h.calls_mem
    exact ⟨hslots ▸ (hall m₁ hm₁).1, hcalls ▸ (hall m₂ hm₂).2⟩

/-- Every run uses a certain number of slots and calls. -/
theorem exists_uses (n : Nat) (m : Machine) : ∃ slots calls, Uses n m slots calls := by
  have hmax : ∀ use : Machine → Nat,
      ∃ m₁ ∈ visited n m, ∀ m₂ ∈ visited n m, use m₂ ≤ use m₁ := by
    intro use
    cases hargmax : (visited n m).argmax use with
    | none => exact absurd (mem_visited n m) (List.argmax_eq_none.mp hargmax ▸ List.not_mem_nil)
    | some m₁ => exact ⟨m₁, List.argmax_mem hargmax, fun m₂ hm₂ => List.le_of_mem_argmax hm₂ hargmax⟩
  obtain ⟨m₁, hm₁, hslots⟩ := hmax Machine.sp
  obtain ⟨m₂, hm₂, hcalls⟩ := hmax fun m => m.frames.size
  exact ⟨m₁.sp, m₂.frames.size, hslots, ⟨m₁, hm₁, rfl⟩, hcalls, ⟨m₂, hm₂, rfl⟩⟩

variable {A B : Footing} {reach : Nat} {m m' : Machine}

/-- A machine that has a parallel one has found its room there. -/
theorem ParallelFrom.not_lacks (h : ParallelFrom A B reach m m') (hB : 1 ≤ B.maxFrames) :
    ¬A.Lacks B m := by
  obtain ⟨fs, height, reach', -, h⟩ := h
  have hsp := h.left.sp
  have hheight := h.right.height_le
  have hframes := h.left.size_frames
  have hframes' := h.right.size_frames
  have hle := h.right.inBounds.frames_le
  rw [h.right.maxFrames] at hle
  rintro (hslots | hcalls)
  · omega
  · omega

/-- How two runs on the bottom of the stack compare, when the first one has enough room: the second one comes
just as far and does not lack room on the way, or it runs out of it. -/
theorem run_parallel (hA : A.Bottom) (hB : B.Bottom) (hframes : 1 ≤ B.maxFrames)
    (h : ParallelFrom A B reach m m') {n : Nat} {outcome : Outcome} {m₁ : Machine}
    (hrun : m.run n = (outcome, m₁)) (hroom : ∀ e, outcome = .failed e → ¬e.fault.isOverflow) :
    ((∀ x ∈ visited n m, ¬A.Lacks B x) ∧
      ∃ m₁', m'.run n = (outcome, m₁') ∧ ParallelFrom A B reach m₁ m₁') ∨
    ((∃ x ∈ visited n m, A.Lacks B x) ∧
      ∃ e m₁', m'.run n = (.failed e, m₁') ∧ e.fault.isOverflow) := by
  induction n generalizing m m' with
  | zero =>
    obtain ⟨rfl, rfl⟩ := Prod.mk.inj hrun
    exact .inl ⟨List.forall_mem_singleton.mpr (h.not_lacks hframes), m', rfl, h⟩
  | succ n ih =>
    have hhere := h.not_lacks hframes
    obtain ⟨fs, height, reach', hreach, hparallel⟩ := h
    rw [run] at hrun
    cases hparallel.steps (.inl ⟨hA, hB⟩) with
    | same outcome? m₂ m₂' hstep hstep' h₂ =>
      rw [hstep] at hrun
      simp only [run, visited, hstep, hstep']
      cases outcome? with
      | none =>
        rcases ih (h₂.mono hreach) hrun with ⟨hnever, hsame⟩ | ⟨⟨x, hx, hlacks⟩, hfull⟩
        · refine .inl ⟨fun x hx => ?_, hsame⟩
          rcases List.mem_cons.mp hx with rfl | hx
          · exact hhere
          · exact hnever x hx
        · exact .inr ⟨⟨x, List.mem_cons_of_mem _ hx, hlacks⟩, hfull⟩
      | some o =>
        obtain ⟨rfl, rfl⟩ := Prod.mk.inj hrun
        refine .inl ⟨fun x hx => ?_, m₂', rfl, h₂.mono hreach⟩
        rcases List.mem_cons.mp hx with rfl | hx
        · exact hhere
        · obtain rfl := List.mem_singleton.mp hx
          exact h₂.not_lacks hframes
    | full e m₂ hstep hoverflow =>
      rw [hstep] at hrun
      obtain ⟨rfl, -⟩ := Prod.mk.inj hrun
      exact absurd hoverflow (hroom e rfl)
    | lacks m₂ e m₂' hstep hstep' hoverflow hlacks =>
      -- the first run goes on through the machine for which the second one has no room
      simp only [run, visited, hstep, hstep']
      exact .inr ⟨⟨m₂, List.mem_cons_of_mem _ (mem_visited n m₂), hlacks⟩, e, m₂', rfl, hoverflow⟩

/-! ### Limits -/

/-- What a whole program stands on. -/
def Footing.ofLimits (limits : Limits) : Footing := ⟨#[], 0, limits.stackSize, limits.maxFrames⟩

theorem one_le_of_check {limits : Limits} (h : limits.check = .ok ()) :
    1 ≤ limits.stackSize ∧ 1 ≤ limits.maxFrames := by
  unfold Limits.check at h
  split at h
  · cases h
  split at h
  · cases h
  split at h
  · cases h
  omega

theorem bottom_ofLimits {limits : Limits} (h : limits.check = .ok ()) :
    (Footing.ofLimits limits).Bottom := ⟨rfl, rfl, (one_le_of_check h).1⟩

theorem on_start (chunk : Chunk) (globals : Array (Option Value)) (limits : Limits) :
    On (.ofLimits limits) #[mainFrame chunk.code] 0 (start chunk globals limits) where
  frames := by simp [start, Footing.ofLimits, Frame.raise, mainFrame]
  sp := rfl
  size := Array.size_replicate
  maxFrames := rfl
  inBounds := .start chunk globals limits

/-- Before they run, machines with different limits agree in all slots, since these are null. -/
theorem parallel_start (chunk : Chunk) (globals : Array (Option Value)) {A B : Limits}
    (hglobals : B.globalsSize = A.globalsSize) (reach : Nat) :
    Parallel (.ofLimits A) (.ofLimits B) #[mainFrame chunk.code] 0 reach
      (start chunk globals A) (start chunk globals B) where
  left := on_start chunk globals A
  right := on_start chunk globals B
  constants := rfl
  globals := by rw [start, start, hglobals]
  height_le := Nat.zero_le _
  locals_le f hf := by
    obtain rfl : f = mainFrame chunk.code := Array.mem_singleton.mp hf
    exact Nat.zero_le _
  rooted := .singleton rfl
  stack i hi := by
    have hnull : ∀ limits : Limits, ∀ j,
        (start chunk globals limits).stack.getD j .null = .null := by
      intro limits j
      simp only [start, Array.getD_eq_getD_getElem?, Array.getElem?_replicate]
      split <;> rfl
    rw [hnull, hnull]

/-- Machines that agree in all slots show the same from outside. -/
theorem ParallelFrom.same_view {A B : Footing} {reach : Nat} {m m' : Machine}
    (h : ParallelFrom A B reach m m') (hA : A.Bottom) (hB : B.Bottom) (hreach : A.size < reach) :
    m'.lastPopped = m.lastPopped ∧ m'.top? = m.top? ∧ m'.globals = m.globals := by
  obtain ⟨fs, height, reach', hle, h⟩ := h
  have hstack : ∀ i < reach', m'.stack.getD i .null = m.stack.getD i .null := by
    intro i hi
    have hstack := h.stack i hi
    rwa [hA.low, hB.low, Nat.zero_add] at hstack
  have hsp : m.sp = height := by rw [h.left.sp, hA.low, Nat.zero_add]
  have hsp' : m'.sp = height := by rw [h.right.sp, hB.low, Nat.zero_add]
  have hroom := h.left.inBounds.sp_le
  have hsize := h.left.size
  refine ⟨?_, h.top?_eq (.inr ⟨hA.low, hB.low⟩), h.globals⟩
  rw [lastPopped, lastPopped, hsp, hsp']
  exact hstack height (by omega)

/-- How two runs of the same code compare, when the first one has enough room. -/
theorem run_compare (chunk : Chunk) (globals : Array (Option Value)) {A B : Limits}
    (hA : A.check = .ok ()) (hB : B.check = .ok ()) (hglobals : B.globalsSize = A.globalsSize)
    {n : Nat} {outcome : Outcome} {m : Machine}
    (hrun : (start chunk globals A).run n = (outcome, m))
    (hroom : ∀ e, outcome = .failed e → ¬e.fault.isOverflow) :
    ((∀ x ∈ visited n (start chunk globals A), x.sp ≤ B.stackSize ∧ x.frames.size ≤ B.maxFrames) ∧
      ∃ m', (start chunk globals B).run n = (outcome, m') ∧ m'.lastPopped = m.lastPopped ∧
        m'.top? = m.top? ∧ m'.globals = m.globals) ∨
    (¬(∀ x ∈ visited n (start chunk globals A), x.sp ≤ B.stackSize ∧ x.frames.size ≤ B.maxFrames) ∧
      ∃ e m', (start chunk globals B).run n = (.failed e, m') ∧ e.fault.isOverflow) := by
  have hbottom := bottom_ofLimits hA
  have hbottom' := bottom_ofLimits hB
  have hstart := (parallel_start chunk globals hglobals (A.stackSize + 1)).from (Nat.le_refl _)
  -- a machine of the run has room under the limits `B` just when it uses as many slots and calls
  have hlacks : ∀ x : Machine, ¬(Footing.ofLimits A).Lacks (.ofLimits B) x ↔
      x.sp ≤ B.stackSize ∧ x.frames.size ≤ B.maxFrames := by
    intro x
    simp only [Footing.Lacks, Footing.ofLimits, Nat.add_zero, Array.size_empty, not_or, Nat.not_lt]
  rcases run_parallel hbottom hbottom' (one_le_of_check hB).2 hstart hrun hroom with
    ⟨hnever, m', hrun', hparallel⟩ | ⟨⟨x, hx, hlack⟩, hfull⟩
  · exact .inl ⟨fun x hx => (hlacks x).mp (hnever x hx), m', hrun',
      hparallel.same_view hbottom hbottom' (Nat.lt_succ_self _)⟩
  · exact .inr ⟨fun hall => (hlacks x).mpr (hall x hx) hlack, hfull⟩

/-- **Limits are exact, and show nothing else.** Let a run under some limits end without running out of
room, or not be at its end yet, and use at most so many slots and calls at a time. Then under any other limits
with the same number of global slots, a run of the same code comes just as far, with the same value popped
last, the same top of the stack and the same globals, when the limits allow as many slots and calls. When they
do not, it runs out of room. -/
theorem run_limits (chunk : Chunk) (globals : Array (Option Value)) {A B : Limits}
    (hA : A.check = .ok ()) (hB : B.check = .ok ()) (hglobals : B.globalsSize = A.globalsSize)
    {n : Nat} {outcome : Outcome} {m : Machine}
    (hrun : (start chunk globals A).run n = (outcome, m))
    (hroom : ∀ e, outcome = .failed e → ¬e.fault.isOverflow) {slots calls : Nat}
    (huses : Uses n (start chunk globals A) slots calls) :
    (slots ≤ B.stackSize ∧ calls ≤ B.maxFrames →
      ∃ m', (start chunk globals B).run n = (outcome, m') ∧ m'.lastPopped = m.lastPopped ∧
        m'.top? = m.top? ∧ m'.globals = m.globals) ∧
    (¬(slots ≤ B.stackSize ∧ calls ≤ B.maxFrames) →
      ∃ e m', (start chunk globals B).run n = (.failed e, m') ∧ e.fault.isOverflow) := by
  rw [huses.le_iff]
  rcases run_compare chunk globals hA hB hglobals hrun hroom with ⟨hall, hsame⟩ | ⟨hnot, hfull⟩
  · exact ⟨fun _ => hsame, fun hnot => absurd hall hnot⟩
  · exact ⟨fun hall => absurd hall hnot, fun _ => hfull⟩

/-- A call of a function with a local slot, which returns `true`. -/
def callsTrue : Chunk where
  code := #[0, 0, 0, 21, 0, 2]
  constants := #[.function ⟨1, #[6, 22], 1, 0, none⟩]

/-- Three slots and two calls are enough for it. With two slots it runs out of room. -/
theorem run_limits_callsTrue :
    (∃ m', (start callsTrue #[] ⟨3, 1, 2⟩).run 9 = (.finished, m') ∧
      m'.lastPopped = ((start callsTrue #[] ⟨8, 1, 8⟩).run 9).2.lastPopped) ∧
    ∃ e m', (start callsTrue #[] ⟨2, 1, 2⟩).run 9 = (.failed e, m') ∧ e.fault.isOverflow := by
  have huses : Uses 9 (start callsTrue #[] ⟨8, 1, 8⟩) 3 2 :=
    ⟨by decide +kernel, by decide +kernel, by decide +kernel, by decide +kernel⟩
  have hrun : (start callsTrue #[] ⟨8, 1, 8⟩).run 9 =
      (.finished, ((start callsTrue #[] ⟨8, 1, 8⟩).run 9).2) := run_eq_of_fst (by decide +kernel)
  have hlimits : ∀ B : Limits, B.check = .ok () → B.globalsSize = 1 → _ := fun B hB hglobals =>
    run_limits callsTrue #[] (A := ⟨8, 1, 8⟩) rfl hB hglobals hrun (by simp) huses
  constructor
  · obtain ⟨m', hrun', hlast, -, -⟩ := (hlimits ⟨3, 1, 2⟩ rfl rfl).1 (by decide)
    exact ⟨m', hrun', hlast⟩
  · exact (hlimits ⟨2, 1, 2⟩ rfl rfl).2 (by decide)

end Machine

end Monkey
