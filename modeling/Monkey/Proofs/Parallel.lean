import Monkey.Proofs.Bounds

/-!
# Two runs of the same code

What code does depends on the values that it finds, and neither on where on the stack it finds them nor on
how much room there is above. Two machines run the same calls here, each on a `Footing` of its own: other
frames may wait below, the calls may use the stack from another slot on, and the stack may have another
size. As long as the machines are `Machine.Parallel`, their steps are alike
(`Machine.Parallel.steps`): both go on, or finish, or raise the same fault, unless one of them runs out of
room. The second one does so only when it lacks the room that the first one then uses
(`Machine.Footing.Lacks`).
-/

namespace Monkey

/-- The frame of the same call, with its slots `low` slots higher. -/
def Frame.raise (low : Nat) (f : Frame) : Frame := { f with base := low + f.base }

namespace Machine

/-- What calls stand on: the frames that wait below them, the slot of the stack from which on they use
it, and the limits of the machine. -/
structure Footing where
  below : Array Frame
  low : Nat
  size : Nat
  maxFrames : Nat

/-- The machine runs the calls `fs` on a footing. Their slots are counted from there, and so are those in
use, of which there are `height`. -/
structure On (A : Footing) (fs : Array Frame) (height : Nat) (m : Machine) : Prop where
  frames : m.frames = A.below ++ fs.map (Frame.raise A.low)
  sp : m.sp = A.low + height
  size : m.stack.size = A.size
  maxFrames : m.maxFrames = A.maxFrames
  inBounds : m.InBounds

/-- There are `count` values above the footing, or no slots below it. -/
def Footing.Offers (A : Footing) (height count : Nat) : Prop := count ≤ height ∨ A.low = 0

theorem Footing.Offers.sub {A : Footing} {height count : Nat} (h : A.Offers height count)
    (k : Nat) : A.Offers (height - k) (count - k) :=
  h.imp_left fun hle => Nat.sub_le_sub_right hle k

theorem Footing.size_append_ne (A : Footing) {fs : Array Frame} (h : fs.size ≠ 0) :
    (A.below ++ fs.map (Frame.raise A.low)).size ≠ 0 := by
  rw [Array.size_append, Array.size_map]
  omega

/-- There is nothing below the footing. -/
structure Footing.Bottom (A : Footing) : Prop where
  below : A.below = #[]
  low : A.low = 0
  one_le_size : 1 ≤ A.size

theorem Footing.Bottom.frames {A : Footing} (h : A.Bottom) :
    A.below ++ (#[] : Array Frame).map (Frame.raise A.low) = #[] := by
  rw [h.below]
  simp

theorem Footing.Bottom.size_eq_zero {A : Footing} (h : A.Bottom) :
    (A.below ++ (#[] : Array Frame).map (Frame.raise A.low)).size = 0 := by
  rw [h.frames]
  rfl

namespace On

variable {A : Footing} {fs : Array Frame} {f : Frame} {height : Nat} {m : Machine}

theorem height_le (h : m.On A fs height) : A.low + height ≤ A.size := by
  rw [← h.sp, ← h.size]
  exact h.inBounds.sp_le

theorem frames_push (h : m.On A (fs.push f) height) :
    m.frames = (A.below ++ fs.map (Frame.raise A.low)).push (f.raise A.low) := by
  rw [h.frames, Array.map_push, Array.append_push]

theorem size_frames (h : m.On A fs height) : m.frames.size = A.below.size + fs.size := by
  rw [h.frames, Array.size_append, Array.size_map]

/-- The local slots of the call on top lie in the stack. -/
theorem locals_le (h : m.On A (fs.push f) height) :
    A.low + (f.base + f.function.locals) ≤ A.size := by
  have hle := h.inBounds.base_add_locals_le h.frames_push
  rw [h.size] at hle
  rw [← Nat.add_assoc]
  exact hle

theorem drop (h : m.On A fs height) {count : Nat} (hcount : A.Offers height count) :
    On A fs (height - count) { m with sp := m.sp - count } where
  frames := h.frames
  sp := by
    have hsp := h.sp
    rcases hcount with hcount | hlow
    · dsimp only
      omega
    · dsimp only
      omega
  size := h.size
  maxFrames := h.maxFrames
  inBounds := h.inBounds.move (Nat.le_trans (Nat.sub_le _ _) h.inBounds.sp_le)

theorem write (h : m.On A fs height) (slot : Nat) (v : Value) :
    On A fs height { m with stack := m.stack.setIfInBounds slot v } where
  frames := h.frames
  sp := h.sp
  size := Array.size_setIfInBounds.trans h.size
  maxFrames := h.maxFrames
  inBounds := h.inBounds.write h.inBounds.sp_le slot v

theorem setGlobal (h : m.On A fs height) (slot : Nat) (v : Value) :
    On A fs height { m with globals := m.globals.setIfInBounds slot (some v) } where
  frames := h.frames
  sp := h.sp
  size := h.size
  maxFrames := h.maxFrames
  inBounds := h.inBounds.of_frames rfl rfl rfl h.inBounds.sp_le

theorem push (h : m.On A fs height) (hroom : m.sp < m.stack.size) (v : Value) :
    On A fs (height + 1) { m with stack := m.stack.setIfInBounds m.sp v, sp := m.sp + 1 } where
  frames := h.frames
  sp := congrArg (· + 1) h.sp
  size := Array.size_setIfInBounds.trans h.size
  maxFrames := h.maxFrames
  inBounds := h.inBounds.write hroom m.sp v

theorem goto (h : m.On A (fs.push f) height) (ip : Nat) :
    On A (fs.push { f with ip }) height
      { m with frames := (A.below ++ fs.map (Frame.raise A.low)).push { f.raise A.low with ip } } where
  frames := by
    rw [Array.map_push, Array.append_push]
    rfl
  sp := h.sp
  size := h.size
  maxFrames := h.maxFrames
  inBounds := h.inBounds.goto h.frames_push ip

theorem below (h : m.On A (fs.push f) height) (hbase : 1 ≤ f.base) :
    On A fs (f.base - 1)
      { m with
        frames := A.below ++ fs.map (Frame.raise A.low)
        sp := (f.raise A.low).base - 1 } where
  frames := rfl
  sp := by
    show A.low + f.base - 1 = A.low + (f.base - 1)
    omega
  size := h.size
  maxFrames := h.maxFrames
  inBounds := by
    refine h.inBounds.below h.frames_push ?_
    have hle := h.locals_le
    rw [h.size]
    show A.low + f.base - 1 ≤ A.size
    omega

/-- The top level of the program is left with a result. -/
theorem finish (h : m.On A (Array.push #[] f) height) (hA : A.Bottom) (v : Value) :
    On A #[] 0
      { m with
        frames := A.below ++ (#[] : Array Frame).map (Frame.raise A.low)
        sp := 0
        stack := m.stack.setIfInBounds 0 v } where
  frames := rfl
  sp := hA.low.symm
  size := Array.size_setIfInBounds.trans h.size
  maxFrames := h.maxFrames
  inBounds := (h.inBounds.below h.frames_push (Nat.zero_le _)).write (Nat.zero_le _) 0 v

/-- The code of the top level has come to its end. -/
theorem halt (h : m.On A (Array.push #[] f) height) (hA : A.Bottom) :
    On A #[] height { m with frames := #[] } where
  frames := hA.frames.symm
  sp := h.sp
  size := h.size
  maxFrames := h.maxFrames
  inBounds := by
    have hbelow := h.inBounds.below h.frames_push h.inBounds.sp_le
    rwa [hA.frames] at hbelow

/-- A call with `count` arguments is opened, for which there is room. -/
theorem call (h : m.On A fs height) (hfs : fs.size ≠ 0) {g : Function} {count : Nat}
    (hcount : count < height)
    (htop : m.sp - count + max g.locals count ≤ m.stack.size) (hframes : m.frames.size < m.maxFrames) :
    On A (fs.push ⟨g, 0, height - count⟩) (height - count + max g.locals count)
      { m with
        stack := Executing.clearSlots m.stack m.sp (m.sp - count + max g.locals count - m.sp)
        sp := m.sp - count + max g.locals count
        frames := m.frames.push ⟨g, 0, m.sp - count⟩ } where
  frames := by
    have hbase : m.sp - count = A.low + (height - count) := by
      rw [h.sp]
      omega
    rw [h.frames, hbase, Array.map_push, Array.append_push]
    rfl
  sp := by
    have hsp := h.sp
    dsimp only
    omega
  size := (Executing.size_clearSlots _ _ _).trans h.size
  maxFrames := h.maxFrames
  inBounds := by
    have hsp := h.sp
    have hne : m.frames.size ≠ 0 := h.frames ▸ A.size_append_ne hfs
    refine h.inBounds.call (Executing.size_clearSlots _ _ _) htop ?_ hne ?_ hframes
    · dsimp only
      omega
    · dsimp only
      omega

end On

/-- The machines run the same calls, each on a footing of its own, with the same values in the slots
below `reach`. That is as far as the local slots and the values in use go. -/
structure Parallel (A B : Footing) (fs : Array Frame) (height reach : Nat) (m m' : Machine) :
    Prop where
  left : m.On A fs height
  right : m'.On B fs height
  constants : m'.constants = m.constants
  globals : m'.globals = m.globals
  height_le : height ≤ reach
  locals_le : ∀ f ∈ fs, f.base + f.function.locals ≤ reach
  rooted : Rooted fs
  stack : ∀ i < reach, m'.stack.getD (B.low + i) .null = m.stack.getD (A.low + i) .null

namespace Parallel

variable {A B : Footing} {fs : Array Frame} {f : Frame} {height reach : Nat} {m m' : Machine}

/-- A slot in use holds the same value on both machines. -/
theorem getElem?_eq (h : Parallel A B fs height reach m m') {i : Nat} (hi : i < height) :
    m'.stack[B.low + i]? = m.stack[A.low + i]? := by
  have hstack := h.stack i (Nat.lt_of_lt_of_le hi h.height_le)
  have hroom : A.low + i < m.stack.size := by
    have hle := h.left.height_le
    rw [h.left.size]
    omega
  have hroom' : B.low + i < m'.stack.size := by
    have hle := h.right.height_le
    rw [h.right.size]
    omega
  rw [Array.getD_eq_getD_getElem?, Array.getD_eq_getD_getElem?] at hstack
  rw [Array.getElem?_eq_getElem hroom, Array.getElem?_eq_getElem hroom'] at hstack ⊢
  exact congrArg some hstack

/-- The value on top is the same. -/
theorem top?_eq (h : Parallel A B fs height reach m m')
    (hheight : height ≠ 0 ∨ A.low = 0 ∧ B.low = 0) : m'.top? = m.top? := by
  have hsp := h.left.sp
  have hsp' := h.right.sp
  by_cases hzero : height = 0
  · have hlow := hheight.resolve_left (not_not_intro hzero)
    rw [top?, top?, if_pos (by omega), if_pos (by omega)]
  · have htop := h.getElem?_eq (i := height - 1) (by omega)
    rw [top?, top?, if_neg (by omega), if_neg (by omega)]
    rwa [show B.low + (height - 1) = m'.sp - 1 by omega,
      show A.low + (height - 1) = m.sp - 1 by omega] at htop

/-- Values are taken off. -/
theorem drop (h : Parallel A B fs height reach m m') {count : Nat}
    (hcount : A.Offers height count) (hcount' : B.Offers height count) :
    Parallel A B fs (height - count) reach { m with sp := m.sp - count }
      { m' with sp := m'.sp - count } where
  left := h.left.drop hcount
  right := h.right.drop hcount'
  constants := h.constants
  globals := h.globals
  height_le := Nat.le_trans (Nat.sub_le _ _) h.height_le
  locals_le := h.locals_le
  rooted := h.rooted
  stack := h.stack

/-- Slots that are written to on both machines. -/
theorem stack_write (h : Parallel A B fs height reach m m') {slot : Nat} (hslot : slot ≤ reach)
    (hleft : A.low + slot < A.size) (hright : B.low + slot < B.size) (v : Value) :
    ∀ i < max reach (slot + 1),
      (m'.stack.setIfInBounds (B.low + slot) v).getD (B.low + i) .null =
        (m.stack.setIfInBounds (A.low + slot) v).getD (A.low + i) .null := by
  intro i hi
  simp only [Array.getD_eq_getD_getElem?, Array.getElem?_setIfInBounds, h.left.size, h.right.size,
    Nat.add_right_inj]
  by_cases heq : slot = i
  · subst heq
    rw [if_pos rfl, if_pos rfl, if_pos hleft, if_pos hright]
  · have hstack := h.stack i (by omega)
    rw [if_neg heq, if_neg heq]
    simpa only [Array.getD_eq_getD_getElem?] using hstack

theorem write (h : Parallel A B fs height reach m m') {slot : Nat} (hslot : slot < reach)
    (hleft : A.low + slot < A.size) (hright : B.low + slot < B.size) (v : Value) :
    Parallel A B fs height reach { m with stack := m.stack.setIfInBounds (A.low + slot) v }
      { m' with stack := m'.stack.setIfInBounds (B.low + slot) v } where
  left := h.left.write _ v
  right := h.right.write _ v
  constants := h.constants
  globals := h.globals
  height_le := h.height_le
  locals_le := h.locals_le
  rooted := h.rooted
  stack i hi := h.stack_write (Nat.le_of_lt hslot) hleft hright v i (by omega)

/-- The same global slot is written to. -/
theorem setGlobal (h : Parallel A B fs height reach m m') (slot : Nat) (v : Value) :
    Parallel A B fs height reach { m with globals := m.globals.setIfInBounds slot (some v) }
      { m' with globals := m'.globals.setIfInBounds slot (some v) } where
  left := h.left.setGlobal slot v
  right := h.right.setGlobal slot v
  constants := h.constants
  globals := congrArg (·.setIfInBounds slot (some v)) h.globals
  height_le := h.height_le
  locals_le := h.locals_le
  rooted := h.rooted
  stack := h.stack

/-- A value is pushed for which both machines have room. -/
theorem push (h : Parallel A B fs height reach m m') (hroom : m.sp < m.stack.size)
    (hroom' : m'.sp < m'.stack.size) (v : Value) :
    Parallel A B fs (height + 1) (max reach (height + 1))
      { m with stack := m.stack.setIfInBounds m.sp v, sp := m.sp + 1 }
      { m' with stack := m'.stack.setIfInBounds m'.sp v, sp := m'.sp + 1 } where
  left := h.left.push hroom v
  right := h.right.push hroom' v
  constants := h.constants
  globals := h.globals
  height_le := Nat.le_max_right _ _
  locals_le g hg := Nat.le_trans (h.locals_le g hg) (Nat.le_max_left _ _)
  rooted := h.rooted
  stack := by
    rw [h.left.sp, h.left.size] at hroom
    rw [h.right.sp, h.right.size] at hroom'
    rw [h.left.sp, h.right.sp]
    exact h.stack_write h.height_le hroom hroom' v

/-- The call on top goes on at another offset. -/
theorem goto (h : Parallel A B (fs.push f) height reach m m') (ip : Nat) :
    Parallel A B (fs.push { f with ip }) height reach
      { m with frames := (A.below ++ fs.map (Frame.raise A.low)).push { f.raise A.low with ip } }
      { m' with
        frames := (B.below ++ fs.map (Frame.raise B.low)).push { f.raise B.low with ip } } where
  left := h.left.goto ip
  right := h.right.goto ip
  constants := h.constants
  globals := h.globals
  height_le := h.height_le
  locals_le g hg := by
    rcases Array.mem_push.mp hg with hg | rfl
    · exact h.locals_le g (Array.mem_push.mpr (.inl hg))
    · exact h.locals_le f Array.mem_push_self
  rooted := h.rooted.goto ip
  stack := h.stack

/-- The call on top is left, and the slot of its function is the next one. -/
theorem below (h : Parallel A B (fs.push f) height reach m m') (hfs : fs.size ≠ 0) :
    Parallel A B fs (f.base - 1) reach
      { m with frames := A.below ++ fs.map (Frame.raise A.low), sp := (f.raise A.low).base - 1 }
      { m' with frames := B.below ++ fs.map (Frame.raise B.low), sp := (f.raise B.low).base - 1 } where
  left := h.left.below (h.rooted.last hfs)
  right := h.right.below (h.rooted.last hfs)
  constants := h.constants
  globals := h.globals
  height_le := by
    have hle := h.locals_le f Array.mem_push_self
    omega
  locals_le g hg := h.locals_le g (Array.mem_push.mpr (.inl hg))
  rooted := h.rooted.below
  stack := h.stack

/-- The top level of the program is left with a result. -/
theorem finish (h : Parallel A B (Array.push #[] f) height reach m m') (hA : A.Bottom)
    (hB : B.Bottom) (v : Value) :
    Parallel A B #[] 0 (max reach 1)
      { m with
        frames := A.below ++ (#[] : Array Frame).map (Frame.raise A.low)
        sp := 0
        stack := m.stack.setIfInBounds 0 v }
      { m' with
        frames := B.below ++ (#[] : Array Frame).map (Frame.raise B.low)
        sp := 0
        stack := m'.stack.setIfInBounds 0 v } where
  left := h.left.finish hA v
  right := h.right.finish hB v
  constants := h.constants
  globals := h.globals
  height_le := Nat.zero_le _
  locals_le g hg := by cases hg with | mk hg => cases hg
  rooted i g hg := by cases hg
  stack := by
    have hlow := hA.low
    have hlow' := hB.low
    have hsize := hA.one_le_size
    have hsize' := hB.one_le_size
    have hwrite := h.stack_write (Nat.zero_le _) (by omega) (by omega) v
    rwa [show A.low + 0 = 0 by omega, show B.low + 0 = 0 by omega] at hwrite

/-- The code of the top level has come to its end. -/
theorem halt (h : Parallel A B (Array.push #[] f) height reach m m') (hA : A.Bottom)
    (hB : B.Bottom) :
    Parallel A B #[] height reach { m with frames := #[] } { m' with frames := #[] } where
  left := h.left.halt hA
  right := h.right.halt hB
  constants := h.constants
  globals := h.globals
  height_le := h.height_le
  locals_le g hg := by cases hg with | mk hg => cases hg
  rooted i g hg := by cases hg
  stack := h.stack

/-- A call with `count` arguments is opened, for which both machines have room. -/
theorem call (h : Parallel A B fs height reach m m') (hfs : fs.size ≠ 0) {g : Function} {count : Nat}
    (hcount : count < height) (htop : m.sp - count + max g.locals count ≤ m.stack.size)
    (htop' : m'.sp - count + max g.locals count ≤ m'.stack.size)
    (hframes : m.frames.size < m.maxFrames) (hframes' : m'.frames.size < m'.maxFrames) :
    Parallel A B (fs.push ⟨g, 0, height - count⟩) (height - count + max g.locals count)
      (max reach (height - count + max g.locals count))
      { m with
        stack := Executing.clearSlots m.stack m.sp (m.sp - count + max g.locals count - m.sp)
        sp := m.sp - count + max g.locals count
        frames := m.frames.push ⟨g, 0, m.sp - count⟩ }
      { m' with
        stack := Executing.clearSlots m'.stack m'.sp (m'.sp - count + max g.locals count - m'.sp)
        sp := m'.sp - count + max g.locals count
        frames := m'.frames.push ⟨g, 0, m'.sp - count⟩ } where
  left := h.left.call hfs hcount htop hframes
  right := h.right.call hfs hcount htop' hframes'
  constants := h.constants
  globals := h.globals
  height_le := Nat.le_max_right _ _
  locals_le f hf := by
    rcases Array.mem_push.mp hf with hf | rfl
    · exact Nat.le_trans (h.locals_le f hf) (Nat.le_max_left _ _)
    · dsimp only
      omega
  rooted := h.rooted.push hfs (by dsimp only; omega)
  stack i hi := by
    -- the slots that are cleared hold null on both machines, and the others are below `reach`
    have hsp := h.left.sp
    have hsp' := h.right.sp
    dsimp only
    rw [Executing.getD_clearSlots, Executing.getD_clearSlots]
    by_cases hcleared : height ≤ i ∧ i < height - count + max g.locals count
    · rw [if_pos (by omega), if_pos (by omega)]
    · rw [if_neg (by omega), if_neg (by omega)]
      have hle := h.height_le
      exact h.stack i (by omega)

end Parallel

/-- The machine `m` has more slots or calls in use than there is room for on the footing `B` after those of
`A` are replaced by it. -/
def Footing.Lacks (A B : Footing) (m : Machine) : Prop :=
  B.size + A.low < m.sp + B.low ∨ B.maxFrames + A.below.size < m.frames.size + B.below.size

/-- The machines run the same calls, with the same values in the slots below `reach` or further on. -/
def ParallelFrom (A B : Footing) (reach : Nat) (m m' : Machine) : Prop :=
  ∃ fs height reach', reach ≤ reach' ∧ Parallel A B fs height reach' m m'

theorem ParallelFrom.mono {A B : Footing} {reach reach' : Nat} {m m' : Machine}
    (h : ParallelFrom A B reach' m m') (hreach : reach ≤ reach') : ParallelFrom A B reach m m' := by
  obtain ⟨fs, height, reach'', hle, h⟩ := h
  exact ⟨fs, height, reach'', Nat.le_trans hreach hle, h⟩

theorem Parallel.from {A B : Footing} {fs : Array Frame} {height reach reach' : Nat} {m m' : Machine}
    (h : Parallel A B fs height reach' m m') (hreach : reach ≤ reach') :
    ParallelFrom A B reach m m' := ⟨fs, height, reach', hreach, h⟩

end Machine

/-! ### Instructions -/

namespace Executing

open Machine

/-- The step `x` on `m` and the step `x'` on `m'` come out alike, unless one of the machines runs out of
room. The second one does so only if it lacks room. -/
def Alike (A B : Footing) (reach : Nat) (x x' : Executing Unit) (m m' : Machine) : Prop :=
  x.Ensures m
    (fun _ m₁ => x'.Ensures m' (fun _ m₁' => ParallelFrom A B reach m₁ m₁')
      (fun e _ => e.isOverflow ∧ Footing.Lacks A B m₁))
    (fun e m₁ => e.isOverflow ∨ x'.Ensures m' (fun _ _ => False)
      (fun e' m₁' => e' = e ∧ ParallelFrom A B reach m₁ m₁'))

variable {A B : Footing} {fs : Array Frame} {f : Frame} {height reach : Nat} {m m' : Machine}

theorem alike_pure (h : Parallel A B fs height reach m m') : Alike A B reach (pure ()) (pure ()) m m' :=
  h.from (Nat.le_refl _)

theorem alike_throw (h : Parallel A B fs height reach m m') (e : Fault) :
    Alike A B reach (throw e) (throw e) m m' := .inr ⟨rfl, h.from (Nat.le_refl _)⟩

theorem alike_get {x x' : Machine → Executing Unit} (h : Alike A B reach (x m) (x' m') m m') :
    Alike A B reach (get >>= x) (get >>= x') m m' := by
  simpa only [Alike, ensures_bind, ensures_get] using h

theorem alike_push (h : Parallel A B fs height reach m m') (v : Value) :
    Alike A B reach (push v) (push v) m m' := by
  rw [Alike, ensures_push]
  split
  · next hroom =>
    rw [ensures_push]
    split
    · next hroom' => exact (h.push hroom hroom' v).from (Nat.le_max_left _ _)
    · next hroom' =>
      refine ⟨rfl, .inl ?_⟩
      have hsp := h.left.sp
      have hsp' := h.right.sp
      have hsize := h.right.size
      dsimp only
      omega
  · exact .inl rfl

theorem alike_give (h : Parallel A B fs height reach m m') (r : Except Fault Value) :
    Alike A B reach (give r) (give r) m m' := by
  cases r with
  | ok v => exact alike_push h v
  | error e => exact alike_throw h e

/-- When values are taken off, then either both machines have as many, or neither does. -/
theorem offers_cases (h : Parallel A B fs height reach m m') {count : Nat}
    (hoffers : A.Offers height count) (hoffers' : B.Offers height count) :
    (m.sp < count ∧ m'.sp < count) ∨ (count ≤ height ∧ count ≤ m.sp ∧ count ≤ m'.sp) := by
  have hsp := h.left.sp
  have hsp' := h.right.sp
  by_cases hcount : count ≤ height
  · exact .inr ⟨hcount, by omega, by omega⟩
  · have hlow : A.low = 0 := hoffers.resolve_left hcount
    have hlow' : B.low = 0 := hoffers'.resolve_left hcount
    exact .inl ⟨by omega, by omega⟩

theorem alike_pop {x : Value → Executing Unit} (h : Parallel A B fs height reach m m')
    (hoffers : A.Offers height 1) (hoffers' : B.Offers height 1)
    (hx : ∀ v, Parallel A B fs (height - 1) reach { m with sp := m.sp - 1 }
      { m' with sp := m'.sp - 1 } →
      Alike A B reach (x v) (x v) { m with sp := m.sp - 1 } { m' with sp := m'.sp - 1 }) :
    Alike A B reach (pop >>= x) (pop >>= x) m m' := by
  have hsp := h.left.sp
  have hsp' := h.right.sp
  have hle := h.height_le
  rw [Alike, ensures_bind, ensures_pop]
  rcases offers_cases h hoffers hoffers' with ⟨hfew, hfew'⟩ | ⟨hcount, hmany, hmany'⟩
  · rw [if_pos (by omega), ensures_bind, ensures_pop, if_pos (by omega)]
    exact .inr ⟨rfl, h.from (Nat.le_refl _)⟩
  · have hvalue : m'.stack.getD (m'.sp - 1) .null = m.stack.getD (m.sp - 1) .null := by
      have hstack := h.stack (height - 1) (by omega)
      rwa [show B.low + (height - 1) = m'.sp - 1 by omega,
        show A.low + (height - 1) = m.sp - 1 by omega] at hstack
    have hne : m.sp ≠ 0 := by omega
    have hne' : m'.sp ≠ 0 := by omega
    simp only [if_neg hne, ensures_bind, ensures_pop, if_neg hne', hvalue]
    exact hx _ (h.drop hoffers hoffers')

theorem alike_popMany {count : Nat} {x : List Value → Executing Unit}
    (h : Parallel A B fs height reach m m') (hoffers : A.Offers height count)
    (hoffers' : B.Offers height count)
    (hx : ∀ vs, Parallel A B fs (height - count) reach { m with sp := m.sp - count }
      { m' with sp := m'.sp - count } →
      Alike A B reach (x vs) (x vs) { m with sp := m.sp - count } { m' with sp := m'.sp - count }) :
    Alike A B reach (popMany count >>= x) (popMany count >>= x) m m' := by
  have hsp := h.left.sp
  have hsp' := h.right.sp
  have hle := h.height_le
  rw [Alike, ensures_bind, ensures_popMany]
  rcases offers_cases h hoffers hoffers' with ⟨hfew, hfew'⟩ | ⟨hcount, hmany, hmany'⟩
  · rw [if_pos hfew, ensures_bind, ensures_popMany, if_pos hfew']
    exact .inr ⟨rfl, h.from (Nat.le_refl _)⟩
  · -- the values that are popped lie above the footing of either machine
    have hvalues : m'.stack.extract (m'.sp - count) m'.sp =
        m.stack.extract (m.sp - count) m.sp := by
      have hroom := h.left.inBounds.sp_le
      have hroom' := h.right.inBounds.sp_le
      apply Array.ext_getElem?
      intro i
      rw [Array.getElem?_extract, Array.getElem?_extract]
      by_cases hi : i < count
      · have hvalue := h.getElem?_eq (i := height - count + i) (by omega)
        rw [if_pos (by omega), if_pos (by omega)]
        rwa [show B.low + (height - count + i) = m'.sp - count + i by omega,
          show A.low + (height - count + i) = m.sp - count + i by omega] at hvalue
      · rw [if_neg (by omega), if_neg (by omega)]
    have hnot : ¬m.sp < count := by omega
    have hnot' : ¬m'.sp < count := by omega
    simp only [if_neg hnot, ensures_bind, ensures_popMany, if_neg hnot', hvalues]
    exact hx _ (h.drop hoffers hoffers')

theorem alike_binary (h : Parallel A B fs height reach m m') (hoffers : A.Offers height 2)
    (hoffers' : B.Offers height 2) (g : Value → Value → Except Fault Value) :
    Alike A B reach (binary g) (binary g) m m' := by
  have hone : A.Offers height 1 := hoffers.imp_left (Nat.le_trans (Nat.le_succ 1))
  have hone' : B.Offers height 1 := hoffers'.imp_left (Nat.le_trans (Nat.le_succ 1))
  refine alike_pop h hone hone' fun right h => ?_
  refine alike_pop h (hoffers.sub 1) (hoffers'.sub 1) fun left h => ?_
  have hgive := alike_give h (g left right)
  cases hg : g left right with
  | ok v =>
    rw [hg] at hgive
    exact hgive
  | error e =>
    rw [hg] at hgive
    exact hgive

theorem alike_unary (h : Parallel A B fs height reach m m') (hoffers : A.Offers height 1)
    (hoffers' : B.Offers height 1) (g : Value → Except Fault Value) :
    Alike A B reach (unary g) (unary g) m m' := by
  refine alike_pop h hoffers hoffers' fun v h => ?_
  have hgive := alike_give h (g v)
  cases hg : g v with
  | ok w =>
    rw [hg] at hgive
    exact hgive
  | error e =>
    rw [hg] at hgive
    exact hgive

theorem alike_jump (h : Parallel A B (fs.push f) height reach m m') (target : Nat) :
    Alike A B reach (jump target) (jump target) m m' := by
  simp only [Alike, ensures_jump, h.left.frames_push, h.right.frames_push, modify_last_ip]
  exact (h.goto target).from (Nat.le_refl _)

/-- Both machines go on at another offset before the rest of the step. -/
theorem alike_goto {x : Executing Unit} (h : Parallel A B (fs.push f) height reach m m') (ip : Nat)
    (hx : Alike A B reach x x
      { m with frames := (A.below ++ fs.map (Frame.raise A.low)).push { f.raise A.low with ip } }
      { m' with
        frames := (B.below ++ fs.map (Frame.raise B.low)).push { f.raise B.low with ip } }) :
    Alike A B reach (jump ip >>= fun _ => x) (jump ip >>= fun _ => x) m m' := by
  simp only [Alike, ensures_bind, ensures_jump, h.left.frames_push, h.right.frames_push,
    modify_last_ip]
  exact hx

/-- A call ends. Only that of the top level is on the bottom. -/
theorem alike_leave (h : Parallel A B (fs.push f) height reach m m')
    (hfs : fs.size ≠ 0 ∨ A.Bottom ∧ B.Bottom) (v : Value) : Alike A B reach (leave v) (leave v) m m' := by
  by_cases hsize : fs.size = 0
  · obtain ⟨hA, hB⟩ := hfs.resolve_left (not_not_intro hsize)
    obtain rfl : fs = #[] := Array.size_eq_zero_iff.mp hsize
    rw [Alike, ensures_leave h.left.frames_push, if_pos hA.size_eq_zero,
      ensures_leave h.right.frames_push, if_pos hB.size_eq_zero]
    exact (h.finish hA hB v).from (Nat.le_max_left _ _)
  · simp only [Alike, ensures_leave h.left.frames_push, if_neg (A.size_append_ne hsize),
      ensures_leave h.right.frames_push, if_neg (B.size_append_ne hsize)]
    exact alike_push (h.below hsize) v

theorem alike_call (h : Parallel A B fs height reach m m') (hfs : fs.size ≠ 0) {count : Nat}
    (hoffers : A.Offers height (count + 1)) (hoffers' : B.Offers height (count + 1)) :
    Alike A B reach (call count) (call count) m m' := by
  have hsp := h.left.sp
  have hsp' := h.right.sp
  have hle := h.height_le
  have hrefl : ParallelFrom A B reach m m' := h.from (Nat.le_refl _)
  rw [Alike, ensures_call]
  rcases offers_cases h hoffers hoffers' with ⟨hfew, hfew'⟩ | ⟨hcount, hmany, hmany'⟩
  · rw [if_pos (by omega), ensures_call, if_pos (by omega)]
    exact .inr ⟨rfl, hrefl⟩
  have hcallee : m'.stack.getD (m'.sp - 1 - count) .null =
      m.stack.getD (m.sp - 1 - count) .null := by
    have hstack := h.stack (height - 1 - count) (by omega)
    rwa [show B.low + (height - 1 - count) = m'.sp - 1 - count by omega,
      show A.low + (height - 1 - count) = m.sp - 1 - count by omega] at hstack
  have hnot : ¬m.sp ≤ count := by omega
  have hnot' : ¬m'.sp ≤ count := by omega
  simp only [ensures_call, hcallee, if_neg hnot, if_neg hnot']
  cases m.stack.getD (m.sp - 1 - count) .null with
  | function g =>
    by_cases harity : count ≠ g.parameters
    · simp only [if_pos harity]
      exact .inr ⟨trivial, hrefl⟩
    by_cases hframes : m.maxFrames ≤ m.frames.size
    · simp only [if_neg harity, if_pos hframes]
      exact .inl rfl
    by_cases htop : m.stack.size < m.sp - count + max g.locals count
    · simp only [if_neg harity, if_neg hframes, if_pos htop]
      exact .inl rfl
    simp only [if_neg harity, if_neg hframes, if_neg htop]
    -- the second machine passes the same checks, unless it lacks frames or slots
    split
    · next hframes' =>
      refine ⟨rfl, .inr ?_⟩
      have hmax := h.right.maxFrames
      have hsize := h.left.size_frames
      have hsize' := h.right.size_frames
      rw [Array.size_push]
      omega
    next hframes' =>
    split
    · next htop' =>
      refine ⟨rfl, .inl ?_⟩
      have hsize := h.right.size
      dsimp only
      omega
    · next htop' =>
      exact (h.call hfs (by omega) (by omega) (by omega) (by omega) (by omega)).from
        (Nat.le_max_left _ _)
  | integer n => exact .inr ⟨rfl, hrefl⟩
  | boolean b => exact .inr ⟨rfl, hrefl⟩
  | string s => exact .inr ⟨rfl, hrefl⟩
  | array vs => exact .inr ⟨rfl, hrefl⟩
  | hash es => exact .inr ⟨rfl, hrefl⟩
  | null => exact .inr ⟨rfl, hrefl⟩

/-- The slot of a local name is counted from the footing. -/
theorem alike_localSlot {x : Nat → Executing Unit} (h : Parallel A B (fs.push f) height reach m m')
    {slot : Nat} (hx : slot < f.function.locals →
      Alike A B reach (x (A.low + (f.base + slot))) (x (B.low + (f.base + slot))) m m') :
    Alike A B reach (localSlot slot >>= x) (localSlot slot >>= x) m m' := by
  have hback : m.frames.back?.getD default = f.raise A.low := by
    rw [h.left.frames_push, Array.back?_push]
    rfl
  have hback' : m'.frames.back?.getD default = f.raise B.low := by
    rw [h.right.frames_push, Array.back?_push]
    rfl
  simp only [Alike, ensures_bind, ensures_localSlot, hback, hback', Frame.raise]
  by_cases hlt : slot < f.function.locals
  · simp only [if_pos hlt, Nat.add_assoc]
    exact hx hlt
  · simp only [if_neg hlt]
    exact .inr ⟨trivial, h.from (Nat.le_refl _)⟩

/-- **Every instruction comes out alike** on parallel machines. -/
theorem execute_alike (h : Parallel A B (fs.push f) height reach m m') {op : Opcode} {operand : Nat}
    (hoffers : A.Offers height (op.pops operand)) (hoffers' : B.Offers height (op.pops operand))
    (hleave : op = .returnValue ∨ op = .ret → fs.size ≠ 0 ∨ A.Bottom ∧ B.Bottom) :
    Alike A B reach (execute op operand) (execute op operand) m m' := by
  -- the local slots lie within the reach, where the stacks hold the same values
  have hlocals : f.base + f.function.locals ≤ reach := h.locals_le f Array.mem_push_self
  cases op with
  | constant =>
    refine alike_get ?_
    rw [h.constants]
    split
    · exact alike_push h _
    · exact alike_throw h _
  | pop => exact alike_pop h hoffers hoffers' fun v h => alike_pure h
  | add | sub | mul | div | greaterThan | index => exact alike_binary h hoffers hoffers' _
  | true | false | null => exact alike_push h _
  | equal | notEqual =>
    rw [execute]
    exact alike_binary h hoffers hoffers' _
  | minus => exact alike_unary h hoffers hoffers' _
  | bang =>
    rw [execute]
    exact alike_unary h hoffers hoffers' _
  | jumpNotTruthy =>
    refine alike_pop h hoffers hoffers' fun v h => ?_
    cases v.isTruthy with
    | true => exact alike_pure h
    | false => exact alike_jump h operand
  | jump => exact alike_jump h operand
  | getGlobal =>
    refine alike_get ?_
    rw [h.globals]
    split
    · exact alike_push h _
    · exact alike_throw h _
    · exact alike_throw h _
  | setGlobal =>
    refine alike_pop h hoffers hoffers' fun v h => alike_get ?_
    have hsize : m'.globals.size = m.globals.size := congrArg Array.size h.globals
    dsimp only
    rw [hsize]
    split
    · exact (h.setGlobal operand v).from (Nat.le_refl _)
    · exact alike_throw h _
  | array => exact alike_popMany h hoffers hoffers' fun vs h => alike_push h _
  | hash =>
    refine alike_popMany h hoffers hoffers' fun vs h => ?_
    exact alike_give h (Value.hashOf vs)
  | call => exact alike_call h (by simp) hoffers hoffers'
  | returnValue =>
    exact alike_pop h hoffers hoffers' fun v h => alike_leave h (hleave (.inl rfl)) v
  | ret => exact alike_leave h (hleave (.inr rfl)) .null
  | getLocal =>
    refine alike_localSlot h fun hlt => alike_get ?_
    rw [h.stack _ (by omega)]
    exact alike_push h _
  | setLocal =>
    refine alike_pop h hoffers hoffers' fun v h => alike_localSlot h fun hlt => ?_
    have hroom := h.left.locals_le
    have hroom' := h.right.locals_le
    exact (h.write (by omega) (by omega) (by omega) v).from (Nat.le_refl _)

end Executing

/-! ### Steps -/

namespace Machine

open Executing

/-- The value with which the next step ends a call, when it does. -/
def returning? (m : Machine) : Option Value :=
  match m.frames.back? with
  | none => none
  | some f =>
    if f.ip < f.function.code.size then
      match Code.fetch f.function.code f.ip with
      | .ok (.returnValue, _, _) => m.top?
      | .ok (.ret, _, _) => some .null
      | _ => none
    else some .null

/-- How the next steps of two machines compare: they are the same, the first machine runs out of room, or
the second one does, which lacks the room that the first one uses. -/
inductive StepsAlike (A B : Footing) (reach : Nat) (m m' : Machine) : Prop
  | same (outcome? : Option Outcome) (m₁ m₁' : Machine) : m.step = (outcome?, m₁) →
      m'.step = (outcome?, m₁') → ParallelFrom A B reach m₁ m₁' → StepsAlike A B reach m m'
  | full (e : RuntimeError) (m₁ : Machine) : m.step = (some (.failed e), m₁) →
      e.fault.isOverflow → StepsAlike A B reach m m'
  | lacks (m₁ : Machine) (e : RuntimeError) (m₁' : Machine) : m.step = (none, m₁) →
      m'.step = (some (.failed e), m₁') → e.fault.isOverflow → A.Lacks B m₁ →
      StepsAlike A B reach m m'

variable {A B : Footing} {fs : Array Frame} {f : Frame} {height reach : Nat} {m m' : Machine}

/-- The first machine goes on. -/
theorem StepsAlike.of_goes {m₁ : Machine} (h : StepsAlike A B reach m m')
    (hstep : m.step = (none, m₁)) :
    (∃ m₁', m'.step = (none, m₁') ∧ ParallelFrom A B reach m₁ m₁') ∨
      ∃ e m₁', m'.step = (some (.failed e), m₁') ∧ e.fault.isOverflow ∧ A.Lacks B m₁ := by
  cases h with
  | same outcome? m₂ m₂' hstep₂ hstep₂' h₂ =>
    rw [hstep] at hstep₂
    cases hstep₂
    exact .inl ⟨m₂', hstep₂', h₂⟩
  | full e m₂ hstep₂ =>
    rw [hstep] at hstep₂
    cases hstep₂
  | lacks m₂ e m₂' hstep₂ hstep₂' hoverflow hlacks =>
    rw [hstep] at hstep₂
    cases hstep₂
    exact .inr ⟨e, m₂', hstep₂', hoverflow, hlacks⟩

/-- The first machine stops. -/
theorem StepsAlike.of_stops {outcome : Outcome} {m₁ : Machine} (h : StepsAlike A B reach m m')
    (hstep : m.step = (some outcome, m₁)) :
    (∃ e, outcome = .failed e ∧ e.fault.isOverflow) ∨
      ∃ m₁', m'.step = (some outcome, m₁') ∧ ParallelFrom A B reach m₁ m₁' := by
  cases h with
  | same outcome? m₂ m₂' hstep₂ hstep₂' h₂ =>
    rw [hstep] at hstep₂
    cases hstep₂
    exact .inr ⟨m₂', hstep₂', h₂⟩
  | full e m₂ hstep₂ hoverflow =>
    rw [hstep] at hstep₂
    cases hstep₂
    exact .inl ⟨e, rfl, hoverflow⟩
  | lacks m₂ e m₂' hstep₂ =>
    rw [hstep] at hstep₂
    cases hstep₂

/-- Steps that come out alike, for the same instruction. -/
theorem stepsAlike_of_attempt {x x' : Executing Unit} {site : Site} {ip : Nat}
    (hstep : m.step = m.attempt site ip x) (hstep' : m'.step = m'.attempt site ip x')
    (h : Alike A B reach x x' m m') : StepsAlike A B reach m m' := by
  unfold Alike Ensures at h
  unfold attempt at hstep hstep'
  revert h hstep hstep'
  cases x.run.run m with
  | mk r m₁ =>
    cases x'.run.run m' with
    | mk r' m₁' =>
      intro hstep hstep' h
      cases r with
      | ok _ =>
        cases r' with
        | ok _ => exact .same none m₁ m₁' hstep hstep' h
        | error e' => exact .lacks m₁ _ m₁' hstep hstep' h.1 h.2
      | error e =>
        rcases h with hoverflow | h
        · exact .full _ m₁ hstep hoverflow
        cases r' with
        | ok _ => exact h.elim
        | error e' =>
          obtain ⟨rfl, hparallel⟩ := h
          exact .same _ m₁ m₁' hstep hstep' hparallel

/-- At the end of a function's code null is returned, and a `return` finds a value if there is one. -/
theorem returning?_ne_none (hframes : m.frames = fs.push f) (hsp : m.sp ≠ 0)
    (hroom : m.sp ≤ m.stack.size) (h : f.function.code.size ≤ f.ip ∨ ∃ op operand next,
      Code.fetch f.function.code f.ip = .ok (op, operand, next) ∧ (op = .returnValue ∨ op = .ret)) :
    m.returning? ≠ none := by
  have htop : m.top? ≠ none := by
    rw [top?, if_neg hsp, Array.getElem?_eq_getElem (by omega)]
    simp
  simp only [returning?, hframes, Array.back?_push]
  split
  · next hlt =>
    obtain ⟨op, operand, next, hfetch, hop⟩ := h.resolve_left (Nat.not_le.mpr hlt)
    rw [hfetch]
    rcases hop with rfl | rfl
    · exact htop
    · simp
  · simp

/-- **The steps of parallel machines are alike**, at the bottom of the stack, and also inside a call that
uses no slot below its footing and does not end with this step. -/
theorem Parallel.steps (h : Parallel A B fs height reach m m')
    (hground : A.Bottom ∧ B.Bottom ∨
      1 ≤ A.low ∧ m.Above A.low ∧ fs.size ≠ 0 ∧ (m.returning? = none ∨ 2 ≤ fs.size)) :
    StepsAlike A B reach m m' := by
  by_cases hfs : fs = #[]
  · -- the program has ended
    obtain ⟨hA, hB⟩ := hground.resolve_right fun hcall => hcall.2.2.1 (by rw [hfs]; rfl)
    subst hfs
    have hdone : m.step = (some .finished, m) := step_done (h.left.frames.trans hA.frames)
    have hdone' : m'.step = (some .finished, m') := step_done (h.right.frames.trans hB.frames)
    exact .same _ m m' hdone hdone' (h.from (Nat.le_refl _))
  obtain ⟨gs, f, rfl⟩ := Array.exists_push_of_ne_empty hfs
  have hframes := h.left.frames_push
  have hframes' := h.right.frames_push
  -- a call that ends is not the first one on its footing, but on the bottom
  have hleave : (f.function.code.size ≤ f.ip ∨ ∃ op operand next,
      Code.fetch f.function.code f.ip = .ok (op, operand, next) ∧ (op = .returnValue ∨ op = .ret)) →
      gs.size ≠ 0 ∨ A.Bottom ∧ B.Bottom := by
    intro hreturns
    rcases hground with hbottom | ⟨hlow, -, -, hnone | hsize⟩
    · exact .inr hbottom
    · have hsp : m.sp ≠ 0 := by
        rw [h.left.sp]
        omega
      exact absurd hnone (returning?_ne_none hframes hsp h.left.inBounds.sp_le hreturns)
    · rw [Array.size_push] at hsize
      exact .inl (by omega)
  by_cases hlt : f.ip < f.function.code.size
  · cases hfetch : Code.fetch f.function.code f.ip with
    | error e =>
      have hmalformed : m.step = (some (.failed e), m) := step_malformed hframes hlt hfetch
      have hmalformed' : m'.step = (some (.failed e), m') := step_malformed hframes' hlt hfetch
      exact .same _ m m' hmalformed hmalformed' (h.from (Nat.le_refl _))
    | ok instruction =>
      obtain ⟨op, operand, next⟩ := instruction
      have hoffers : A.Offers height (op.pops operand) ∧ B.Offers height (op.pops operand) := by
        rcases hground with ⟨hA, hB⟩ | ⟨hlow, habove, -, -⟩
        · exact ⟨.inr hA.low, .inr hB.low⟩
        · have hpops := (habove _ _ hframes).2 op operand next hlt hfetch
          rw [h.left.sp] at hpops
          exact ⟨.inl (by omega), .inl (by omega)⟩
      have hstep := step_instruction hframes hlt hfetch
      have hstep' := step_instruction hframes' hlt hfetch
      refine stepsAlike_of_attempt hstep hstep' (alike_goto h next ?_)
      exact execute_alike (h.goto next) hoffers.1 hoffers.2
        fun hop => hleave (.inr ⟨op, operand, next, hfetch, hop⟩)
  · have hge : f.function.code.size ≤ f.ip := Nat.le_of_not_lt hlt
    by_cases hsize : gs.size = 0
    · obtain ⟨hA, hB⟩ := (hleave (.inl hge)).resolve_left (not_not_intro hsize)
      obtain rfl : gs = #[] := Array.size_eq_zero_iff.mp hsize
      exact .same _ _ _ (step_finished hframes hge hA.size_eq_zero)
        (step_finished hframes' hge hB.size_eq_zero) ((h.halt hA hB).from (Nat.le_refl _))
    · have hstep := step_returned hframes hge (A.size_append_ne hsize)
      have hstep' := step_returned hframes' hge (B.size_append_ne hsize)
      exact stepsAlike_of_attempt hstep hstep' (alike_leave h (.inl hsize) .null)

end Machine

end Monkey
