import Monkey.Proofs.Compiled
import Monkey.Proofs.Heights

/-!
# Compiled code is safe

A machine that runs compiled code raises no fault that would point to a broken compiler: the stack
never runs empty, and no instruction names a constant or a slot that there is not
(`Fault.Harmless`). When the program ends, the stack is empty.

`Stacked` is the invariant behind this. Every open frame stands before code that is safe for the
height of its part of the stack, and the height of a frame that waits for a call is right once the
callee has left its result in the place of itself and its arguments.
-/

namespace Monkey

open Piece

/-! ### Faults -/

/-- A fault that code raises for what a program does, or for the limits it runs in. With fewer global
slots than an instruction can name, one of them may be missing. -/
def Fault.Harmless (globalsSize : Nat) : Fault → Prop
  | .stackUnderflow | .instruction _ | .constantOutOfRange _ | .localOutOfRange _ => False
  | .globalOutOfRange _ => globalsSize < 65536
  | _ => True

theorem Fault.Harmless.mono {m n : Nat} (h : m ≤ n) {e : Fault} (he : e.Harmless n) :
    e.Harmless m := by
  cases e with
  | globalOutOfRange i => exact lt_of_le_of_lt h he
  | _ => exact he

/-! ### Safe code -/

/-- From the offset `ip` on, on a stack of height `h`, the code is left at the height `last`, and on
the way there no operand is missing and nothing is named that there is not. -/
def Code.SafeFrom (code : Code) (constants : Nat) (locals? : Option Nat) (last ip h : Nat) : Prop :=
  ∃ ps globals, Code.Remaining code ip ps ∧ TakesAll h ps last ∧
    EachAll (fun op ns => op.isJump = false ∧ op.InRange constants globals locals? ns) ps

/-- A call of the function runs safe code. -/
def Function.Safe (constants : Nat) (f : Function) : Prop :=
  ∃ last, f.code.SafeFrom constants (some f.locals) last 0 0

/-- How safe code goes on: to its end, or with an instruction that finds its operands and leads to
safe code. -/
theorem Code.SafeFrom.cases {code : Code} {constants : Nat} {locals? : Option Nat} {last ip h : Nat}
    (hsafe : code.SafeFrom constants locals? last ip h) :
    (code.size ≤ ip ∧ h = last) ∨ ∃ op operand next, ip < code.size ∧
      Code.fetch code ip = .ok (op, operand, next) ∧ op.pops operand ≤ h ∧ operand < 65536 ∧
      (op = .constant → operand < constants) ∧
      (op = .getLocal ∨ op = .setLocal → ∃ locals, locals? = some locals ∧ operand < locals) ∧
      (op ≠ .jump → code.SafeFrom constants locals? last next (h + op.pushes - op.pops operand)) ∧
      (op = .jump ∨ op = .jumpNotTruthy →
        code.SafeFrom constants locals? last operand (h - op.pops operand)) := by
  obtain ⟨ps, globals, hps, htakes, hplain⟩ := hsafe
  cases ps with
  | nil => exact .inl ⟨hps.size_le, htakes.symm⟩
  | cons p ps =>
    right
    obtain ⟨h₁, hp, htakes⟩ := htakes
    cases p with
    | op o ns =>
      obtain ⟨hlt, hfetch, hrest⟩ := hps.op
      obtain ⟨bytes, hencode⟩ := hps.fits.1
      obtain ⟨⟨hjump, hrange⟩, hplain⟩ := hplain
      obtain ⟨hpops, hheight⟩ := hp
      refine ⟨o, ns.headD 0, _, hlt, hfetch, hpops, Opcode.lt_of_encode hencode, ?_, ?_, ?_, ?_⟩
      · rintro rfl
        obtain ⟨n, hn, rfl⟩ := hrange
        exact hn
      · rintro (rfl | rfl)
        · obtain ⟨locals, hlocals, n, hn, rfl⟩ := hrange
          exact ⟨locals, hlocals, hn⟩
        · obtain ⟨locals, hlocals, n, hn, rfl⟩ := hrange
          exact ⟨locals, hlocals, hn⟩
      · rw [show h + o.pushes - o.pops (ns.headD 0) = h₁ by omega]
        exact fun _ => ⟨ps, globals, hrest, htakes, hplain⟩
      · rintro (rfl | rfl)
        · cases hjump
        · cases hjump
    | branch yes no =>
      obtain ⟨hlt, hfetch, hyes, hno⟩ := hps.branch
      obtain ⟨hpops, htakes₁, htakes₂⟩ := hp
      have htarget := hps.fits.1.2.2
      simp only [maxTarget, UInt16.size] at htarget
      -- either side begins at the height below the condition
      refine ⟨.jumpNotTruthy, _, _, hlt, hfetch, hpops, by omega, by simp, by simp, fun _ => ?_,
        fun _ => ?_⟩
      · exact ⟨_, globals, hyes, htakes₁.append ⟨h₁, rfl, htakes⟩,
          eachAll_append.mpr ⟨hplain.1.1, hplain.1.2, hplain.2⟩⟩
      · exact ⟨_, globals, hno, htakes₂.append htakes, eachAll_append.mpr ⟨hplain.1.2, hplain.2⟩⟩
    | skip no =>
      obtain ⟨hlt, hfetch, hend, -⟩ := hps.skip
      have htarget := hps.fits.1.2
      simp only [maxTarget, UInt16.size] at htarget
      -- the jump over the right side leaves the height as it is
      obtain rfl : h₁ = h := hp
      exact ⟨.jump, _, _, hlt, hfetch, Nat.zero_le _, by omega, by simp, by simp,
        fun hne => absurd rfl hne, fun _ => ⟨ps, globals, hend, htakes, hplain.2⟩⟩

/-! ### Frames -/

/-- The slot behind the parameters and local names of a call. -/
def Frame.floor (f : Frame) : Nat := f.base + max f.function.locals f.function.parameters

/-- The frames stand before safe code, on a stack with as many slots in use as given. -/
inductive Stacked (constants : Nat) : Array Frame → Nat → Prop
  /-- The top level uses the stack from the first slot on, and leaves nothing on it. -/
  | main {f : Frame} {h : Nat} : f.function.code.SafeFrom constants none 0 f.ip h →
      Stacked constants (Array.push #[] f) h
  /-- The frames below a call go on when its result has taken the first slot below its base. -/
  | call {fs : Array Frame} {f : Frame} {h last : Nat} : Stacked constants fs f.base →
      1 ≤ f.base → f.function.code.SafeFrom constants (some f.function.locals) last f.ip h →
      Stacked constants (fs.push f) (f.floor + h)

theorem Stacked.ne_empty {constants sp : Nat} {fs : Array Frame} (h : Stacked constants fs sp) :
    fs.size ≠ 0 := by
  cases h <;> simp

/-- What frames look like from the one on top: `floor` is where its operands start, and it can go on
at any place where its code is safe. -/
theorem Stacked.cases {constants sp : Nat} {frames : Array Frame}
    (h : Stacked constants frames sp) :
    ∃ fs f floor height last locals?, frames = fs.push f ∧ sp = floor + height ∧
      f.function.code.SafeFrom constants locals? last f.ip height ∧
      (∀ locals, locals? = some locals → locals = f.function.locals) ∧
      (∀ ip height', f.function.code.SafeFrom constants locals? last ip height' →
        Stacked constants (fs.push { f with ip }) (floor + height')) ∧
      ((fs = #[] ∧ floor = 0 ∧ last = 0) ∨
        (fs.size ≠ 0 ∧ 1 ≤ f.base ∧ Stacked constants fs f.base)) := by
  cases h with
  | @main f h hsafe =>
    refine ⟨#[], f, 0, sp, 0, none, rfl, (Nat.zero_add _).symm, hsafe, by simp, fun ip h' hsafe' => ?_,
      .inl ⟨rfl, rfl, rfl⟩⟩
    rw [Nat.zero_add]
    exact .main hsafe'
  | @call fs f h last hfs hbase hsafe =>
    exact ⟨fs, f, f.floor, h, last, _, rfl, rfl, hsafe, fun _ h => (Option.some.inj h).symm,
      fun ip h' hsafe' => .call hfs hbase hsafe', .inr ⟨hfs.ne_empty, hbase, hfs⟩⟩

/-! ### Machines -/

/-- The machine runs safe code with the constants `k`, or it has come to the end with an empty
stack. Its functions are among the constants. -/
structure Machine.Safe (k : Array Value) (m : Machine) : Prop where
  holds : m.Holds fun f => Value.function f ∈ k
  constants : m.constants = k
  stacked : m.frames = #[] ∧ m.sp = 0 ∨ Stacked k.size m.frames m.sp

/-- A fault that an instruction of safe code can raise is harmless. -/
theorem Fault.Possible.harmless {m : Machine} {f : Frame} {op : Opcode} {operand : Nat} {e : Fault}
    (h : e.Possible m f op operand) (hpops : op.pops operand ≤ m.sp) (hoperand : operand < 65536)
    (hconstant : op = .constant → operand < m.constants.size)
    (hlocal : op = .getLocal ∨ op = .setLocal → operand < f.function.locals) :
    e.Harmless m.globals.size := by
  cases e with
  | stackUnderflow => exact absurd hpops (Nat.not_le.mpr h)
  | instruction e => exact h.elim
  | constantOutOfRange i => exact absurd (hconstant h.1) (Nat.not_lt.mpr h.2)
  | localOutOfRange i => exact absurd (hlocal h.1) (Nat.not_lt.mpr h.2)
  | globalOutOfRange i => exact lt_of_le_of_lt h.2 hoperand
  | _ => trivial

/-- **Safe machines stay safe**, and raise harmless faults only. -/
theorem Machine.Safe.steps {k : Array Value} {m : Machine} (h : m.Safe k)
    (hk : ∀ f, Value.function f ∈ k → f.Safe k.size) :
    m.Steps (fun m' => m'.Safe k ∧ m'.globals.size = m.globals.size)
      (fun e m' => e.Harmless m.globals.size ∧ m'.Holds fun f => Value.function f ∈ k)
      (fun m' => m'.sp = 0 ∧ m'.Holds fun f => Value.function f ∈ k) := by
  rcases h.stacked with ⟨hframes, hsp⟩ | hstacked
  · rw [steps_done hframes]
    exact ⟨hsp, h.holds⟩
  obtain ⟨fs, f, floor, height, last, locals?, hframes, hsp, hsafe, hlocals, hon, hbelow⟩ :=
    hstacked.cases
  rcases hsafe.cases with ⟨hge, rfl⟩ | ⟨op, operand, next, hlt, hfetch, hpops, hoperand, hconstant,
    hlocal, hnext, hjump⟩
  · refine (steps_ended h.holds hframes hge).mono ?_ ?_ ?_
    · rintro m' ⟨hm', hkept, hsize, hframes', hsp'⟩
      obtain ⟨rfl, -⟩ | ⟨-, hbase, hfs⟩ := hbelow
      · exact absurd rfl hsize
      · refine ⟨⟨hm', hkept.constants.trans h.constants, .inr ?_⟩, hkept.globalsSize⟩
        rwa [hframes', hsp', Nat.sub_add_cancel hbase]
    · rintro e m' ⟨hm', -, rfl, -⟩
      exact ⟨trivial, hm'⟩
    · rintro m' ⟨hsize, rfl⟩
      obtain ⟨rfl, rfl, rfl⟩ | ⟨hne, -⟩ := hbelow
      · exact ⟨hsp, h.holds.move _ _⟩
      · exact absurd hsize hne
  · refine (steps_fetched h.holds hframes hlt hfetch).mono ?_ ?_ fun _ h => h.elim
    · rintro m' ⟨hm', hkept, hmoves⟩
      refine ⟨⟨hm', hkept.constants.trans h.constants, ?_⟩, hkept.globalsSize⟩
      cases hmoves with
      | next hop hframes' _ hsp' =>
        right
        rw [hframes', show m'.sp = floor + (height + op.pushes - op.pops operand) by
          dsimp only at hsp'
          omega]
        exact hon _ _ (hnext hop)
      | jump hop hframes' _ hsp' =>
        right
        rw [hframes', show m'.sp = floor + (height - op.pops operand) by
          dsimp only at hsp'
          omega]
        exact hon _ _ (hjump hop)
      | call g hop hg _ hargs hframes' hsp' =>
        right
        subst hop
        -- the result of the call takes the first slot below the arguments
        obtain ⟨last', hsafe'⟩ := hk g hg
        have hcaller := hon next _ (hnext (by simp))
        have hbase : floor + (height + Opcode.call.pushes - Opcode.call.pops operand) =
            m.sp - operand := by
          simp only [Opcode.pushes, Opcode.pops] at hpops ⊢
          omega
        rw [hbase] at hcaller
        have hcallee : Stacked k.size _ (Frame.floor ⟨g, 0, m.sp - operand⟩ + 0) :=
          .call hcaller (Nat.le_sub_of_add_le (by dsimp only at hargs; omega)) hsafe'
        rwa [hframes', hsp']
      | leave _ hframes' hsp' =>
        obtain ⟨rfl, -⟩ | ⟨hne, hbase, hfs⟩ := hbelow
        · exact .inl ⟨hframes', hsp'⟩
        · right
          rw [if_neg hne, Nat.sub_add_cancel hbase] at hsp'
          rwa [hframes', hsp']
    · rintro e m' ⟨hm', hkept, hpossible⟩
      refine ⟨hpossible.harmless (by omega) hoperand ?_ fun hop => ?_, hm'⟩
      · rw [h.constants]
        exact hconstant
      · obtain ⟨locals, hsome, hlt⟩ := hlocal hop
        rwa [← hlocals locals hsome]

end Monkey
