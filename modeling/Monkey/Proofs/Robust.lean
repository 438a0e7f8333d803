import Monkey.Proofs.Checked

/-!
# Any bytes can be run

Code that no compiler made can jump into the operands of an instruction, take off values that are not
its own, or call with the wrong stack. A machine runs it all the same, and also goes on after it has
raised a fault. Whatever it has gone through, it is in bounds (`Machine.inBounds_after`), and a call that
ends finds the place for its result (`Machine.step_failed_site`). So no index of a step is ever wrong
(`Machine.after_robust`).
-/

namespace Monkey

namespace Machine

open Executing

/-- The machine after it has been run again and again, each time for at most as many steps as given. It
is run again also when it has finished or raised a fault. -/
def after (m : Machine) (runs : List Nat) : Machine := runs.foldl (fun m n => (m.run n).2) m

/-! ### What all steps keep -/

/-- What every step preserves, however it comes out, holds after any runs. -/
theorem after_of_step {Q : Machine → Prop} (hstep : ∀ m, Q m → Q m.step.2) {m : Machine} (h : Q m)
    (runs : List Nat) : Q (m.after runs) := by
  have hrun : ∀ n m, Q m → Q (m.run n).2 := by
    intro n
    induction n with
    | zero => exact fun m hm => hm
    | succ n ih =>
      intro m hm
      have hnext := hstep m hm
      rw [run]
      split
      · next m' heq =>
        rw [heq] at hnext
        exact ih m' hnext
      · next outcome m' heq =>
        rw [heq] at hnext
        exact hnext
  -- each run starts from the machine that the one before has left
  unfold after
  induction runs generalizing m with
  | nil => exact h
  | cons n runs ih => exact ih (hrun n m h)

theorem inBounds_after {m : Machine} (h : m.InBounds) (runs : List Nat) :
    (m.after runs).InBounds ∧ (m.after runs).stack.size = m.stack.size := by
  refine after_of_step (Q := fun m' => m'.InBounds ∧ m'.stack.size = m.stack.size) ?_ ⟨h, rfl⟩ runs
  intro m' hm'
  have hstep := hm'.1.steps.always
  exact ⟨hstep.inBounds, hstep.size.trans hm'.2⟩

/-- The functions among the values of a machine are those that it came with. -/
theorem Holds.after {P : Function → Prop} {m : Machine} (h : m.Holds P) (runs : List Nat) :
    (m.after runs).Holds P := by
  refine after_of_step (fun m hm => Steps.always ?_) h runs
  cases m.next with
  | done hframes =>
    rw [steps_done hframes]
    exact hm
  | malformed fs f e hframes hlt hfetch =>
    rw [Steps, step_malformed hframes hlt hfetch]
    exact hm
  | instruction fs f op operand next hframes hlt hfetch =>
    exact (steps_fetched hm hframes hlt hfetch).mono (fun _ h => h.1) (fun _ _ h => h.1)
      fun _ h => h.elim
  | ended fs f hframes hge =>
    refine (steps_ended hm hframes hge).mono (fun _ h => h.1) (fun _ _ h => h.1) ?_
    rintro _ ⟨-, rfl⟩
    exact hm.move _ _

/-! ### Faults of calls that end -/

/-- A call other than the top level finds the place for its result. -/
theorem ensures_leave_inBounds {m : Machine} {fs : Array Frame} {f : Frame} (h : m.InBounds)
    (hframes : m.frames = fs.push f) (v : Value) :
    (leave v).Ensures m (fun _ _ => True) (fun _ _ => False) := by
  rw [ensures_leave hframes, ensures_push]
  split
  · trivial
  · next hsize =>
    have hbase : 1 ≤ f.base := h.base_pos hframes hsize
    have hle : f.base + f.function.locals ≤ m.stack.size := h.base_add_locals_le hframes
    rw [if_pos (by dsimp only; omega)]
    trivial

theorem attempt_failed {m m' : Machine} {site : Site} {ip : Nat} {x : Executing Unit}
    {e : RuntimeError} {Q : Unit → Machine → Prop} {E : Fault → Machine → Prop}
    (h : m.attempt site ip x = (some (.failed e), m')) (hx : x.Ensures m Q E) :
    e.site = site ∧ E e.fault m' := by
  unfold attempt at h
  unfold Ensures at hx
  revert h hx
  cases x.run.run m with
  | mk r m₁ =>
    cases r with
    | ok _ =>
      intro h
      cases h
    | error fault =>
      intro h hx
      cases h
      exact ⟨rfl, hx⟩

theorem attempt_failed_ip {m m' : Machine} {site : Site} {ip : Nat} {x : Executing Unit}
    {e : RuntimeError} (h : m.attempt site ip x = (some (.failed e), m')) : e.ip = ip := by
  unfold attempt at h
  cases hx : x.run.run m with
  | mk r m₁ =>
    rw [hx] at h
    cases r with
    | ok _ => cases h
    | error fault =>
      cases h
      rfl

/-- Only an instruction with operands can be cut short. -/
theorem fetch_error_site {code : Code} {ip : Nat} {e : RuntimeError}
    (h : Code.fetch code ip = .error e) :
    e.site = .undefined ∨ ∃ op : Opcode, e.site = .at op ∧ op.layout.operandLength ≠ 0 := by
  unfold Code.fetch at h
  split at h
  · cases h
    exact .inl rfl
  · next op _ =>
    dsimp only at h
    split at h
    · cases h
    · next hlength =>
      cases h
      refine .inr ⟨op, rfl, fun hzero => hlength ?_⟩
      rw [hzero, Array.length_toList, Array.size_extract]
      omega

/-- The end of a call raises no fault, unless there is no value that it could return. -/
theorem step_failed_site {m m' : Machine} {e : RuntimeError} (h : m.InBounds)
    (hstep : m.step = (some (.failed e), m')) :
    e.site ≠ .codeEnd ∧ e.site ≠ .at .ret ∧
      (e.site = .at .returnValue → e.fault = .stackUnderflow ∧ m.sp = 0) := by
  cases m.next with
  | done hframes =>
    rw [step_done hframes] at hstep
    cases hstep
  | malformed fs f e₀ hframes hlt hfetch =>
    rw [step_malformed hframes hlt hfetch] at hstep
    cases hstep
    rcases fetch_error_site hfetch with hsite | ⟨op, hsite, hop⟩
    · rw [hsite]
      simp
    · rw [hsite]
      refine ⟨by simp, ?_, ?_⟩
      · rintro ⟨⟩
        exact hop rfl
      · rintro ⟨⟩
        exact absurd rfl hop
  | instruction fs f op operand next hframes hlt hfetch =>
    rw [step_instruction hframes hlt hfetch] at hstep
    have hgo : InBounds { m with frames := fs.push { f with ip := next } } := h.goto hframes next
    -- the frame is moved behind the instruction before it is carried out
    have hjump : ∀ {Q : Unit → Machine → Prop} {E : Fault → Machine → Prop},
        (execute op operand).Ensures { m with frames := fs.push { f with ip := next } } Q E →
        (jump next >>= fun _ => execute op operand).Ensures m Q E := by
      intro Q E hx
      rwa [ensures_bind, ensures_jump, hframes, modify_last_ip]
    have hsite : e.site = .at op := (attempt_failed hstep (ensures_trivial _)).1
    rw [hsite]
    refine ⟨by simp, ?_, ?_⟩
    · rintro ⟨⟩
      exact (attempt_failed hstep (hjump (ensures_leave_inBounds hgo rfl .null))).2
    · rintro ⟨⟩
      -- leaving a frame never fails in these bounds, so only the pop can
      have hreturn : (execute .returnValue operand).Ensures
          { m with frames := fs.push { f with ip := next } } (fun _ _ => True)
          (fun fault _ => fault = .stackUnderflow ∧ m.sp = 0) := by
        rw [execute, ensures_bind, ensures_pop]
        split
        · next hsp => exact ⟨rfl, hsp⟩
        · refine (ensures_leave_inBounds (hgo.move (Nat.le_trans (Nat.sub_le _ _) h.sp_le)) rfl
            _).mono (fun _ _ _ => trivial) (fun _ _ h => h.elim)
      exact (attempt_failed hstep (hjump hreturn)).2
  | ended fs f hframes hge =>
    by_cases hsize : fs.size = 0
    · rw [step_finished hframes hge hsize] at hstep
      cases hstep
    · rw [step_returned hframes hge hsize] at hstep
      exact (attempt_failed hstep (ensures_leave_inBounds h hframes .null)).2.elim

/-- A run that raises a fault does so in one of its steps, up to which it goes on. What the steps that go on
preserve holds of the machine before. -/
theorem run_failed_of_step {Q : Machine → Prop} {m m' : Machine} {e : RuntimeError} {n : Nat}
    (hstep : ∀ m m', Q m → m.step = (none, m') → Q m') (hm : Q m) (h : m.run n = (.failed e, m')) :
    ∃ k, (m.run k).1 = .unfinished ∧ Q (m.run k).2 ∧ (m.run k).2.step = (some (.failed e), m') := by
  induction n generalizing m with
  | zero => cases h
  | succ n ih =>
    rw [run] at h
    split at h
    · next m₁ hnext =>
      obtain ⟨k, hk⟩ := ih (hstep m m₁ hm hnext) h
      refine ⟨k + 1, ?_⟩
      rwa [run, hnext]
    · next outcome m₁ hnext =>
      obtain ⟨rfl, rfl⟩ := Prod.mk.inj h
      exact ⟨0, rfl, hm, hnext⟩

theorem run_failed {m m' : Machine} {e : RuntimeError} {n : Nat}
    (h : m.run n = (.failed e, m')) : ∃ k, (m.run k).2.step = (some (.failed e), m') := by
  have hstep : ∀ m m' : Machine, True → m.step = (none, m') → True := fun _ _ h _ => h
  obtain ⟨k, -, -, hk⟩ := run_failed_of_step hstep trivial h
  exact ⟨k, hk⟩

/-! ### Robustness -/

/-- **Any bytes can be run.** Take a machine for any code, any constants, any globals and any limits, and
run it again and again, also when it has raised a fault. Then its stack pointer and the local slots of its
calls lie within the stack, and every call but the top level has a slot for its result. It passes all
checks, so that its next step goes on, finishes, or raises a fault. No fault belongs to the end of a call,
but for a value to return that is missing. When the local slots of every function that it came with could
be counted together with the stack in 64 bits, then so can the slots that a call needs. -/
theorem after_robust (chunk : Chunk) (globals : Array (Option Value)) (limits : Limits)
    (runs : List Nat) :
    let m := (start chunk globals limits).after runs
    m.sp ≤ m.stack.size ∧
      (∀ f ∈ m.frames, f.base + f.function.locals ≤ m.stack.size) ∧
      (∀ i f, m.frames[i + 1]? = some f → 1 ≤ f.base) ∧
      m.stepChecked 0 = some m.step ∧ m.step.1 ≠ some .unfinished ∧
      (∀ n e m', m.run n = (.failed e, m') → e.site ≠ .codeEnd ∧ e.site ≠ .at .ret ∧
        (e.site = .at .returnValue → e.fault = .stackUnderflow)) ∧
      ((∀ v ∈ chunk.constants, v.All fun f => f.locals + limits.stackSize < UInt64.size) →
        (∀ v, some v ∈ globals → v.All fun f => f.locals + limits.stackSize < UInt64.size) →
        ∀ count f, count < m.sp → m.stack.getD (m.sp - 1 - count) .null = .function f →
          m.sp - count + max f.locals count < UInt64.size) := by
  intro m
  obtain ⟨h, hsize⟩ := inBounds_after (.start chunk globals limits) runs
  refine ⟨h.sp_le, h.locals_le, ?_, stepChecked_eq h m.above_zero, h.steps.ne_unfinished, ?_, ?_⟩
  · intro i f hf
    have hbase := h.rooted (i + 1) f hf
    omega
  · intro n e m' hrun
    obtain ⟨k, hstep⟩ := run_failed hrun
    obtain ⟨hend, hret, hreturn⟩ := step_failed_site (inBounds_after h [k]).1 hstep
    exact ⟨hend, hret, fun hsite => (hreturn hsite).1⟩
  · intro hconstants hglobals count f hcount hf
    -- no function comes from anywhere but the constants and the globals
    have hlocals : f.locals + limits.stackSize < UInt64.size := by
      have hall := ((Holds.start hconstants hglobals limits).after runs).stack_getD (m.sp - 1 - count)
      rw [hf] at hall
      exact hall
    have hsp : m.sp ≤ limits.stackSize := by
      have hstart : (start chunk globals limits).stack.size = limits.stackSize :=
        Array.size_replicate
      have hle := h.sp_le
      rwa [hsize, hstart] at hle
    omega

/-- A function that takes off all of its local slots and also the slot that its result should go to,
and then calls itself. -/
def clearsBelow : Chunk where
  code := #[0, 0, 0, 21, 0]
  constants := #[.function ⟨1, #[2, 2, 2, 2, 0, 0, 0, 21, 0], 3, 0, none⟩]

/-- It opens calls until there are no more frames for them. Run again, it returns from two of them. -/
theorem after_robust_clearsBelow :
    let m := (start clearsBelow #[] ⟨4, 1, 3⟩).after [100, 1]
    ((start clearsBelow #[] ⟨4, 1, 3⟩).run 100).1 = .failed ⟨.frameOverflow 3, .at .call, 7⟩ ∧
      m.frames.size = 2 ∧ m.stepChecked 0 = some m.step ∧
      ∀ count f, count < m.sp → m.stack.getD (m.sp - 1 - count) .null = .function f →
        m.sp - count + max f.locals count < UInt64.size := by
  have h := after_robust clearsBelow #[] ⟨4, 1, 3⟩ [100, 1]
  refine ⟨by decide +kernel, by decide +kernel, h.2.2.2.1, h.2.2.2.2.2.2 ?_ ?_⟩
  · intro v hv
    obtain rfl := List.mem_singleton.mp (Array.mem_toList_iff.mpr hv)
    show 3 + 4 < UInt64.size
    decide
  · intro v hv
    cases hv with
    | mk h => cases h

end Machine

end Monkey
