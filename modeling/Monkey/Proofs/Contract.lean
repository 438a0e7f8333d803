import Monkey.Proofs.Script

/-!
# Contracts for the steps of the parser

A `Contract` says of every step what it may count on when it is entered, and what holds when it is left.
A script meets it when it enters steps only where they may be entered, and in the end has done what is
asked of it, if they do what the contract says (`Parse.Script.Meets`). There is one rule for every act of
a script, so that the bodies of the steps are gone through once for each contract, and no more is needed
to know what a play does (`Parse.Script.Meets.play`).
-/

namespace Monkey

namespace Parse

/-- What a step may count on when it is entered, and what holds of its result and of the walk when it
is left. -/
structure Contract where
  pre : ∀ {α : Type}, Step α → Walk → Prop
  post : ∀ {α : Type}, Step α → Walk → Option α → Walk → Prop

/-- Both of two contracts. -/
def Contract.and (C D : Contract) : Contract where
  pre s w := C.pre s w ∧ D.pre s w
  post s w a w' := C.post s w a w' ∧ D.post s w a w'

/-- The steps that are allowed by the contract do what it says. -/
def Contract.HoldsOf (C : Contract) (enters : Playing) : Prop :=
  ∀ ⦃α : Type⦄ (s : Step α) (w : Walk), C.pre s w → C.post s w (enters s w).1 (enters s w).2

/-- A step that is entered on a walk. -/
structure Call where
  {result : Type}
  step : Step result
  walk : Walk

namespace Script

variable {α β : Type} {C D : Contract} {w : Walk} {Q R : Option α → Walk → Prop}
  {Q' : Option β → Walk → Prop}

/-- The script enters steps only where the contract allows it, and in the end `Q` holds, whatever these
steps do within the contract. -/
def Meets (C : Contract) : Script α → Walk → (Option α → Walk → Prop) → Prop
  | give a, w, Q => Q (some a) w
  | abort, w, Q => Q none w
  | fail d, w, Q => Q none (w.report d)
  | withCurrent next, w, Q => (next w.current).Meets C (w.look 0) Q
  | withPeek next, w, Q => (next w.peek).Meets C (w.look 1) Q
  | thenAdvance next, w, Q => next.Meets C w.advance Q
  | thenRecover next, w, Q => next.Meets C w.recover Q
  | enter s next, w, Q => C.pre s w ∧ ∀ a w', C.post s w a w' → (next a).Meets C w' Q

/-! ### One rule for every act -/

theorem meets_bind {x : Script α} {f : α → Script β} : (x >>= f).Meets C w Q' ↔
    x.Meets C w fun a w' => match a with
      | some a => (f a).Meets C w' Q'
      | none => Q' none w' := by
  induction x generalizing w with
  | give | abort | fail => exact Iff.rfl
  | withCurrent _ ih => exact ih w.current
  | withPeek _ ih => exact ih w.peek
  | thenAdvance _ ih => exact ih
  | thenRecover _ ih => exact ih
  | enter s _ ih =>
    exact and_congr_right fun _ => forall_congr' fun a => forall₂_congr fun _ _ => ih a

@[simp] theorem meets_pure {a : α} : (pure a : Script α).Meets C w Q ↔ Q (some a) w := Iff.rfl

@[simp] theorem meets_fail {d : Diagnostic} :
    (fail d : Script α).Meets C w Q ↔ Q none (w.report d) := Iff.rfl

@[simp] theorem meets_current_bind {f : Token → Script α} :
    (current >>= f).Meets C w Q ↔ (f w.current).Meets C (w.look 0) Q := Iff.rfl

@[simp] theorem meets_peek_bind {f : Token → Script α} :
    (peek >>= f).Meets C w Q ↔ (f w.peek).Meets C (w.look 1) Q := Iff.rfl

@[simp] theorem meets_advance_bind {f : Unit → Script α} :
    (advance >>= f).Meets C w Q ↔ (f ()).Meets C w.advance Q := Iff.rfl

@[simp] theorem meets_recover_bind {f : Unit → Script α} :
    (recover >>= f).Meets C w Q ↔ (f ()).Meets C w.recover Q := Iff.rfl

@[simp] theorem meets_expect_bind {kind : Kind} {f : Unit → Script α} :
    (expect kind >>= f).Meets C w Q ↔
      if w.peek.kind = kind then (f ()).Meets C (w.look 1).advance Q
      else Q none ((w.look 1).report (.unexpectedToken kind w.peek.kind w.peek.span)) := by
  rw [meets_bind, expect, meets_peek_bind]
  split <;> exact Iff.rfl

@[simp] theorem meets_skip_bind {kind : Kind} {f : Unit → Script α} :
    (skip kind >>= f).Meets C w Q ↔
      if w.peek.kind = kind then (f ()).Meets C (w.look 1).advance Q
      else (f ()).Meets C (w.look 1) Q := by
  rw [meets_bind, skip, meets_peek_bind]
  split <;> exact Iff.rfl

@[simp] theorem meets_call {s : Step α} :
    (call s).Meets C w Q ↔ C.pre s w ∧ ∀ a w', C.post s w a w' → Q a w' := by
  refine and_congr_right fun _ => forall₃_congr fun a _ _ => ?_
  cases a <;> exact Iff.rfl

@[simp] theorem meets_call_bind {s : Step α} {f : α → Script β} :
    (call s >>= f).Meets C w Q' ↔ C.pre s w ∧ (∀ w', C.post s w none w' → Q' none w') ∧
      ∀ a w', C.post s w (some a) w' → (f a).Meets C w' Q' := by
  rw [meets_bind, meets_call]
  refine and_congr_right fun _ => ⟨fun h => ⟨fun w' => h none w', fun a => h (some a)⟩, ?_⟩
  rintro ⟨hnone, hsome⟩ (_ | a)
  · exact hnone
  · exact hsome a

@[simp] theorem meets_attempt_bind {s : Step β} {f : Option β → Script α} :
    (attempt s >>= f).Meets C w Q ↔
      C.pre s w ∧ ∀ a w', C.post s w a w' → (f a).Meets C w' Q := Iff.rfl

theorem Meets.mono {x : Script α} (h : x.Meets C w Q) (hQ : ∀ a w', Q a w' → R a w') :
    x.Meets C w R := by
  induction x generalizing w with
  | give | abort | fail => exact hQ _ _ h
  | withCurrent _ ih => exact ih _ h
  | withPeek _ ih => exact ih _ h
  | thenAdvance _ ih => exact ih h
  | thenRecover _ ih => exact ih h
  | enter s _ ih => exact ⟨h.1, fun a w' hpost => ih a (h.2 a w' hpost)⟩

/-! ### What a play does -/

variable {x : Script α} {enters enters' : Playing}

/-- The script enters the step of the call `c` on its way. -/
def Calls (enters : Playing) : Script α → Walk → Call → Prop
  | give _, _, _ | abort, _, _ | fail _, _, _ => False
  | withCurrent next, w, c => (next w.current).Calls enters (w.look 0) c
  | withPeek next, w, c => (next w.peek).Calls enters (w.look 1) c
  | thenAdvance next, w, c => next.Calls enters w.advance c
  | thenRecover next, w, c => next.Calls enters w.recover c
  | enter s next, w, c => c = ⟨s, w⟩ ∨ (next (enters s w).1).Calls enters (enters s w).2 c

namespace Meets

theorem and (h : x.Meets C w Q) (h' : x.Meets D w R) :
    x.Meets (C.and D) w fun a w' => Q a w' ∧ R a w' := by
  induction x generalizing w with
  | give | abort | fail => exact ⟨h, h'⟩
  | withCurrent _ ih => exact ih _ h h'
  | withPeek _ ih => exact ih _ h h'
  | thenAdvance _ ih => exact ih h h'
  | thenRecover _ ih => exact ih h h'
  | enter s _ ih =>
    exact ⟨⟨h.1, h'.1⟩, fun a w' hpost => ih a (h.2 a w' hpost.1) (h'.2 a w' hpost.2)⟩

/-- **A play does what the contract says**, if the steps in it do. -/
theorem play (h : x.Meets C w Q) (henters : C.HoldsOf enters) :
    Q (x.play enters w).1 (x.play enters w).2 := by
  induction x generalizing w with
  | give | abort | fail => exact h
  | withCurrent _ ih => exact ih _ h
  | withPeek _ ih => exact ih _ h
  | thenAdvance _ ih => exact ih h
  | thenRecover _ ih => exact ih h
  | enter s _ ih => exact ih _ (h.2 _ _ (henters s w h.1))

/-- A play depends on those steps only that the contract allows. -/
theorem play_congr (h : x.Meets C w Q) (henters : C.HoldsOf enters)
    (heq : ∀ ⦃γ : Type⦄ (s : Step γ) (w : Walk), C.pre s w → enters' s w = enters s w) :
    x.play enters' w = x.play enters w := by
  induction x generalizing w with
  | give | abort | fail => rfl
  | withCurrent _ ih => exact ih _ h
  | withPeek _ ih => exact ih _ h
  | thenAdvance _ ih => exact ih h
  | thenRecover _ ih => exact ih h
  | enter s _ ih =>
    show (_ : Script α).play enters' (enters' s w).2 = _
    rw [heq s w h.1]
    exact ih _ (h.2 _ _ (henters s w h.1))

/-- In a play no step is entered that the contract does not allow. -/
theorem pre_of_calls {c : Call} (h : x.Meets C w Q) (henters : C.HoldsOf enters)
    (hc : x.Calls enters w c) : C.pre c.step c.walk := by
  induction x generalizing w with
  | give | abort | fail => exact hc.elim
  | withCurrent _ ih => exact ih _ h hc
  | withPeek _ ih => exact ih _ h hc
  | thenAdvance _ ih => exact ih h hc
  | thenRecover _ ih => exact ih h hc
  | enter s _ ih =>
    rcases hc with rfl | hc
    · exact h.1
    · exact ih _ (h.2 _ _ (henters s w h.1)) hc

end Meets

end Script

end Parse

end Monkey
