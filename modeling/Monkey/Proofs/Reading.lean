import Monkey.Program.Parser

/-!
# What a step of the parser does

Three ways to speak about a step of the parser, from the weakest to the strongest:

* `Reading.Ensures`: what holds when it gives a result, and what holds when it fails. Every primitive
  has a lemma that opens it.
* `Reading.Reads`: what holds when all goes well. A step that adds no diagnostic gives a result, and
  nothing is said of one that does add a diagnostic. Nothing needs to be, since no step ever takes a
  diagnostic back (`Reading.keepsAt`).
* `Reading.Yields`: the step gives a result.
-/

namespace Monkey

/-! ### Readers -/

namespace Reader

variable (t : Token) (rest : List Token) (eof : Token) (ds : Array Diagnostic)

@[simp] theorem current_mk : current ⟨rest, eof, ds⟩ = rest.headD eof := rfl

@[simp] theorem current_cons : current ⟨t :: rest, eof, ds⟩ = t := rfl

@[simp] theorem peek_mk : peek ⟨rest, eof, ds⟩ = rest.tail.headD eof := rfl

@[simp] theorem peek_cons : peek ⟨t :: rest, eof, ds⟩ = rest.headD eof := rfl

@[simp] theorem advance_mk : advance ⟨rest, eof, ds⟩ = ⟨rest.tail, eof, ds⟩ := rfl

@[simp] theorem advance_cons : advance ⟨t :: rest, eof, ds⟩ = ⟨rest, eof, ds⟩ := rfl

end Reader

namespace Reading

variable {α β : Type} {r : Reader} {N : Reader → Prop}

/-! ### Steps -/

/-- When the step `x` gives a result from `r` on then `Q` holds of it and of the reader it leaves, and
when it fails then `N` does. -/
def Ensures (x : Reading α) (r : Reader) (Q : α → Reader → Prop) (N : Reader → Prop) : Prop :=
  match x.run.run r with
  | (some a, r') => Q a r'
  | (none, r') => N r'

theorem Ensures.mono {x : Reading α} {Q Q' : α → Reader → Prop} {N' : Reader → Prop}
    (h : x.Ensures r Q N) (hQ : ∀ a r', Q a r' → Q' a r') (hN : ∀ r', N r' → N' r') :
    x.Ensures r Q' N' := by
  unfold Ensures at h ⊢
  split at h
  · exact hQ _ _ h
  · exact hN _ h

/-- The second step starts where the first one has ended, unless that failed. -/
theorem run_bind (x : Reading α) (f : α → Reading β) (r : Reader) :
    (x >>= f).run.run r = match x.run.run r with
      | (some a, r') => (f a).run.run r'
      | (none, r') => (none, r') := by
  change (match x r with | (a, r') => (match a with
    | some a => f a
    | none => pure none : StateM Reader (Option β)) r') = match x r with
    | (some a, r') => f a r'
    | (none, r') => (none, r')
  cases x r with
  | mk a r' => cases a <;> rfl

@[simp] theorem ensures_bind {x : Reading α} {f : α → Reading β} {Q : β → Reader → Prop} :
    (x >>= f).Ensures r Q N ↔ x.Ensures r (fun a r' => (f a).Ensures r' Q N) N := by
  unfold Ensures
  rw [run_bind]
  cases x.run.run r with
  | mk a r' => cases a <;> rfl

@[simp] theorem ensures_pure {a : α} {Q : α → Reader → Prop} :
    (pure a : Reading α).Ensures r Q N ↔ Q a r := Iff.rfl

@[simp] theorem ensures_failure {Q : α → Reader → Prop} :
    (failure : Reading α).Ensures r Q N ↔ N r := Iff.rfl

@[simp] theorem ensures_fail {d : Diagnostic} {Q : α → Reader → Prop} :
    (fail d : Reading α).Ensures r Q N ↔ N (r.report d) := Iff.rfl

@[simp] theorem ensures_modify {f : Reader → Reader} {Q : Unit → Reader → Prop} :
    (modify f : Reading PUnit).Ensures r Q N ↔ Q () (f r) := Iff.rfl

@[simp] theorem ensures_current {Q : Token → Reader → Prop} :
    current.Ensures r Q N ↔ Q r.current r := Iff.rfl

@[simp] theorem ensures_peek {Q : Token → Reader → Prop} :
    peek.Ensures r Q N ↔ Q r.peek r := Iff.rfl

@[simp] theorem ensures_advance {Q : Unit → Reader → Prop} :
    advance.Ensures r Q N ↔ Q () r.advance := Iff.rfl

@[simp] theorem ensures_expect {kind : Kind} {Q : Unit → Reader → Prop} :
    (expect kind).Ensures r Q N ↔
      if r.peek.kind = kind then Q () r.advance
      else N (r.report (.unexpectedToken kind r.peek.kind r.peek.span)) := by
  simp only [expect, ensures_bind, ensures_peek]
  split <;> rfl

@[simp] theorem ensures_skip {kind : Kind} {Q : Unit → Reader → Prop} :
    (skip kind).Ensures r Q N ↔ if r.peek.kind = kind then Q () r.advance else Q () r := by
  simp only [skip, ensures_bind, ensures_peek]
  split <;> rfl

@[simp] theorem ensures_attempt {x : Reading α} {Q : Option α → Reader → Prop} :
    (attempt x).Ensures r Q N ↔ x.Ensures r (fun a r' => Q (some a) r') (fun r' => Q none r') := by
  unfold Ensures
  change (match (match x r with | (a, r') => (some a, r')) with
    | (some a, r') => Q a r'
    | (none, r') => N r') ↔ _
  change _ ↔ match x r with
    | (some a, r') => Q (some a) r'
    | (none, r') => Q none r'
  cases x r with
  | mk a r' => cases a <;> rfl

/-! ### Steps that succeed -/

/-- The step gives a result from `r` on, and `Q` holds of it and of the reader it leaves. -/
def Yields (x : Reading α) (r : Reader) (Q : α → Reader → Prop) : Prop :=
  x.Ensures r Q fun _ => False

section

variable {x : Reading α} {Q : α → Reader → Prop} {Q' : β → Reader → Prop}

theorem Yields.mono {Q' : α → Reader → Prop} (h : x.Yields r Q)
    (hQ : ∀ a r', Q a r' → Q' a r') : x.Yields r Q' :=
  Ensures.mono h hQ fun _ hr => hr

@[simp] theorem yields_bind {f : α → Reading β} :
    (x >>= f).Yields r Q' ↔ x.Yields r fun a r' => (f a).Yields r' Q' := ensures_bind

@[simp] theorem yields_pure {a : α} : (pure a : Reading α).Yields r Q ↔ Q a r := Iff.rfl

@[simp] theorem yields_current {Q : Token → Reader → Prop} :
    current.Yields r Q ↔ Q r.current r := Iff.rfl

@[simp] theorem yields_peek {Q : Token → Reader → Prop} : peek.Yields r Q ↔ Q r.peek r := Iff.rfl

@[simp] theorem yields_advance {Q : Unit → Reader → Prop} :
    advance.Yields r Q ↔ Q () r.advance := Iff.rfl

@[simp] theorem yields_expect {kind : Kind} {Q : Unit → Reader → Prop} :
    (expect kind).Yields r Q ↔ r.peek.kind = kind ∧ Q () r.advance := by
  simp [Yields]

@[simp] theorem yields_skip {kind : Kind} {Q : Unit → Reader → Prop} :
    (skip kind).Yields r Q ↔ if r.peek.kind = kind then Q () r.advance else Q () r := ensures_skip

theorem yields_attempt {Q : Option α → Reader → Prop} (h : x.Yields r fun a => Q (some a)) :
    (attempt x).Yields r Q :=
  ensures_attempt.mpr (Ensures.mono h (fun _ _ hQ => hQ) fun _ hr => hr.elim)

/-- A result with the property `P` was found in front of the tokens `tail`: the reader stands on the
last token before them. -/
def Stops (eof : Token) (ds : Array Diagnostic) (tail : List Token) (P : α → Prop) :
    α → Reader → Prop :=
  fun a r => P a ∧ ∃ t, r = ⟨t :: tail, eof, ds⟩

theorem Yields.after {eof : Token} {ds : Array Diagnostic} {tail : List Token} {P : α → Prop}
    (h : x.Yields r (Stops eof ds tail P)) (hQ : ∀ a t, P a → Q a ⟨t :: tail, eof, ds⟩) :
    x.Yields r Q := by
  refine h.mono ?_
  rintro a _ ⟨ha, t, rfl⟩
  exact hQ a t ha

end

/-! ### Diagnostics are kept -/

/-- The step never takes a diagnostic back. -/
def Keeps (x : Reading α) : Prop :=
  ∀ r, x.Ensures r (fun _ r' => r.diagnostics.size ≤ r'.diagnostics.size)
    (fun r' => r.diagnostics.size ≤ r'.diagnostics.size)

theorem Keeps.bind {x : Reading α} {f : α → Reading β} (hx : x.Keeps)
    (hf : ∀ a, (f a).Keeps) : (x >>= f).Keeps := by
  intro r
  rw [ensures_bind]
  refine (hx r).mono (fun a r' hr' => ?_) fun r' hr' => hr'
  exact (hf a r').mono (fun _ _ h => Nat.le_trans hr' h) fun _ h => Nat.le_trans hr' h

theorem Keeps.ite {c : Prop} [Decidable c] {x y : Reading α} (hx : x.Keeps) (hy : y.Keeps) :
    (if c then x else y).Keeps := by
  split
  · exact hx
  · exact hy

theorem keeps_pure (a : α) : (pure a : Reading α).Keeps := fun _ => Nat.le_refl _

theorem keeps_failure : (failure : Reading α).Keeps := fun _ => Nat.le_refl _

theorem keeps_fail (d : Diagnostic) : (fail d : Reading α).Keeps := by
  intro r
  rw [ensures_fail]
  simp [Reader.report]

theorem keeps_current : current.Keeps := fun _ => Nat.le_refl _

theorem keeps_peek : peek.Keeps := fun _ => Nat.le_refl _

theorem keeps_advance : advance.Keeps := fun _ => Nat.le_refl _

theorem keeps_recover : (modify (·.synchronize.advance) : Reading PUnit).Keeps :=
  fun _ => Nat.le_refl _

theorem keeps_expect (kind : Kind) : (expect kind).Keeps :=
  keeps_peek.bind fun _ => .ite keeps_advance (keeps_fail _)

theorem keeps_skip (kind : Kind) : (skip kind).Keeps :=
  keeps_peek.bind fun _ => .ite keeps_advance (keeps_pure _)

theorem Keeps.attempt {x : Reading α} (hx : x.Keeps) : (attempt x).Keeps := by
  intro r
  rw [ensures_attempt]
  exact hx r

/-! ### Steps without a fault -/

/-- Unless the step adds a diagnostic, it gives a result, and `Q` holds of this and of the tokens that
are left. -/
def Reads (x : Reading α) (r : Reader) (Q : α → List Token → Prop) : Prop :=
  x.Ensures r
    (fun a r' => r.diagnostics.size < r'.diagnostics.size ∨
      r'.diagnostics = r.diagnostics ∧ r'.eof = r.eof ∧ Q a r'.rest)
    (fun r' => r.diagnostics.size < r'.diagnostics.size)

variable {Q : α → List Token → Prop} {Q' : β → List Token → Prop}

theorem Reads.mono {Q' : α → List Token → Prop} {x : Reading α} (h : x.Reads r Q)
    (hQ : ∀ a rest, Q a rest → Q' a rest) : x.Reads r Q' := by
  refine Ensures.mono h (fun a r' hr' => ?_) fun r' hr' => hr'
  rcases hr' with hgrown | ⟨hsame, heof, hr'⟩
  · exact .inl hgrown
  · exact .inr ⟨hsame, heof, hQ a _ hr'⟩

/-- **One step after another**: the second one need only be looked at when the first one has added no
diagnostic. -/
theorem Reads.bind {x : Reading α} {f : α → Reading β} (hx : x.Reads r Q)
    (hkeeps : ∀ a, (f a).Keeps)
    (hf : ∀ a rest, Q a rest → (f a).Reads { r with rest } Q') : (x >>= f).Reads r Q' := by
  unfold Reads
  rw [ensures_bind]
  refine Ensures.mono hx (fun a r' hr' => ?_) fun r' hr' => hr'
  rcases hr' with hgrown | ⟨hsame, heof, hQ⟩
  · -- whatever comes now, the diagnostic stays
    refine (hkeeps a r').mono (fun b r'' hle => .inl ?_) fun r'' hle => ?_
    · exact Nat.lt_of_lt_of_le hgrown hle
    · exact Nat.lt_of_lt_of_le hgrown hle
  · have hr' : r' = { r with rest := r'.rest } := by
      cases r'
      cases hsame
      cases heof
      rfl
    rw [hr']
    exact hf a r'.rest hQ

/-- A step that is only tried either gives a result or leaves a diagnostic. -/
theorem Reads.attempt {x : Reading α} (hx : x.Reads r Q) :
    (attempt x).Reads r fun o rest => ∃ a, o = some a ∧ Q a rest := by
  unfold Reads
  rw [ensures_attempt]
  refine Ensures.mono hx (fun a r' hr' => ?_) fun r' hr' => .inl hr'
  rcases hr' with hgrown | ⟨hsame, heof, hQ⟩
  · exact .inl hgrown
  · exact .inr ⟨hsame, heof, a, rfl, hQ⟩

@[simp] theorem reads_pure {a : α} : (pure a : Reading α).Reads r Q ↔ Q a r.rest := by
  simp [Reads]

@[simp] theorem reads_fail {d : Diagnostic} : (fail d : Reading α).Reads r Q ↔ True := by
  simp [Reads, Reader.report]

@[simp] theorem reads_current_bind {f : Token → Reading β} :
    (current >>= f).Reads r Q' ↔ (f r.current).Reads r Q' := by
  simp [Reads]

@[simp] theorem reads_peek_bind {f : Token → Reading β} :
    (peek >>= f).Reads r Q' ↔ (f r.peek).Reads r Q' := by
  simp [Reads]

@[simp] theorem reads_advance_bind {f : Unit → Reading β} :
    (advance >>= f).Reads r Q' ↔ (f ()).Reads r.advance Q' := by
  simp [Reads, Reader.advance]

@[simp] theorem reads_expect_bind {kind : Kind} {f : Unit → Reading β} :
    (expect kind >>= f).Reads r Q' ↔ (r.peek.kind = kind → (f ()).Reads r.advance Q') := by
  unfold Reads
  rw [ensures_bind, ensures_expect]
  split
  · next h => simp [h, Reader.advance]
  · next h => simp [h, Reader.report]

@[simp] theorem reads_skip_bind {kind : Kind} {f : Unit → Reading β} :
    (skip kind >>= f).Reads r Q' ↔
      if r.peek.kind = kind then (f ()).Reads r.advance Q' else (f ()).Reads r Q' := by
  unfold Reads
  rw [ensures_bind, ensures_skip]
  rfl

/-! ### The steps of the parser keep diagnostics -/

/-- The steps of the parser keep the diagnostics, when they may nest to a depth of `fuel`. -/
structure KeepsAt (fuel : Nat) : Prop where
  expression : ∀ level, (expression level fuel).Keeps
  continuation : ∀ level left, (continuation level left fuel).Keeps
  extension : ∀ left, (extension left fuel).Keeps
  operand : (operand fuel).Keeps
  expressionList : ∀ close, (expressionList close fuel).Keeps
  expressions : ∀ close done, (expressions close done fuel).Keeps
  pairs : ∀ done, (pairs done fuel).Keeps
  block : (block fuel).Keeps
  statements : ∀ inBlock done, (statements inBlock done fuel).Keeps
  statement : (statement fuel).Keeps

theorem keeps_parameters (fuel : Nat) (done : Array Ident) : (parameters done fuel).Keeps := by
  induction fuel generalizing done with
  | zero => exact keeps_failure
  | succ fuel ih =>
    rw [parameters]
    refine keeps_peek.bind fun _ => .ite (keeps_advance.bind fun _ => ?_) ?_
    · exact (keeps_expect _).bind fun _ => keeps_current.bind fun _ => ih _
    · exact (keeps_expect _).bind fun _ => keeps_pure _

theorem keeps_parameterList (fuel : Nat) : (parameterList fuel).Keeps := by
  refine keeps_peek.bind fun _ => .ite (keeps_advance.bind fun _ => keeps_pure _) ?_
  exact (keeps_expect _).bind fun _ => keeps_current.bind fun _ => keeps_parameters _ _

namespace KeepsAt

variable {fuel : Nat} (h : KeepsAt fuel)

include h

theorem extension_succ (left : Expr) : (Reading.extension left (fuel + 1)).Keeps := by
  rw [Reading.extension]
  refine keeps_current.bind fun t => ?_
  split
  · exact keeps_advance.bind fun _ => (h.expression _).bind fun _ => keeps_pure _
  · refine .ite ((h.expressionList _).bind fun _ => keeps_pure _) (keeps_advance.bind fun _ => ?_)
    exact (h.expression _).bind fun _ => (keeps_expect _).bind fun _ => keeps_pure _

theorem operand_succ : (Reading.operand (fuel + 1)).Keeps := by
  rw [Reading.operand]
  refine keeps_current.bind fun t => ?_
  split
  · exact keeps_pure _
  · split
    · exact keeps_pure _
    · exact keeps_fail _
  · exact keeps_pure _
  · exact keeps_pure _
  · exact keeps_pure _
  · exact keeps_advance.bind fun _ => (h.expression _).bind fun _ => keeps_pure _
  · exact keeps_advance.bind fun _ => (h.expression _).bind fun _ => keeps_pure _
  · refine keeps_advance.bind fun _ => (h.expression _).bind fun _ => ?_
    exact (keeps_expect _).bind fun _ => keeps_pure _
  · refine (keeps_expect _).bind fun _ => keeps_advance.bind fun _ => ?_
    refine (h.expression _).bind fun _ => (keeps_expect _).bind fun _ => ?_
    refine (keeps_expect _).bind fun _ => h.block.bind fun _ => ?_
    refine keeps_peek.bind fun _ => .ite (keeps_advance.bind fun _ => ?_) (keeps_pure _)
    exact (keeps_expect _).bind fun _ => h.block.bind fun _ => keeps_pure _
  · refine (keeps_expect _).bind fun _ => (keeps_parameterList fuel).bind fun _ => ?_
    exact (keeps_expect _).bind fun _ => h.block.bind fun _ => keeps_pure _
  · exact (h.expressionList _).bind fun _ => keeps_pure _
  · exact (h.pairs _).bind fun _ => keeps_pure _
  · exact keeps_fail _

theorem pairs_succ (done : Array (Expr × Expr)) : (Reading.pairs done (fuel + 1)).Keeps := by
  rw [Reading.pairs]
  refine keeps_peek.bind fun _ => .ite (keeps_advance.bind fun _ => keeps_pure _) ?_
  refine keeps_advance.bind fun _ => (h.expression _).bind fun _ => ?_
  refine (keeps_expect _).bind fun _ => keeps_advance.bind fun _ => ?_
  refine (h.expression _).bind fun _ => keeps_peek.bind fun _ => ?_
  exact .ite (h.pairs _) ((keeps_expect _).bind fun _ => h.pairs _)

theorem statements_succ (inBlock : Bool) (done : Array Stmt) :
    (Reading.statements inBlock done (fuel + 1)).Keeps := by
  rw [Reading.statements]
  refine keeps_current.bind fun t => .ite (keeps_pure _) ?_
  refine h.statement.attempt.bind fun s => ?_
  cases s with
  | none => exact keeps_recover.bind fun _ => h.statements _ _
  | some s => exact keeps_advance.bind fun _ => h.statements _ _

theorem statement_succ : (Reading.statement (fuel + 1)).Keeps := by
  rw [Reading.statement]
  refine keeps_current.bind fun t => ?_
  split
  · refine (keeps_expect _).bind fun _ => keeps_current.bind fun _ => ?_
    refine (keeps_expect _).bind fun _ => keeps_advance.bind fun _ => ?_
    exact (h.expression _).bind fun _ => (keeps_skip _).bind fun _ => keeps_pure _
  · refine keeps_advance.bind fun _ => (h.expression _).bind fun _ => ?_
    exact (keeps_skip _).bind fun _ => keeps_pure _
  · exact (h.expression _).bind fun _ => (keeps_skip _).bind fun _ => keeps_pure _

end KeepsAt

/-- **No step of the parser takes a diagnostic back.** -/
theorem keepsAt (fuel : Nat) : KeepsAt fuel := by
  induction fuel with
  | zero => constructor <;> intros <;> exact keeps_failure
  | succ fuel h =>
    refine ⟨fun level => ?_, fun level left => ?_, h.extension_succ, h.operand_succ, fun close => ?_,
      fun close done => ?_, h.pairs_succ, ?_, h.statements_succ, h.statement_succ⟩
    · rw [expression]
      exact h.operand.bind fun left => h.continuation level left
    · rw [continuation]
      refine keeps_peek.bind fun _ => .ite (keeps_advance.bind fun _ => ?_) (keeps_pure _)
      exact (h.extension left).bind fun _ => h.continuation level _
    · rw [expressionList]
      refine keeps_advance.bind fun _ => keeps_current.bind fun _ => .ite (keeps_pure _) ?_
      exact (h.expression _).bind fun _ => h.expressions _ _
    · rw [expressions]
      refine keeps_peek.bind fun _ => .ite (keeps_advance.bind fun _ => keeps_advance.bind fun _ => ?_) ?_
      · exact (h.expression _).bind fun _ => h.expressions _ _
      · exact (keeps_expect _).bind fun _ => keeps_pure _
    · rw [block]
      refine keeps_current.bind fun _ => keeps_advance.bind fun _ => ?_
      refine (h.statements _ _).bind fun _ => keeps_current.bind fun _ => ?_
      exact .ite (keeps_fail _) (keeps_pure _)

end Reading

end Monkey
