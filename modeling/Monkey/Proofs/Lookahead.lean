import Monkey.Proofs.Nesting

/-!
# What the parser does not look at

A step of the parser that does not look at the end of the text cannot tell what stands there. With more
tokens behind those of its walk it gives the same result, and leaves these tokens alone
(`Parse.Step.extends_outcome`). Nor does it matter which diagnostics there were before.

This holds of every script by induction on its acts, and of the steps by induction on how deep they nest.
-/

namespace Monkey

namespace Reader

/-- More tokens behind those of the reader, another end of the text, and diagnostics from before. -/
def extend (r : Reader) (more : List Token) (eof : Token) (ds : Array Diagnostic) : Reader :=
  ⟨r.rest ++ more, eof, ds ++ r.diagnostics⟩

theorem dropStatement_cons_cons (eof t u : Token) (us : List Token) :
    dropStatement eof (t :: u :: us) =
      if t.kind = .semicolon ∨ u.kind = .rbrace ∨ u.kind = .eof then t :: u :: us
      else dropStatement eof (u :: us) := rfl

/-- A statement is skipped up to the same token whatever stands behind it, if the skipping stops on a
semicolon or short of the end. -/
theorem dropStatement_append {eof eof' : Token} {ts more : List Token}
    (h : ((dropStatement eof ts).tail.isEmpty &&
      !(dropStatement eof ts).any (·.kind = .semicolon)) = false) :
    dropStatement eof' (ts ++ more) = dropStatement eof ts ++ more ∧ dropStatement eof ts ≠ [] := by
  induction ts with
  | nil => cases h
  | cons t ts ih =>
    cases ts with
    | nil =>
      -- the last token: what comes next does not matter on a semicolon only
      have hsemicolon : t.kind = .semicolon := by
        by_contra hk
        rw [dropStatement] at h
        split at h <;> simp [dropStatement, hk] at h
      rw [List.singleton_append, dropStatement, dropStatement, if_pos (.inl hsemicolon),
        if_pos (.inl hsemicolon)]
      exact ⟨rfl, List.cons_ne_nil _ _⟩
    | cons u us =>
      rw [dropStatement_cons_cons] at h ⊢
      rw [List.cons_append, List.cons_append, dropStatement_cons_cons]
      by_cases hstops : t.kind = .semicolon ∨ u.kind = .rbrace ∨ u.kind = .eof
      · rw [if_pos hstops, if_pos hstops]
        exact ⟨rfl, List.cons_ne_nil _ _⟩
      · rw [if_neg hstops] at h ⊢
        rw [if_neg hstops]
        exact ih h

end Reader

namespace Parse

variable (more : List Token) (eof : Token) (ds : Array Diagnostic)

/-- What stands behind the tokens of the walk has not been looked at, or it is the same. -/
def Unseen (w : Walk) : Prop := w.sawEnd = false ∨ more = [] ∧ w.eof = eof

/-- The same result, and the same walk but for what stands behind and what was before. -/
def Extends {α : Type} (p q : Option α × Walk) : Prop :=
  q.1 = p.1 ∧ q.2.toReader = p.2.toReader.extend more eof ds

section

variable {more eof ds} {w w' : Walk}

theorem Unseen.mono {w₀ : Walk} (h : Unseen more eof w) (heof : w.eof = w₀.eof)
    (hsaw : w.sawEnd = false → w₀.sawEnd = false) : Unseen more eof w₀ :=
  h.imp hsaw fun h => ⟨h.1, heof ▸ h.2⟩

theorem Unseen.of_look {n : Nat} (h : Unseen more eof (w.look n)) : Unseen more eof w :=
  h.mono rfl fun hsaw => (Bool.or_eq_false_iff.mp hsaw).1

theorem Unseen.of_advance (h : Unseen more eof w.advance) : Unseen more eof w :=
  h.mono rfl fun hsaw => (Bool.or_eq_false_iff.mp hsaw).1

theorem Unseen.of_recover (h : Unseen more eof w.recover) : Unseen more eof w :=
  h.mono rfl fun hsaw => (Bool.or_eq_false_iff.mp hsaw).1

variable (hw : w'.toReader = w.toReader.extend more eof ds)

include hw

theorem Unseen.current_eq (h : Unseen more eof (w.look 0)) : w'.current = w.current := by
  show w'.toReader.current = _
  rw [hw]
  rcases h with hsaw | ⟨rfl, heof⟩
  · obtain ⟨t, ts, hrest⟩ : ∃ t ts, w.rest = t :: ts := by
      have hlength := of_decide_eq_false (Bool.or_eq_false_iff.mp hsaw).2
      exact List.exists_cons_of_length_pos (Nat.lt_of_not_le hlength)
    rw [Reader.extend, Reader.current, Reader.current, hrest]
    rfl
  · rw [Reader.extend, Reader.current, List.append_nil, ← heof]
    rfl

theorem Unseen.peek_eq (h : Unseen more eof (w.look 1)) : w'.peek = w.peek := by
  show w'.toReader.peek = _
  rw [hw]
  rcases h with hsaw | ⟨rfl, heof⟩
  · obtain ⟨t, u, ts, hrest⟩ : ∃ t u ts, w.rest = t :: u :: ts := by
      have hlength := of_decide_eq_false (Bool.or_eq_false_iff.mp hsaw).2
      match hcases : w.rest with
      | t :: u :: ts => exact ⟨t, u, ts, rfl⟩
      | [t] | [] =>
        rw [hcases] at hlength
        exact absurd (by simp) hlength
    rw [Reader.extend, Reader.peek, Reader.peek, hrest]
    rfl
  · rw [Reader.extend, Reader.peek, List.append_nil, ← heof]
    rfl

theorem Unseen.advance_eq (h : Unseen more eof w.advance) :
    w'.advance.toReader = w.advance.toReader.extend more eof ds := by
  rw [Walk.toReader_advance, hw, Walk.toReader_advance, Reader.extend, Reader.extend, Reader.advance,
    Reader.advance]
  rcases h with hsaw | ⟨rfl, -⟩
  · have hne : w.rest ≠ [] := by
      simpa using (Bool.or_eq_false_iff.mp hsaw).2
    rw [List.tail_append_of_ne_nil hne]
  · rw [List.append_nil, List.append_nil]

theorem Unseen.recover_eq (h : Unseen more eof w.recover) :
    w'.recover.toReader = w.recover.toReader.extend more eof ds := by
  rw [Walk.toReader_recover, hw, Walk.toReader_recover]
  show (⟨(Reader.dropStatement eof (w.rest ++ more)).tail, eof, ds ++ w.diagnostics⟩ : Reader) =
    ⟨(Reader.dropStatement w.eof w.rest).tail ++ more, eof, ds ++ w.diagnostics⟩
  rcases h with hsaw | ⟨rfl, heof⟩
  · obtain ⟨hdrop, hne⟩ := Reader.dropStatement_append (Bool.or_eq_false_iff.mp hsaw).2
    rw [hdrop, List.tail_append_of_ne_nil hne]
  · have heof : w.eof = eof := heof
    rw [heof, List.append_nil, List.append_nil]

end

/-! ### Scripts and steps -/

variable {more eof ds}

theorem unseen_of_play {α : Type} {enters : Playing} {x : Script α} {w : Walk}
    (henters : ∀ ⦃β : Type⦄ (s : Step β) (w : Walk), Unseen more eof (enters s w).2 →
      Unseen more eof w)
    (h : Unseen more eof (x.play enters w).2) : Unseen more eof w := by
  induction x generalizing w with
  | give | abort | fail => exact h
  | withCurrent _ ih => exact (ih _ h).of_look
  | withPeek _ ih => exact (ih _ h).of_look
  | thenAdvance _ ih => exact (ih h).of_advance
  | thenRecover _ ih => exact (ih h).of_recover
  | enter s _ ih => exact henters s w (ih _ h)

theorem Extends.play {α : Type} {enters : Playing} {x : Script α} {w w' : Walk}
    (hunseen : ∀ ⦃β : Type⦄ (s : Step β) (w : Walk), Unseen more eof (enters s w).2 →
      Unseen more eof w)
    (henters : ∀ ⦃β : Type⦄ (s : Step β) (w w' : Walk),
      w'.toReader = w.toReader.extend more eof ds → Unseen more eof (enters s w).2 →
      Extends more eof ds (enters s w) (enters s w'))
    (hw : w'.toReader = w.toReader.extend more eof ds) (h : Unseen more eof (x.play enters w).2) :
    Extends more eof ds (x.play enters w) (x.play enters w') := by
  induction x generalizing w w' with
  | give | abort => exact ⟨rfl, hw⟩
  | fail d =>
    refine ⟨rfl, ?_⟩
    show w'.toReader.report d = (w.toReader.report d).extend more eof ds
    rw [hw, Reader.extend, Reader.extend, Reader.report, Reader.report, Array.append_push]
  | withCurrent next ih =>
    have hlook : Unseen more eof (w.look 0) := unseen_of_play hunseen h
    show Extends more eof ds _ ((next w'.current).play enters (w'.look 0))
    rw [hlook.current_eq hw]
    exact ih _ hw h
  | withPeek next ih =>
    have hlook : Unseen more eof (w.look 1) := unseen_of_play hunseen h
    show Extends more eof ds _ ((next w'.peek).play enters (w'.look 1))
    rw [hlook.peek_eq hw]
    exact ih _ hw h
  | thenAdvance next ih =>
    have hadvance : Unseen more eof w.advance := unseen_of_play hunseen h
    exact ih (hadvance.advance_eq hw) h
  | thenRecover next ih =>
    have hrecover : Unseen more eof w.recover := unseen_of_play hunseen h
    exact ih (hrecover.recover_eq hw) h
  | enter s next ih =>
    -- what was not seen in the end was not seen by the step
    have hstep : Unseen more eof (enters s w).2 := unseen_of_play hunseen h
    obtain ⟨hresult, hreader⟩ := henters s w w' hw hstep
    show Extends more eof ds _ ((next (enters s w').1).play enters (enters s w').2)
    rw [hresult]
    exact ih _ hreader h

namespace Step

variable {α : Type} {w w' : Walk} {depth : Nat}

theorem unseen_of_play ⦃α : Type⦄ (s : Step α) (w : Walk)
    (h : Unseen more eof (play depth s w).2) : Unseen more eof w := by
  induction depth generalizing α s w with
  | zero => exact h
  | succ depth ih => exact Parse.unseen_of_play ih h

theorem extends_play ⦃α : Type⦄ (s : Step α) (w w' : Walk)
    (hw : w'.toReader = w.toReader.extend more eof ds) (h : Unseen more eof (play depth s w).2) :
    Extends more eof ds (play depth s w) (play depth s w') := by
  induction depth generalizing α s w w' with
  | zero => exact ⟨rfl, hw⟩
  | succ depth ih => exact Extends.play unseen_of_play ih hw h

/-- **A step does not depend on what it does not look at**: if it stays away from the end of the text, it
does the same with more tokens behind it. -/
theorem extends_outcome (s : Step α) (hs : s.Ready w) (hs' : s.Ready w')
    (hw : w'.toReader = w.toReader.extend more eof ds) (h : Unseen more eof (s.outcome w).2) :
    Extends more eof ds (s.outcome w) (s.outcome w') := by
  obtain ⟨d, hd, hd'⟩ : ∃ d, s.depth w.rest.length < d ∧ s.depth w'.rest.length < d :=
    ⟨_, Nat.lt_succ_of_le (Nat.le_max_left _ _), Nat.lt_succ_of_le (Nat.le_max_right _ _)⟩
  rw [← s.play_eq_outcome hs hd] at h ⊢
  rw [← s.play_eq_outcome hs' hd']
  exact s.extends_play w w' hw h

/-- Diagnostics from before do not matter, and neither does what was asked for. -/
theorem extends_outcome_nil (s : Step α) (hs : s.Ready w) (hs' : s.Ready w')
    (hw : w'.toReader = w.toReader.extend [] w.eof ds) :
    Extends [] w.eof ds (s.outcome w) (s.outcome w') :=
  s.extends_outcome hs hs' hw (.inr ⟨rfl, (s.leaves_outcome hs).eof⟩)

end Step

end Parse

end Monkey
