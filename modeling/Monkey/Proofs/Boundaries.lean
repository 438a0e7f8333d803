import Monkey.Proofs.Blame
import Monkey.Proofs.Lookahead

/-!
# Statements end where their semicolon is

Recovery from errors composes where statements end (`Program.ofTokens_append`): what stands behind a
semicolon is read as if it stood alone, however broken the statements before it are, as long as these
have no braces or nothing is wrong with them.

A step that starts within tokens that end with a semicolon never looks behind them: no expression goes
on behind a semicolon, whoever reads a token behind the current one does not stand on a semicolon, and
skipping a statement stops there at the latest. This is a contract for the steps (`Parse.bounded`), and
it can be broken by a block only, which goes on to its closing brace. In front of a brace that never
comes it leaves a diagnostic, so with tokens that have braces the contract says something only as long
as there is none (`Parse.Calm`).
-/

namespace Monkey

namespace Parse

/-! ### Tokens that end with a semicolon -/

/-- The tokens end with a semicolon, the end of the text is not among them, and no brace is if they are
`plain`. -/
structure Window (plain : Prop) (ts : List Token) : Prop where
  ends : ts.getLast?.map (·.kind) = some .semicolon
  tokens : ∀ t ∈ ts, t.kind ≠ .eof ∧ (plain → t.kind ≠ .lbrace ∧ t.kind ≠ .rbrace)

namespace Window

variable {plain : Prop} {ts us : List Token}

theorem ne_nil (h : Window plain ts) : ts ≠ [] := by
  rintro rfl
  cases h.ends

theorem suffix (h : Window plain ts) (hus : us <:+ ts) (hne : us ≠ []) : Window plain us := by
  refine ⟨?_, fun t ht => h.tokens t (hus.subset ht)⟩
  obtain ⟨vs, rfl⟩ := hus
  rw [← h.ends, List.getLast?_append_of_ne_nil vs hne]

/-- Behind a token that is no semicolon there is another one. -/
theorem tail {t : Token} (h : Window plain (t :: ts)) (hk : t.kind ≠ .semicolon) :
    Window plain ts := by
  refine h.suffix (List.suffix_cons t ts) ?_
  rintro rfl
  exact hk (Option.some.inj h.ends)

/-- A reader of the tokens stands on one of them. -/
theorem current_mem {r : Reader} (h : Window plain r.rest) : r.current ∈ r.rest := by
  obtain ⟨t, ts, hrest⟩ := List.exists_cons_of_ne_nil h.ne_nil
  rw [Reader.current, hrest]
  exact List.mem_cons_self

/-- Skipping stops on a token of these, and not because of the end behind them. -/
theorem dropStatement (h : Window plain ts) (eof : Token) :
    Window plain (Reader.dropStatement eof ts) := by
  refine h.suffix (Reader.dropStatement_suffix eof ts) ?_
  induction ts with
  | nil => exact absurd rfl h.ne_nil
  | cons t ts ih =>
    rw [Reader.dropStatement]
    split
    · exact List.cons_ne_nil _ _
    · next hgoes => exact ih (h.tail fun hk => hgoes (.inl hk))

end Window

/-! ### The contract -/

section

variable (plain : Prop)

/-- Nothing has gone wrong that matters: with tokens that are plain nothing does. -/
def Calm (w : Walk) : Prop := plain ∨ w.diagnostics = #[]

/-- The walk stands within the tokens, and the end has not been looked at. -/
structure Within (w : Walk) : Prop where
  eof : w.eof.kind = .eof
  unseen : w.sawEnd = false
  window : Window plain w.rest

/-- The walk stands within the tokens, and not on a semicolon. -/
structure Inside (w : Walk) : Prop extends Within plain w where
  current : w.current.kind ≠ .semicolon

/-- Where a step is entered. -/
def Enterable {α : Type} (w : Walk) : Step α → Prop
  | .expression _ | .operand | .statement => Within plain w
  | .continuation _ _ | .extension _ | .pairs _ | .parameters _ => Inside plain w
  | .expressionList close | .expressions close _ => Inside plain w ∧ close ≠ .semicolon
  | .block => Inside plain w ∧ w.current.kind = .lbrace
  | .statements true _ => ¬plain ∧ w.eof.kind = .eof ∧ w.sawEnd = false ∧
      (w.rest = [] ∨ Window plain w.rest)
  | .statements false _ => False

/-- Where a step is left. -/
def Leavable {α : Type} (a : Option α) (w : Walk) : Step α → Prop
  | .statement => Within plain w
  | .statements _ _ => a.isSome ∧
      (w.eof.kind = .eof ∧ w.rest = [] ∨ Within plain w ∧ w.current.kind = .rbrace)
  | _ => Within plain w ∧ (a.isSome → w.current.kind ≠ .semicolon)

/-- As long as nothing goes wrong steps stay within the tokens. -/
def bounded : Contract where
  pre s w := Calm plain w → Enterable plain w s
  post s w a w' := (¬Calm plain w → ¬Calm plain w') ∧ (Calm plain w' → Leavable plain a w' s)

end

section

open Script

variable {plain : Prop} {α β : Type} {w w' : Walk} {P : Token → Prop}

/-- What has gone wrong stays so. -/
theorem Calm.of_report {d : Diagnostic} (h : Calm plain (w.report d)) : plain := by
  refine h.elim id fun hnone => absurd hnone ?_
  show w.diagnostics.push d ≠ #[]
  exact Array.push_ne_empty

/-- Once something has gone wrong that matters nothing more is asked of a script. -/
theorem meets_of_not_calm {x : Script α} (h : ¬Calm plain w) :
    x.Meets (bounded plain) w fun _ w' => ¬Calm plain w' := by
  induction x generalizing w with
  | give | abort => exact h
  | fail d => exact fun hcalm => h (.inl hcalm.of_report)
  | withCurrent _ ih => exact ih _ h
  | withPeek _ ih => exact ih _ h
  | thenAdvance _ ih => exact ih h
  | thenRecover _ ih => exact ih h
  | enter s _ ih => exact ⟨fun hcalm => absurd hcalm h, fun a w' hpost => ih a (hpost.1 h)⟩

theorem meets_lost {x : Script α} {Q : Option α → Walk → Prop} (h : ¬Calm plain w) :
    x.Meets (bounded plain) w fun a w' => Calm plain w' → Q a w' :=
  (meets_of_not_calm h).mono fun _ _ hlost hcalm => absurd hcalm hlost

/-- The property of a token that it is no semicolon. -/
abbrev NoSemicolon (t : Token) : Prop := t.kind ≠ .semicolon

/-- In the end the walk is within the tokens, and `P` holds of the token that it stands on, unless the
script has failed. -/
def Arrives (plain : Prop) (P : Token → Prop) (a : Option α) (w : Walk) : Prop :=
  Calm plain w → Within plain w ∧ (a.isSome → P w.current)

namespace Within

theorem look_current (h : Within plain w) : Within plain (w.look 0) := by
  refine ⟨h.eof, ?_, h.window⟩
  have hpos := List.length_pos_iff.mpr h.window.ne_nil
  exact Bool.or_eq_false_iff.mpr ⟨h.unseen, decide_eq_false (Nat.not_le.mpr hpos)⟩

theorem advance (h : Within plain w) (hk : w.current.kind ≠ .semicolon) :
    Within plain w.advance := by
  obtain ⟨heof, hsaw, hwindow⟩ := h
  obtain ⟨t, ts, hrest⟩ := List.exists_cons_of_ne_nil hwindow.ne_nil
  refine ⟨heof, Bool.or_eq_false_iff.mpr ⟨hsaw, by rw [hrest]; rfl⟩, ?_⟩
  rw [Reader.current, hrest] at hk
  rw [hrest] at hwindow
  show Window plain w.rest.tail
  rw [hrest]
  exact hwindow.tail hk

/-- The token behind that of a walk within the tokens starts more of them, or there are no more. -/
theorem advance_or (h : Within plain w) :
    w.advance.sawEnd = false ∧ (w.advance.rest = [] ∨ Window plain w.advance.rest) := by
  refine ⟨Bool.or_eq_false_iff.mpr ⟨h.unseen, by simpa using h.window.ne_nil⟩, ?_⟩
  exact or_iff_not_imp_left.mpr (h.window.suffix (List.tail_suffix _))

/-- So does the one behind a statement that is skipped. -/
theorem recover_or (h : Within plain w) :
    w.recover.sawEnd = false ∧ (w.recover.rest = [] ∨ Window plain w.recover.rest) := by
  have hdrop := h.window.dropStatement w.eof
  refine ⟨Bool.or_eq_false_iff.mpr ⟨h.unseen, ?_⟩, ?_⟩
  · obtain ⟨t, ht, hk⟩ := Option.map_eq_some_iff.mp hdrop.ends
    have hany : (Reader.dropStatement w.eof w.rest).any (·.kind = .semicolon) = true :=
      List.any_eq_true.mpr ⟨t, List.mem_of_getLast? ht, decide_eq_true hk⟩
    show (_ && !(Reader.dropStatement w.eof w.rest).any _) = false
    rw [hany]
    exact Bool.and_false _
  · exact or_iff_not_imp_left.mpr (hdrop.suffix (List.tail_suffix _))

theorem report (h : Within plain w) (d : Diagnostic) : Within plain (w.report d) :=
  ⟨h.eof, h.unseen, h.window⟩

theorem meets_fail (h : Within plain w) (d : Diagnostic) :
    (fail d : Script α).Meets (bounded plain) w (Arrives plain P) :=
  fun _ => ⟨h.report d, nofun⟩

end Within

namespace Inside

theorem look_peek (h : Inside plain w) : Inside plain (w.look 1) := by
  refine ⟨⟨h.eof, ?_, h.window⟩, h.current⟩
  have hpos := List.length_pos_iff.mpr (h.advance h.current).window.ne_nil
  rw [Walk.length_rest_advance] at hpos
  refine Bool.or_eq_false_iff.mpr ⟨h.unseen, decide_eq_false ?_⟩
  omega

theorem meets_pure (h : Inside plain w) (a : α) :
    (pure a : Script α).Meets (bounded plain) w (Arrives plain NoSemicolon) :=
  fun _ => ⟨h.toWithin, fun _ => h.current⟩

theorem meets_advance {f : Unit → Script α} (h : Inside plain w)
    (hf : ∀ w', Within plain w' → w'.current = w.peek →
      (f ()).Meets (bounded plain) w' (Arrives plain P)) :
    (Script.advance >>= f).Meets (bounded plain) w (Arrives plain P) :=
  hf w.advance (h.advance h.current) rfl

/-- The next token has been looked at, and it is no semicolon. -/
theorem meets_advance_to {kind : Kind} {f : Unit → Script α} (h : Inside plain w)
    (hk : w.peek.kind = kind) (hkind : kind ≠ .semicolon)
    (hf : ∀ w', Inside plain w' → w'.current.kind = kind →
      (f ()).Meets (bounded plain) w' (Arrives plain P)) :
    (Script.advance >>= f).Meets (bounded plain) (w.look 1) (Arrives plain P) :=
  h.look_peek.meets_advance fun w' hw' hcurrent =>
    hf w' ⟨hw', by rw [hcurrent]; exact hk ▸ hkind⟩ (hcurrent ▸ hk)

theorem meets_expect {kind : Kind} {f : Unit → Script α} (h : Inside plain w)
    (hkind : kind ≠ .semicolon)
    (hf : ∀ w', Inside plain w' → w'.current.kind = kind →
      (f ()).Meets (bounded plain) w' (Arrives plain P)) :
    (expect kind >>= f).Meets (bounded plain) w (Arrives plain P) := by
  rw [meets_expect_bind]
  split
  · next hk => exact h.meets_advance_to (f := f) hk hkind hf
  · exact h.look_peek.meets_fail _

end Inside

/-- A step of those that end inside the tokens. -/
def Step.staysInside : Step α → Bool
  | .statements _ _ | .statement => false
  | _ => true

theorem leavable_iff {s : Step α} (hs : s.staysInside) {a : Option α} :
    Leavable plain a w s ↔ Within plain w ∧ (a.isSome → w.current.kind ≠ .semicolon) := by
  cases s with
  | statements | statement => cases hs
  | _ => exact Iff.rfl

theorem meets_call_inside {s : Step α} (hs : s.staysInside) (h : Enterable plain w s) :
    (call s).Meets (bounded plain) w (Arrives plain NoSemicolon) := by
  rw [meets_call]
  exact ⟨fun _ => h, fun a w' hpost hcalm => (leavable_iff hs).mp (hpost.2 hcalm)⟩

theorem meets_bind_inside {x : Script β} {f : β → Script α}
    (hx : x.Meets (bounded plain) w (Arrives plain NoSemicolon))
    (hf : ∀ b w', Inside plain w' → (f b).Meets (bounded plain) w' (Arrives plain P)) :
    (x >>= f).Meets (bounded plain) w (Arrives plain P) := by
  rw [meets_bind]
  refine hx.mono ?_
  rintro (_ | b) w' h
  · exact fun hcalm => ⟨(h hcalm).1, nofun⟩
  by_cases hcalm : Calm plain w'
  · obtain ⟨hwithin, hk⟩ := h hcalm
    exact hf b w' ⟨hwithin, hk rfl⟩
  · exact meets_lost hcalm

theorem meets_call_bind_inside {s : Step β} {f : β → Script α} (hs : s.staysInside)
    (h : Enterable plain w s)
    (hf : ∀ b w', Inside plain w' → (f b).Meets (bounded plain) w' (Arrives plain P)) :
    (call s >>= f).Meets (bounded plain) w (Arrives plain P) :=
  meets_bind_inside (meets_call_inside hs h) hf

/-! ### One step after the other -/

theorem arrives_continuation {level : Nat} {left : Expr} (h : Inside plain w)
    (hlevel : Level.lowest ≤ level) :
    (Step.continuation level left).body.Meets (bounded plain) w (Arrives plain NoSemicolon) := by
  have hpeek := h.look_peek
  rw [Step.body, meets_peek_bind]
  split
  · next hlt =>
    refine hpeek.meets_advance fun w₁ h₁ hk => ?_
    -- a semicolon has the lowest level
    have hk₁ : w₁.current.kind ≠ .semicolon := by
      rw [hk]
      intro (hsemicolon : w.peek.kind = .semicolon)
      rw [hsemicolon] at hlt
      exact absurd hlt (Nat.not_lt.mpr hlevel)
    refine meets_call_bind_inside rfl (⟨h₁, hk₁⟩ : Inside plain w₁) fun whole w₂ h₂ => ?_
    exact meets_call_inside rfl h₂
  · exact hpeek.meets_pure left

theorem arrives_extension {left : Expr} (h : Inside plain w) :
    (Step.extension left).body.Meets (bounded plain) w (Arrives plain NoSemicolon) := by
  have hlook : Inside plain (w.look 0) := ⟨h.look_current, h.current⟩
  rw [Step.body, meets_current_bind]
  split
  · refine hlook.meets_advance fun w₁ h₁ _ => ?_
    exact meets_call_bind_inside rfl h₁ fun right w₂ h₂ => h₂.meets_pure _
  · split
    · exact meets_call_bind_inside rfl ⟨hlook, by decide⟩ fun es w₁ h₁ => h₁.meets_pure _
    · refine hlook.meets_advance fun w₁ h₁ _ => ?_
      refine meets_call_bind_inside rfl h₁ fun key w₂ h₂ => ?_
      exact h₂.meets_expect (by decide) fun w₃ h₃ _ => h₃.meets_pure _

theorem arrives_parameterList (h : Inside plain w) :
    parameterList.Meets (bounded plain) w (Arrives plain NoSemicolon) := by
  have hpeek := h.look_peek
  rw [parameterList, meets_peek_bind]
  split
  · next hclose => exact h.meets_advance_to hclose (by decide) fun w₁ h₁ _ => h₁.meets_pure _
  · refine hpeek.meets_expect (by decide) fun w₁ h₁ _ => ?_
    rw [meets_current_bind]
    exact meets_call_inside rfl (⟨h₁.look_current, h₁.current⟩ : Inside plain (w₁.look 0))

theorem arrives_operand (h : Within plain w) :
    Step.operand.body.Meets (bounded plain) w (Arrives plain NoSemicolon) := by
  have hlook := h.look_current
  rw [Step.body, meets_current_bind]
  -- no operand starts with a semicolon, so nothing is read behind it
  by_cases hsemicolon : w.current.kind = .semicolon
  · rw [hsemicolon]
    exact hlook.meets_fail _
  have h₀ : Inside plain (w.look 0) := ⟨hlook, hsemicolon⟩
  cases hk : w.current.kind with
  | ident | string | true | false => exact h₀.meets_pure _
  | int =>
    cases integer? w.current.literal with
    | some n => exact h₀.meets_pure _
    | none => exact hlook.meets_fail _
  | bang | minus =>
    refine h₀.meets_advance fun w₁ h₁ _ => ?_
    exact meets_call_bind_inside rfl h₁ fun e w₂ h₂ => h₂.meets_pure _
  | lparen =>
    refine h₀.meets_advance fun w₁ h₁ _ => meets_call_bind_inside rfl h₁ fun e w₂ h₂ => ?_
    exact h₂.meets_expect (by decide) fun w₃ h₃ _ => h₃.meets_pure _
  | «if» =>
    refine h₀.meets_expect (by decide) fun w₁ h₁ _ => h₁.meets_advance fun w₂ h₂ _ => ?_
    refine meets_call_bind_inside rfl h₂ fun condition w₃ h₃ => ?_
    refine h₃.meets_expect (by decide) fun w₄ h₄ _ => ?_
    refine h₄.meets_expect (by decide) fun w₅ h₅ hopen => ?_
    refine meets_call_bind_inside rfl ⟨h₅, hopen⟩ fun consequence w₆ h₆ => ?_
    rw [meets_peek_bind]
    split
    · next helse =>
      refine h₆.meets_advance_to helse (by decide) fun w₇ h₇ _ => ?_
      refine h₇.meets_expect (by decide) fun w₈ h₈ hopen₈ => ?_
      exact meets_call_bind_inside rfl ⟨h₈, hopen₈⟩ fun alternative w₉ h₉ => h₉.meets_pure _
    · exact h₆.look_peek.meets_pure _
  | function =>
    refine h₀.meets_expect (by decide) fun w₁ h₁ _ => ?_
    refine meets_bind_inside (arrives_parameterList h₁) fun ps w₂ h₂ => ?_
    refine h₂.meets_expect (by decide) fun w₃ h₃ hopen => ?_
    exact meets_call_bind_inside rfl ⟨h₃, hopen⟩ fun body w₄ h₄ => h₄.meets_pure _
  | lbracket => exact meets_call_bind_inside rfl ⟨h₀, by decide⟩ fun es w₁ h₁ => h₁.meets_pure _
  | lbrace => exact meets_call_bind_inside rfl h₀ fun ps w₁ h₁ => h₁.meets_pure _
  | _ => exact hlook.meets_fail _

theorem arrives_expressionList {close : Kind} (h : Inside plain w) (hclose : close ≠ .semicolon) :
    (Step.expressionList close).body.Meets (bounded plain) w (Arrives plain NoSemicolon) := by
  refine h.meets_advance fun w₁ h₁ _ => ?_
  rw [meets_current_bind]
  split
  · next hk => exact Inside.meets_pure ⟨h₁.look_current, hk ▸ hclose⟩ _
  · refine meets_call_bind_inside rfl h₁.look_current fun e w₂ h₂ => ?_
    exact meets_call_inside rfl ⟨h₂, hclose⟩

theorem arrives_expressions {close : Kind} {done : Array Expr} (h : Inside plain w)
    (hclose : close ≠ .semicolon) :
    (Step.expressions close done).body.Meets (bounded plain) w (Arrives plain NoSemicolon) := by
  have hpeek := h.look_peek
  rw [Step.body, meets_peek_bind]
  split
  · next hcomma =>
    refine h.meets_advance_to hcomma (by decide) fun w₁ h₁ _ => ?_
    refine h₁.meets_advance fun w₂ h₂ _ => meets_call_bind_inside rfl h₂ fun e w₃ h₃ => ?_
    exact meets_call_inside rfl ⟨h₃, hclose⟩
  · exact hpeek.meets_expect hclose fun w₁ h₁ _ => h₁.meets_pure _

theorem arrives_pairs {done : Array (Expr × Expr)} (h : Inside plain w) :
    (Step.pairs done).body.Meets (bounded plain) w (Arrives plain NoSemicolon) := by
  have hpeek := h.look_peek
  rw [Step.body, meets_peek_bind]
  split
  · next hclose => exact h.meets_advance_to hclose (by decide) fun w₁ h₁ _ => h₁.meets_pure _
  refine hpeek.meets_advance fun w₁ h₁ _ => meets_call_bind_inside rfl h₁ fun key w₂ h₂ => ?_
  refine h₂.meets_expect (by decide) fun w₃ h₃ _ => h₃.meets_advance fun w₄ h₄ _ => ?_
  refine meets_call_bind_inside rfl h₄ fun value w₅ h₅ => ?_
  rw [meets_peek_bind]
  split
  · exact meets_call_inside rfl h₅.look_peek
  · exact h₅.look_peek.meets_expect (by decide) fun w₆ h₆ _ => meets_call_inside rfl h₆

theorem arrives_parameters {done : Array Ident} (h : Inside plain w) :
    (Step.parameters done).body.Meets (bounded plain) w (Arrives plain NoSemicolon) := by
  have hpeek := h.look_peek
  rw [Step.body, meets_peek_bind]
  split
  · next hcomma =>
    refine h.meets_advance_to hcomma (by decide) fun w₁ h₁ _ => ?_
    refine h₁.meets_expect (by decide) fun w₂ h₂ _ => ?_
    rw [meets_current_bind]
    exact meets_call_inside rfl (⟨h₂.look_current, h₂.current⟩ : Inside plain (w₂.look 0))
  · exact hpeek.meets_expect (by decide) fun w₁ h₁ _ => h₁.meets_pure _

theorem arrives_value {f : Expr → Stmt} (h : Within plain w) :
    (do let value ← call (.expression Level.lowest); skip .semicolon; return f value :
      Script Stmt).Meets (bounded plain) w (Arrives plain fun _ => True) := by
  refine meets_call_bind_inside rfl h fun value w₁ h₁ => ?_
  rw [meets_skip_bind]
  split
  · exact fun _ => ⟨h₁.look_peek.advance h₁.current, fun _ => trivial⟩
  · exact fun _ => ⟨h₁.look_peek.toWithin, fun _ => trivial⟩

theorem arrives_statement (h : Within plain w) :
    Step.statement.body.Meets (bounded plain) w (Arrives plain fun _ => True) := by
  have hlook := h.look_current
  rw [Step.body, meets_current_bind]
  cases hk : w.current.kind with
  | «let» =>
    have h₀ : Inside plain (w.look 0) := ⟨hlook, by rw [Walk.toReader_look, hk]; decide⟩
    refine h₀.meets_expect (by decide) fun w₁ h₁ _ => ?_
    rw [meets_current_bind]
    have h₁ : Inside plain (w₁.look 0) := ⟨h₁.look_current, h₁.current⟩
    refine h₁.meets_expect (by decide) fun w₂ h₂ _ => ?_
    exact h₂.meets_advance fun w₃ h₃ _ => arrives_value h₃
  | «return» =>
    have h₀ : Inside plain (w.look 0) := ⟨hlook, by rw [Walk.toReader_look, hk]; decide⟩
    exact h₀.meets_advance fun w₁ h₁ _ => arrives_value h₁
  | _ => exact arrives_value hlook

theorem arrives_block (h : Inside plain w) (hopen : w.current.kind = .lbrace) :
    Step.block.body.Meets (bounded plain) w (Arrives plain NoSemicolon) := by
  have hwithin : Within plain (w.look 0).advance := h.look_current.advance h.current
  have hplain : ¬plain := fun hplain =>
    ((h.window.tokens _ h.window.current_mem).2 hplain).1 hopen
  rw [Step.body, meets_current_bind, meets_advance_bind, meets_bind, meets_call]
  refine ⟨fun _ => ⟨hplain, hwithin.eof, hwithin.unseen, .inr hwithin.window⟩, fun a w₁ hpost => ?_⟩
  by_cases hcalm : Calm plain w₁
  · obtain ⟨hsome, hend⟩ := hpost.2 hcalm
    obtain ⟨ss, rfl⟩ := Option.isSome_iff_exists.mp hsome
    dsimp only
    rw [meets_current_bind]
    rcases hend with ⟨heof, hrest⟩ | ⟨hwithin, hclose⟩
    · -- a block that is not closed leaves a diagnostic, and that matters
      rw [Reader.current, hrest, if_pos (by exact heof)]
      exact fun hcalm => absurd hcalm.of_report hplain
    · have hinside : Inside plain (w₁.look 0) :=
        ⟨hwithin.look_current, by rw [Walk.toReader_look, hclose]; decide⟩
      rw [if_neg (by rw [hclose]; decide)]
      exact hinside.meets_pure _
  · cases a with
    | none => exact fun hcalm' => absurd hcalm' hcalm
    | some ss => exact meets_lost hcalm

theorem leavable_statements {done : Array Stmt} (hplain : ¬plain) (heof : w.eof.kind = .eof)
    (hsaw : w.sawEnd = false) (hrest : w.rest = [] ∨ Window plain w.rest) :
    (Step.statements true done).body.Meets (bounded plain) w fun a w' =>
      Calm plain w' → Leavable plain a w' (.statements true done) := by
  -- what is left after a statement is a shorter list of statements
  have hagain : ∀ (w₁ : Walk) (done' : Array Stmt), w₁.eof.kind = .eof → w₁.sawEnd = false →
      (w₁.rest = [] ∨ Window plain w₁.rest) →
      (call (.statements true done')).Meets (bounded plain) w₁ fun a w' =>
        Calm plain w' → Leavable plain a w' (.statements true done) := by
    intro w₁ done' heof₁ hsaw₁ hrest₁
    rw [meets_call]
    exact ⟨fun _ => ⟨hplain, heof₁, hsaw₁, hrest₁⟩, fun a w' hpost => hpost.2⟩
  rw [Step.body, meets_current_bind]
  rcases hrest with hnil | hwindow
  · rw [if_pos (.inl (by rw [Reader.current, hnil]; exact heof))]
    exact fun _ => ⟨rfl, .inl ⟨heof, hnil⟩⟩
  have hwithin : Within plain (w.look 0) := Within.look_current ⟨heof, hsaw, hwindow⟩
  split
  · next hstop =>
    refine fun _ => ⟨rfl, .inr ⟨hwithin, hstop.elim (fun hk => ?_) And.right⟩⟩
    exact absurd hk (hwindow.tokens _ hwindow.current_mem).1
  rw [meets_attempt_bind]
  refine ⟨fun _ => hwithin, fun a w₁ hpost => ?_⟩
  by_cases hcalm : Calm plain w₁
  · have hwithin₁ : Within plain w₁ := hpost.2 hcalm
    cases a with
    | some s => exact hagain w₁.advance _ hwithin₁.eof hwithin₁.advance_or.1 hwithin₁.advance_or.2
    | none => exact hagain w₁.recover _ hwithin₁.eof hwithin₁.recover_or.1 hwithin₁.recover_or.2
  · exact meets_lost hcalm

/-- What stays inside the tokens keeps to the contract. -/
theorem meets_leavable {s : Step α} {x : Script α} (hs : s.staysInside) (hcalm : Calm plain w)
    (h : x.Meets (bounded plain) w (Arrives plain NoSemicolon)) :
    x.Meets (bounded plain) w ((bounded plain).post s w) := by
  exact h.mono fun a w' harrives => ⟨fun hlost => absurd hcalm hlost,
    fun hcalm' => (leavable_iff hs).mpr (harrives hcalm')⟩

/-- **As long as nothing goes wrong steps stay within the tokens.** -/
theorem met_bounded : (bounded plain).Met := by
  intro α s w hready hpre
  -- a diagnostic stays, so a walk that is not calm never becomes so again
  by_cases hcalm : Calm plain w
  · have h := hpre hcalm
    cases s with
    | expression level =>
      refine meets_leavable rfl hcalm (meets_call_bind_inside rfl h fun left w₁ h₁ => ?_)
      exact meets_call_inside rfl h₁
    | continuation level left =>
      exact meets_leavable rfl hcalm (arrives_continuation h hready.2.2)
    | extension left => exact meets_leavable rfl hcalm (arrives_extension h)
    | operand => exact meets_leavable rfl hcalm (arrives_operand h)
    | expressionList close => exact meets_leavable rfl hcalm (arrives_expressionList h.1 h.2)
    | expressions close done => exact meets_leavable rfl hcalm (arrives_expressions h.1 h.2)
    | pairs done => exact meets_leavable rfl hcalm (arrives_pairs h)
    | block => exact meets_leavable rfl hcalm (arrives_block h.1 h.2)
    | statements inBlock done =>
      cases inBlock with
      | false => exact h.elim
      | true =>
        refine (leavable_statements h.1 h.2.1 h.2.2.1 h.2.2.2).mono fun a w' hleavable => ?_
        exact ⟨fun hlost => absurd hcalm hlost, hleavable⟩
    | statement =>
      refine (arrives_statement h).mono fun a w' harrives => ?_
      exact ⟨fun hlost => absurd hcalm hlost, fun hcalm' => (harrives hcalm').1⟩
    | parameters done => exact meets_leavable rfl hcalm (arrives_parameters h)
  · exact (meets_of_not_calm hcalm).mono fun a w' hlost =>
      ⟨fun _ => hlost, fun hcalm' => absurd hcalm' hlost⟩

end

/-! ### One statement after the other -/

namespace Step

variable {inBlock : Bool} {done : Array Stmt} {w w' : Walk}

/-- The loop over statements, one of them at a time. -/
theorem outcome_statements (heof : w.eof.kind = .eof) :
    (statements inBlock done).outcome w =
      if w.current.kind = .eof ∨ inBlock ∧ w.current.kind = .rbrace then
        (some done.toList, w.look 0)
      else
        (statement.outcome (w.look 0)).1.elim
          ((statements inBlock done).outcome (statement.outcome (w.look 0)).2.recover)
          fun s => (statements inBlock (done.push s)).outcome
            (statement.outcome (w.look 0)).2.advance := by
  rw [outcome_eq _ ⟨heof, trivial⟩, Step.body]
  show (if _ then _ else _ : Script (List Stmt)).play (fun _ => outcome) (w.look 0) = _
  split
  · rfl
  · refine (Script.play_attempt_bind (fun _ => outcome) statement _ (w.look 0)).trans ?_
    cases (statement.outcome (w.look 0)).1 with
    | some s => exact Script.play_call _ _ _
    | none => exact Script.play_call _ _ _

/-- Fewer tokens are left behind a statement. -/
theorem length_next_lt (heof : w.eof.kind = .eof) (hgoes : w.current.kind ≠ .eof) :
    let w₁ := (statement.outcome (w.look 0)).2
    w₁.eof.kind = .eof ∧ w₁.advance.rest.length < w.rest.length ∧
      w₁.recover.rest.length < w.rest.length := by
  intro w₁
  have hleaves := statement.leaves_outcome (w := w.look 0) ⟨heof, trivial⟩
  have hle : w₁.rest.length ≤ w.rest.length := hleaves.suffix.length_le
  have hpos := (Walk.Leads.refl heof).current_pos hgoes
  have hdrop := (Reader.dropStatement_suffix w₁.eof w₁.rest).length_le
  have hrecover : w₁.recover.rest.length = (Reader.dropStatement w₁.eof w₁.rest).length - 1 :=
    List.length_tail
  refine ⟨hleaves.kind, ?_, ?_⟩
  · rw [Walk.length_rest_advance]
    omega
  · omega

/-- The statements that were read before come first. -/
theorem outcome_statements_done (done : Array Stmt) (heof : w.eof.kind = .eof) :
    (statements inBlock done).outcome w =
      (((statements inBlock #[]).outcome w).1.map (done.toList ++ ·),
        ((statements inBlock #[]).outcome w).2) := by
  induction hn : w.rest.length using Nat.strong_induction_on generalizing done w with
  | _ n ih =>
    subst hn
    rw [outcome_statements heof, outcome_statements heof]
    split
    · simp
    · next hgoes =>
      obtain ⟨heof₁, hadvance, hrecover⟩ := length_next_lt heof fun hk => hgoes (.inl hk)
      generalize statement.outcome (w.look 0) = p at heof₁ hadvance hrecover ⊢
      obtain ⟨a, w₁⟩ := p
      dsimp only at heof₁ hadvance hrecover ⊢
      cases a with
      | none => exact ih _ hrecover done heof₁ rfl
      | some s =>
        show (statements inBlock (done.push s)).outcome w₁.advance = _
        rw [ih (w := w₁.advance) _ hadvance (done.push s) heof₁ rfl]
        show _ = (((statements inBlock #[s]).outcome w₁.advance).1.map (done.toList ++ ·),
          ((statements inBlock #[s]).outcome w₁.advance).2)
        rw [ih (w := w₁.advance) _ hadvance #[s] heof₁ rfl]
        simp [Function.comp_def]

/-- No diagnostic is taken back while statements are read. -/
theorem size_le_statements (done : Array Stmt) (heof : w.eof.kind = .eof) :
    w.diagnostics.size ≤ ((statements inBlock done).outcome w).2.diagnostics.size := by
  have hrun : (Reading.statements inBlock done (8 * w.rest.length + 5)).run.run w.toReader = _ :=
    (statements inBlock done).run_eq_outcome ⟨heof, trivial⟩ (Nat.lt_succ_self _)
  have hkeeps := (Reading.keepsAt (8 * w.rest.length + 5)).statements inBlock done w.toReader
  unfold Reading.Ensures at hkeeps
  rw [hrun] at hkeeps
  cases h : ((statements inBlock done).outcome w).1 with
  | none =>
    rw [h] at hkeeps
    exact hkeeps
  | some ss =>
    rw [h] at hkeeps
    exact hkeeps

end Step

theorem Calm.before {plain : Prop} {w w' : Walk} (h : Calm plain w')
    (hle : w.diagnostics.size ≤ w'.diagnostics.size) : Calm plain w := by
  refine h.imp_right fun hnone => ?_
  rw [hnone] at hle
  exact Array.eq_empty_of_size_eq_zero (Nat.le_zero.mp hle)

/-- A statement that starts within the tokens ends there, and it is the same with more tokens behind
them. -/
theorem statement_within {plain : Prop} {more : List Token} {eof : Token} {ds : Array Diagnostic}
    {w w' : Walk} (h : Within plain w) (hw' : w'.toReader = w.toReader.extend more eof ds)
    (heof' : w'.eof.kind = .eof) (hcalm : Calm plain (Step.statement.outcome w).2) :
    Within plain (Step.statement.outcome w).2 ∧
      Extends more eof ds (Step.statement.outcome w) (Step.statement.outcome w') := by
  have hpost : (bounded plain).post .statement w (Step.statement.outcome w).1
      (Step.statement.outcome w).2 := met_bounded.holds ⟨h.eof, trivial⟩ fun _ => h
  have hwithin : Within plain (Step.statement.outcome w).2 := hpost.2 hcalm
  exact ⟨hwithin, Step.statement.extends_outcome ⟨h.eof, trivial⟩ ⟨heof', trivial⟩ hw'
    (.inl hwithin.unseen)⟩

/-- When all the tokens of a walk are read, the walk with more of them is at those behind. -/
theorem extends_of_rest_nil {more : List Token} {eof : Token} {ds : Array Diagnostic}
    {done : Array Stmt} {w w' w'' : Walk} (hnil : w.rest = []) (hmore : eof.kind = .eof)
    (hw' : w'.toReader = w.toReader.extend more eof ds)
    (hw'' : w''.toReader = ⟨more, eof, ds ++ w.diagnostics⟩) :
    Extends [] eof #[] ((Step.statements false done).outcome w'')
      ((Step.statements false done).outcome w') := by
  have heof' : w'.eof = eof := congrArg Reader.eof hw'
  have heof'' : w''.eof = eof := congrArg Reader.eof hw''
  have hsame : w'.toReader = w''.toReader.extend [] eof #[] := by
    rw [hw', hw'', Reader.extend, Reader.extend, hnil]
    simp
  rw [← heof''] at hsame ⊢
  exact Step.extends_outcome_nil _ ⟨heof'' ▸ hmore, trivial⟩ ⟨heof' ▸ hmore, trivial⟩ hsame

/-- **What stands behind a semicolon is read as if it stood alone.** Statements are read up to the end of
the tokens of a window, and from there on the walk is at the tokens behind it. -/
theorem outcome_window {plain : Prop} {more : List Token} {eof : Token} {ds : Array Diagnostic}
    {done : Array Stmt} {w w' w'' : Walk} (heof : w.eof.kind = .eof) (hsaw : w.sawEnd = false)
    (hrest : w.rest = [] ∨ Window plain w.rest)
    (hcalm : Calm plain ((Step.statements false done).outcome w).2)
    (hmore : eof.kind = .eof) (hw' : w'.toReader = w.toReader.extend more eof ds)
    (hw'' : w''.toReader =
      ⟨more, eof, ds ++ ((Step.statements false done).outcome w).2.diagnostics⟩) :
    ∃ ss, ((Step.statements false done).outcome w).1 = some ss ∧
      Extends [] eof #[] ((Step.statements false ss.toArray).outcome w'')
        ((Step.statements false done).outcome w') := by
  have heof' : w'.eof.kind = .eof := by
    show w'.toReader.eof.kind = _
    rw [hw']
    exact hmore
  induction hn : w.rest.length using Nat.strong_induction_on generalizing done w w' with
  | _ n ih =>
    subst hn
    rcases hrest with hnil | hwindow
    · -- both walks have come to the tokens behind the window
      have hstop : w.current.kind = .eof := by
        rw [Reader.current, hnil]
        exact heof
      rw [Step.outcome_statements heof, if_pos (.inl hstop)] at hw'' ⊢
      exact ⟨done.toList, rfl, extends_of_rest_nil hnil hmore hw' hw''⟩
    · -- both read the same statement, and stay within the window or come to its end
      have hwithin : Within plain (w.look 0) := Within.look_current ⟨heof, hsaw, hwindow⟩
      have hcurrent : w'.current = w.current := Unseen.current_eq hw' (.inl hwithin.unseen)
      have hk : w.current.kind ≠ .eof := (hwindow.tokens _ hwindow.current_mem).1
      have hgoes : ¬(w.current.kind = .eof ∨ (false = true) ∧ w.current.kind = .rbrace) :=
        fun h => h.elim hk fun h => Bool.noConfusion h.1
      obtain ⟨heof₁, hadvance, hrecover⟩ := Step.length_next_lt heof hk
      rw [Step.outcome_statements heof, if_neg hgoes] at hcalm hw'' ⊢
      rw [Step.outcome_statements heof', hcurrent, if_neg hgoes]
      have hstatement : Calm plain (Step.statement.outcome (w.look 0)).2 →
          Within plain (Step.statement.outcome (w.look 0)).2 ∧ Extends more eof ds
            (Step.statement.outcome (w.look 0)) (Step.statement.outcome (w'.look 0)) :=
        statement_within hwithin hw' heof'
      generalize Step.statement.outcome (w.look 0) = p
        at heof₁ hadvance hrecover hcalm hw'' hstatement ⊢
      generalize Step.statement.outcome (w'.look 0) = p' at hstatement ⊢
      obtain ⟨a, w₁⟩ := p
      obtain ⟨a', w₁'⟩ := p'
      dsimp only at heof₁ hadvance hrecover hstatement
      cases a with
      | some s =>
        obtain ⟨hwithin₁, rfl, hreader⟩ :=
          hstatement (hcalm.before (Step.size_le_statements (w := w₁.advance) _ heof₁))
        obtain ⟨hsaw₁, hrest₁⟩ := hwithin₁.advance_or
        have hnext := Unseen.advance_eq hreader (.inl hsaw₁)
        exact ih _ hadvance (w := w₁.advance) heof₁ hsaw₁ hrest₁ hcalm hnext hw''
          (congrArg (fun r : Reader => r.eof.kind) hnext ▸ hmore) rfl
      | none =>
        obtain ⟨hwithin₁, rfl, hreader⟩ :=
          hstatement (hcalm.before (Step.size_le_statements (w := w₁.recover) _ heof₁))
        obtain ⟨hsaw₁, hrest₁⟩ := hwithin₁.recover_or
        have hnext := Unseen.recover_eq hreader (.inl hsaw₁)
        exact ih _ hrecover (w := w₁.recover) heof₁ hsaw₁ hrest₁ hcalm hnext hw''
          (congrArg (fun r : Reader => r.eof.kind) hnext ▸ hmore) rfl

end Parse

namespace Program

open Parse

/-- **Recovery composes where statements end.** Let `before` be tokens that end with a semicolon, and
either have no braces or are read without a diagnostic. However broken they are, what comes behind is
read as if it stood alone: the statements are those of the two parts, and so are the diagnostics. -/
theorem ofTokens_append {before behind : List Token} {eof eof' : Token} (heof : eof.kind = .eof)
    (heof' : eof'.kind = .eof) (htokens : ∀ t ∈ before, t.kind ≠ .eof)
    (hends : before.getLast?.map (·.kind) = some .semicolon)
    (h : (∀ t ∈ before, t.kind ≠ .lbrace ∧ t.kind ≠ .rbrace) ∨ (ofTokens before eof).2 = []) :
    ofTokens (before ++ behind) eof' =
      (⟨(ofTokens before eof).1.statements ++ (ofTokens behind eof').1.statements⟩,
        (ofTokens before eof).2 ++ (ofTokens behind eof').2) := by
  obtain ⟨ss, hss, hbefore⟩ := ofTokens_eq_whole before heof
  obtain ⟨ss', hss', hbehind⟩ := ofTokens_eq_whole behind heof'
  obtain ⟨all, hall, hread⟩ := ofTokens_eq_whole (before ++ behind) heof'
  rw [hbefore] at h
  rw [hbefore, hbehind, hread]
  have hcalm : Calm (∀ t ∈ before, t.kind ≠ .lbrace ∧ t.kind ≠ .rbrace)
      (Walk.whole before eof).2 := h.imp_right Array.toList_eq_nil_iff.mp
  have hwindow : Window (∀ t ∈ before, t.kind ≠ .lbrace ∧ t.kind ≠ .rbrace) before :=
    ⟨hends, fun t ht => ⟨htokens t ht, fun hplain => hplain t ht⟩⟩
  -- the walk that has come to what stands behind, with the diagnostics so far
  let middle : Walk := ⟨⟨behind, eof', (Walk.whole before eof).2.diagnostics⟩, 0, false⟩
  have hwhole : (Walk.start (before ++ behind) eof').toReader =
      (Walk.start before eof).toReader.extend behind eof' #[] := by
    simp [Walk.start, Reader.extend]
  have hmiddle : middle.toReader =
      ⟨behind, eof', #[] ++ (Walk.whole before eof).2.diagnostics⟩ := by
    simp [middle]
  obtain ⟨ss₀, hss₀, hresult, hreader⟩ := outcome_window (w := .start before eof) heof rfl
    (.inr hwindow) hcalm heof' hwhole hmiddle
  have hsame : Extends [] eof' (Walk.whole before eof).2.diagnostics (Walk.whole behind eof')
      ((Step.statements false #[]).outcome middle) := by
    refine Step.extends_outcome_nil _ ⟨heof', trivial⟩ ⟨heof', trivial⟩ ?_
    simp [middle, Walk.start, Reader.extend]
  obtain rfl : ss₀ = ss := Option.some.inj (hss₀.symm.trans hss)
  rw [Step.outcome_statements_done _ (w := middle) heof'] at hresult hreader
  have hstatements : all = ss₀ ++ ss' := by
    rw [Walk.whole] at hall
    rw [hall, hsame.1, hss'] at hresult
    simpa using hresult
  have hdiagnostics : (Walk.whole (before ++ behind) eof').2.diagnostics =
      (Walk.whole before eof).2.diagnostics ++ (Walk.whole behind eof').2.diagnostics := by
    have hbehind := congrArg Reader.diagnostics hsame.2
    have hall := congrArg Reader.diagnostics hreader
    rw [Walk.whole]
    simpa [Reader.extend, hbehind] using hall
  rw [hstatements, hdiagnostics, Array.toList_append]

/-- A token with the text of its kind. -/
def plainToken (k : Kind) : Token := ⟨k, k.spelling, default⟩

/-- A broken statement, and one that starts with a brace that nothing has opened. -/
theorem ofTokens_append_broken :
    ofTokens ([plainToken .let, plainToken .plus, plainToken .semicolon] ++
        [plainToken .rbrace, plainToken .semicolon, plainToken .true]) (plainToken .eof) =
      (⟨[.expr (plainToken .true) (.boolean (plainToken .true) true)]⟩,
        [.unexpectedToken .ident .plus default, .noExpression .rbrace default]) := by
  have heof : (plainToken .eof).kind = .eof := rfl
  rw [ofTokens_append heof heof (by decide) rfl (.inl (by decide))]
  rfl

end Program

end Monkey
