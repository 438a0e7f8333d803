import Monkey.Proofs.Contract
import Monkey.Proofs.Grammar

/-!
# The parser gets on

Every step of the parser goes forward, and the steps in it have less to go than the step itself
(`Parse.meets_progress`). The measure is `Parse.Step.depth`: eight for every token that is left, and for
the same number of tokens it orders the steps by who enters whom. A step that gives a result stands on a
token of the text then, which is why the tokens are used up by whoever goes on behind it.

No more than two tokens are asked for per token that is consumed. The end of the text can be asked for
again and again, but only a loop over statements does so, once it has come to the end with a statement
that it skips; inside a block the opening brace makes up for that.
-/

namespace Monkey

namespace Reader

theorem dropStatement_suffix (eof : Token) (ts : List Token) : dropStatement eof ts <:+ ts := by
  induction ts with
  | nil => exact List.suffix_rfl
  | cons t ts ih =>
    rw [dropStatement]
    split
    · exact List.suffix_rfl
    · exact ih.trans (List.suffix_cons t ts)

end Reader

namespace Parse

/-! ### What a step does to its walk -/

/-- The walk `w` comes after `w₀`, and no more than two tokens were asked for every one consumed. -/
structure Walk.Leads (w₀ w : Walk) : Prop where
  kind : w.eof.kind = .eof
  eof : w.eof = w₀.eof
  suffix : w.rest <:+ w₀.rest
  asked : w.asked + 2 * w.rest.length ≤ w₀.asked + 2 * w₀.rest.length

namespace Step

variable {α : Type}

/-- The step goes on up to the end of a text or a block whatever it finds. -/
def isLoop : Step α → Bool
  | statements _ _ => true
  | _ => false

/-- What a step counts on when it is entered: some start on a token that was looked at. -/
def Ready (s : Step α) (w : Walk) : Prop :=
  w.eof.kind = .eof ∧ match s with
  | expression level => Level.lowest ≤ level
  | continuation level _ => 0 < w.rest.length ∧ Level.lowest ≤ level
  | extension _ | pairs _ | block => 0 < w.rest.length
  | expressionList close | expressions close _ => 0 < w.rest.length ∧ close ≠ .eof
  | operand | statements _ _ | statement | parameters _ => True

/-- How deep steps can nest in a step that is entered with `n` tokens left. -/
def depth (n : Nat) : Step α → Nat
  | statements _ _ => 8 * n + 4
  | statement => 8 * n + 3
  | expression _ => 8 * n + 2
  | operand | continuation _ _ => 8 * n + 1
  | parameters _ => 8 * n
  | block => 8 * n - 3
  | extension _ => 8 * n - 4
  | expressionList _ | expressions _ _ | pairs _ => 8 * n - 5

/-- What a step leaves. It ends on a token of the text, unless it fails or has gone through all of it:
then it may ask for one token more. -/
structure Leaves (s : Step α) (w : Walk) (a : Option α) (w' : Walk) : Prop where
  kind : w'.eof.kind = .eof
  eof : w'.eof = w.eof
  suffix : w'.rest <:+ w.rest
  asked : w'.asked + 2 * w'.rest.length ≤ w.asked + 2 * w.rest.length +
    if s.isLoop then min 1 w.rest.length else 0
  ends : if s.isLoop then a.isSome else a.isSome → 0 < w'.rest.length

/-- Steps nest no deeper than to a depth of `n`, and leave what they should. -/
def progress (n : Nat) : Contract where
  pre s w := s.Ready w ∧ s.depth w.rest.length < n
  post := Leaves

end Step

theorem Walk.length_rest_advance (w : Walk) : w.advance.rest.length = w.rest.length - 1 :=
  List.length_tail

namespace Walk.Leads

variable {α β : Type} {w₀ w w' : Walk} {n : Nat}

theorem refl (hkind : w.eof.kind = .eof) : w.Leads w :=
  ⟨hkind, rfl, List.suffix_rfl, Nat.le_refl _⟩

theorem look (h : w₀.Leads w) (n : Nat) : w₀.Leads (w.look n) := ⟨h.kind, h.eof, h.suffix, h.asked⟩

theorem report (h : w₀.Leads w) (d : Diagnostic) : w₀.Leads (w.report d) :=
  ⟨h.kind, h.eof, h.suffix, h.asked⟩

theorem length_le (h : w₀.Leads w) : w.rest.length ≤ w₀.rest.length := h.suffix.length_le

theorem advance (h : w₀.Leads w) (hpos : 0 < w.rest.length) : w₀.Leads w.advance := by
  refine ⟨h.kind, h.eof, (List.tail_suffix _).trans h.suffix, ?_⟩
  have hasked := h.asked
  rw [length_rest_advance, asked_advance]
  omega

/-- A token that is looked at is there, if it is not the end of the text. -/
theorem current_pos (h : w₀.Leads w) (hk : w.current.kind ≠ .eof) : 0 < w.rest.length := by
  rw [List.length_pos_iff]
  intro hnil
  apply hk
  rw [Reader.current, hnil]
  exact h.kind

theorem peek_pos (h : w₀.Leads w) (hk : w.peek.kind ≠ .eof) : 1 < w.rest.length := by
  have htail : w.rest.tail ≠ [] := by
    intro hnil
    apply hk
    rw [Reader.peek, hnil]
    exact h.kind
  have hlength := List.length_pos_iff.mpr htail
  rw [List.length_tail] at hlength
  omega

theorem trans (h : w₀.Leads w) (h' : w.Leads w') : w₀.Leads w' :=
  ⟨h'.kind, h'.eof.trans h.eof, h'.suffix.trans h.suffix, Nat.le_trans h'.asked h.asked⟩

/-! Rules for the acts of a script, on a walk that comes after `w₀`. -/

/-- In the end the walk comes after `w₀`, and it has not come to the end of the text unless the script
has failed. -/
def Ends (w₀ : Walk) (a : Option α) (w : Walk) : Prop :=
  w₀.Leads w ∧ (a.isSome → 0 < w.rest.length)

open Step Script

theorem meets_pure (h : w₀.Leads w) (hpos : 0 < w.rest.length) (a : α) :
    (pure a : Script α).Meets (progress n) w (Ends w₀) :=
  ⟨h, fun _ => hpos⟩

theorem meets_fail (h : w₀.Leads w) (d : Diagnostic) :
    (fail d : Script α).Meets (progress n) w (Ends w₀) :=
  ⟨h.report d, nofun⟩

theorem meets_advance {f : Unit → Script α} (h : w₀.Leads w) (hpos : 0 < w.rest.length)
    (hf : ∀ w', w₀.Leads w' → w'.rest.length + 1 = w.rest.length →
      (f ()).Meets (progress n) w' (Ends w₀)) :
    (Script.advance >>= f).Meets (progress n) w (Ends w₀) := by
  rw [meets_advance_bind]
  refine hf w.advance (h.advance hpos) ?_
  rw [length_rest_advance]
  exact Nat.sub_add_cancel hpos

theorem meets_expect {kind : Kind} {f : Unit → Script α} (h : w₀.Leads w) (hkind : kind ≠ .eof)
    (hf : ∀ w', w₀.Leads w' → w'.rest.length + 1 = w.rest.length → 0 < w'.rest.length →
      (f ()).Meets (progress n) w' (Ends w₀)) :
    (expect kind >>= f).Meets (progress n) w (Ends w₀) := by
  rw [meets_expect_bind]
  split
  · next hk =>
    have hlength := h.peek_pos (hk ▸ hkind)
    refine (meets_advance (h.look 1) (Nat.zero_lt_of_lt hlength) fun w' hw' hlt => ?_ :
      (Script.advance >>= f).Meets _ _ _)
    have hlt : w'.rest.length + 1 = w.rest.length := hlt
    exact hf w' hw' hlt (by omega)
  · exact ⟨(h.look 1).report _, nofun⟩

theorem meets_bind {x : Script β} {f : β → Script α} (h : w₀.Leads w)
    (hx : x.Meets (progress n) w (Ends w))
    (hf : ∀ b w', w₀.Leads w' → w'.rest.length ≤ w.rest.length → 0 < w'.rest.length →
      (f b).Meets (progress n) w' (Ends w₀)) :
    (x >>= f).Meets (progress n) w (Ends w₀) := by
  rw [Script.meets_bind]
  refine hx.mono ?_
  rintro (_ | b) w' ⟨hw', hpos⟩
  · exact ⟨h.trans hw', nofun⟩
  · exact hf b w' (h.trans hw') hw'.length_le (hpos rfl)

theorem meets_call {s : Step α} (h : w₀.Leads w) (hs : s.isLoop = false) (hready : s.Ready w)
    (hdepth : s.depth w.rest.length < n) : (call s).Meets (progress n) w (Ends w₀) := by
  rw [Script.meets_call]
  refine ⟨⟨hready, hdepth⟩, fun a w' hleaves => ⟨h.trans ?_, ?_⟩⟩
  · have hasked := hleaves.asked
    rw [hs] at hasked
    exact ⟨hleaves.kind, hleaves.eof, hleaves.suffix, hasked⟩
  · have hends := hleaves.ends
    rwa [hs] at hends

theorem meets_call_bind {s : Step β} {f : β → Script α} (h : w₀.Leads w) (hs : s.isLoop = false)
    (hready : s.Ready w) (hdepth : s.depth w.rest.length < n)
    (hf : ∀ b w', w₀.Leads w' → w'.rest.length ≤ w.rest.length → 0 < w'.rest.length →
      (f b).Meets (progress n) w' (Ends w₀)) :
    (call s >>= f).Meets (progress n) w (Ends w₀) :=
  h.meets_bind ((refl h.kind).meets_call hs hready hdepth) hf

end Walk.Leads

/-! ### One step after the other -/

section

open Step Script Walk Walk.Leads

variable {w : Walk}

theorem meets_progress_expression {level : Nat} (hw : (expression level).Ready w) :
    (expression level).body.Meets (progress (8 * w.rest.length + 2)) w (Ends w) := by
  obtain ⟨hkind, hlevel⟩ := hw
  refine (refl hkind).meets_call_bind rfl ⟨hkind, trivial⟩ (Nat.lt_succ_self _)
    fun left w₁ h₁ hle hpos => ?_
  exact h₁.meets_call rfl ⟨h₁.kind, hpos, hlevel⟩ (by simp only [depth]; omega)

theorem meets_progress_continuation {level : Nat} {left : Expr}
    (hw : (continuation level left).Ready w) :
    (continuation level left).body.Meets (progress (8 * w.rest.length + 1)) w (Ends w) := by
  obtain ⟨hkind, hpos, hlevel⟩ := hw
  have h := (refl hkind).look 1
  rw [Step.body, meets_peek_bind]
  split
  · next hlt =>
    -- the end of the text has the lowest level
    have hpeek : w.peek.kind ≠ .eof := by
      intro heof
      rw [heof] at hlt
      exact absurd hlt (Nat.not_lt.mpr hlevel)
    have hlength := (refl hkind).peek_pos hpeek
    refine h.meets_advance hpos fun w₁ h₁ hlt₁ => ?_
    have hlt₁ : w₁.rest.length + 1 = w.rest.length := hlt₁
    refine h₁.meets_call_bind rfl ⟨h₁.kind, (by omega : 0 < _)⟩ (by simp only [depth]; omega)
      fun whole w₂ h₂ hle hpos₂ => ?_
    exact h₂.meets_call rfl ⟨h₂.kind, hpos₂, hlevel⟩ (by simp only [depth]; omega)
  · exact h.meets_pure hpos left

theorem meets_progress_extension {left : Expr} (hw : (extension left).Ready w) :
    (extension left).body.Meets (progress (8 * w.rest.length - 4)) w (Ends w) := by
  obtain ⟨hkind, hpos⟩ := hw
  have h := (refl hkind).look 0
  rw [Step.body, meets_current_bind]
  split
  · next op hop =>
    refine h.meets_advance hpos fun w₁ h₁ hlt => ?_
    have hlt : w₁.rest.length + 1 = w.rest.length := hlt
    have hlevel : Level.lowest ≤ w.current.kind.level := by
      rw [BinaryOp.ofKind?_eq_some_iff.mp hop]
      exact Nat.le_of_lt op.lowest_lt_level
    refine h₁.meets_call_bind rfl ⟨h₁.kind, hlevel⟩ (by simp only [depth]; omega)
      fun right w₂ h₂ _ hpos₂ => ?_
    exact h₂.meets_pure hpos₂ _
  · split
    · refine h.meets_call_bind rfl ⟨hkind, hpos, by decide⟩ ?_ fun es w₁ h₁ _ hpos₁ => ?_
      · show 8 * w.rest.length - 5 < _
        have hpos : 0 < w.rest.length := hpos
        omega
      · exact h₁.meets_pure hpos₁ _
    · refine h.meets_advance hpos fun w₁ h₁ hlt => ?_
      have hlt : w₁.rest.length + 1 = w.rest.length := hlt
      refine h₁.meets_call_bind rfl ⟨h₁.kind, Nat.le_refl _⟩ (by simp only [depth]; omega)
        fun key w₂ h₂ _ _ => ?_
      exact h₂.meets_expect (by decide) fun w₃ h₃ _ hpos₃ => h₃.meets_pure hpos₃ _

theorem meets_progress_parameterList {n : Nat} (hkind : w.eof.kind = .eof)
    (hn : 8 * w.rest.length ≤ n) : parameterList.Meets (progress n) w (Ends w) := by
  have h := (refl hkind).look 1
  rw [parameterList, meets_peek_bind]
  split
  · next hclose =>
    have hlength := (refl hkind).peek_pos (by rw [hclose]; decide)
    refine h.meets_advance (Nat.zero_lt_of_lt hlength) fun w₁ h₁ hlt => ?_
    have hlt : w₁.rest.length + 1 = w.rest.length := hlt
    exact h₁.meets_pure (by omega) _
  · refine h.meets_expect (by decide) fun w₁ h₁ hlt hpos => ?_
    have hlt : w₁.rest.length + 1 = w.rest.length := hlt
    rw [meets_current_bind]
    exact (h₁.look 0).meets_call rfl ⟨h₁.kind, trivial⟩ (by simp only [depth, Walk.look]; omega)

theorem meets_progress_operand (hw : operand.Ready w) :
    operand.body.Meets (progress (8 * w.rest.length + 1)) w (Ends w) := by
  obtain ⟨hkind, -⟩ := hw
  have h := (refl hkind).look 0
  rw [Step.body, meets_current_bind]
  -- whatever starts an expression is not the end of the text
  by_cases heof : w.current.kind = .eof
  · rw [heof]
    exact h.meets_fail _
  have hpos := (refl hkind).current_pos heof
  cases w.current.kind with
  | ident | string | true | false => exact h.meets_pure hpos _
  | int =>
    cases integer? w.current.literal with
    | some n => exact h.meets_pure hpos _
    | none => exact h.meets_fail _
  | bang | minus =>
    refine h.meets_advance hpos fun w₁ h₁ hlt => ?_
    have hlt : w₁.rest.length + 1 = w.rest.length := hlt
    refine h₁.meets_call_bind rfl ⟨h₁.kind, (by decide : Level.lowest ≤ Level.unary)⟩
      (by simp only [depth]; omega) fun e w₂ h₂ _ hpos₂ => ?_
    exact h₂.meets_pure hpos₂ _
  | lparen =>
    refine h.meets_advance hpos fun w₁ h₁ hlt => ?_
    have hlt : w₁.rest.length + 1 = w.rest.length := hlt
    refine h₁.meets_call_bind rfl ⟨h₁.kind, Nat.le_refl _⟩ (by simp only [depth]; omega)
      fun e w₂ h₂ _ _ => ?_
    exact h₂.meets_expect (by decide) fun w₃ h₃ _ hpos₃ => h₃.meets_pure hpos₃ _
  | «if» =>
    refine h.meets_expect (by decide) fun w₁ h₁ hlt₁ hpos₁ => ?_
    have hlt₁ : w₁.rest.length + 1 = w.rest.length := hlt₁
    refine h₁.meets_advance hpos₁ fun w₂ h₂ hlt₂ => ?_
    refine h₂.meets_call_bind rfl ⟨h₂.kind, Nat.le_refl _⟩ (by simp only [depth]; omega)
      fun condition w₃ h₃ hle₃ _ => ?_
    refine h₃.meets_expect (by decide) fun w₄ h₄ hlt₄ _ => ?_
    refine h₄.meets_expect (by decide) fun w₅ h₅ hlt₅ hpos₅ => ?_
    refine h₅.meets_call_bind rfl ⟨h₅.kind, hpos₅⟩ (by simp only [depth]; omega)
      fun consequence w₆ h₆ hle₆ hpos₆ => ?_
    rw [meets_peek_bind]
    split
    · next helse =>
      refine (h₆.look 1).meets_advance hpos₆ fun w₇ h₇ hlt₇ => ?_
      have hlt₇ : w₇.rest.length + 1 = w₆.rest.length := hlt₇
      refine h₇.meets_expect (by decide) fun w₈ h₈ hlt₈ hpos₈ => ?_
      refine h₈.meets_call_bind rfl ⟨h₈.kind, hpos₈⟩ (by simp only [depth]; omega)
        fun alternative w₉ h₉ _ hpos₉ => ?_
      exact h₉.meets_pure hpos₉ _
    · exact (h₆.look 1).meets_pure hpos₆ _
  | function =>
    refine h.meets_expect (by decide) fun w₁ h₁ hlt₁ hpos₁ => ?_
    have hlt₁ : w₁.rest.length + 1 = w.rest.length := hlt₁
    refine h₁.meets_bind (meets_progress_parameterList h₁.kind (by omega))
      fun ps w₂ h₂ hle₂ _ => ?_
    refine h₂.meets_expect (by decide) fun w₃ h₃ hlt₃ hpos₃ => ?_
    refine h₃.meets_call_bind rfl ⟨h₃.kind, hpos₃⟩ (by simp only [depth]; omega)
      fun body w₄ h₄ _ hpos₄ => ?_
    exact h₄.meets_pure hpos₄ _
  | lbracket =>
    refine h.meets_call_bind rfl ⟨hkind, hpos, by decide⟩ ?_ fun es w₁ h₁ _ hpos₁ => ?_
    · show 8 * w.rest.length - 5 < _
      omega
    · exact h₁.meets_pure hpos₁ _
  | lbrace =>
    refine h.meets_call_bind rfl ⟨hkind, hpos⟩ ?_ fun ps w₁ h₁ _ hpos₁ => ?_
    · show 8 * w.rest.length - 5 < _
      omega
    · exact h₁.meets_pure hpos₁ _
  | _ => exact h.meets_fail _

theorem meets_progress_expressionList {close : Kind} (hw : (expressionList close).Ready w) :
    (expressionList close).body.Meets (progress (8 * w.rest.length - 5)) w (Ends w) := by
  obtain ⟨hkind, hpos, hclose⟩ := hw
  refine (refl hkind).meets_advance hpos fun w₁ h₁ hlt => ?_
  rw [meets_current_bind]
  split
  · next hk => exact (h₁.look 0).meets_pure (h₁.current_pos (hk ▸ hclose)) _
  · refine (h₁.look 0).meets_call_bind rfl ⟨h₁.kind, Nat.le_refl _⟩
      (by simp only [depth, Walk.look]; omega) fun e w₂ h₂ hle hpos₂ => ?_
    have hle : w₂.rest.length ≤ w₁.rest.length := hle
    exact h₂.meets_call rfl ⟨h₂.kind, hpos₂, hclose⟩ (by simp only [depth]; omega)

theorem meets_progress_expressions {close : Kind} {done : Array Expr}
    (hw : (expressions close done).Ready w) :
    (expressions close done).body.Meets (progress (8 * w.rest.length - 5)) w (Ends w) := by
  obtain ⟨hkind, hpos, hclose⟩ := hw
  have h := (refl hkind).look 1
  rw [Step.body, meets_peek_bind]
  split
  · next hcomma =>
    have hlength := (refl hkind).peek_pos (by rw [hcomma]; decide)
    refine h.meets_advance hpos fun w₁ h₁ hlt₁ => ?_
    have hlt₁ : w₁.rest.length + 1 = w.rest.length := hlt₁
    refine h₁.meets_advance (by omega) fun w₂ h₂ hlt₂ => ?_
    refine h₂.meets_call_bind rfl ⟨h₂.kind, Nat.le_refl _⟩ (by simp only [depth]; omega)
      fun e w₃ h₃ hle hpos₃ => ?_
    exact h₃.meets_call rfl ⟨h₃.kind, hpos₃, hclose⟩ (by simp only [depth]; omega)
  · exact h.meets_expect hclose fun w₁ h₁ _ hpos₁ => h₁.meets_pure hpos₁ _

theorem meets_progress_pairs {done : Array (Expr × Expr)} (hw : (pairs done).Ready w) :
    (pairs done).body.Meets (progress (8 * w.rest.length - 5)) w (Ends w) := by
  obtain ⟨hkind, hpos⟩ := hw
  have h := (refl hkind).look 1
  rw [Step.body, meets_peek_bind]
  split
  · next hclose =>
    have hlength := (refl hkind).peek_pos (by rw [hclose]; decide)
    refine h.meets_advance hpos fun w₁ h₁ hlt => ?_
    have hlt : w₁.rest.length + 1 = w.rest.length := hlt
    exact h₁.meets_pure (by omega) _
  refine h.meets_advance hpos fun w₁ h₁ hlt₁ => ?_
  have hlt₁ : w₁.rest.length + 1 = w.rest.length := hlt₁
  refine h₁.meets_call_bind rfl ⟨h₁.kind, Nat.le_refl _⟩ (by simp only [depth]; omega)
    fun key w₂ h₂ hle₂ _ => ?_
  refine h₂.meets_expect (by decide) fun w₃ h₃ hlt₃ hpos₃ => ?_
  refine h₃.meets_advance hpos₃ fun w₄ h₄ hlt₄ => ?_
  refine h₄.meets_call_bind rfl ⟨h₄.kind, Nat.le_refl _⟩ (by simp only [depth]; omega)
    fun value w₅ h₅ hle₅ hpos₅ => ?_
  rw [meets_peek_bind]
  split
  · exact (h₅.look 1).meets_call rfl ⟨h₅.kind, hpos₅⟩ (by simp only [depth, Walk.look]; omega)
  · refine (h₅.look 1).meets_expect (by decide) fun w₆ h₆ hlt₆ hpos₆ => ?_
    have hlt₆ : w₆.rest.length + 1 = w₅.rest.length := hlt₆
    exact h₆.meets_call rfl ⟨h₆.kind, hpos₆⟩ (by simp only [depth]; omega)

/-- The value of a statement and the semicolon behind it, if there is one. -/
theorem meets_progress_value {w₀ : Walk} {n : Nat} {f : Expr → Stmt} (h : w₀.Leads w)
    (hn : 8 * w.rest.length + 2 < n) :
    (do let value ← call (.expression Level.lowest); skip .semicolon; return f value :
      Script Stmt).Meets (progress n) w (Ends w₀) := by
  refine h.meets_call_bind rfl ⟨h.kind, Nat.le_refl _⟩ hn fun value w₁ h₁ _ hpos₁ => ?_
  rw [meets_skip_bind]
  split
  · next hk =>
    have hlength := h₁.peek_pos (by rw [hk]; decide)
    exact ((h₁.look 1).advance hpos₁).meets_pure
      (by rw [length_rest_advance]; exact Nat.sub_pos_of_lt hlength) _
  · exact (h₁.look 1).meets_pure hpos₁ _

theorem meets_progress_statement (hw : statement.Ready w) :
    statement.body.Meets (progress (8 * w.rest.length + 3)) w (Ends w) := by
  obtain ⟨hkind, -⟩ := hw
  have h := (refl hkind).look 0
  rw [Step.body, meets_current_bind]
  cases hk : w.current.kind with
  | «let» =>
    refine h.meets_expect (by decide) fun w₁ h₁ hlt₁ _ => ?_
    have hlt₁ : w₁.rest.length + 1 = w.rest.length := hlt₁
    rw [meets_current_bind]
    refine (h₁.look 0).meets_expect (by decide) fun w₂ h₂ hlt₂ hpos₂ => ?_
    have hlt₂ : w₂.rest.length + 1 = w₁.rest.length := hlt₂
    exact h₂.meets_advance hpos₂ fun w₃ h₃ hlt₃ => meets_progress_value h₃ (by omega)
  | «return» =>
    have hpos := (refl hkind).current_pos (by rw [hk]; decide)
    refine h.meets_advance hpos fun w₁ h₁ hlt₁ => meets_progress_value h₁ ?_
    have hlt₁ : w₁.rest.length + 1 = w.rest.length := hlt₁
    omega
  | _ => exact meets_progress_value h (Nat.lt_succ_self _)

theorem meets_progress_block (hw : block.Ready w) :
    block.body.Meets (progress (8 * w.rest.length - 3)) w (Ends w) := by
  obtain ⟨hkind, hpos⟩ := hw
  have hlength := w.length_rest_advance
  have hpos : 0 < w.rest.length := hpos
  rw [Step.body, meets_current_bind, meets_advance_bind, Script.meets_call_bind]
  refine ⟨⟨⟨hkind, trivial⟩, ?_⟩, fun w₁ hleaves => absurd hleaves.ends (by simp [isLoop]),
    fun ss w₁ hleaves => ?_⟩
  · show 8 * w.advance.rest.length + 4 < _
    omega
  -- the token that the statements ask for in vain is made up for by the brace
  have h₁ : w.Leads w₁ := by
    have hasked := hleaves.asked
    refine ⟨hleaves.kind, hleaves.eof, hleaves.suffix.trans (List.tail_suffix _), ?_⟩
    change _ ≤ w.asked + 1 + 2 * w.advance.rest.length + min 1 w.advance.rest.length at hasked
    omega
  rw [meets_current_bind]
  split
  · exact (h₁.look 0).meets_fail _
  · next hne => exact (h₁.look 0).meets_pure (h₁.current_pos hne) _

theorem meets_progress_statements {inBlock : Bool} {done : Array Stmt}
    (hw : (statements inBlock done).Ready w) :
    (statements inBlock done).body.Meets (progress (8 * w.rest.length + 4)) w
      ((statements inBlock done).Leaves w) := by
  obtain ⟨hkind, -⟩ := hw
  rw [Step.body, meets_current_bind]
  split
  · exact ⟨hkind, rfl, List.suffix_rfl, Nat.le_add_right _ _, rfl⟩
  next hgoes =>
  have hpos := (refl hkind).current_pos fun heof => hgoes (.inl heof)
  rw [meets_attempt_bind]
  refine ⟨⟨⟨hkind, trivial⟩, Nat.lt_succ_self _⟩, fun a w₁ hleaves => ?_⟩
  have hasked := hleaves.asked
  have hle := hleaves.suffix.length_le
  change _ ≤ w.asked + 2 * w.rest.length + 0 at hasked
  change w₁.rest.length ≤ w.rest.length at hle
  -- from the token on that comes next, the loop has to pay for itself
  have hagain : ∀ (w₂ : Walk) (done' : Array Stmt), w₂.eof = w₁.eof → w₂.rest <:+ w₁.rest →
      w₂.rest.length < w.rest.length →
      w₂.asked + 2 * w₂.rest.length + min 1 w₂.rest.length ≤ w₁.asked + 2 * w₁.rest.length + 1 →
      (call (.statements inBlock done')).Meets (progress (8 * w.rest.length + 4)) w₂
        ((statements inBlock done).Leaves w) := by
    intro w₂ done' heof hsuffix hlt hcost
    rw [Script.meets_call]
    refine ⟨⟨⟨heof ▸ hleaves.kind, trivial⟩, by simp only [depth]; omega⟩, fun ss w₃ h₃ => ?_⟩
    have hasked₃ := h₃.asked
    refine ⟨h₃.kind, h₃.eof.trans (heof.trans hleaves.eof),
      h₃.suffix.trans (hsuffix.trans hleaves.suffix), ?_, h₃.ends⟩
    simp only [isLoop, if_true] at hasked₃ ⊢
    omega
  cases a with
  | some s =>
    have hpos₁ : 0 < w₁.rest.length := hleaves.ends rfl
    have hlength := w₁.length_rest_advance
    refine hagain w₁.advance _ rfl (List.tail_suffix _) (by omega) ?_
    show w₁.asked + 1 + _ + _ ≤ _
    omega
  | none =>
    have hdrop := Reader.dropStatement_suffix w₁.eof w₁.rest
    have hdropped := hdrop.length_le
    have hlength : w₁.recover.rest.length =
        (Reader.dropStatement w₁.eof w₁.rest).length - 1 := List.length_tail
    refine hagain w₁.recover _ rfl ((List.tail_suffix _).trans hdrop) (by omega) ?_
    show w₁.asked + (w₁.rest.length - (Reader.dropStatement w₁.eof w₁.rest).length) + 1 + _ + _ ≤ _
    omega

theorem meets_progress_parameters {done : Array Ident} (hw : (parameters done).Ready w) :
    (parameters done).body.Meets (progress (8 * w.rest.length)) w (Ends w) := by
  obtain ⟨hkind, -⟩ := hw
  have h := (refl hkind).look 1
  rw [Step.body, meets_peek_bind]
  split
  · next hcomma =>
    have hlength := (refl hkind).peek_pos (by rw [hcomma]; decide)
    refine h.meets_advance (Nat.zero_lt_of_lt hlength) fun w₁ h₁ hlt₁ => ?_
    have hlt₁ : w₁.rest.length + 1 = w.rest.length := hlt₁
    refine h₁.meets_expect (by decide) fun w₂ h₂ hlt₂ hpos₂ => ?_
    rw [meets_current_bind]
    exact (h₂.look 0).meets_call rfl ⟨h₂.kind, trivial⟩ (by simp only [depth, Walk.look]; omega)
  · exact h.meets_expect (by decide) fun w₁ h₁ _ hpos₁ => h₁.meets_pure hpos₁ _

/-- What a step that is not a loop does leads on from where it was entered. -/
theorem meets_leaves {α : Type} {s : Step α} {x : Script α} {n : Nat} (hs : s.isLoop = false)
    (h : x.Meets (progress n) w (Ends w)) : x.Meets (progress n) w (s.Leaves w) := by
  refine h.mono fun a w' hends => ⟨hends.1.kind, hends.1.eof, hends.1.suffix, ?_, ?_⟩
  · rw [hs]
    exact hends.1.asked
  · rw [hs]
    exact hends.2

/-- **The steps get on.** A step enters others with less to go only, and leaves what it should. -/
theorem meets_progress {α : Type} {s : Step α} (hw : s.Ready w) :
    s.body.Meets (progress (s.depth w.rest.length)) w (s.Leaves w) := by
  cases s with
  | expression level => exact meets_leaves rfl (meets_progress_expression hw)
  | continuation level left => exact meets_leaves rfl (meets_progress_continuation hw)
  | extension left => exact meets_leaves rfl (meets_progress_extension hw)
  | operand => exact meets_leaves rfl (meets_progress_operand hw)
  | expressionList close => exact meets_leaves rfl (meets_progress_expressionList hw)
  | expressions close done => exact meets_leaves rfl (meets_progress_expressions hw)
  | pairs done => exact meets_leaves rfl (meets_progress_pairs hw)
  | block => exact meets_leaves rfl (meets_progress_block hw)
  | statements inBlock done => exact meets_progress_statements hw
  | statement => exact meets_leaves rfl (meets_progress_statement hw)
  | parameters done => exact meets_leaves rfl (meets_progress_parameters hw)

end

end Parse

end Monkey
