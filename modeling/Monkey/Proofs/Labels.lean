import Monkey.Proofs.Nesting
import Monkey.Proofs.Parsed

/-!
# The tokens that trees keep

Every node of a tree keeps the token it was read from, and this is the token one would expect: that of
its operator, its bracket or its reserved word, and for a literal the one with its value
(`Expr.Labelled`). So a tree can be printed with the literals of its source, and apart from their
places the tokens of a tree say no more than its nodes and the literals of its integers.

That the parser keeps these tokens, even where the text is at fault, is a contract of its steps
(`Parse.labels`): what they are given is labelled, and so is what they give.
-/

namespace Monkey

/-! ### Labelled trees -/

/-- The name keeps the token of a name. -/
def Ident.Labelled (id : Ident) : Prop := IsName id.name ∧ id.token.kind = .ident

mutual

/-- Every node of the expression keeps the token of what it is. -/
def Expr.Labelled : Expr → Prop
  | .name id => id.Labelled
  | .integer t n => t.kind = .int ∧ integer? t.literal = some n
  | .boolean t b => t.word = (if b then Kind.true else Kind.false).word
  | .string t s => t.word = ⟨.string, s⟩
  | .unary t op e => t.word = op.kind.word ∧ e.Labelled
  | .binary t op l r => t.word = op.kind.word ∧ l.Labelled ∧ r.Labelled
  | .cond t c yes none => t.word = Kind.if.word ∧ c.Labelled ∧ yes.Labelled
  | .cond t c yes (some no) =>
    t.word = Kind.if.word ∧ c.Labelled ∧ yes.Labelled ∧ no.Labelled
  | .function t ps body =>
    t.word = Kind.function.word ∧ (∀ id ∈ ps, id.Labelled) ∧ body.Labelled
  | .call t f es => t.word = Kind.lparen.word ∧ f.Labelled ∧ Expr.LabelledAll es
  | .array t es => t.word = Kind.lbracket.word ∧ Expr.LabelledAll es
  | .hash t ps => t.word = Kind.lbrace.word ∧ Expr.LabelledPairs ps
  | .index t e i => t.word = Kind.lbracket.word ∧ e.Labelled ∧ i.Labelled
termination_by structural e => e

/-- All nodes of the expressions keep the tokens of what they are. -/
def Expr.LabelledAll : List Expr → Prop
  | [] => True
  | e :: es => e.Labelled ∧ Expr.LabelledAll es
termination_by structural es => es

/-- All nodes of the entries keep the tokens of what they are. -/
def Expr.LabelledPairs : List (Expr × Expr) → Prop
  | [] => True
  | (k, v) :: ps => k.Labelled ∧ v.Labelled ∧ Expr.LabelledPairs ps
termination_by structural ps => ps

/-- The block keeps its opening brace, and its nodes the tokens of what they are. -/
def Block.Labelled : Block → Prop
  | .mk t ss => t.word = Kind.lbrace.word ∧ Stmt.LabelledAll ss
termination_by structural b => b

/-- All nodes of the statement keep the tokens of what they are. -/
def Stmt.Labelled : Stmt → Prop
  | .bind t id e => t.word = Kind.let.word ∧ id.Labelled ∧ e.Labelled
  | .ret t e => t.word = Kind.return.word ∧ e.Labelled
  | .expr _ e => e.Labelled
  | .block b => b.Labelled
termination_by structural s => s

/-- All nodes of the statements keep the tokens of what they are. -/
def Stmt.LabelledAll : List Stmt → Prop
  | [] => True
  | s :: ss => s.Labelled ∧ Stmt.LabelledAll ss
termination_by structural ss => ss

end

/-- All nodes of the program keep the tokens of what they are. -/
def Program.Labelled (p : Program) : Prop := Stmt.LabelledAll p.statements

theorem Expr.labelledAll_iff {es : List Expr} : LabelledAll es ↔ ∀ e ∈ es, e.Labelled := by
  induction es with
  | nil => simp [LabelledAll]
  | cons e es ih => rw [LabelledAll, ih, List.forall_mem_cons]

theorem Expr.labelledPairs_iff {ps : List (Expr × Expr)} :
    LabelledPairs ps ↔ ∀ p ∈ ps, p.1.Labelled ∧ p.2.Labelled := by
  induction ps with
  | nil => simp [LabelledPairs]
  | cons p ps ih => rw [LabelledPairs, ih, List.forall_mem_cons, and_assoc]

theorem Stmt.labelledAll_iff {ss : List Stmt} : LabelledAll ss ↔ ∀ s ∈ ss, s.Labelled := by
  induction ss with
  | nil => simp [LabelledAll]
  | cons s ss ih => rw [LabelledAll, ih, List.forall_mem_cons]

/-! ### Current tokens -/

/-- The only kind that an expression goes on with, but for binary operators and calls. -/
theorem Kind.eq_lbracket {k : Kind} : BinaryOp.ofKind? k = none → k ≠ .lparen →
    Level.lowest < k.level → k = .lbracket := by
  cases k <;> decide

namespace Scanned

variable {r : Reader} {k : Kind}

theorem current_word (h : Scanned r.rest r.eof) (hk : r.current.kind = k) (hfixed : k.isFixed) :
    r.current.word = k.word := by
  obtain ⟨t, ts, hcons, hkind⟩ := h.exists_cons hk (by rintro rfl; cases hfixed)
  rw [hcons] at h
  rw [Reader.current, hcons, List.headD_cons]
  exact h.word hkind hfixed

theorem current_name (h : Scanned r.rest r.eof) (hk : r.current.kind = .ident) :
    (⟨r.current⟩ : Ident).Labelled := by
  obtain ⟨t, ts, hcons, hkind⟩ := h.exists_cons hk (by decide)
  rw [hcons] at h
  rw [Reader.current, hcons, List.headD_cons]
  exact ⟨(h.name hkind).1, hkind⟩

theorem suffix {ts us : List Token} {eof : Token} (h : Scanned ts eof) (hus : us <:+ ts) :
    Scanned us eof :=
  ⟨h.eof, fun t ht => h.tokens t (hus.subset ht)⟩

end Scanned

namespace Parse

/-! ### The contract -/

/-- What is labelled of what the step is given, and the tokens that it starts on: that of an operator
where an expression goes on, and the opening brace of a block. -/
def Step.Given {α : Type} (s : Step α) (w : Walk) : Prop :=
  match s with
  | continuation _ left => left.Labelled
  | extension left => left.Labelled ∧ Level.lowest < w.current.kind.level
  | expressions _ done => ∀ e ∈ done.toList, e.Labelled
  | pairs done => ∀ p ∈ done.toList, p.1.Labelled ∧ p.2.Labelled
  | block => w.current.kind = .lbrace
  | statements _ done => ∀ s ∈ done.toList, s.Labelled
  | parameters done => ∀ id ∈ done.toList, id.Labelled
  | expression _ | operand | expressionList _ | statement => True

/-- What the step gives is labelled. -/
def Step.Gives {α : Type} : Step α → α → Prop
  | expression _, e | continuation _ _, e | extension _, e | operand, e => e.Labelled
  | expressionList _, es | expressions _ _, es => ∀ e ∈ es, e.Labelled
  | pairs _, ps => ∀ p ∈ ps, p.1.Labelled ∧ p.2.Labelled
  | block, b => b.Labelled
  | statements _ _, ss => ∀ s ∈ ss, s.Labelled
  | statement, s => s.Labelled
  | parameters _, ids => ∀ id ∈ ids, id.Labelled

/-- The tokens to come are those of a text, and a result is as it should be. -/
def Labels {α : Type} (P : α → Prop) (a : Option α) (w : Walk) : Prop :=
  Scanned w.rest w.eof ∧ ∀ x ∈ a, P x

/-- Steps are given and give what is labelled. -/
def labels : Contract where
  pre s w := Scanned w.rest w.eof ∧ s.Given w
  post s _ := Labels s.Gives

/-! ### Rules for the acts of a script -/

section

open Script

variable {α β : Type} {w : Walk} {P : α → Prop} {Q : β → Prop}

theorem labels_pure {a : α} (hw : Scanned w.rest w.eof) (ha : P a) :
    (pure a : Script α).Meets labels w (Labels P) := by
  refine ⟨hw, fun x hx => ?_⟩
  rwa [← Option.some.inj hx]

theorem labels_fail (hw : Scanned w.rest w.eof) (d : Diagnostic) :
    (fail d : Script α).Meets labels w (Labels P) :=
  ⟨hw, nofun⟩

theorem labels_bind {x : Script β} {f : β → Script α} (hx : x.Meets labels w (Labels Q))
    (hf : ∀ b w', Scanned w'.rest w'.eof → Q b → (f b).Meets labels w' (Labels P)) :
    (x >>= f).Meets labels w (Labels P) := by
  rw [meets_bind]
  refine hx.mono ?_
  rintro (_ | b) w' ⟨hw', hb⟩
  · exact ⟨hw', nofun⟩
  · exact hf b w' hw' (hb b rfl)

theorem labels_call {s : Step α} (hw : Scanned w.rest w.eof) (hs : s.Given w) :
    (call s).Meets labels w (Labels s.Gives) :=
  meets_call.mpr ⟨⟨hw, hs⟩, fun _ _ h => h⟩

theorem labels_advance {f : Unit → Script α} (hw : Scanned w.rest w.eof)
    (hf : ∀ w', Scanned w'.rest w'.eof → w'.current = w.peek → (f ()).Meets labels w' (Labels P)) :
    (advance >>= f).Meets labels w (Labels P) :=
  meets_advance_bind.mpr (hf w.advance (hw.suffix (List.tail_suffix _)) rfl)

theorem labels_expect {kind : Kind} {f : Unit → Script α} (hw : Scanned w.rest w.eof)
    (hf : ∀ w', Scanned w'.rest w'.eof → w'.current.kind = kind →
      (f ()).Meets labels w' (Labels P)) :
    (expect kind >>= f).Meets labels w (Labels P) := by
  rw [meets_expect_bind]
  split
  · next hk => exact hf _ (hw.suffix (List.tail_suffix _)) hk
  · exact ⟨hw, nofun⟩

theorem labels_skip {kind : Kind} {a : α} (hw : Scanned w.rest w.eof) (ha : P a) :
    (skip kind >>= fun _ => pure a).Meets labels w (Labels P) := by
  rw [meets_skip_bind]
  split
  · exact labels_pure (w := (w.look 1).advance) (hw.suffix (List.tail_suffix _)) ha
  · exact labels_pure (w := w.look 1) hw ha

end

/-! ### One step after the other -/

section

open Script Step

variable {w : Walk}

theorem labels_extension {left : Expr} (hw : Scanned w.rest w.eof) (hleft : left.Labelled)
    (hlevel : Level.lowest < w.current.kind.level) :
    (extension left).body.Meets labels w (Labels Expr.Labelled) := by
  rw [Step.body, meets_current_bind]
  split
  · next op hop =>
    have hword : w.current.word = op.kind.word :=
      hw.current_word (BinaryOp.ofKind?_eq_some_iff.mp hop) (by cases op <;> rfl)
    refine labels_advance hw fun w₁ hw₁ _ => ?_
    refine labels_bind (labels_call hw₁ trivial) fun right w₂ hw₂ hright => ?_
    exact labels_pure hw₂ ⟨hword, hleft, hright⟩
  · next hop =>
    split
    · next hk =>
      have hword : w.current.word = Kind.lparen.word := hw.current_word hk rfl
      refine labels_bind (labels_call hw trivial) fun es w₁ hw₁ hes => ?_
      exact labels_pure hw₁ ⟨hword, hleft, Expr.labelledAll_iff.mpr hes⟩
    · next hk =>
      have hword : w.current.word = Kind.lbracket.word :=
        hw.current_word (Kind.eq_lbracket hop hk hlevel) rfl
      refine labels_advance hw fun w₁ hw₁ _ => ?_
      refine labels_bind (labels_call hw₁ trivial) fun key w₂ hw₂ hkey => ?_
      refine labels_expect hw₂ fun w₃ hw₃ _ => ?_
      exact labels_pure hw₃ ⟨hword, hleft, hkey⟩

theorem labels_parameterList (hw : Scanned w.rest w.eof) :
    parameterList.Meets labels w (Labels fun ids => ∀ id ∈ ids, id.Labelled) := by
  rw [parameterList, meets_peek_bind]
  split
  · exact labels_advance hw fun w₁ hw₁ _ => labels_pure hw₁ (List.forall_mem_nil _)
  · refine labels_expect hw fun w₁ hw₁ hk => ?_
    rw [meets_current_bind]
    exact labels_call (w := w₁.look 0) hw₁ (List.forall_mem_singleton.mpr (hw₁.current_name hk))

theorem labels_operand (hw : Scanned w.rest w.eof) :
    operand.body.Meets labels w (Labels Expr.Labelled) := by
  rw [Step.body, meets_current_bind]
  have hword : ∀ k : Kind, w.current.kind = k → k.isFixed → w.current.word = k.word :=
    fun k hk hfixed => hw.current_word hk hfixed
  have hunary : ∀ op : UnaryOp, w.current.kind = op.kind →
      (do advance; return .unary w.current op (← call (.expression Level.unary)) : Script Expr).Meets
        labels (w.look 0) (Labels Expr.Labelled) := by
    intro op hk
    refine labels_advance hw fun w₁ hw₁ _ => ?_
    refine labels_bind (labels_call hw₁ trivial) fun e w₂ hw₂ he => ?_
    exact labels_pure hw₂ ⟨hword _ hk (by cases op <;> rfl), he⟩
  cases hk : w.current.kind with
  | ident => exact labels_pure (w := w.look 0) hw (hw.current_name hk)
  | int =>
    dsimp only
    split
    · next n hn => exact labels_pure (w := w.look 0) hw ⟨hk, hn⟩
    · exact labels_fail (w := w.look 0) hw _
  | string => exact labels_pure (w := w.look 0) hw (congrArg (Word.mk · _) hk)
  | true => exact labels_pure (w := w.look 0) hw (hword _ hk rfl)
  | false => exact labels_pure (w := w.look 0) hw (hword _ hk rfl)
  | bang => exact hunary .bang hk
  | minus => exact hunary .minus hk
  | lparen =>
    refine labels_advance hw fun w₁ hw₁ _ => ?_
    refine labels_bind (labels_call hw₁ trivial) fun e w₂ hw₂ he => ?_
    exact labels_expect hw₂ fun w₃ hw₃ _ => labels_pure hw₃ he
  | «if» =>
    refine labels_expect hw fun w₁ hw₁ _ => labels_advance hw₁ fun w₂ hw₂ _ => ?_
    refine labels_bind (labels_call hw₂ trivial) fun c w₃ hw₃ hc => ?_
    refine labels_expect hw₃ fun w₄ hw₄ _ => labels_expect hw₄ fun w₅ hw₅ hbrace => ?_
    refine labels_bind (labels_call hw₅ hbrace) fun yes w₆ hw₆ hyes => ?_
    rw [meets_peek_bind]
    split
    · refine labels_advance hw₆ fun w₇ hw₇ _ => labels_expect hw₇ fun w₈ hw₈ hbrace' => ?_
      refine labels_bind (labels_call hw₈ hbrace') fun no w₉ hw₉ hno => ?_
      exact labels_pure hw₉ ⟨hword _ hk rfl, hc, hyes, hno⟩
    · exact labels_pure (w := w₆.look 1) hw₆ ⟨hword _ hk rfl, hc, hyes⟩
  | function =>
    refine labels_expect hw fun w₁ hw₁ _ => ?_
    refine labels_bind (labels_parameterList hw₁) fun ps w₂ hw₂ hps => ?_
    refine labels_expect hw₂ fun w₃ hw₃ hbrace => ?_
    refine labels_bind (labels_call hw₃ hbrace) fun body w₄ hw₄ hbody => ?_
    exact labels_pure hw₄ ⟨hword _ hk rfl, hps, hbody⟩
  | lbracket =>
    refine labels_bind (labels_call hw trivial) fun es w₁ hw₁ hes => ?_
    exact labels_pure hw₁ ⟨hword _ hk rfl, Expr.labelledAll_iff.mpr hes⟩
  | lbrace =>
    refine labels_bind (labels_call hw (List.forall_mem_nil _)) fun ps w₁ hw₁ hps => ?_
    exact labels_pure hw₁ ⟨hword _ hk rfl, Expr.labelledPairs_iff.mpr hps⟩
  | _ => exact labels_fail (w := w.look 0) hw _

/-- One more at the end of what is labelled. -/
theorem forall_mem_push {α : Type} {P : α → Prop} {done : Array α} {a : α}
    (h : ∀ x ∈ done.toList, P x) (ha : P a) : ∀ x ∈ (done.push a).toList, P x := by
  rw [Array.toList_push, List.forall_mem_append, List.forall_mem_singleton]
  exact ⟨h, ha⟩

theorem labels_pairs {done : Array (Expr × Expr)} (hw : Scanned w.rest w.eof)
    (hdone : ∀ p ∈ done.toList, p.1.Labelled ∧ p.2.Labelled) :
    (pairs done).body.Meets labels w
      (Labels fun ps => ∀ p ∈ ps, p.1.Labelled ∧ p.2.Labelled) := by
  rw [Step.body, meets_peek_bind]
  split
  · exact labels_advance hw fun w₁ hw₁ _ => labels_pure hw₁ hdone
  refine labels_advance hw fun w₁ hw₁ _ => ?_
  refine labels_bind (labels_call hw₁ trivial) fun key w₂ hw₂ hkey => ?_
  refine labels_expect hw₂ fun w₃ hw₃ _ => labels_advance hw₃ fun w₄ hw₄ _ => ?_
  refine labels_bind (labels_call hw₄ trivial) fun value w₅ hw₅ hvalue => ?_
  have hmore := forall_mem_push hdone (a := (key, value)) ⟨hkey, hvalue⟩
  rw [meets_peek_bind]
  split
  · exact labels_call (w := w₅.look 1) hw₅ hmore
  · exact labels_expect (w := w₅.look 1) hw₅ fun w₆ hw₆ _ => labels_call hw₆ hmore

theorem labels_statements {inBlock : Bool} {done : Array Stmt} (hw : Scanned w.rest w.eof)
    (hdone : ∀ s ∈ done.toList, s.Labelled) :
    (statements inBlock done).body.Meets labels w (Labels fun ss => ∀ s ∈ ss, s.Labelled) := by
  rw [Step.body, meets_current_bind]
  split
  · exact labels_pure (w := w.look 0) hw hdone
  rw [meets_attempt_bind]
  refine ⟨⟨hw, trivial⟩, fun a w₁ h => ?_⟩
  obtain ⟨hw₁, hs⟩ := h
  cases a with
  | some s =>
    exact labels_advance hw₁ fun w₂ hw₂ _ => labels_call hw₂ (forall_mem_push hdone (hs s rfl))
  | none =>
    have hw₂ : Scanned w₁.recover.rest w₁.recover.eof := by
      apply hw₁.suffix
      exact (List.tail_suffix _).trans (Reader.dropStatement_suffix w₁.eof w₁.rest)
    exact labels_call (w := w₁.recover) hw₂ hdone

theorem labels_statement (hw : Scanned w.rest w.eof) :
    statement.body.Meets labels w (Labels Stmt.Labelled) := by
  rw [Step.body, meets_current_bind]
  have hword : ∀ k : Kind, w.current.kind = k → k.isFixed → w.current.word = k.word :=
    fun k hk hfixed => hw.current_word hk hfixed
  split
  · next hk =>
    refine labels_expect hw fun w₁ hw₁ hname => ?_
    rw [meets_current_bind]
    refine labels_expect (w := w₁.look 0) hw₁ fun w₂ hw₂ _ => labels_advance hw₂ fun w₃ hw₃ _ => ?_
    refine labels_bind (labels_call hw₃ trivial) fun value w₄ hw₄ hvalue => ?_
    exact labels_skip hw₄ ⟨hword _ hk rfl, hw₁.current_name hname, hvalue⟩
  · next hk =>
    refine labels_advance hw fun w₁ hw₁ _ => ?_
    refine labels_bind (labels_call hw₁ trivial) fun value w₂ hw₂ hvalue => ?_
    exact labels_skip hw₂ ⟨hword _ hk rfl, hvalue⟩
  · exact labels_bind (labels_call hw trivial) fun value w₁ hw₁ hvalue => labels_skip hw₁ hvalue

/-- **Every step gives what is labelled**, when it is given such. -/
theorem met_labels : labels.Met := by
  intro α s w hready hpre
  obtain ⟨hw, hgiven⟩ := hpre
  cases s with
  | expression level =>
    refine labels_bind (labels_call hw trivial) fun left w₁ hw₁ hleft => ?_
    exact labels_call hw₁ hleft
  | continuation level left =>
    show Script.Meets _ _ _ _
    rw [Step.body, meets_peek_bind]
    split
    · next hlevel =>
      refine labels_advance hw fun w₁ hw₁ hcurrent => ?_
      -- the lowest level is that of the tokens that are no operators
      have hoperator : Level.lowest < w₁.current.kind.level := by
        rw [hcurrent]
        exact Nat.lt_of_le_of_lt hready.2.2 hlevel
      refine labels_bind (labels_call hw₁ ⟨hgiven, hoperator⟩) fun whole w₂ hw₂ hwhole => ?_
      exact labels_call hw₂ hwhole
    · exact labels_pure (w := w.look 1) hw hgiven
  | extension left => exact labels_extension hw hgiven.1 hgiven.2
  | operand => exact labels_operand hw
  | expressionList close =>
    refine labels_advance hw fun w₁ hw₁ _ => ?_
    rw [meets_current_bind]
    split
    · exact labels_pure (w := w₁.look 0) hw₁ (List.forall_mem_nil _)
    · refine labels_bind (labels_call (w := w₁.look 0) hw₁ trivial) fun e w₂ hw₂ he => ?_
      exact labels_call hw₂ (List.forall_mem_singleton.mpr he)
  | expressions close done =>
    show Script.Meets _ _ _ _
    rw [Step.body, meets_peek_bind]
    split
    · refine labels_advance hw fun w₁ hw₁ _ => labels_advance hw₁ fun w₂ hw₂ _ => ?_
      refine labels_bind (labels_call hw₂ trivial) fun e w₃ hw₃ he => ?_
      exact labels_call hw₃ (forall_mem_push hgiven he)
    · exact labels_expect hw fun w₁ hw₁ _ => labels_pure hw₁ hgiven
  | pairs done => exact labels_pairs hw hgiven
  | block =>
    show Script.Meets _ _ _ _
    rw [Step.body, meets_current_bind]
    refine labels_advance hw fun w₁ hw₁ _ => ?_
    refine labels_bind (labels_call hw₁ (List.forall_mem_nil _)) fun ss w₂ hw₂ hss => ?_
    rw [meets_current_bind]
    split
    · exact labels_fail (w := w₂.look 0) hw₂ _
    · exact labels_pure (w := w₂.look 0) hw₂ ⟨hw.current_word hgiven rfl, Stmt.labelledAll_iff.mpr hss⟩
  | statements inBlock done => exact labels_statements hw hgiven
  | statement => exact labels_statement hw
  | parameters done =>
    show Script.Meets _ _ _ _
    rw [Step.body, meets_peek_bind]
    split
    · refine labels_advance hw fun w₁ hw₁ _ => labels_expect hw₁ fun w₂ hw₂ hk => ?_
      rw [meets_current_bind]
      exact labels_call (w := w₂.look 0) hw₂ (forall_mem_push hgiven (hw₂.current_name hk))
    · exact labels_expect hw fun w₁ hw₁ _ => labels_pure hw₁ hgiven

end

end Parse

/-- **Trees keep their tokens.** What is read of a text is labelled, whatever is wrong with the
rest. -/
theorem Program.labelled_read (source : String) : (read source).1.Labelled := by
  have hscanned := scanned_scan source
  unfold read
  generalize Token.scan source = scan at hscanned ⊢
  obtain ⟨tokens, eof⟩ := scan
  obtain ⟨ss, hss, hread⟩ := ofTokens_eq_whole tokens hscanned.eof
  have hend : Parse.Labels _ (Parse.Walk.whole tokens eof).1 (Parse.Walk.whole tokens eof).2 :=
    Parse.met_labels.holds ⟨hscanned.eof, trivial⟩ ⟨hscanned, List.forall_mem_nil _⟩
  show (ofTokens tokens eof).1.Labelled
  rw [hread]
  exact Stmt.labelledAll_iff.mpr (hend.2 ss hss)

end Monkey
