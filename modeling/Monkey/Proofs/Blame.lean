import Monkey.Proofs.Nesting

/-!
# What diagnostics blame

The diagnostics of a text come in the order of the text, each of them is about a token that the text
has, and a step of the parser that fails has added one, which stays (`Program.read_blames`).

A diagnostic is about the current token or about the one behind it, so what is known of the last one
depends on how a step was left: as long as nothing has gone wrong no diagnostic is about a token behind
the current one (`Parse.Tidy`), and behind a failure none is about a token behind the next one
(`Parse.Spoilt`). Skipping a statement that could not be read makes up for the difference, since it goes
on by one token at least.
-/

namespace Monkey

/-- The diagnostic is about the token `t`. -/
def Diagnostic.Blames (d : Diagnostic) (t : Token) : Prop :=
  d.span = t.span ∧ match d with
  | unexpectedToken _ found _ => found = t.kind
  | noExpression kind _ => kind = t.kind
  | invalidInteger literal _ => t.kind = .int ∧ literal = t.literal

/-! ### Tokens come in the order of their text -/

/-- The tokens come in the order of their places. -/
def Token.Ordered (ts : List Token) : Prop := ts.Pairwise fun t u => t.span.start ≤ u.span.start

theorem Position.le_offset_advance (p : Position) (c : Char) : p.offset ≤ (p.advance c).offset := by
  rw [advance]
  split <;> exact Nat.le_add_right _ _

theorem Position.le_offset_after (p : Position) (cs : List Char) :
    p.offset ≤ (p.after cs).offset := by
  induction cs generalizing p with
  | nil => exact Nat.le_refl _
  | cons c cs ih => exact Nat.le_trans (p.le_offset_advance c) (ih _)

namespace Cursor

theorem le_offset_skip (inComment : Bool) (cs : List Char) (p : Position) :
    p.offset ≤ (skip inComment cs p).position.offset := by
  fun_induction skip inComment cs p with
  | case1 | case5 => exact Nat.le_refl _
  | case2 | case3 | case4 => exact Nat.le_trans (Position.le_offset_advance _ _) ‹_›

/-- A token starts no earlier than the place it is looked for, and no later than the next one. -/
theorem start_next (s : Cursor) : s.position.offset ≤ s.next.1.span.start ∧
    s.next.1.span.start ≤ s.next.2.position.offset := by
  have hskip := le_offset_skip false s.rest s.position
  unfold next
  dsimp only
  split
  · exact ⟨hskip, Nat.le_refl _⟩
  · exact ⟨hskip, Position.le_offset_after _ _⟩

/-- The tokens from a place on come in order, and none starts before it. -/
theorem ordered_words (s : Cursor) (done : Array Token) : ∃ ts,
    (s.words done).1.toList = done.toList ++ ts ∧
      Token.Ordered (ts ++ [(s.words done).2.next.1]) ∧
      ∀ t ∈ ts ++ [(s.words done).2.next.1], s.position.offset ≤ t.span.start := by
  fun_induction words s done with
  | case1 s done step heof =>
    refine ⟨[], (List.append_nil _).symm, List.pairwise_singleton _ _, fun t ht => ?_⟩
    obtain rfl := List.mem_singleton.mp ht
    exact s.start_next.1
  | case2 s done step heof ih =>
    -- all that come behind the token start where it ends, or later
    obtain ⟨ts, htokens, hordered, hstart⟩ := ih
    obtain ⟨hbefore, hbehind⟩ := s.start_next
    refine ⟨step.1 :: ts, by rw [htokens]; simp, List.pairwise_cons.mpr ⟨fun t ht => ?_, hordered⟩,
      List.forall_mem_cons.mpr ⟨hbefore, fun t ht => ?_⟩⟩
    · exact Nat.le_trans hbehind (hstart t ht)
    · exact Nat.le_trans hbefore (Nat.le_trans hbehind (hstart t ht))

end Cursor

/-- The tokens of a text, with its end behind them, come in the order of their places. -/
theorem Token.ordered_scan (source : String) :
    Ordered ((scan source).1 ++ [(scan source).2]) := by
  obtain ⟨ts, htokens, hordered, -⟩ := (Cursor.ofString source).ordered_words #[]
  have htokens : (scan source).1 = ts := htokens
  rw [htokens]
  exact hordered

/-! ### Diagnostics in order -/

/-- The diagnostics are about tokens of `text`, in order, and none of them starts behind `bound`. -/
structure Diagnostic.Records (text : List Token) (bound : Nat) (ds : List Diagnostic) : Prop where
  ordered : ds.Pairwise fun d e => d.span.start ≤ e.span.start
  blamed : ∀ d ∈ ds, ∃ t ∈ text, d.Blames t
  behind : ∀ d ∈ ds, d.span.start ≤ bound

namespace Diagnostic.Records

variable {text : List Token} {bound bound' : Nat} {ds : List Diagnostic}

theorem mono (h : Records text bound ds) (hle : bound ≤ bound') : Records text bound' ds :=
  ⟨h.ordered, h.blamed, fun d hd => Nat.le_trans (h.behind d hd) hle⟩

theorem push {d : Diagnostic} {t : Token} (h : Records text bound ds) (ht : t ∈ text)
    (hd : d.Blames t) (hle : bound ≤ t.span.start) : Records text t.span.start (ds ++ [d]) := by
  have hstart : d.span.start = t.span.start := congrArg Span.start hd.1
  refine ⟨List.pairwise_append.mpr ⟨h.ordered, List.pairwise_singleton _ _, fun e he e' he' => ?_⟩,
    fun e he => ?_, fun e he => ?_⟩
  · obtain rfl := List.mem_singleton.mp he'
    exact hstart ▸ (h.mono hle).behind e he
  · rcases List.mem_append.mp he with he | he
    · exact h.blamed e he
    · obtain rfl := List.mem_singleton.mp he
      exact ⟨t, ht, hd⟩
  · rcases List.mem_append.mp he with he | he
    · exact (h.mono hle).behind e he
    · obtain rfl := List.mem_singleton.mp he
      exact Nat.le_of_eq hstart

end Diagnostic.Records

namespace Parse

variable {text : List Token}

/-- The reader stands somewhere in the text. -/
def Stands (text : List Token) (r : Reader) : Prop := r.rest ++ [r.eof] <:+ text

/-- No diagnostic is about a token behind the current one. -/
structure Tidy (text : List Token) (r : Reader) : Prop where
  stands : Stands text r
  records : Diagnostic.Records text r.current.span.start r.diagnostics.toList

/-- No diagnostic is about a token behind the next one. -/
structure Spoilt (text : List Token) (r : Reader) : Prop where
  stands : Stands text r
  records : Diagnostic.Records text r.peek.span.start r.diagnostics.toList

theorem headD_mem (ts : List Token) (eof : Token) : ts.headD eof ∈ ts ++ [eof] := by
  cases ts with
  | nil => exact List.mem_singleton_self eof
  | cons t ts => exact List.mem_cons_self

theorem append_suffix {us ts : List Token} (h : us <:+ ts) (eof : Token) :
    us ++ [eof] <:+ ts ++ [eof] := by
  obtain ⟨vs, rfl⟩ := h
  exact ⟨vs, by rw [List.append_assoc]⟩

theorem tail_suffix_tail {us ts : List Token} (h : us <:+ ts) : us.tail <:+ ts.tail := by
  obtain ⟨vs, rfl⟩ := h
  cases vs with
  | nil => exact List.suffix_rfl
  | cons v vs => exact (List.tail_suffix us).trans (List.suffix_append vs us)

/-- What stands further on starts no earlier. -/
theorem start_headD_le {us ts : List Token} {eof : Token} (h : us <:+ ts)
    (hordered : Token.Ordered (ts ++ [eof])) :
    (ts.headD eof).span.start ≤ (us.headD eof).span.start := by
  have hmem := (append_suffix h eof).subset (headD_mem us eof)
  cases ts with
  | nil =>
    rw [List.suffix_nil.mp h]
  | cons t ts =>
    rcases List.mem_cons.mp hmem with heq | hmem
    · rw [heq]
      exact Nat.le_refl _
    · exact (List.pairwise_cons.mp hordered).1 _ hmem

section

variable {r : Reader} {us : List Token}

/-- What stands in a text does so further on, too. -/
theorem Stands.suffix (h : Stands text r) (hus : us <:+ r.rest) (ds : Array Diagnostic) :
    Stands text ⟨us, r.eof, ds⟩ :=
  (append_suffix hus r.eof).trans h

theorem Stands.current_mem (h : Stands text r) : r.current ∈ text :=
  h.subset (headD_mem r.rest r.eof)

theorem Stands.peek_mem (h : Stands text r) : r.peek ∈ text :=
  (h.suffix (List.tail_suffix _) #[]).current_mem

theorem Stands.current_le_peek (h : Stands text r) (hordered : Token.Ordered text) :
    r.current.span.start ≤ r.peek.span.start :=
  start_headD_le (List.tail_suffix _) (hordered.sublist h.sublist)

theorem Tidy.advance (h : Tidy text r) (hordered : Token.Ordered text) : Tidy text r.advance :=
  ⟨h.stands.suffix (List.tail_suffix _) _, h.records.mono (h.stands.current_le_peek hordered)⟩

theorem Tidy.report_current {d : Diagnostic} (h : Tidy text r) (hordered : Token.Ordered text)
    (hd : d.Blames r.current) : Spoilt text (r.report d) := by
  refine ⟨h.stands, ?_⟩
  rw [Reader.report, Array.toList_push]
  exact (h.records.push h.stands.current_mem hd (Nat.le_refl _)).mono
    (h.stands.current_le_peek hordered)

theorem Tidy.report_peek {d : Diagnostic} (h : Tidy text r) (hordered : Token.Ordered text)
    (hd : d.Blames r.peek) : Spoilt text (r.report d) := by
  refine ⟨h.stands, ?_⟩
  rw [Reader.report, Array.toList_push]
  exact h.records.push h.stands.peek_mem hd (h.stands.current_le_peek hordered)

/-- Behind what is skipped nothing is spoilt, since the next token is skipped, too. -/
theorem Spoilt.recover (h : Spoilt text r) (hordered : Token.Ordered text) :
    Tidy text r.synchronize.advance := by
  -- no diagnostic is about a token behind the next one, and skipping gets there at least
  have hdrop : (Reader.dropStatement r.eof r.rest).tail <:+ r.rest.tail :=
    tail_suffix_tail (Reader.dropStatement_suffix r.eof r.rest)
  have htail := h.stands.suffix (List.tail_suffix _) r.diagnostics
  exact ⟨htail.suffix hdrop _,
    h.records.mono (start_headD_le hdrop (hordered.sublist htail.sublist))⟩

end

/-! ### The contract -/

/-- Where a step fails it has added a diagnostic, and where it does not nothing is spoilt. -/
def Blames (text : List Token) {α : Type} (w₀ : Walk) : Option α → Walk → Prop
  | some _, w => Tidy text w.toReader ∧ w₀.diagnostics.size ≤ w.diagnostics.size
  | none, w => Spoilt text w.toReader ∧ w₀.diagnostics.size < w.diagnostics.size

/-- Steps are entered only where nothing is spoilt. -/
def blame (text : List Token) : Contract where
  pre _ w := Tidy text w.toReader
  post _ := Blames text

/-- The script keeps to the contract wherever nothing is spoilt. -/
def Careful (text : List Token) {α : Type} (x : Script α) : Prop :=
  ∀ w, Tidy text w.toReader → x.Meets (blame text) w (Blames text w)

section

open Script

variable {α β : Type} {w₀ w w' : Walk}

theorem Blames.mono {a : Option α} (h : Blames text w a w')
    (hle : w₀.diagnostics.size ≤ w.diagnostics.size) : Blames text w₀ a w' := by
  cases a with
  | none => exact ⟨h.1, Nat.lt_of_le_of_lt hle h.2⟩
  | some a => exact ⟨h.1, Nat.le_trans hle h.2⟩

theorem meets_report {d : Diagnostic} (n : Nat) (h : Spoilt text (w.report d).toReader) :
    (fail d : Script α).Meets (blame text) (w.look n) (Blames text w) := by
  refine ⟨h, ?_⟩
  show _ < (w.diagnostics.push d).size
  rw [Array.size_push]
  exact Nat.lt_succ_self _

theorem Careful.bind {x : Script α} {f : α → Script β} (hx : Careful text x)
    (hf : ∀ a, Careful text (f a)) : Careful text (x >>= f) := by
  intro w hw
  rw [meets_bind]
  refine (hx w hw).mono ?_
  rintro (_ | a) w' h
  · exact h
  · exact (hf a w' h.1).mono fun b w'' h' => h'.mono h.2

theorem Careful.ite {c : Prop} [Decidable c] {x y : Script α} (hx : Careful text x)
    (hy : Careful text y) : Careful text (if c then x else y) := by
  split
  · exact hx
  · exact hy

theorem careful_pure (a : α) : Careful text (pure a) := fun _ hw => ⟨hw, Nat.le_refl _⟩

theorem careful_current : Careful text current := fun _ hw => ⟨hw, Nat.le_refl _⟩

theorem careful_peek : Careful text peek := fun _ hw => ⟨hw, Nat.le_refl _⟩

theorem careful_call (s : Step α) : Careful text (call s) :=
  fun _ hw => meets_call.mpr ⟨hw, fun _ _ h => h⟩

variable (hordered : Token.Ordered text)

include hordered

theorem careful_advance : Careful text advance :=
  fun _ hw => ⟨hw.advance hordered, Nat.le_refl _⟩

theorem careful_expect (kind : Kind) : Careful text (expect kind) := by
  intro w hw
  rw [expect, meets_peek_bind]
  split
  · exact careful_advance hordered (w.look 1) hw
  · exact meets_report 1 (hw.report_peek hordered ⟨rfl, rfl⟩)

theorem careful_skip (kind : Kind) : Careful text (skip kind) :=
  careful_peek.bind fun _ => .ite (careful_advance hordered) (careful_pure _)

/-! ### One step after the other -/

theorem careful_extension (left : Expr) : Careful text (Step.extension left).body := by
  refine careful_current.bind fun t => ?_
  cases BinaryOp.ofKind? t.kind with
  | some op =>
    exact (careful_advance hordered).bind fun _ => (careful_call _).bind fun _ => careful_pure _
  | none =>
    refine .ite ((careful_call _).bind fun _ => careful_pure _) ?_
    refine (careful_advance hordered).bind fun _ => (careful_call _).bind fun _ => ?_
    exact (careful_expect hordered _).bind fun _ => careful_pure _

theorem careful_parameterList : Careful text parameterList := by
  refine careful_peek.bind fun _ => .ite ?_ ?_
  · exact (careful_advance hordered).bind fun _ => careful_pure _
  · exact (careful_expect hordered _).bind fun _ => careful_current.bind fun _ => careful_call _

theorem careful_operand : Careful text Step.operand.body := by
  intro w hw
  rw [Step.body, meets_current_bind]
  -- what the diagnostics of this step are about is the token that it starts on
  have hblames : ∀ kind, w.current.kind = kind →
      (fail (.noExpression kind w.current.span) : Script Expr).Meets (blame text) (w.look 0)
        (Blames text w) :=
    fun kind hk => meets_report 0 (hw.report_current hordered ⟨rfl, hk.symm⟩)
  have hcareful : ∀ {x : Script Expr}, Careful text x →
      x.Meets (blame text) (w.look 0) (Blames text w) := fun hx => hx _ hw
  cases hk : w.current.kind with
  | ident | string | true | false => exact hcareful (careful_pure _)
  | int =>
    cases integer? w.current.literal with
    | some n => exact hcareful (careful_pure _)
    | none => exact meets_report 0 (hw.report_current hordered ⟨rfl, hk, rfl⟩)
  | bang | minus =>
    refine hcareful ((careful_advance hordered).bind fun _ => ?_)
    exact (careful_call _).bind fun _ => careful_pure _
  | lparen =>
    refine hcareful ((careful_advance hordered).bind fun _ => (careful_call _).bind fun _ => ?_)
    exact (careful_expect hordered _).bind fun _ => careful_pure _
  | «if» =>
    refine hcareful ((careful_expect hordered _).bind fun _ => ?_)
    refine (careful_advance hordered).bind fun _ => (careful_call _).bind fun _ => ?_
    refine (careful_expect hordered _).bind fun _ => (careful_expect hordered _).bind fun _ => ?_
    refine (careful_call _).bind fun _ => careful_peek.bind fun _ => .ite ?_ (careful_pure _)
    refine (careful_advance hordered).bind fun _ => (careful_expect hordered _).bind fun _ => ?_
    exact (careful_call _).bind fun _ => careful_pure _
  | function =>
    refine hcareful ((careful_expect hordered _).bind fun _ => ?_)
    refine (careful_parameterList hordered).bind fun _ => (careful_expect hordered _).bind fun _ => ?_
    exact (careful_call _).bind fun _ => careful_pure _
  | lbracket => exact hcareful ((careful_call _).bind fun _ => careful_pure _)
  | lbrace => exact hcareful ((careful_call _).bind fun _ => careful_pure _)
  | _ => exact hblames _ hk

theorem careful_pairs (done : Array (Expr × Expr)) : Careful text (Step.pairs done).body := by
  refine careful_peek.bind fun _ => .ite ?_ ?_
  · exact (careful_advance hordered).bind fun _ => careful_pure _
  refine (careful_advance hordered).bind fun _ => (careful_call _).bind fun _ => ?_
  refine (careful_expect hordered _).bind fun _ => (careful_advance hordered).bind fun _ => ?_
  refine (careful_call _).bind fun _ => careful_peek.bind fun _ => .ite (careful_call _) ?_
  exact (careful_expect hordered _).bind fun _ => careful_call _

theorem careful_block : Careful text Step.block.body := by
  refine careful_current.bind fun t => (careful_advance hordered).bind fun _ => ?_
  refine (careful_call _).bind fun ss w hw => ?_
  rw [meets_current_bind]
  split
  · next heof => exact meets_report 0 (hw.report_current hordered ⟨rfl, heof.symm⟩)
  · exact careful_pure _ (w.look 0) hw

theorem careful_statements (inBlock : Bool) (done : Array Stmt) :
    Careful text (Step.statements inBlock done).body := by
  refine careful_current.bind fun t => .ite (careful_pure _) fun w hw => ?_
  rw [meets_attempt_bind]
  refine ⟨hw, fun a w' h => ?_⟩
  cases a with
  | some s =>
    refine (((careful_advance hordered).bind fun _ => careful_call _) w' h.1).mono ?_
    exact fun _ _ h' => h'.mono h.2
  | none =>
    refine (careful_call _ w'.recover (h.1.recover hordered)).mono ?_
    exact fun _ _ h' => h'.mono (Nat.le_of_lt h.2)

theorem careful_statement : Careful text Step.statement.body := by
  have hvalue : ∀ f : Expr → Stmt, Careful text
      (do let value ← call (.expression Level.lowest); skip .semicolon; return f value) :=
    fun f => (careful_call _).bind fun _ => (careful_skip hordered _).bind fun _ => careful_pure _
  refine careful_current.bind fun t => ?_
  cases t.kind with
  | «let» =>
    refine (careful_expect hordered _).bind fun _ => careful_current.bind fun _ => ?_
    refine (careful_expect hordered _).bind fun _ => (careful_advance hordered).bind fun _ => ?_
    exact hvalue _
  | «return» => exact (careful_advance hordered).bind fun _ => hvalue _
  | _ => exact hvalue _

/-- **Every step keeps to the contract.** -/
theorem careful_body (s : Step α) : Careful text s.body := by
  cases s with
  | expression level => exact (careful_call _).bind fun _ => careful_call _
  | continuation level left =>
    refine careful_peek.bind fun _ => .ite ?_ (careful_pure _)
    refine (careful_advance hordered).bind fun _ => ?_
    exact (careful_call _).bind fun _ => careful_call _
  | extension left => exact careful_extension hordered left
  | operand => exact careful_operand hordered
  | expressionList close =>
    refine (careful_advance hordered).bind fun _ => careful_current.bind fun _ => ?_
    exact .ite (careful_pure _) ((careful_call _).bind fun _ => careful_call _)
  | expressions close done =>
    refine careful_peek.bind fun _ => .ite ?_ ?_
    · refine (careful_advance hordered).bind fun _ => (careful_advance hordered).bind fun _ => ?_
      exact (careful_call _).bind fun _ => careful_call _
    · exact (careful_expect hordered _).bind fun _ => careful_pure _
  | pairs done => exact careful_pairs hordered done
  | block => exact careful_block hordered
  | statements inBlock done => exact careful_statements hordered inBlock done
  | statement => exact careful_statement hordered
  | parameters done =>
    refine careful_peek.bind fun _ => .ite ?_ ?_
    · refine (careful_advance hordered).bind fun _ => (careful_expect hordered _).bind fun _ => ?_
      exact careful_current.bind fun _ => careful_call _
    · exact (careful_expect hordered _).bind fun _ => careful_pure _

end

theorem met_blame (hordered : Token.Ordered text) : (blame text).Met :=
  fun _ s w _ hw => careful_body hordered s w hw

/-! ### Diagnostics stay

What a step adds is not taken back by the steps around it, so it is among the diagnostics of the text. -/

/-- The diagnostics of the first walk are there on the second one, and come first. -/
def Walk.Keeps (w w' : Walk) : Prop := w.diagnostics.toList <+: w'.diagnostics.toList

/-- Where there are more of them, one has come behind the first ones. -/
theorem Walk.Keeps.exists_of_size_lt {w w' : Walk} (h : w.Keeps w')
    (hlt : w.diagnostics.size < w'.diagnostics.size) :
    ∃ d, w.diagnostics.toList ++ [d] <+: w'.diagnostics.toList := by
  obtain ⟨added, hadded⟩ := h
  cases added with
  | nil =>
    rw [← Array.length_toList, ← Array.length_toList, ← hadded, List.append_nil] at hlt
    exact absurd hlt (Nat.lt_irrefl _)
  | cons d ds => exact ⟨d, ds, by rw [← hadded, List.append_assoc, List.singleton_append]⟩

theorem Walk.keeps_report (w : Walk) (d : Diagnostic) : w.Keeps (w.report d) := by
  rw [Keeps, report, Reader.report, Array.toList_push]
  exact List.prefix_append _ _

namespace Script

variable {α : Type} {x : Script α} {enters : Playing} {c : Call}

/-- A play takes no diagnostic back, if the steps in it do not. -/
theorem keeps_play (henters : ∀ ⦃β : Type⦄ (s : Step β) (w : Walk), w.Keeps (enters s w).2)
    (x : Script α) (w : Walk) : w.Keeps (x.play enters w).2 := by
  induction x generalizing w with
  | give | abort => exact List.prefix_rfl
  | fail d => exact w.keeps_report d
  | withCurrent _ ih => exact ih _ (w.look 0)
  | withPeek _ ih => exact ih _ (w.look 1)
  | thenAdvance _ ih => exact ih w.advance
  | thenRecover _ ih => exact ih w.recover
  | enter s _ ih => exact (henters s w).trans (ih _ _)

/-- What a step has added that is entered in a play is there at the end of the play. -/
theorem Calls.keeps (henters : ∀ ⦃β : Type⦄ (s : Step β) (w : Walk), w.Keeps (enters s w).2)
    {w : Walk} (h : x.Calls enters w c) : (enters c.step c.walk).2.Keeps (x.play enters w).2 := by
  induction x generalizing w with
  | give | abort | fail => exact h.elim
  | withCurrent _ ih => exact ih _ h
  | withPeek _ ih => exact ih _ h
  | thenAdvance _ ih => exact ih h
  | thenRecover _ ih => exact ih h
  | enter s next ih =>
    rcases h with rfl | h
    · exact keeps_play henters (next _) _
    · exact ih _ h

end Script

theorem Step.keeps_play (d : Nat) {α : Type} (s : Step α) (w : Walk) : w.Keeps (play d s w).2 := by
  induction d generalizing α s w with
  | zero => exact List.prefix_rfl
  | succ d ih => exact Script.keeps_play (fun _ => ih) s.body w

theorem Step.keeps_outcome {α : Type} (s : Step α) (w : Walk) : w.Keeps (s.outcome w).2 :=
  s.keeps_play _ w

/-- The diagnostics that a call has left are there when the calls around it are left. -/
theorem OpenCalls.keeps {tokens : List Token} {eof : Token} {calls : List Call}
    (h : OpenCalls tokens eof calls) (heof : eof.kind = .eof) :
    ∀ c ∈ calls, (c.step.outcome c.walk).2.Keeps (Walk.whole tokens eof).2 := by
  obtain ⟨hhead, hchain⟩ := h
  obtain ⟨calls, rfl⟩ := List.head?_eq_some_iff.mp hhead
  -- down the stack of calls, each of them is made in the one before
  have hkeeps : ∀ c ∈ (⟨.statements false #[], .start tokens eof⟩ : Call) :: calls,
      c.step.Ready c.walk ∧ (c.step.outcome c.walk).2.Keeps (Walk.whole tokens eof).2 := by
    refine List.IsChain.induction _ _ hchain (fun c c' henters hc => ?_) ?_
    · refine ⟨(henters.depth_lt hc.1).1, List.IsPrefix.trans ?_ hc.2⟩
      rw [c.step.outcome_eq hc.1]
      exact Script.Calls.keeps (fun _ => Step.keeps_outcome) henters
    · exact fun _ => ⟨⟨heof, trivial⟩, List.prefix_rfl⟩
  exact fun c hc => (hkeeps c hc).2

end Parse

/-! ### Parameters

The parser has a function of its own for the parameters of a function. It makes but one call, so it is
followed as it is. -/

namespace Reading

/-- The step leaves a diagnostic more where it fails. -/
def Complains {α : Type} (x : Reading α) (r : Reader) : Prop :=
  x.Ensures r (fun _ _ => True) fun r' => r.diagnostics.size < r'.diagnostics.size

variable {r : Reader}

theorem size_lt_report (d : Diagnostic) : r.diagnostics.size < (r.report d).diagnostics.size := by
  rw [Reader.report, Array.size_push]
  exact Nat.lt_succ_self _

theorem complains_parameters {fuel : Nat} {done : Array Ident} (heof : r.eof.kind = .eof)
    (hfuel : r.rest.length < fuel) : (parameters done fuel).Complains r := by
  induction fuel generalizing done r with
  | zero => exact absurd hfuel (Nat.not_lt_zero _)
  | succ fuel ih =>
    unfold Complains
    rw [parameters, ensures_bind, ensures_peek]
    split
    · next hcomma =>
      -- the comma stands before the end of the text
      have htail : r.rest.tail ≠ [] := by
        intro hnil
        rw [Reader.peek, hnil, List.headD_nil, heof] at hcomma
        cases hcomma
      have hlength := List.length_pos_iff.mpr htail
      rw [ensures_bind, ensures_advance, ensures_bind, ensures_expect]
      split
      · rw [ensures_bind, ensures_current]
        refine ih (r := r.advance.advance) heof ?_
        show r.rest.tail.tail.length < fuel
        rw [List.length_tail] at hlength ⊢
        rw [List.length_tail]
        omega
      · exact size_lt_report (r := r.advance) _
    · rw [ensures_bind, ensures_expect]
      split
      · trivial
      · exact size_lt_report _

theorem complains_parameterList {fuel : Nat} (heof : r.eof.kind = .eof)
    (hfuel : r.rest.length < fuel) : (parameterList fuel).Complains r := by
  unfold Complains
  rw [parameterList, ensures_bind, ensures_peek]
  split
  · trivial
  · rw [ensures_bind, ensures_expect]
    split
    · rw [ensures_bind, ensures_current]
      refine complains_parameters (r := r.advance) heof (Nat.lt_of_le_of_lt ?_ hfuel)
      exact (List.tail_suffix _).length_le
    · exact size_lt_report _

end Reading

namespace Program

open Parse

/-- **Diagnostics are about the text, in its order, and nothing is lost without one.** For every text,

* the places of the diagnostics do not go back;
* each diagnostic is about a token of the text, or about its end, and tells its kind, or the literal of
  an integer;
* whatever function of the parser is called while the text is read, and the one for parameters wherever
  it is called, has added a diagnostic when it fails;
* what was added in such a call is there at the end, so that a statement is left out of the program only
  together with a diagnostic of the text. -/
theorem read_blames (source : String) :
    let (tokens, eof) := Token.scan source
    let bound := 8 * tokens.length + 4
    (read source).2.Pairwise (fun d e => d.span.start ≤ e.span.start) ∧
    (∀ d ∈ (read source).2, ∃ t ∈ tokens ++ [eof], d.Blames t) ∧
    (∀ calls, OpenCalls tokens eof calls → ∀ c ∈ calls, ∀ n, bound < n → ∀ r,
      (c.step.run n).run.run c.walk.toReader = (none, r) →
        c.walk.diagnostics.size < r.diagnostics.size ∧
        ∃ d, c.walk.diagnostics.toList ++ [d] <+: r.diagnostics.toList ∧
          r.diagnostics.toList <+: (read source).2) ∧
    ∀ r n r', r.eof.kind = .eof → r.rest.length < n →
      (Reading.parameterList n).run.run r = (none, r') → r.diagnostics.size < r'.diagnostics.size := by
  have hordered := Token.ordered_scan source
  have heof := Token.kind_scan_snd source
  unfold read
  generalize Token.scan source = scan at heof hordered ⊢
  obtain ⟨tokens, eof⟩ := scan
  change Token.Ordered (tokens ++ [eof]) at hordered
  have hmet := met_blame hordered
  have htidy : Tidy (tokens ++ [eof]) (Walk.start tokens eof).toReader :=
    ⟨List.suffix_rfl, .nil, List.forall_mem_nil _, List.forall_mem_nil _⟩
  obtain ⟨ss, hss, hread⟩ := ofTokens_eq_whole tokens heof
  have hrecords : Diagnostic.Records (tokens ++ [eof])
      (Walk.whole tokens eof).2.current.span.start (ofTokens tokens eof).2 := by
    -- the walk over the whole text starts tidy, so it ends with the records of its diagnostics
    have hend : Blames (tokens ++ [eof]) _ (Walk.whole tokens eof).1 (Walk.whole tokens eof).2 :=
      hmet.holds ⟨heof, trivial⟩ htidy
    rw [hss] at hend
    rw [hread]
    exact hend.1.records
  refine ⟨hrecords.ordered, hrecords.blamed, fun calls hcalls c hc n hn r hr => ?_,
    fun r n r' hr hn hrun => ?_⟩
  · -- with so much fuel, the run of the call is the outcome that the contract is about
    obtain ⟨hready, hpre⟩ := hcalls.pre hmet heof htidy c hc
    have hdepth := ((hcalls.descends heof).1 c hc).2
    rw [c.step.run_eq_outcome hready (Nat.lt_of_le_of_lt hdepth hn)] at hr
    obtain ⟨hnone, rfl⟩ := Prod.mk.inj hr
    have hend : Blames _ c.walk (c.step.outcome c.walk).1 (c.step.outcome c.walk).2 :=
      hmet.holds hready hpre
    rw [hnone] at hend
    obtain ⟨d, hd⟩ := (c.step.keeps_outcome c.walk).exists_of_size_lt hend.2
    refine ⟨hend.2, d, hd, ?_⟩
    change _ <+: (ofTokens tokens eof).2
    rw [hread]
    exact hcalls.keeps heof c hc
  · have hcomplains := Reading.complains_parameterList hr hn
    unfold Reading.Complains Reading.Ensures at hcomplains
    rw [hrun] at hcomplains
    exact hcomplains

end Program

end Monkey
