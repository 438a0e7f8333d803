import Monkey.Proofs.Reading
import Monkey.Proofs.Scanning

/-!
# What is read is spelled

A text that parses loses nothing and invents nothing: its tokens are the words of the tree, in order
(`Program.spelled_of_parse`).

The steps of the parser are followed one by one, all with the same bound on how deep they nest
(`Reading.SoundAt`). What a step has read is said by `Took`, and that the text behind an expression does
not belong to it by `Expr.SpelledTo`: an expression is read between the level it was asked for, which all
its operators have to exceed, and the level of the next token, which none of them may fall short of.
-/

namespace Monkey

/-! ### Tokens and words -/

theorem Kind.level_le (k : Kind) : k.level ≤ Level.call := by
  cases k <;> decide

/-- Tokens that were cut from a text, and the token behind them. -/
structure Scanned (ts : List Token) (eof : Token) : Prop where
  eof : eof.kind = .eof
  tokens : ∀ t ∈ ts, t.kind ≠ .eof ∧ (t.kind ≠ .illegal → t.word.Proper)

namespace Scanned

variable {ts us : List Token} {eof t : Token} {k : Kind}

theorem right (h : Scanned (ts ++ us) eof) : Scanned us eof :=
  ⟨h.eof, fun t ht => h.tokens t (List.mem_append_right ts ht)⟩

theorem tail (h : Scanned (t :: ts) eof) : Scanned ts eof :=
  ⟨h.eof, fun t ht => h.tokens t (List.mem_cons_of_mem _ ht)⟩

/-- A token whose kind has only one text is the word of this kind. -/
theorem word (h : Scanned (t :: ts) eof) (hk : t.kind = k) (hfixed : k.isFixed) :
    t.word = k.word := by
  have hproper := (h.tokens t List.mem_cons_self).2
  obtain ⟨kind, literal, span⟩ := t
  obtain rfl : kind = k := hk
  have hliteral : literal = kind.spelling := by
    cases kind with
    | illegal | eof | ident | int | string => cases hfixed
    | _ => exact hproper nofun
  rw [Token.word, Kind.word, hliteral]

theorem name (h : Scanned (t :: ts) eof) (hk : t.kind = .ident) :
    IsName t.literal ∧ t.word = Ident.word ⟨t⟩ := by
  have hproper := (h.tokens t List.mem_cons_self).2
  obtain ⟨kind, literal, span⟩ := t
  obtain rfl : kind = .ident := hk
  exact ⟨hproper nofun, rfl⟩

/-- A token that is not the end of the text stands in the text. -/
theorem exists_cons (h : Scanned ts eof) (hk : (ts.headD eof).kind = k) (hne : k ≠ .eof) :
    ∃ t us, ts = t :: us ∧ t.kind = k := by
  cases ts with
  | nil => exact absurd (hk.symm.trans h.eof) hne
  | cons t us => exact ⟨t, us, rfl, hk⟩

end Scanned

/-- The words `ws` are those of the first tokens of `before`, and `after` starts with the last token
that was read, whatever it is, before all that is left. -/
def Took (ws : List Word) (before after : List Token) : Prop :=
  ∃ ts t tail, before = ts ++ tail ∧ after = t :: tail ∧ ts.map Token.word = ws

namespace Took

variable {ws vs : List Word} {before between after : List Token} {eof : Token}

theorem exists_cons (h : Took ws before after) : ∃ t ts, after = t :: ts := by
  obtain ⟨ts, t, tail, -, rfl, -⟩ := h
  exact ⟨t, tail, rfl⟩

theorem trans (h : Took ws before between) (h' : Took vs between.tail after) :
    Took (ws ++ vs) before after := by
  obtain ⟨ts, t, tail, rfl, rfl, rfl⟩ := h
  obtain ⟨us, t', tail', rfl, rfl, rfl⟩ := h'
  exact ⟨ts ++ us, t', tail', by simp, rfl, by simp⟩

/-- Every word that is read takes one token. -/
theorem length_eq (h : Took ws before after) : after.tail.length + ws.length = before.length := by
  obtain ⟨ts, t, tail, rfl, rfl, rfl⟩ := h
  rw [List.tail_cons, List.length_map, List.length_append, Nat.add_comm]

theorem length_le (h : Took ws before after) (hne : ws ≠ []) : after.length ≤ before.length := by
  have hlength := h.length_eq
  have hpos := List.length_pos_iff.mpr hne
  obtain ⟨t, ts, rfl⟩ := h.exists_cons
  rw [List.tail_cons] at hlength
  rw [List.length_cons]
  omega

theorem scanned (h : Took ws before after) (hbefore : Scanned before eof) :
    Scanned after.tail eof := by
  obtain ⟨ts, t, tail, rfl, rfl, rfl⟩ := h
  exact hbefore.right

/-- Nothing is read behind the current token. -/
theorem nil (t : Token) (ts : List Token) : Took [] ts (t :: ts) := ⟨[], t, ts, rfl, rfl, rfl⟩

theorem first (t : Token) (ts : List Token) : Took [t.word] (t :: ts) (t :: ts) :=
  ⟨[t], t, ts, rfl, rfl, rfl⟩

/-- A token that was expected is the word of its kind. -/
theorem expect (h : Took ws before after) (hbefore : Scanned before eof) {k : Kind}
    (hk : (after.tail.headD eof).kind = k) (hfixed : k.isFixed) :
    Took (ws ++ [k.word]) before after.tail := by
  have hafter := h.scanned hbefore
  obtain ⟨t, ts, hcons, hkind⟩ := hafter.exists_cons hk (by rintro rfl; cases hfixed)
  refine h.trans ?_
  rw [hcons] at hafter ⊢
  rw [← hafter.word hkind hfixed]
  exact first t ts

theorem expect_name (h : Took ws before after) (hbefore : Scanned before eof)
    (hk : (after.tail.headD eof).kind = .ident) :
    IsName (after.tail.headD eof).literal ∧
      Took (ws ++ [Ident.word ⟨after.tail.headD eof⟩]) before after.tail := by
  have hafter := h.scanned hbefore
  obtain ⟨t, ts, hcons, hkind⟩ := hafter.exists_cons hk (by decide)
  rw [hcons] at hafter
  obtain ⟨hname, hword⟩ := hafter.name hkind
  refine ⟨by rwa [hcons], h.trans ?_⟩
  rw [hcons, List.headD_cons, ← hword]
  exact first t ts

end Took

/-! ### Expressions -/

/-- The words spell the expression, and when they do so without parentheses, then all its outer
operators bind tighter than `level`, and a token of the level `next` does not break it up. -/
def Expr.SpelledTo (level next : Nat) (e : Expr) (ws : List Word) : Prop :=
  Enclosed ((level < e.level ∨ Level.unary ≤ e.level) ∧ next ≤ e.level) (e.Spelled true) ws

/-- Where no operator stands outside, any token may follow. -/
theorem Expr.SpelledTo.ofCall {level : Nat} {e : Expr} {ws : List Word}
    (hlevel : e.level = Level.call) (h : e.Spelled true ws) (k : Kind) :
    e.SpelledTo level k.level ws :=
  .bare ⟨.inr (hlevel ▸ (by decide)), hlevel ▸ k.level_le⟩ h

theorem Expr.SpelledTo.ne_nil {level next : Nat} {e : Expr} {ws : List Word}
    (h : e.SpelledTo level next ws) : ws ≠ [] := by
  obtain ⟨w, vs, rfl, -⟩ := Enclosed.starts h fun _ => Expr.Spelled.starts e
  exact List.cons_ne_nil w vs

namespace Reading

/-- What the steps of the parser read, when they may nest to a depth of `fuel`. A step that starts on
its first token is given all tokens, and one that starts behind the current token is given those
behind it. -/
structure SoundAt (eof : Token) (fuel : Nat) : Prop where
  expression : ∀ level ts ds, Level.lowest ≤ level → Scanned ts eof → 8 * ts.length + 2 ≤ fuel →
    (expression level fuel).Reads ⟨ts, eof, ds⟩ fun e after => ∃ ws, Took ws ts after ∧
      e.SpelledTo level (after.tail.headD eof).kind.level ws ∧
      (after.tail.headD eof).kind.level ≤ level
  continuation : ∀ level left us t ts ds, Level.lowest ≤ level → Scanned ts eof →
    8 * (ts.length + 1) + 1 ≤ fuel → left.SpelledTo level (ts.headD eof).kind.level us →
    (continuation level left fuel).Reads ⟨t :: ts, eof, ds⟩ fun e after => ∃ ws, Took ws ts after ∧
      e.SpelledTo level (after.tail.headD eof).kind.level (us ++ ws) ∧
      (after.tail.headD eof).kind.level ≤ level
  extension : ∀ left us t ts ds, Level.lowest < t.kind.level → Scanned (t :: ts) eof →
    8 * (ts.length + 1) + 1 ≤ fuel → Enclosed (t.kind.level ≤ left.level) (left.Spelled true) us →
    (extension left fuel).Reads ⟨t :: ts, eof, ds⟩ fun e after => ∃ ws, Took ws (t :: ts) after ∧
      e.Spelled true (us ++ ws) ∧ e.level = t.kind.level ∧
      (after.tail.headD eof).kind.level ≤ e.level ∧ ws ≠ []
  operand : ∀ ts ds, Scanned ts eof → 8 * ts.length + 1 ≤ fuel →
    (operand fuel).Reads ⟨ts, eof, ds⟩ fun e after => ∃ ws, Took ws ts after ∧
      ∀ level, e.SpelledTo level (after.tail.headD eof).kind.level ws
  expressionList : ∀ close t ts ds, close.isFixed → Scanned ts eof → 8 * (ts.length + 1) ≤ fuel →
    (expressionList close fuel).Reads ⟨t :: ts, eof, ds⟩ fun es after => ∃ ws,
      Took (ws ++ [close.word]) ts after ∧ Expr.SpelledAll true es ws
  expressions : ∀ close done t ts ds, close.isFixed → Scanned ts eof → 8 * (ts.length + 1) ≤ fuel →
    (expressions close done fuel).Reads ⟨t :: ts, eof, ds⟩ fun es after => ∃ es' ws,
      es = done.toList ++ es' ∧ Took (ws ++ [close.word]) ts after ∧ Expr.SpelledRest true es' ws
  pairs : ∀ done t ts ds, Scanned ts eof → 8 * (ts.length + 1) ≤ fuel →
    (pairs done fuel).Reads ⟨t :: ts, eof, ds⟩ fun ps after => ∃ ps' ws, ps = done.toList ++ ps' ∧
      Took (ws ++ [Kind.rbrace.word]) ts after ∧ Expr.SpelledPairs true ps' ws ∧
      ((ts.headD eof).kind = .rbrace → ps' = [])
  block : ∀ ts ds, Scanned ts eof → (ts.headD eof).kind = .lbrace → 8 * ts.length ≤ fuel →
    (block fuel).Reads ⟨ts, eof, ds⟩ fun b after => ∃ ws, Took ws ts after ∧ b.Spelled true ws
  statements : ∀ inBlock done ts ds, Scanned ts eof → 8 * ts.length + 4 ≤ fuel →
    (statements inBlock done fuel).Reads ⟨ts, eof, ds⟩ fun ss after => ∃ ss' us,
      ss = done.toList ++ ss' ∧ ts = us ++ after ∧ Stmt.SpelledAll true ss' (us.map Token.word) ∧
      (after = [] ∨ inBlock ∧ (after.headD eof).kind = .rbrace)
  statement : ∀ ts ds, Scanned ts eof → 8 * ts.length + 3 ≤ fuel →
    (statement fuel).Reads ⟨ts, eof, ds⟩ fun s after => ∃ ws, Took ws ts after ∧
      s.Spelled true ws ∧ ws ≠ []

/-- The rest of a parameter list. -/
theorem reads_parameters {eof t : Token} {ts : List Token} {ds : Array Diagnostic} {fuel : Nat}
    {done : Array Ident} (hts : Scanned ts eof) (hfuel : ts.length < fuel) :
    (parameters done fuel).Reads ⟨t :: ts, eof, ds⟩ fun ids after => ∃ ids',
      ids = done.toList ++ ids' ∧ (∀ id ∈ ids', IsName id.name) ∧
      Took (ids'.flatMap (fun id => [Kind.comma.word, id.word]) ++ [Kind.rparen.word]) ts after := by
  induction fuel generalizing t ts done with
  | zero => exact absurd hfuel (Nat.not_lt_zero _)
  | succ fuel ih =>
    rw [parameters, reads_peek_bind, Reader.peek_cons]
    split
    · next hcomma =>
      obtain ⟨comma, ts, rfl, hcomma⟩ := hts.exists_cons hcomma (by decide)
      rw [reads_advance_bind, Reader.advance_cons, reads_expect_bind, Reader.peek_cons]
      intro hident
      obtain ⟨x, ts, rfl, hident⟩ := hts.tail.exists_cons hident (by decide)
      obtain ⟨hname, hword⟩ := hts.tail.name hident
      rw [Reader.advance_cons, reads_current_bind, Reader.current_cons]
      rw [List.length_cons, List.length_cons] at hfuel
      refine (ih hts.tail.tail (by omega)).mono ?_
      rintro _ after ⟨ids, rfl, hids, htook⟩
      refine ⟨⟨x⟩ :: ids, by simp, List.forall_mem_cons.mpr ⟨hname, hids⟩, ?_⟩
      have htook := (Took.first comma (x :: ts)).trans ((Took.first x ts).trans htook)
      rw [hts.word hcomma rfl, hword] at htook
      simpa using htook
    · rw [reads_expect_bind]
      intro hparen
      rw [reads_pure]
      exact ⟨[], by simp, by simp, (Took.nil t ts).expect hts hparen rfl⟩

theorem reads_parameterList {eof t : Token} {ts : List Token} {ds : Array Diagnostic} {fuel : Nat}
    (hts : Scanned ts eof) (hfuel : ts.length ≤ fuel) :
    (parameterList fuel).Reads ⟨t :: ts, eof, ds⟩ fun ids after => (∀ id ∈ ids, IsName id.name) ∧
      Took (parameterWords ids ++ [Kind.rparen.word]) ts after := by
  rw [parameterList, reads_peek_bind, Reader.peek_cons]
  split
  · next hparen =>
    rw [reads_advance_bind, reads_pure]
    exact ⟨by simp, (Took.nil t ts).expect hts hparen rfl⟩
  · rw [reads_expect_bind, Reader.peek_cons]
    intro hident
    obtain ⟨x, ts, rfl, hident⟩ := hts.exists_cons hident (by decide)
    obtain ⟨hname, hword⟩ := hts.name hident
    rw [Reader.advance_cons, reads_current_bind, Reader.current_cons]
    refine (reads_parameters hts.tail (Nat.lt_of_succ_le hfuel)).mono ?_
    rintro _ after ⟨ids, rfl, hids, htook⟩
    refine ⟨List.forall_mem_cons.mpr ⟨hname, hids⟩, ?_⟩
    have htook := (Took.first x ts).trans htook
    rw [hword] at htook
    simpa [parameterWords] using htook

/-- The end of a statement. -/
theorem reads_ending {α : Type} {a : α} {ws : List Word} {before after : List Token} {eof : Token}
    {ds : Array Diagnostic} (hbefore : Scanned before eof) (h : Took ws before after) :
    (skip .semicolon >>= fun _ => pure a : Reading α).Reads ⟨after, eof, ds⟩ fun b after' => b = a ∧
      ∃ ending, Ended true ending ∧ Took (ws ++ ending) before after' := by
  rw [reads_skip_bind, reads_pure, reads_pure]
  split
  · next hsemicolon => exact ⟨rfl, _, .inl rfl, h.expect hbefore hsemicolon rfl⟩
  · exact ⟨rfl, [], .inr ⟨rfl, rfl⟩, by rwa [List.append_nil]⟩

namespace SoundAt

variable {eof : Token} {fuel : Nat} (h : SoundAt eof fuel)

include h

theorem expression_succ {level : Nat} {ts : List Token} {ds : Array Diagnostic}
    (hlevel : Level.lowest ≤ level) (hts : Scanned ts eof) (hfuel : 8 * ts.length + 2 ≤ fuel + 1) :
    (Reading.expression level (fuel + 1)).Reads ⟨ts, eof, ds⟩ fun e after => ∃ ws, Took ws ts after ∧
      e.SpelledTo level (after.tail.headD eof).kind.level ws ∧
      (after.tail.headD eof).kind.level ≤ level := by
  rw [Reading.expression]
  refine (h.operand ts ds hts (by omega)).bind (fun _ => (keepsAt fuel).continuation _ _) ?_
  rintro left after ⟨us, htook, hleft⟩
  have hlength := htook.length_le (hleft level).ne_nil
  have hafter := htook.scanned hts
  obtain ⟨t, tail, rfl⟩ := htook.exists_cons
  rw [List.length_cons] at hlength
  have hcontinuation := h.continuation level left us t tail ds hlevel hafter (by omega) (hleft level)
  refine hcontinuation.mono ?_
  rintro e after ⟨ws, htook', he, hnext⟩
  exact ⟨us ++ ws, htook.trans htook', he, hnext⟩

theorem continuation_succ {level : Nat} {left : Expr} {us : List Word} {t : Token} {ts : List Token}
    {ds : Array Diagnostic} (hlevel : Level.lowest ≤ level) (hts : Scanned ts eof)
    (hfuel : 8 * (ts.length + 1) + 1 ≤ fuel + 1)
    (hleft : left.SpelledTo level (ts.headD eof).kind.level us) :
    (Reading.continuation level left (fuel + 1)).Reads ⟨t :: ts, eof, ds⟩ fun e after => ∃ ws,
      Took ws ts after ∧ e.SpelledTo level (after.tail.headD eof).kind.level (us ++ ws) ∧
      (after.tail.headD eof).kind.level ≤ level := by
  rw [Reading.continuation, reads_peek_bind, Reader.peek_cons]
  split
  · next hlt =>
    -- the end of the text has the lowest level, and ends every expression
    have hoperator : (ts.headD eof).kind ≠ .eof := by
      intro heof
      rw [heof] at hlt
      exact absurd hlevel (Nat.not_le.mpr hlt)
    obtain ⟨t', ts, rfl, -⟩ := hts.exists_cons rfl hoperator
    have hlt : level < t'.kind.level := hlt
    rw [List.length_cons] at hfuel
    rw [reads_advance_bind, Reader.advance_cons]
    have hextension := h.extension left us t' ts ds (Nat.lt_of_le_of_lt hlevel hlt) hts (by omega)
      (hleft.mono And.right)
    refine Reads.bind hextension (fun _ => (keepsAt fuel).continuation _ _) ?_
    rintro whole after ⟨ws, htook, hwhole, hwholeLevel, hnext, hne⟩
    have hlength := htook.length_le hne
    have hafter := htook.scanned hts
    obtain ⟨t'', tail, rfl⟩ := htook.exists_cons
    rw [List.length_cons, List.length_cons] at hlength
    have hspelled : whole.SpelledTo level (tail.headD eof).kind.level (us ++ ws) :=
      .bare ⟨.inl (hwholeLevel ▸ hlt), hnext⟩ hwhole
    refine (h.continuation level whole _ t'' tail ds hlevel hafter (by omega) hspelled).mono ?_
    rintro e after ⟨vs, htook', he, hnext'⟩
    exact ⟨ws ++ vs, htook.trans htook', by rwa [← List.append_assoc], hnext'⟩
  · next hle =>
    rw [reads_pure]
    exact ⟨[], .nil t ts, by rwa [List.append_nil], Nat.not_lt.mp hle⟩

theorem extension_succ {left : Expr} {us : List Word} {t : Token} {ts : List Token}
    {ds : Array Diagnostic} (hlevel : Level.lowest < t.kind.level) (hts : Scanned (t :: ts) eof)
    (hfuel : 8 * (ts.length + 1) + 1 ≤ fuel + 1)
    (hleft : Enclosed (t.kind.level ≤ left.level) (left.Spelled true) us) :
    (Reading.extension left (fuel + 1)).Reads ⟨t :: ts, eof, ds⟩ fun e after => ∃ ws,
      Took ws (t :: ts) after ∧ e.Spelled true (us ++ ws) ∧ e.level = t.kind.level ∧
      (after.tail.headD eof).kind.level ≤ e.level ∧ ws ≠ [] := by
  have hfirst : Took [t.word] (t :: ts) (t :: ts) := .first t ts
  rw [Reading.extension, reads_current_bind, Reader.current_cons]
  cases hop : BinaryOp.ofKind? t.kind with
  | some op =>
    have hkind : t.kind = op.kind := BinaryOp.ofKind?_eq_some_iff.mp hop
    have hword := hts.word hkind (by cases op <;> rfl)
    rw [reads_advance_bind, Reader.advance_cons]
    refine Reads.bind (h.expression _ ts ds (Nat.le_of_lt hlevel) hts.tail (by omega))
      (fun _ => keeps_pure _) ?_
    rintro right after ⟨vs, htook, hright, hnext⟩
    rw [reads_pure]
    have hlevels : Enclosed (op.level < right.level) (right.Spelled true) vs := by
      refine hright.mono ?_
      rintro ⟨hfree, -⟩
      rw [hkind] at hfree
      exact hfree.elim id fun hunary => Nat.lt_of_lt_of_le op.level_lt_unary hunary
    rw [hkind] at hleft
    refine ⟨[t.word] ++ vs, hfirst.trans htook, ?_, congrArg Kind.level hkind.symm, ?_, by simp⟩
    · rw [hword]
      exact ⟨us, vs, hleft, hlevels, rfl⟩
    · rw [hkind] at hnext
      exact hnext
  | none =>
    dsimp only
    split
    · next hparen =>
      have hword := hts.word hparen rfl
      refine Reads.bind (h.expressionList .rparen t ts ds rfl hts.tail (by omega))
        (fun _ => keeps_pure _) ?_
      rintro es after ⟨vs, htook, hes⟩
      rw [reads_pure]
      rw [hparen] at hleft
      refine ⟨[t.word] ++ (vs ++ [Kind.rparen.word]), hfirst.trans htook, ?_, ?_, ?_, by simp⟩
      · rw [hword]
        exact ⟨us, vs, hleft, hes, rfl⟩
      · rw [hparen]
        rfl
      · exact Kind.level_le _
    · next hparen =>
      -- of the kinds with a level of their own only the opening bracket is left
      have hbracket : t.kind = .lbracket := by
        generalize t.kind = k at hlevel hop hparen
        cases k with
        | lbracket => rfl
        | lparen => exact absurd rfl hparen
        | plus | minus | asterisk | slash | lt | gt | eq | notEq => cases hop
        | _ => exact absurd hlevel (by decide)
      have hword := hts.word hbracket rfl
      rw [reads_advance_bind, Reader.advance_cons]
      refine Reads.bind (h.expression _ ts ds (Nat.le_refl _) hts.tail (by omega))
        (fun _ => (keeps_expect _).bind fun _ => keeps_pure _) ?_
      rintro key after ⟨vs, htook, hkey, -⟩
      rw [reads_expect_bind]
      intro hclose
      rw [reads_pure]
      rw [hbracket] at hleft
      have htook' := (hfirst.trans htook).expect hts hclose rfl
      refine ⟨[t.word] ++ vs ++ [Kind.rbracket.word], htook', ?_, ?_, ?_, by simp⟩
      · rw [hword]
        exact ⟨us, vs, hleft, hkey.mono fun _ => trivial, by simp⟩
      · rw [hbracket]
        rfl
      · exact Kind.level_le _

theorem operand_unary {t : Token} {ts : List Token} {ds : Array Diagnostic}
    (hts : Scanned (t :: ts) eof) (hfuel : 8 * (ts.length + 1) ≤ fuel) {op : UnaryOp}
    (hop : t.kind = op.kind) :
    (do advance; return Expr.unary t op (← Reading.expression Level.unary fuel) : Reading Expr).Reads
      ⟨t :: ts, eof, ds⟩ fun e after => ∃ ws, Took ws (t :: ts) after ∧
        ∀ level, e.SpelledTo level (after.tail.headD eof).kind.level ws := by
  rw [reads_advance_bind, Reader.advance_cons]
  refine Reads.bind (h.expression _ ts ds (by decide) hts.tail (by omega)) (fun _ => keeps_pure _) ?_
  rintro e after ⟨us, htook, he, hnext⟩
  rw [reads_pure]
  refine ⟨[t.word] ++ us, (Took.first t ts).trans htook, fun level => ?_⟩
  refine .bare ⟨.inr (Nat.le_refl _), hnext⟩ ?_
  rw [hts.word hop (by cases op <;> rfl)]
  exact ⟨us, he.mono fun hfree => hfree.1.elim Nat.le_of_lt id, rfl⟩

theorem operand_if {t : Token} {ts : List Token} {ds : Array Diagnostic}
    (hts : Scanned (t :: ts) eof) (hfuel : 8 * (ts.length + 1) ≤ fuel) (hk : t.kind = .if) :
    (Reading.operand (fuel + 1)).Reads ⟨t :: ts, eof, ds⟩ fun e after => ∃ ws,
      Took ws (t :: ts) after ∧ ∀ level, e.SpelledTo level (after.tail.headD eof).kind.level ws := by
  have hif : Took [Kind.if.word] (t :: ts) (t :: ts) := hts.word hk rfl ▸ .first t ts
  rw [Reading.operand, reads_current_bind, Reader.current_cons, hk]
  dsimp only
  rw [reads_expect_bind, Reader.peek_cons, Reader.advance_cons, reads_advance_bind, Reader.advance_mk]
  intro hopen
  -- the condition in its parentheses
  have hopened := hif.expect hts hopen rfl
  have hlength := hopened.length_eq
  simp only [List.tail_cons, List.length_append, List.length_cons] at hlength
  refine Reads.bind (h.expression _ ts.tail ds (by decide) (hopened.scanned hts) (by omega))
    (fun _ => (keeps_expect _).bind fun _ => (keeps_expect _).bind fun _ =>
      (keepsAt fuel).block.bind fun _ => keeps_peek.bind fun _ => .ite (keeps_advance.bind fun _ =>
        (keeps_expect _).bind fun _ => (keepsAt fuel).block.bind fun _ => keeps_pure _)
        (keeps_pure _)) ?_
  rintro c after ⟨us, htook, hc, -⟩
  rw [reads_expect_bind]
  intro hclose
  have hclosed := (hopened.trans htook).expect hts hclose rfl
  rw [reads_expect_bind]
  intro hbrace
  -- the block that is always there
  have hlength := hclosed.length_eq
  rw [List.length_cons] at hlength
  refine Reads.bind (h.block after.tail.tail ds (hclosed.scanned hts) hbrace (by omega)) (fun _ =>
    keeps_peek.bind fun _ => .ite (keeps_advance.bind fun _ => (keeps_expect _).bind fun _ =>
      (keepsAt fuel).block.bind fun _ => keeps_pure _) (keeps_pure _)) ?_
  rintro yes after' ⟨vs, htook', hyes⟩
  have hconsequence := hclosed.trans htook'
  rw [reads_peek_bind]
  split
  · next helse =>
    rw [reads_advance_bind, reads_expect_bind]
    intro hbrace'
    have helse := hconsequence.expect hts helse rfl
    have hlength := helse.length_eq
    rw [List.length_cons] at hlength
    refine Reads.bind (h.block after'.tail.tail ds (helse.scanned hts) hbrace' (by omega))
      (fun _ => keeps_pure _) ?_
    rintro no after'' ⟨vs', htook'', hno⟩
    rw [reads_pure]
    refine ⟨_, helse.trans htook'', fun level => .ofCall rfl ?_ _⟩
    exact ⟨us, vs, vs', hc.mono fun _ => trivial, hyes, hno, by simp⟩
  · rw [reads_pure]
    refine ⟨_, hconsequence, fun level => .ofCall rfl ?_ _⟩
    exact ⟨us, vs, hc.mono fun _ => trivial, hyes, by simp⟩

theorem operand_function {t : Token} {ts : List Token} {ds : Array Diagnostic}
    (hts : Scanned (t :: ts) eof) (hfuel : 8 * (ts.length + 1) ≤ fuel) (hk : t.kind = .function) :
    (Reading.operand (fuel + 1)).Reads ⟨t :: ts, eof, ds⟩ fun e after => ∃ ws,
      Took ws (t :: ts) after ∧ ∀ level, e.SpelledTo level (after.tail.headD eof).kind.level ws := by
  have hfunction : Took [Kind.function.word] (t :: ts) (t :: ts) := hts.word hk rfl ▸ .first t ts
  rw [Reading.operand, reads_current_bind, Reader.current_cons, hk]
  dsimp only
  rw [reads_expect_bind, Reader.peek_cons, Reader.advance_cons]
  intro hopen
  have hopened := hfunction.expect hts hopen rfl
  have hlength := hopened.length_eq
  have hafter := hopened.scanned hts
  obtain ⟨paren, ts, rfl⟩ := hopened.exists_cons
  simp only [List.tail_cons, List.length_append, List.length_cons] at hlength hfuel
  refine Reads.bind (reads_parameterList hafter (by omega))
    (fun _ => (keeps_expect _).bind fun _ => (keepsAt fuel).block.bind fun _ => keeps_pure _) ?_
  rintro ps after ⟨hnames, htook⟩
  have hparameters := hopened.trans htook
  rw [reads_expect_bind]
  intro hbrace
  have hlength := hparameters.length_eq
  rw [List.length_cons, List.length_cons] at hlength
  refine Reads.bind (h.block after.tail ds (hparameters.scanned hts) hbrace (by omega))
    (fun _ => keeps_pure _) ?_
  rintro body after' ⟨us, htook', hbody⟩
  rw [reads_pure]
  refine ⟨_, hparameters.trans htook', fun level => .ofCall rfl ?_ _⟩
  exact ⟨us, hnames, hbody, by simp⟩

theorem operand_succ {ts : List Token} {ds : Array Diagnostic} (hts : Scanned ts eof)
    (hfuel : 8 * ts.length + 1 ≤ fuel + 1) :
    (Reading.operand (fuel + 1)).Reads ⟨ts, eof, ds⟩ fun e after => ∃ ws, Took ws ts after ∧
      ∀ level, e.SpelledTo level (after.tail.headD eof).kind.level ws := by
  cases ts with
  | nil =>
    rw [Reading.operand, reads_current_bind, Reader.current_mk, List.headD_nil, hts.eof]
    exact reads_fail.mpr trivial
  | cons t ts =>
  have hfirst : Took [t.word] (t :: ts) (t :: ts) := .first t ts
  have hfuel : 8 * (ts.length + 1) ≤ fuel := Nat.le_of_succ_le_succ hfuel
  -- the operands with blocks take lemmas of their own
  by_cases hif : t.kind = .if
  · exact h.operand_if hts hfuel hif
  by_cases hfunction : t.kind = .function
  · exact h.operand_function hts hfuel hfunction
  rw [Reading.operand, reads_current_bind, Reader.current_cons]
  split
  · next hk =>
    obtain ⟨hname, hword⟩ := hts.name hk
    rw [reads_pure]
    refine ⟨_, hfirst, fun level => .ofCall rfl ?_ _⟩
    rw [hword]
    exact ⟨hname, rfl⟩
  · next hk =>
    split
    · next n hn =>
      rw [reads_pure]
      refine ⟨_, hfirst, fun level => .ofCall rfl ?_ _⟩
      rw [Token.word, hk]
      exact ⟨t.literal, hn, fun _ => rfl, rfl⟩
    · exact reads_fail.mpr trivial
  · next hk =>
    have hproper := (hts.tokens t List.mem_cons_self).2 (by rw [hk]; decide)
    rw [Token.word, hk] at hproper
    rw [reads_pure]
    refine ⟨_, hfirst, fun level => .ofCall rfl ?_ _⟩
    rw [Token.word, hk]
    exact ⟨hproper, rfl⟩
  · next hk =>
    rw [reads_pure]
    refine ⟨_, hfirst, fun level => .ofCall rfl ?_ _⟩
    rw [hts.word hk rfl]
    exact rfl
  · next hk =>
    rw [reads_pure]
    refine ⟨_, hfirst, fun level => .ofCall rfl ?_ _⟩
    rw [hts.word hk rfl]
    exact rfl
  · next hk => exact h.operand_unary hts hfuel hk
  · next hk => exact h.operand_unary hts hfuel hk
  · next hk =>
    rw [reads_advance_bind, Reader.advance_cons]
    refine Reads.bind (h.expression _ ts ds (Nat.le_refl _) hts.tail (by omega))
      (fun _ => (keeps_expect _).bind fun _ => keeps_pure _) ?_
    rintro e after ⟨us, htook, he, -⟩
    rw [reads_expect_bind]
    intro hclose
    rw [reads_pure]
    refine ⟨_, (hfirst.trans htook).expect hts hclose rfl, fun level => ?_⟩
    rw [hts.word hk rfl]
    exact he.parens
  · next hk => exact absurd hk hif
  · next hk => exact absurd hk hfunction
  · next hk =>
    refine Reads.bind (h.expressionList .rbracket t ts ds rfl hts.tail (by omega))
      (fun _ => keeps_pure _) ?_
    rintro es after ⟨us, htook, hes⟩
    rw [reads_pure]
    refine ⟨_, hfirst.trans htook, fun level => .ofCall rfl ?_ _⟩
    rw [hts.word hk rfl]
    exact ⟨us, hes, rfl⟩
  · next hk =>
    refine Reads.bind (h.pairs #[] t ts ds hts.tail (by omega)) (fun _ => keeps_pure _) ?_
    rintro _ after ⟨ps, us, rfl, htook, hps, -⟩
    rw [reads_pure]
    refine ⟨_, hfirst.trans htook, fun level => .ofCall rfl ?_ _⟩
    rw [hts.word hk rfl]
    exact ⟨us, hps, rfl⟩
  · exact reads_fail.mpr trivial

theorem expressionList_succ {close : Kind} {t : Token} {ts : List Token} {ds : Array Diagnostic}
    (hclose : close.isFixed) (hts : Scanned ts eof) (hfuel : 8 * (ts.length + 1) ≤ fuel + 1) :
    (Reading.expressionList close (fuel + 1)).Reads ⟨t :: ts, eof, ds⟩ fun es after => ∃ ws,
      Took (ws ++ [close.word]) ts after ∧ Expr.SpelledAll true es ws := by
  rw [Reading.expressionList, reads_advance_bind, Reader.advance_cons, reads_current_bind,
    Reader.current_mk]
  split
  · next hk =>
    rw [reads_pure]
    exact ⟨[], (Took.nil t ts).expect hts hk hclose, rfl⟩
  · refine Reads.bind (h.expression _ ts ds (Nat.le_refl _) hts (by omega))
      (fun _ => (keepsAt fuel).expressions _ _) ?_
    rintro e after ⟨us, htook, he, -⟩
    have hlength := htook.length_eq
    have hpos := List.length_pos_iff.mpr he.ne_nil
    have hafter := htook.scanned hts
    obtain ⟨t', tail, rfl⟩ := htook.exists_cons
    rw [List.tail_cons] at hlength
    refine (h.expressions close #[e] t' tail ds hclose hafter (by omega)).mono ?_
    rintro _ after ⟨es, ws, rfl, htook', hes⟩
    refine ⟨us ++ ws, ?_, us, ws, he.mono fun _ => trivial, hes, rfl⟩
    rw [List.append_assoc]
    exact htook.trans htook'

theorem expressions_succ {close : Kind} {done : Array Expr} {t : Token} {ts : List Token}
    {ds : Array Diagnostic} (hclose : close.isFixed) (hts : Scanned ts eof)
    (hfuel : 8 * (ts.length + 1) ≤ fuel + 1) :
    (Reading.expressions close done (fuel + 1)).Reads ⟨t :: ts, eof, ds⟩ fun es after => ∃ es' ws,
      es = done.toList ++ es' ∧ Took (ws ++ [close.word]) ts after ∧
      Expr.SpelledRest true es' ws := by
  rw [Reading.expressions, reads_peek_bind, Reader.peek_cons]
  split
  · next hcomma =>
    rw [reads_advance_bind, Reader.advance_cons, reads_advance_bind, Reader.advance_mk]
    have hcomma := (Took.nil t ts).expect hts hcomma rfl
    have hlength := hcomma.length_eq
    rw [List.tail_cons] at hlength
    refine Reads.bind (h.expression _ ts.tail ds (Nat.le_refl _) (hcomma.scanned hts) (by omega))
      (fun _ => (keepsAt fuel).expressions _ _) ?_
    rintro e after ⟨us, htook, he, -⟩
    have htook := hcomma.trans htook
    have hlength := htook.length_eq
    rw [List.length_append] at hlength
    have hpos := List.length_pos_iff.mpr he.ne_nil
    have hafter := htook.scanned hts
    obtain ⟨t', tail, rfl⟩ := htook.exists_cons
    rw [List.tail_cons] at hlength
    refine (h.expressions close _ t' tail ds hclose hafter (by omega)).mono ?_
    rintro _ after ⟨es, ws, rfl, htook', hes⟩
    refine ⟨e :: es, Kind.comma.word :: (us ++ ws), by simp, ?_, us, ws, he.mono fun _ => trivial,
      hes, rfl⟩
    have htook := htook.trans htook'
    simpa using htook
  · rw [reads_expect_bind, Reader.peek_cons]
    intro hk
    rw [reads_pure]
    exact ⟨[], [], by simp, (Took.nil t ts).expect hts hk hclose, rfl⟩

theorem pairs_succ {done : Array (Expr × Expr)} {t : Token} {ts : List Token}
    {ds : Array Diagnostic} (hts : Scanned ts eof) (hfuel : 8 * (ts.length + 1) ≤ fuel + 1) :
    (Reading.pairs done (fuel + 1)).Reads ⟨t :: ts, eof, ds⟩ fun ps after => ∃ ps' ws,
      ps = done.toList ++ ps' ∧ Took (ws ++ [Kind.rbrace.word]) ts after ∧
      Expr.SpelledPairs true ps' ws ∧ ((ts.headD eof).kind = .rbrace → ps' = []) := by
  rw [Reading.pairs, reads_peek_bind, Reader.peek_cons]
  split
  · next hk =>
    rw [reads_advance_bind, reads_pure]
    exact ⟨[], [], by simp, (Took.nil t ts).expect hts hk rfl, rfl, fun _ => rfl⟩
  next hopen =>
  rw [reads_advance_bind, Reader.advance_cons]
  refine Reads.bind (h.expression _ ts ds (Nat.le_refl _) hts (by omega))
    (fun _ => (keeps_expect _).bind fun _ => keeps_advance.bind fun _ =>
      ((keepsAt fuel).expression _).bind fun _ => keeps_peek.bind fun _ =>
      .ite ((keepsAt fuel).pairs _) ((keeps_expect _).bind fun _ => (keepsAt fuel).pairs _)) ?_
  rintro key after ⟨us, hkeyTook, hkey, -⟩
  have hpos := List.length_pos_iff.mpr hkey.ne_nil
  rw [reads_expect_bind]
  intro hcolon
  have hcolon := hkeyTook.expect hts hcolon rfl
  have hlength := hcolon.length_eq
  rw [List.length_append] at hlength
  rw [reads_advance_bind]
  refine Reads.bind (h.expression _ after.tail.tail ds (Nat.le_refl _) (hcolon.scanned hts) (by omega))
    (fun _ => keeps_peek.bind fun _ =>
      .ite ((keepsAt fuel).pairs _) ((keeps_expect _).bind fun _ => (keepsAt fuel).pairs _)) ?_
  rintro value after' ⟨vs, hvalueTook, hvalue, -⟩
  have hentry := hcolon.trans hvalueTook
  rw [reads_peek_bind]
  split
  · next hlast =>
    have hlength := hentry.length_eq
    simp only [List.length_append] at hlength
    have hafter := hentry.scanned hts
    obtain ⟨t', tail, rfl⟩ := hentry.exists_cons
    rw [List.tail_cons] at hlength
    refine (h.pairs _ t' tail ds hafter (by omega)).mono ?_
    rintro _ after ⟨ps, ws, rfl, htook, hps, hnone⟩
    -- the brace follows, so no more entries are read
    obtain rfl := hnone hlast
    refine ⟨[(key, value)], us ++ Kind.colon.word :: (vs ++ ([] ++ ws)), by simp, ?_, ?_, ?_⟩
    · simpa using hentry.trans htook
    · exact ⟨us, vs, [], ws, hkey.mono fun _ => trivial, hvalue.mono fun _ => trivial,
        .inr ⟨rfl, rfl⟩, hps, rfl⟩
    · exact fun hk => absurd hk hopen
  · rw [reads_expect_bind]
    intro hcomma
    have hcomma := hentry.expect hts hcomma rfl
    have hlength := hcomma.length_eq
    simp only [List.length_append] at hlength
    have hafter := hcomma.scanned hts
    obtain ⟨t', tail, hcons⟩ := hcomma.exists_cons
    rw [hcons, List.tail_cons] at hlength
    rw [hcons] at hafter
    rw [Reader.advance_mk, hcons]
    refine (h.pairs _ t' tail ds hafter (by omega)).mono ?_
    rintro _ after ⟨ps, ws, rfl, htook, hps, -⟩
    refine ⟨(key, value) :: ps, us ++ Kind.colon.word :: (vs ++ ([Kind.comma.word] ++ ws)), by simp,
      ?_, ?_, ?_⟩
    · rw [hcons] at hcomma
      simpa using hcomma.trans htook
    · exact ⟨us, vs, [Kind.comma.word], ws, hkey.mono fun _ => trivial, hvalue.mono fun _ => trivial,
        .inl rfl, hps, rfl⟩
    · exact fun hk => absurd hk hopen

theorem block_succ {ts : List Token} {ds : Array Diagnostic} (hts : Scanned ts eof)
    (hk : (ts.headD eof).kind = .lbrace) (hfuel : 8 * ts.length ≤ fuel + 1) :
    (Reading.block (fuel + 1)).Reads ⟨ts, eof, ds⟩ fun b after => ∃ ws, Took ws ts after ∧
      b.Spelled true ws := by
  obtain ⟨t, ts, rfl, hk⟩ := hts.exists_cons hk (by decide)
  have hopen : Took [Kind.lbrace.word] (t :: ts) (t :: ts) := hts.word hk rfl ▸ .first t ts
  rw [List.length_cons] at hfuel
  rw [Reading.block, reads_current_bind, reads_advance_bind, Reader.advance_cons]
  refine Reads.bind (h.statements true #[] ts ds hts.tail (by omega))
    (fun _ => keeps_current.bind fun _ => .ite (keeps_fail _) (keeps_pure _)) ?_
  rintro _ after ⟨ss, us, rfl, rfl, hss, hstop⟩
  rw [reads_current_bind, Reader.current_mk]
  split
  · exact reads_fail.mpr trivial
  · next hne =>
    rw [reads_pure]
    have hbrace : (after.headD eof).kind = .rbrace := by
      rcases hstop with rfl | ⟨-, hbrace⟩
      · exact absurd hts.eof hne
      · exact hbrace
    obtain ⟨brace, tail, rfl, hbrace⟩ := hts.tail.right.exists_cons hbrace (by decide)
    have hword := hts.tail.right.word hbrace rfl
    refine ⟨Kind.lbrace.word :: (us.map Token.word ++ [Kind.rbrace.word]), ?_, _, hss, rfl⟩
    refine hopen.trans ⟨us ++ [brace], brace, tail, by simp, rfl, ?_⟩
    rw [List.map_append, List.map_singleton, hword]
    rfl

theorem statements_succ {inBlock : Bool} {done : Array Stmt} {ts : List Token}
    {ds : Array Diagnostic} (hts : Scanned ts eof) (hfuel : 8 * ts.length + 4 ≤ fuel + 1) :
    (Reading.statements inBlock done (fuel + 1)).Reads ⟨ts, eof, ds⟩ fun ss after => ∃ ss' us,
      ss = done.toList ++ ss' ∧ ts = us ++ after ∧ Stmt.SpelledAll true ss' (us.map Token.word) ∧
      (after = [] ∨ inBlock ∧ (after.headD eof).kind = .rbrace) := by
  rw [Reading.statements, reads_current_bind, Reader.current_mk]
  split
  · next hstop =>
    rw [reads_pure]
    refine ⟨[], [], by simp, rfl, rfl, hstop.imp (fun heof => ?_) id⟩
    cases ts with
    | nil => rfl
    | cons t ts => exact absurd heof (hts.tokens t List.mem_cons_self).1
  · refine Reads.bind (h.statement ts ds hts (by omega)).attempt ?_ ?_
    · rintro (_ | s)
      · exact keeps_recover.bind fun _ => (keepsAt fuel).statements _ _
      · exact keeps_advance.bind fun _ => (keepsAt fuel).statements _ _
    rintro _ after ⟨s, rfl, ws, htook, hs, hne⟩
    dsimp only
    rw [reads_advance_bind, Reader.advance_mk]
    have hlength := htook.length_eq
    have hpos := List.length_pos_iff.mpr hne
    refine (h.statements inBlock _ after.tail ds (htook.scanned hts) (by omega)).mono ?_
    rintro _ after' ⟨ss, us, rfl, htail, hss, hstop⟩
    obtain ⟨ts', t, tail, rfl, rfl, rfl⟩ := htook
    rw [List.tail_cons] at htail
    subst htail
    refine ⟨s :: ss, ts' ++ us, by simp, by simp, ?_, hstop⟩
    rw [List.map_append]
    exact ⟨_, _, hs, hss, rfl⟩

theorem statement_succ {ts : List Token} {ds : Array Diagnostic} (hts : Scanned ts eof)
    (hfuel : 8 * ts.length + 3 ≤ fuel + 1) :
    (Reading.statement (fuel + 1)).Reads ⟨ts, eof, ds⟩ fun s after => ∃ ws, Took ws ts after ∧
      s.Spelled true ws ∧ ws ≠ [] := by
  rw [Reading.statement, reads_current_bind, Reader.current_mk]
  split
  · next hk =>
    obtain ⟨t, ts, rfl, hk⟩ := hts.exists_cons hk (by decide)
    have hlet : Took [Kind.let.word] (t :: ts) (t :: ts) := hts.word hk rfl ▸ .first t ts
    rw [reads_expect_bind, Reader.peek_cons, Reader.advance_cons]
    intro hident
    obtain ⟨hname, hident⟩ := hlet.expect_name hts hident
    rw [reads_current_bind, Reader.current_mk, reads_expect_bind, Reader.peek_mk]
    intro hassign
    have hassign := hident.expect hts hassign rfl
    have hlength := hassign.length_eq
    simp only [List.tail_cons, List.length_append, List.length_cons] at hlength hfuel
    rw [Reader.advance_mk, reads_advance_bind, Reader.advance_mk]
    refine Reads.bind (h.expression _ ts.tail.tail ds (Nat.le_refl _) (hassign.scanned hts) (by omega))
      (fun _ => (keeps_skip _).bind fun _ => keeps_pure _) ?_
    rintro e after ⟨us, htook, he, -⟩
    refine (reads_ending hts (hassign.trans htook)).mono ?_
    rintro _ after' ⟨rfl, ending, hending, htook'⟩
    refine ⟨_, htook', ⟨us, ending, hname, he.mono fun _ => trivial, hending, ?_⟩, by simp⟩
    simp
  · next hk =>
    obtain ⟨t, ts, rfl, hk⟩ := hts.exists_cons hk (by decide)
    have hreturn : Took [Kind.return.word] (t :: ts) (t :: ts) := hts.word hk rfl ▸ .first t ts
    rw [List.length_cons] at hfuel
    rw [reads_advance_bind, Reader.advance_cons]
    refine Reads.bind (h.expression _ ts ds (Nat.le_refl _) hts.tail (by omega))
      (fun _ => (keeps_skip _).bind fun _ => keeps_pure _) ?_
    rintro e after ⟨us, htook, he, -⟩
    refine (reads_ending hts (hreturn.trans htook)).mono ?_
    rintro _ after' ⟨rfl, ending, hending, htook'⟩
    exact ⟨_, htook', ⟨us, ending, he.mono fun _ => trivial, hending, by simp⟩, by simp⟩
  · refine Reads.bind (h.expression _ ts ds (Nat.le_refl _) hts (by omega))
      (fun _ => (keeps_skip _).bind fun _ => keeps_pure _) ?_
    rintro e after ⟨us, htook, he, -⟩
    refine (reads_ending hts htook).mono ?_
    rintro _ after' ⟨rfl, ending, hending, htook'⟩
    exact ⟨_, htook', ⟨us, ending, he.mono fun _ => trivial, hending, rfl⟩, by simp [he.ne_nil]⟩

end SoundAt

/-- **The steps of the parser read what is spelled**, whatever bound on their nesting they get. -/
theorem soundAt (eof : Token) (fuel : Nat) : SoundAt eof fuel := by
  induction fuel with
  | zero =>
    constructor
    case block =>
      intro ts ds hts hbrace hfuel
      obtain ⟨t, ts, rfl, -⟩ := hts.exists_cons hbrace (by decide)
      exact absurd hfuel (by simp)
    all_goals
      intros
      omega
  | succ fuel h =>
    exact ⟨fun _ _ _ => h.expression_succ, fun _ _ _ _ _ _ => h.continuation_succ,
      fun _ _ _ _ _ => h.extension_succ, fun _ _ => h.operand_succ,
      fun _ _ _ _ => h.expressionList_succ, fun _ _ _ _ _ => h.expressions_succ,
      fun _ _ _ _ => h.pairs_succ, fun _ _ => h.block_succ, fun _ _ _ _ => h.statements_succ,
      fun _ _ => h.statement_succ⟩

end Reading

namespace Program

theorem scanned_scan (source : String) :
    Scanned (Token.scan source).1 (Token.scan source).2 :=
  ⟨Token.kind_scan_snd source, fun _ ht => Token.proper_of_mem_scan ht⟩

/-- Tokens that are read without a diagnostic spell the program. -/
theorem spelled_ofTokens {ts : List Token} {eof : Token} (hts : Scanned ts eof)
    (h : (ofTokens ts eof).2 = []) : (ofTokens ts eof).1.Spelled true (ts.map Token.word) := by
  have hreads := (Reading.soundAt eof (8 * ts.length + 8)).statements false #[] ts #[] hts (by omega)
  unfold Reading.Reads Reading.Ensures at hreads
  unfold ofTokens at h ⊢
  change (((Reading.statements false #[] (8 * ts.length + 8)).run.run ⟨ts, eof, #[]⟩).2.diagnostics
    |>.toList) = [] at h
  change Spelled true
    ⟨((Reading.statements false #[] (8 * ts.length + 8)).run.run ⟨ts, eof, #[]⟩).1.getD []⟩ _
  generalize (Reading.statements false #[] (8 * ts.length + 8)).run.run ⟨ts, eof, #[]⟩ = result
    at hreads h ⊢
  obtain ⟨statements?, r⟩ := result
  have hnone : r.diagnostics.size = 0 := by
    rw [← Array.length_toList, h, List.length_nil]
  cases statements? with
  | none => exact absurd hreads (by simp [hnone])
  | some ss =>
    rcases hreads with hgrown | ⟨-, -, ss', us, rfl, rfl, hspelled, hend⟩
    · exact absurd hgrown (by simp [hnone])
    · have hend : r.rest = [] := hend.elim id nofun
      rw [hend, List.append_nil]
      exact hspelled

/-- A text that is read without a diagnostic spells what is read. -/
theorem spelled_read (source : String) (h : (read source).2 = []) :
    (read source).1.Spelled true ((Token.scan source).1.map Token.word) :=
  spelled_ofTokens (scanned_scan source) h

theorem parse_eq_ok_iff {source : String} {p : Program} :
    parse source = .ok p ↔ read source = (p, []) := by
  unfold parse
  split
  · next q hread => simp [hread]
  · next q ds hne hread =>
    rw [hread]
    simp only [reduceCtorEq, Prod.mk.injEq, false_iff]
    rintro ⟨rfl, rfl⟩
    exact hne rfl

/-- **A text that parses is its program, spelled**: the tokens, from first to last, are those of the
tree in the order of the source, and what has no parentheses binds tightly enough for its place. -/
theorem spelled_of_parse {source : String} {p : Program} (h : parse source = .ok p) :
    p.Spelled true ((Token.scan source).1.map Token.word) := by
  have hspelled := spelled_read source
  rw [parse_eq_ok_iff.mp h] at hspelled
  exact hspelled rfl

/-- Parentheses that the tree does not show, and no semicolon. -/
theorem spelled_of_parse_grouped : ∃ p, parse "(1 + 2) * 3" = .ok p ∧
    p.Spelled true ((Token.scan "(1 + 2) * 3").1.map Token.word) := by
  have hclean : (read "(1 + 2) * 3").2 = [] := by decide +kernel
  have hparse : parse "(1 + 2) * 3" = .ok (read "(1 + 2) * 3").1 :=
    parse_eq_ok_iff.mpr (Prod.ext rfl hclean)
  exact ⟨_, hparse, spelled_of_parse hparse⟩

end Program

end Monkey
