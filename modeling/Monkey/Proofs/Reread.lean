import Monkey.Proofs.Layout
import Monkey.Proofs.Reading
import Monkey.Proofs.Writing

/-!
# What is spelled is read

Words that spell a program are read as a program of the same shape (`Program.Spelled.parse`). Together
with the scanner, which finds these words in their text, this makes parsing undo writing
(`Program.parse_spaced`).

An expression that stands on the left of an operator is not read by a step of its own: the step that
starts on its first word goes on behind its last one. `Expr.ReadsOn` says just this. It is proved for
every sort of expression from the same for its parts (`Expr.Rereads`), and for all trees at the end, by
recursion on the tree. Lists of expressions, entries and statements are read by induction on the list.
-/

namespace Monkey

/-! ### Tokens in front of others -/

/-- The tokens `rest` start with those of the words `ws`, and `tail` is what stands behind them. -/
def Begins (ws : List Word) (rest tail : List Token) : Prop :=
  ∃ ts, ts.map Token.word = ws ∧ rest = ts ++ tail

section

variable {w : Word} {us vs ws : List Word} {rest tail : List Token}

@[simp] theorem begins_nil : Begins [] rest tail ↔ rest = tail := by
  simp [Begins]

theorem begins_cons : Begins (w :: ws) rest tail ↔
    ∃ t rest', rest = t :: rest' ∧ t.word = w ∧ Begins ws rest' tail := by
  constructor
  · rintro ⟨ts, hts, rfl⟩
    obtain ⟨t, us, rfl, hword, hus⟩ := List.map_eq_cons_iff.mp hts
    exact ⟨t, us ++ tail, rfl, hword, us, hus, rfl⟩
  · rintro ⟨t, _, rfl, rfl, ts, rfl, rfl⟩
    exact ⟨t :: ts, rfl, rfl⟩

theorem begins_append : Begins (us ++ vs) rest tail ↔
    ∃ between, Begins us rest between ∧ Begins vs between tail := by
  constructor
  · rintro ⟨ts, hts, rfl⟩
    obtain ⟨ts, ts', rfl, hus, hvs⟩ := List.map_eq_append_iff.mp hts
    exact ⟨ts' ++ tail, ⟨ts, hus, by rw [List.append_assoc]⟩, ts', hvs, rfl⟩
  · rintro ⟨_, ⟨ts, rfl, rfl⟩, ts', rfl, rfl⟩
    exact ⟨ts ++ ts', by simp, by simp⟩

theorem Begins.length_eq (h : Begins ws rest tail) : rest.length = ws.length + tail.length := by
  obtain ⟨ts, rfl, rfl⟩ := h
  simp

end

open Reading

variable {eof : Token} {ds : Array Diagnostic} {rest tail : List Token} {fuel level : Nat}
  {us vs ws : List Word}

/-! ### Expressions and what goes on behind them -/

/-- An expression that starts with the words `ws`, which stand in front of `tail`, goes on behind them
with an expression of the shape of `e` on the left. -/
def Expr.ReadsOn (e : Expr) (eof : Token) (level : Nat) (ws : List Word) (tail : List Token) : Prop :=
  ∀ ⦃fuel rest ds Q⦄, Begins ws rest tail → 8 * rest.length + 2 ≤ fuel →
    (∀ e' t fuel', e'.shape = e.shape → 8 * (tail.length + 1) + 1 ≤ fuel' →
      (continuation level e' fuel').Yields ⟨t :: tail, eof, ds⟩ Q) →
    (expression level fuel).Yields ⟨rest, eof, ds⟩ Q

/-- The operators of the expression bind tighter than `level`, and the token behind it does not break
it up. -/
def Expr.FitsAt (e : Expr) (level : Nat) (next : Kind) : Prop :=
  (level < e.level ∨ Level.unary ≤ e.level) ∧ next.level ≤ e.level

/-- Words that spell the expression without parentheses are read as the expression wherever it
fits. -/
def Expr.Rereads (e : Expr) (eof : Token) : Prop :=
  ∀ ⦃level ws tail⦄, e.Spelled false ws → level < Level.call →
    e.FitsAt level (tail.headD eof).kind → (tail.headD eof).kind ≠ .else → e.ReadsOn eof level ws tail

/-- The level of every expression is above that of a whole one. -/
theorem Expr.lowest_lt_level (e : Expr) : Level.lowest < e.level := by
  cases e with
  | binary _ op => exact op.lowest_lt_level
  | unary _ op e => exact (by decide : Level.lowest < Level.unary)
  | _ => exact (by decide : Level.lowest < Level.call)

/-- What is read as an operand goes on as an expression. -/
theorem Expr.ReadsOn.of_operand {e : Expr} (hne : ws ≠ [])
    (h : ∀ ⦃fuel rest ds⦄, Begins ws rest tail → 8 * rest.length ≤ fuel →
      (operand (fuel + 1)).Yields ⟨rest, eof, ds⟩ (Stops eof ds tail fun e' => e'.shape = e.shape)) :
    e.ReadsOn eof level ws tail := by
  intro fuel rest ds Q hbegins hfuel hcontinue
  have hlength := hbegins.length_eq
  have hpos := List.length_pos_iff.mpr hne
  obtain ⟨fuel, rfl⟩ := Nat.exists_eq_add_of_le' (Nat.le_trans (Nat.le_add_left 2 _) hfuel)
  rw [expression, yields_bind]
  refine (h hbegins (by omega)).after fun e' t he' => ?_
  exact hcontinue e' t _ he' (by omega)

/-- Where no operator follows that binds tighter, the expression is the whole one. -/
theorem Expr.ReadsOn.whole {e : Expr} (h : e.ReadsOn eof level ws tail)
    (hnext : (tail.headD eof).kind.level ≤ level) (hbegins : Begins ws rest tail)
    (hfuel : 8 * rest.length + 2 ≤ fuel) : (expression level fuel).Yields ⟨rest, eof, ds⟩
      (Stops eof ds tail fun e' => e'.shape = e.shape) := by
  refine h hbegins hfuel fun e' t fuel' he' hfuel' => ?_
  obtain ⟨fuel', rfl⟩ := Nat.exists_eq_add_of_le' (Nat.le_trans (Nat.le_add_left 1 _) hfuel')
  rw [continuation, yields_bind, yields_peek, Reader.peek_cons, if_neg (Nat.not_lt.mpr hnext)]
  exact ⟨he', t, rfl⟩

/-- Nothing but a statement's end, a comma, a colon or a closing bracket comes behind a whole
expression. -/
def Kind.Closes (k : Kind) : Prop := k.level = Level.lowest ∧ k ≠ .else

theorem Expr.fitsAt_lowest (e : Expr) {k : Kind} (hk : k.Closes) : e.FitsAt Level.lowest k :=
  ⟨.inl e.lowest_lt_level, hk.1 ▸ Nat.le_of_lt e.lowest_lt_level⟩

theorem Begins.closes {k : Kind} (h : Begins (k.word :: ws) rest tail) (hk : k.Closes) :
    (rest.headD eof).kind.Closes := by
  obtain ⟨t, rest, rfl, ht, -⟩ := begins_cons.mp h
  have ht : t.kind = k := congrArg Word.kind ht
  rwa [List.headD_cons, ht]

/-- An expression in parentheses is an operand. -/
theorem Expr.ReadsOn.parens {e : Expr}
    (h : ∀ close, close.kind = .rparen → e.ReadsOn eof Level.lowest ws (close :: tail)) :
    e.ReadsOn eof level (Kind.lparen.word :: (ws ++ [Kind.rparen.word])) tail := by
  refine .of_operand (List.cons_ne_nil _ _) fun fuel rest ds hbegins hfuel => ?_
  obtain ⟨t, rest, rfl, ht, hbegins⟩ := begins_cons.mp hbegins
  obtain ⟨between, hinner, hbegins⟩ := begins_append.mp hbegins
  obtain ⟨close, _, rfl, hclose, htail⟩ := begins_cons.mp hbegins
  obtain rfl := begins_nil.mp htail
  have hopen : t.kind = .lparen := congrArg Word.kind ht
  have hclose : close.kind = .rparen := congrArg Word.kind hclose
  have hlevel : close.kind.level ≤ Level.lowest := hclose ▸ Nat.le_refl _
  rw [List.length_cons] at hfuel
  rw [operand, yields_bind, yields_current, Reader.current_cons, hopen]
  simp only [yields_bind, yields_advance, Reader.advance_cons]
  refine ((h close hclose).whole hlevel hinner (by omega)).after fun e' t' he' => ?_
  rw [yields_expect]
  exact ⟨hclose, he', close, rfl⟩

/-- In parentheses an expression fits everywhere. -/
theorem Enclosed.readsOn {free : Prop} {e : Expr} (h : Enclosed free (e.Spelled false) ws)
    (he : e.Rereads eof) (hlevel : level < Level.call)
    (hfree : free → e.FitsAt level (tail.headD eof).kind) (hnext : (tail.headD eof).kind ≠ .else) :
    e.ReadsOn eof level ws tail := by
  obtain ⟨n, us, hus, hn, rfl⟩ := h
  induction n generalizing level tail free with
  | zero =>
    rw [List.replicate_zero, List.replicate_zero, List.nil_append, List.append_nil]
    exact he hus hlevel (hfree (hn rfl)) hnext
  | succ n ih =>
    have hwords : List.replicate (n + 1) Kind.lparen.word ++
        (us ++ List.replicate (n + 1) Kind.rparen.word) = Kind.lparen.word ::
          ((List.replicate n Kind.lparen.word ++ (us ++ List.replicate n Kind.rparen.word)) ++
            [Kind.rparen.word]) := by
      rw [List.replicate_succ, List.replicate_succ']
      simp
    rw [hwords]
    refine .parens fun close hclose => ?_
    have hcloses : close.kind.Closes := hclose ▸ ⟨rfl, by decide⟩
    exact ih (by decide) (fun _ : True => e.fitsAt_lowest hcloses) hcloses.2 fun _ => trivial

/-- A whole expression, with any number of parentheses around it. -/
theorem Enclosed.yields_expression {free : Prop} {e : Expr} (h : Enclosed free (e.Spelled false) ws)
    (he : e.Rereads eof) (hnext : (tail.headD eof).kind.Closes) (hbegins : Begins ws rest tail)
    (hfuel : 8 * rest.length + 2 ≤ fuel) :
    (expression Level.lowest fuel).Yields ⟨rest, eof, ds⟩
      (Stops eof ds tail fun e' => e'.shape = e.shape) :=
  (h.readsOn he (by decide) (fun _ => e.fitsAt_lowest hnext) hnext.2).whole (Nat.le_of_eq hnext.1)
    hbegins hfuel

/-! ### Operators -/

/-- What an operator makes of the expression on its left and what stands behind it goes on as an
expression. -/
theorem Expr.ReadsOn.extend {e : Expr} (l : Expr) {k : Kind} (hk : level < k.level)
    (hl : ∀ o rest, o.kind = k → l.ReadsOn eof level us (o :: rest))
    (h : ∀ ⦃l' o fuel rest ds⦄, l'.shape = l.shape → o.kind = k → Begins vs rest tail →
      8 * (rest.length + 1) ≤ fuel → (extension l' (fuel + 1)).Yields ⟨o :: rest, eof, ds⟩
        (Stops eof ds tail fun e' => e'.shape = e.shape)) :
    e.ReadsOn eof level (us ++ k.word :: vs) tail := by
  intro fuel rest ds Q hbegins hfuel hcontinue
  obtain ⟨between, hleft, hbegins⟩ := begins_append.mp hbegins
  obtain ⟨o, between, rfl, ho, hright⟩ := begins_cons.mp hbegins
  have ho : o.kind = k := congrArg Word.kind ho
  refine hl o between ho hleft hfuel fun l' t fuel' hl' hfuel' => ?_
  rw [List.length_cons] at hfuel'
  have hlength := hright.length_eq
  obtain ⟨fuel', rfl⟩ := Nat.exists_eq_add_of_le' (Nat.le_trans (Nat.le_add_left 1 _) hfuel')
  rw [continuation, yields_bind, yields_peek, Reader.peek_cons, List.headD_cons, ho, if_pos hk,
    yields_bind, yields_advance, Reader.advance_cons, yields_bind]
  obtain ⟨fuel'', rfl⟩ : ∃ n, fuel' = n + 1 := ⟨fuel' - 1, by omega⟩
  refine (h hl' ho hright (by omega)).after fun e' t' he' => ?_
  exact hcontinue e' t' _ he' (by omega)

theorem Expr.Rereads.binary {t : Token} {op : BinaryOp} {l r : Expr} (hl : l.Rereads eof)
    (hr : r.Rereads eof) : (Expr.binary t op l r).Rereads eof := by
  rintro level _ tail ⟨us, vs, hus, hvs, rfl⟩ hlevel ⟨hfree, hnext⟩ helse
  have hop : level < op.level := hfree.elim id fun h => absurd op.level_lt_unary (Nat.not_lt.mpr h)
  have hcall : op.level < Level.call := Nat.lt_trans op.level_lt_unary (by decide)
  refine .extend l hop (fun o rest ho => ?_) fun l' o fuel rest ds hl' ho hright hfuel => ?_
  · refine hus.readsOn hl hlevel (fun hle => ⟨.inl (Nat.lt_of_lt_of_le hop hle), ?_⟩) ?_
    · rw [List.headD_cons, ho]
      exact hle
    · rw [List.headD_cons, ho]
      cases op <;> decide
  · have hkind := BinaryOp.ofKind?_eq_some_iff.mpr ho
    have hrest := hvs.readsOn hr hcall (fun hlt => ⟨.inl hlt, Nat.le_of_lt (Nat.lt_of_le_of_lt hnext hlt)⟩)
      helse
    rw [extension, yields_bind, yields_current, Reader.current_cons, hkind]
    simp only [yields_bind, yields_advance, Reader.advance_cons, ho]
    refine (hrest.whole hnext hright (by omega)).after fun r' t' hr' => ?_
    refine ⟨?_, t', rfl⟩
    simp only [Expr.shape, hl', hr']

theorem Expr.Rereads.unary {t : Token} {op : UnaryOp} {e : Expr} (he : e.Rereads eof) :
    (Expr.unary t op e).Rereads eof := by
  rintro level _ tail ⟨us, hus, rfl⟩ - ⟨-, hnext⟩ helse
  refine .of_operand (List.cons_ne_nil _ _) fun fuel rest ds hbegins hfuel => ?_
  obtain ⟨o, rest, rfl, ho, hbegins⟩ := begins_cons.mp hbegins
  have ho : o.kind = op.kind := congrArg Word.kind ho
  rw [List.length_cons] at hfuel
  have hrest : e.ReadsOn eof Level.unary us tail :=
    hus.readsOn he (by decide) (fun hle => ⟨.inr hle, Nat.le_trans hnext hle⟩) helse
  have hoperand : (do advance; return Expr.unary o op (← expression Level.unary fuel) :
      Reading Expr).Yields ⟨o :: rest, eof, ds⟩
        (Stops eof ds tail fun e' => e'.shape = (Expr.unary t op e).shape) := by
    simp only [yields_bind, yields_advance, Reader.advance_cons]
    refine (hrest.whole hnext hbegins (by omega)).after fun e' t' he' => ?_
    refine ⟨?_, t', rfl⟩
    simp only [Expr.shape, he']
  rw [operand, yields_bind, yields_current, Reader.current_cons, ho]
  cases op <;> exact hoperand

theorem Expr.Rereads.index {t : Token} {e i : Expr} (he : e.Rereads eof) (hi : i.Rereads eof) :
    (Expr.index t e i).Rereads eof := by
  rintro level _ tail ⟨us, vs, hus, hvs, rfl⟩ hlevel - -
  refine .extend e (k := .lbracket) hlevel (fun o rest ho => ?_)
    fun e' o fuel rest ds he' ho hbegins hfuel => ?_
  · refine hus.readsOn he hlevel (fun hle => ⟨.inl (Nat.lt_of_lt_of_le hlevel hle), ?_⟩) ?_
    · rw [List.headD_cons, ho]
      exact hle
    · rw [List.headD_cons, ho]
      decide
  · obtain ⟨between, hkey, hbegins⟩ := begins_append.mp hbegins
    have hnext : (between.headD eof).kind.Closes := hbegins.closes ⟨rfl, by decide⟩
    obtain ⟨close, _, rfl, hclose, htail⟩ := begins_cons.mp hbegins
    obtain rfl := begins_nil.mp htail
    have hclose : close.kind = .rbracket := congrArg Word.kind hclose
    rw [extension, yields_bind, yields_current, Reader.current_cons, ho]
    simp only [BinaryOp.ofKind?, yields_bind, yields_advance, Reader.advance_cons, reduceCtorEq,
      if_false]
    refine (hvs.yields_expression hi hnext hkey (by omega)).after fun i' t' hi' => ?_
    rw [yields_expect, yields_pure]
    refine ⟨hclose, ?_, close, rfl⟩
    simp only [Expr.shape, he', hi']

/-! ### Lists -/

/-- Behind an expression of a list comes a comma or what closes the list. -/
theorem Expr.SpelledRest.closes {es : List Expr} (h : Expr.SpelledRest false es ws) {close : Kind}
    (hclose : close.Closes) (hbegins : Begins (ws ++ [close.word]) rest tail) :
    (rest.headD eof).kind.Closes := by
  cases es with
  | nil =>
    obtain rfl : ws = [] := h
    exact hbegins.closes hclose
  | cons e es =>
    obtain ⟨us, vs, -, -, rfl⟩ := h
    exact Begins.closes (k := .comma) hbegins ⟨rfl, by decide⟩

/-- The rest of a list of expressions. -/
theorem yields_expressions {close : Kind} (hclose : close = .rparen ∨ close = .rbracket)
    {es : List Expr} (hes : ∀ e ∈ es, e.Rereads eof) (h : Expr.SpelledRest false es ws)
    (hbegins : Begins (ws ++ [close.word]) rest tail) (hfuel : 8 * (rest.length + 1) ≤ fuel + 1)
    (done : Array Expr) (t : Token) :
    (expressions close done (fuel + 1)).Yields ⟨t :: rest, eof, ds⟩ (Stops eof ds tail fun es' =>
      Expr.shapeAll es' = Expr.shapeAll (done.toList ++ es)) := by
  have hcloses : close.Closes := by rcases hclose with rfl | rfl <;> exact ⟨rfl, by decide⟩
  have hcomma : close ≠ .comma := by rcases hclose with rfl | rfl <;> decide
  induction es generalizing ws rest fuel done t with
  | nil =>
    obtain rfl : ws = [] := h
    obtain ⟨c, _, rfl, hc, htail⟩ := begins_cons.mp hbegins
    obtain rfl := begins_nil.mp htail
    have hc : c.kind = close := congrArg Word.kind hc
    rw [expressions, yields_bind, yields_peek, Reader.peek_cons, List.headD_cons, hc, if_neg hcomma]
    simp only [yields_bind, yields_expect, yields_pure, Reader.peek_cons, List.headD_cons]
    exact ⟨hc, by rw [List.append_nil], c, rfl⟩
  | cons e es ih =>
    obtain ⟨us, vs, hus, hvs, rfl⟩ := h
    rw [List.forall_mem_cons] at hes
    rw [List.cons_append, List.append_assoc] at hbegins
    obtain ⟨comma, rest, rfl, hkind, hbegins⟩ := begins_cons.mp hbegins
    have hkind : comma.kind = .comma := congrArg Word.kind hkind
    obtain ⟨between, he, hbetween⟩ := begins_append.mp hbegins
    have hlength := he.length_eq
    rw [List.length_cons] at hfuel
    rw [expressions, yields_bind, yields_peek, Reader.peek_cons, List.headD_cons, hkind, if_pos rfl]
    simp only [yields_bind, yields_advance, Reader.advance_cons]
    have hnext : (between.headD eof).kind.Closes := hvs.closes hcloses hbetween
    refine (hus.yields_expression hes.1 hnext he (by omega)).after fun e' t' he' => ?_
    obtain ⟨fuel, rfl⟩ : ∃ n, fuel = n + 1 := ⟨fuel - 1, by omega⟩
    refine (ih hes.2 hvs hbetween (by omega) (done.push e') t').after fun es' t'' hes' => ?_
    exact ⟨hes'.trans (by simp [Expr.shapeAll_eq_map, he']), t'', rfl⟩

/-- A list of expressions behind its opening bracket. -/
theorem yields_expressionList {close : Kind} (hclose : close = .rparen ∨ close = .rbracket)
    {es : List Expr} (hes : ∀ e ∈ es, e.Rereads eof) (h : Expr.SpelledAll false es ws)
    (hbegins : Begins (ws ++ [close.word]) rest tail) (hfuel : 8 * (rest.length + 1) ≤ fuel)
    (t : Token) :
    (expressionList close fuel).Yields ⟨t :: rest, eof, ds⟩ (Stops eof ds tail fun es' =>
      Expr.shapeAll es' = Expr.shapeAll es) := by
  have hcloses : close.Closes := by rcases hclose with rfl | rfl <;> exact ⟨rfl, by decide⟩
  have hstarts : close.starts = false := by rcases hclose with rfl | rfl <;> rfl
  obtain ⟨fuel, rfl⟩ : ∃ n, fuel = n + 2 := ⟨fuel - 2, by omega⟩
  rw [expressionList, yields_bind, yields_advance, Reader.advance_cons, yields_bind, yields_current,
    Reader.current_mk]
  cases es with
  | nil =>
    obtain rfl : ws = [] := h
    obtain ⟨c, _, rfl, hc, htail⟩ := begins_cons.mp hbegins
    obtain rfl := begins_nil.mp htail
    have hc : c.kind = close := congrArg Word.kind hc
    rw [List.headD_cons, if_pos hc]
    exact ⟨rfl, c, rfl⟩
  | cons e es =>
    obtain ⟨us, vs, hus, hvs, rfl⟩ := h
    rw [List.forall_mem_cons] at hes
    rw [List.append_assoc] at hbegins
    obtain ⟨between, he, hbetween⟩ := begins_append.mp hbegins
    obtain ⟨w, us, rfl, hw⟩ := hus.starts fun _ => Expr.Spelled.starts e
    have hlength := he.length_eq
    rw [List.length_cons] at hlength
    have hfirst : (rest.headD eof).kind ≠ close := by
      obtain ⟨c, rest, rfl, hc, -⟩ := begins_cons.mp he
      rintro rfl
      rw [← hc] at hw
      exact absurd hw (Bool.eq_false_iff.mp hstarts)
    rw [if_neg hfirst]
    simp only [yields_bind]
    have hnext : (between.headD eof).kind.Closes := hvs.closes hcloses hbetween
    refine (hus.yields_expression hes.1 hnext he (by omega)).after fun e' t' he' => ?_
    refine (yields_expressions hclose hes.2 hvs hbetween (by omega) #[e'] t').after
      fun es' t'' hes' => ?_
    exact ⟨hes'.trans (by simp [Expr.shapeAll_eq_map, he']), t'', rfl⟩

/-- The entries of a hash literal up to its closing brace. -/
theorem yields_pairs {ps : List (Expr × Expr)} (hps : ∀ p ∈ ps, p.1.Rereads eof ∧ p.2.Rereads eof)
    (h : Expr.SpelledPairs false ps ws) (hbegins : Begins (ws ++ [Kind.rbrace.word]) rest tail)
    (hfuel : 8 * (rest.length + 1) ≤ fuel + 1) (done : Array (Expr × Expr)) (t : Token) :
    (pairs done (fuel + 1)).Yields ⟨t :: rest, eof, ds⟩ (Stops eof ds tail fun ps' =>
      Expr.shapePairs ps' = Expr.shapePairs (done.toList ++ ps)) := by
  induction ps generalizing ws rest fuel done t with
  | nil =>
    obtain rfl : ws = [] := h
    obtain ⟨c, _, rfl, hc, htail⟩ := begins_cons.mp hbegins
    obtain rfl := begins_nil.mp htail
    have hc : c.kind = .rbrace := congrArg Word.kind hc
    rw [pairs, yields_bind, yields_peek, Reader.peek_cons, List.headD_cons, if_pos hc]
    exact ⟨by rw [List.append_nil], c, rfl⟩
  | cons p ps ih =>
    obtain ⟨k, v⟩ := p
    obtain ⟨us, vs, separator, ws, hus, hvs, hseparator, hws, rfl⟩ := h
    rw [List.forall_mem_cons] at hps
    obtain ⟨⟨hk, hv⟩, hps⟩ := hps
    simp only [List.append_assoc, List.cons_append] at hbegins
    obtain ⟨colon, hkey, hbegins⟩ := begins_append.mp hbegins
    have hkeyNext : (colon.headD eof).kind.Closes := hbegins.closes ⟨rfl, by decide⟩
    obtain ⟨c, between, rfl, hc, hbegins⟩ := begins_cons.mp hbegins
    have hc : c.kind = .colon := congrArg Word.kind hc
    obtain ⟨behind, hvalue, hbehind⟩ := begins_append.mp hbegins
    have hfirst : (rest.headD eof).kind ≠ .rbrace := by
      obtain ⟨w, us, rfl, hw⟩ := hus.starts fun _ => Expr.Spelled.starts k
      obtain ⟨c, rest, rfl, hc, -⟩ := begins_cons.mp hkey
      rw [← hc] at hw
      intro hrbrace
      rw [List.headD_cons] at hrbrace
      rw [Token.word, hrbrace] at hw
      cases hw
    have hlength := hkey.length_eq
    have hlength' := hvalue.length_eq
    rw [List.length_cons] at hlength
    rw [pairs, yields_bind, yields_peek, Reader.peek_cons, if_neg hfirst]
    simp only [yields_bind, yields_advance, Reader.advance_cons]
    refine (hus.yields_expression hk hkeyNext hkey (by omega)).after fun k' t' hk' => ?_
    simp only [yields_expect, Reader.peek_cons, Reader.advance_cons, List.headD_cons]
    refine ⟨hc, ?_⟩
    obtain ⟨fuel, rfl⟩ : ∃ n, fuel = n + 1 := ⟨fuel - 1, by omega⟩
    rcases hseparator with rfl | ⟨rfl, rfl⟩
    · rw [List.cons_append, List.nil_append] at hbehind
      have hvalueNext : (behind.headD eof).kind.Closes := hbehind.closes ⟨rfl, by decide⟩
      obtain ⟨comma, behind, rfl, hcomma, hbehind⟩ := begins_cons.mp hbehind
      have hcomma : comma.kind = .comma := congrArg Word.kind hcomma
      rw [List.length_cons] at hlength'
      refine (hvs.yields_expression hv hvalueNext hvalue (by omega)).after fun v' t'' hv' => ?_
      have hmore : comma.kind ≠ .rbrace := by
        rw [hcomma]
        decide
      rw [yields_peek, Reader.peek_cons, List.headD_cons, if_neg hmore]
      simp only [yields_bind, yields_expect, Reader.peek_cons, Reader.advance_cons, List.headD_cons]
      refine ⟨hcomma, ?_⟩
      refine (ih hps hws hbehind (by omega) (done.push (k', v')) comma).after fun ps' t hps' => ?_
      exact ⟨hps'.trans (by simp [Expr.shapePairs_eq_map, hk', hv']), t, rfl⟩
    · -- no comma behind the last entry
      obtain rfl : ws = [] := hws
      rw [List.nil_append, List.nil_append] at hbehind
      have hvalueNext : (behind.headD eof).kind.Closes := hbehind.closes ⟨rfl, by decide⟩
      have hlast : (behind.headD eof).kind = .rbrace := by
        obtain ⟨c, behind, rfl, hc, -⟩ := begins_cons.mp hbehind
        exact congrArg Word.kind hc
      refine (hvs.yields_expression hv hvalueNext hvalue (by omega)).after fun v' t'' hv' => ?_
      rw [yields_peek, Reader.peek_cons, if_pos hlast]
      have hnone : Expr.SpelledPairs false [] [] := rfl
      refine (ih hps hnone hbehind (by omega) (done.push (k', v')) t'').after fun ps' t hps' => ?_
      exact ⟨hps'.trans (by simp [Expr.shapePairs_eq_map, hk', hv']), t, rfl⟩

theorem Expr.Rereads.call {t : Token} {f : Expr} {es : List Expr} (hf : f.Rereads eof)
    (hes : ∀ e ∈ es, e.Rereads eof) : (Expr.call t f es).Rereads eof := by
  rintro level _ tail ⟨us, vs, hus, hvs, rfl⟩ hlevel - -
  refine .extend f (k := .lparen) hlevel (fun o rest ho => ?_)
    fun f' o fuel rest ds hf' ho hbegins hfuel => ?_
  · refine hus.readsOn hf hlevel (fun hle => ⟨.inl (Nat.lt_of_lt_of_le hlevel hle), ?_⟩) ?_
    · rw [List.headD_cons, ho]
      exact hle
    · rw [List.headD_cons, ho]
      decide
  · rw [extension, yields_bind, yields_current, Reader.current_cons, ho]
    simp only [BinaryOp.ofKind?, if_true, yields_bind, yields_pure]
    refine (yields_expressionList (.inl rfl) hes hvs hbegins hfuel o).after
      fun es' t' hes' => ?_
    refine ⟨?_, t', rfl⟩
    simp only [Expr.shape, hf', hes']

theorem Expr.Rereads.array {t : Token} {es : List Expr} (hes : ∀ e ∈ es, e.Rereads eof) :
    (Expr.array t es).Rereads eof := by
  rintro level _ tail ⟨us, hus, rfl⟩ - - -
  refine .of_operand (List.cons_ne_nil _ _) fun fuel rest ds hbegins hfuel => ?_
  obtain ⟨o, rest, rfl, ho, hbegins⟩ := begins_cons.mp hbegins
  have ho : o.kind = .lbracket := congrArg Word.kind ho
  rw [operand, yields_bind, yields_current, Reader.current_cons, ho]
  simp only [yields_bind, yields_pure]
  refine (yields_expressionList (.inr rfl) hes hus hbegins hfuel o).after
    fun es' t' hes' => ?_
  refine ⟨?_, t', rfl⟩
  simp only [Expr.shape, hes']

theorem Expr.Rereads.hash {t : Token} {ps : List (Expr × Expr)}
    (hps : ∀ p ∈ ps, p.1.Rereads eof ∧ p.2.Rereads eof) : (Expr.hash t ps).Rereads eof := by
  rintro level _ tail ⟨us, hus, rfl⟩ - - -
  refine .of_operand (List.cons_ne_nil _ _) fun fuel rest ds hbegins hfuel => ?_
  obtain ⟨o, rest, rfl, ho, hbegins⟩ := begins_cons.mp hbegins
  have ho : o.kind = .lbrace := congrArg Word.kind ho
  rw [List.length_cons] at hfuel
  obtain ⟨fuel, rfl⟩ : ∃ n, fuel = n + 1 := ⟨fuel - 1, by omega⟩
  rw [operand, yields_bind, yields_current, Reader.current_cons, ho]
  simp only [yields_bind, yields_pure]
  refine (yields_pairs hps hus hbegins hfuel #[] o).after fun ps' t' hps' => ?_
  refine ⟨?_, t', rfl⟩
  simp only [Expr.shape, hps', List.nil_append]

/-! ### Words on their own -/

/-- A word that is an operand by itself. -/
theorem Expr.ReadsOn.of_word {e : Expr} {w : Word}
    (h : ∀ t rest ds fuel, t.word = w → (operand (fuel + 1)).Yields ⟨t :: rest, eof, ds⟩
      fun e' r => e'.shape = e.shape ∧ r = ⟨t :: rest, eof, ds⟩) : e.ReadsOn eof level [w] tail := by
  refine .of_operand (List.cons_ne_nil _ _) fun fuel rest ds hbegins _ => ?_
  obtain ⟨t, rest, rfl, ht, htail⟩ := begins_cons.mp hbegins
  obtain rfl := begins_nil.mp htail
  exact (h t rest ds fuel ht).mono fun e' r hr => ⟨hr.1, t, hr.2⟩

theorem Expr.rereads_name (id : Ident) : (Expr.name id).Rereads eof := by
  rintro level _ tail ⟨-, rfl⟩ - - -
  refine .of_word fun t rest ds fuel ht => ?_
  have hkind : t.kind = .ident := congrArg Word.kind ht
  have hname : t.literal = id.name := congrArg Word.literal ht
  rw [operand, yields_bind, yields_current, Reader.current_cons, hkind]
  simp only [yields_pure, and_true]
  rw [Expr.shape, Expr.shape, Ident.bare, Ident.bare, Ident.name, hname]

theorem Expr.rereads_integer (token : Token) (n : Int64) : (Expr.integer token n).Rereads eof := by
  rintro level _ tail ⟨literal, hliteral, -, rfl⟩ - - -
  refine .of_word fun t rest ds fuel ht => ?_
  have hkind : t.kind = .int := congrArg Word.kind ht
  have hvalue : t.literal = literal := congrArg Word.literal ht
  rw [operand, yields_bind, yields_current, Reader.current_cons, hkind]
  simp only [hvalue, hliteral, yields_pure, and_true, Expr.shape]

theorem Expr.rereads_boolean (token : Token) (b : Bool) : (Expr.boolean token b).Rereads eof := by
  intro level ws tail hws _ _ _
  obtain rfl : ws = [(if b then Kind.true else Kind.false).word] := hws
  refine .of_word fun t rest ds fuel ht => ?_
  have hkind : t.kind = if b then Kind.true else Kind.false := congrArg Word.kind ht
  rw [operand, yields_bind, yields_current, Reader.current_cons, hkind]
  cases b <;> exact ⟨rfl, rfl⟩

theorem Expr.rereads_string (token : Token) (text : String) :
    (Expr.string token text).Rereads eof := by
  rintro level _ tail ⟨-, rfl⟩ - - -
  refine .of_word fun t rest ds fuel ht => ?_
  have hkind : t.kind = .string := congrArg Word.kind ht
  have hvalue : t.literal = text := congrArg Word.literal ht
  rw [operand, yields_bind, yields_current, Reader.current_cons, hkind]
  simp only [hvalue, yields_pure, and_true, Expr.shape]

/-! ### Blocks and statements -/

/-- A block is read from its opening brace to its closing one. -/
def Block.Rereads (b : Block) (eof : Token) : Prop :=
  ∀ ⦃ws rest tail fuel ds⦄, b.Spelled false ws → Begins ws rest tail → 8 * rest.length ≤ fuel →
    (block fuel).Yields ⟨rest, eof, ds⟩ (Stops eof ds tail fun b' => b'.shape = b.shape)

/-- A statement is read with the semicolon behind it. -/
def Stmt.Rereads (s : Stmt) (eof : Token) : Prop :=
  ∀ ⦃ws rest tail fuel ds⦄, s.Spelled false ws → Begins ws rest tail → 8 * rest.length + 3 ≤ fuel →
    (statement fuel).Yields ⟨rest, eof, ds⟩ (Stops eof ds tail fun s' => s'.shape = s.shape)

/-- The rest of a parameter list. -/
theorem yields_parameters {ids : List Ident}
    (hbegins : Begins (ids.flatMap (fun id => [Kind.comma.word, id.word]) ++ [Kind.rparen.word]) rest
      tail) (hfuel : rest.length ≤ fuel) (done : Array Ident) (t : Token) :
    (parameters done (fuel + 1)).Yields ⟨t :: rest, eof, ds⟩ (Stops eof ds tail fun ids' =>
      ids'.map Ident.bare = (done.toList ++ ids).map Ident.bare) := by
  induction ids generalizing rest fuel done t with
  | nil =>
    obtain ⟨c, _, rfl, hc, htail⟩ := begins_cons.mp hbegins
    obtain rfl := begins_nil.mp htail
    have hc : c.kind = .rparen := congrArg Word.kind hc
    rw [parameters, yields_bind, yields_peek, Reader.peek_cons, List.headD_cons, hc,
      if_neg (by decide)]
    simp only [yields_bind, yields_expect, yields_pure, Reader.peek_cons, List.headD_cons]
    exact ⟨hc, by rw [List.append_nil], c, rfl⟩
  | cons id ids ih =>
    obtain ⟨comma, rest, rfl, hcomma, hbegins⟩ := begins_cons.mp hbegins
    obtain ⟨x, rest, rfl, hx, hbegins⟩ := begins_cons.mp hbegins
    have hcomma : comma.kind = .comma := congrArg Word.kind hcomma
    have hident : x.kind = .ident := congrArg Word.kind hx
    have hname : x.literal = id.name := congrArg Word.literal hx
    rw [List.length_cons, List.length_cons] at hfuel
    obtain ⟨fuel, rfl⟩ : ∃ n, fuel = n + 1 := ⟨fuel - 1, by omega⟩
    rw [parameters, yields_bind, yields_peek, Reader.peek_cons, List.headD_cons, if_pos hcomma]
    simp only [yields_bind, yields_advance, yields_expect, yields_current, Reader.advance_cons,
      Reader.peek_cons, Reader.current_cons, List.headD_cons]
    refine ⟨hident, ?_⟩
    refine (ih hbegins (by omega) (done.push ⟨x⟩) x).after fun ids' t' hids' => ?_
    have hbare : (⟨x⟩ : Ident).bare = id.bare := by rw [Ident.bare, Ident.bare, Ident.name, hname]
    exact ⟨hids'.trans (by simp [hbare]), t', rfl⟩

theorem yields_parameterList {ids : List Ident}
    (hbegins : Begins (parameterWords ids ++ [Kind.rparen.word]) rest tail)
    (hfuel : rest.length ≤ fuel) (t : Token) :
    (parameterList fuel).Yields ⟨t :: rest, eof, ds⟩ (Stops eof ds tail fun ids' =>
      ids'.map Ident.bare = ids.map Ident.bare) := by
  cases ids with
  | nil =>
    obtain ⟨c, _, rfl, hc, htail⟩ := begins_cons.mp hbegins
    obtain rfl := begins_nil.mp htail
    have hc : c.kind = .rparen := congrArg Word.kind hc
    rw [parameterList, yields_bind, yields_peek, Reader.peek_cons, List.headD_cons, if_pos hc]
    exact ⟨rfl, c, rfl⟩
  | cons id ids =>
    obtain ⟨x, rest, rfl, hx, hbegins⟩ := begins_cons.mp hbegins
    have hident : x.kind = .ident := congrArg Word.kind hx
    have hname : x.literal = id.name := congrArg Word.literal hx
    rw [List.length_cons] at hfuel
    obtain ⟨fuel, rfl⟩ : ∃ n, fuel = n + 1 := ⟨fuel - 1, by omega⟩
    rw [parameterList, yields_bind, yields_peek, Reader.peek_cons, List.headD_cons, hident,
      if_neg (by decide)]
    simp only [yields_bind, yields_expect, yields_current, Reader.advance_cons,
      Reader.peek_cons, Reader.current_cons, List.headD_cons]
    refine ⟨hident, ?_⟩
    refine (yields_parameters hbegins (by omega) #[⟨x⟩] x).after fun ids' t' hids' => ?_
    have hbare : (⟨x⟩ : Ident).bare = id.bare := by rw [Ident.bare, Ident.bare, Ident.name, hname]
    exact ⟨hids'.trans (by simp [hbare]), t', rfl⟩

/-- The token that a block starts with. -/
theorem Block.Spelled.exists_lbrace {b : Block} (h : b.Spelled false ws)
    (hbegins : Begins ws rest tail) : ∃ t rest', rest = t :: rest' ∧ t.kind = .lbrace := by
  obtain ⟨_, ss⟩ := b
  obtain ⟨us, -, rfl⟩ := h
  obtain ⟨t, rest, rfl, ht, -⟩ := begins_cons.mp hbegins
  exact ⟨t, rest, rfl, congrArg Word.kind ht⟩

theorem Expr.Rereads.function {t : Token} {ps : List Ident} {body : Block}
    (hbody : body.Rereads eof) : (Expr.function t ps body).Rereads eof := by
  rintro level _ tail ⟨us, -, hus, rfl⟩ - - -
  refine .of_operand (List.cons_ne_nil _ _) fun fuel rest ds hbegins hfuel => ?_
  obtain ⟨o, rest, rfl, ho, hbegins⟩ := begins_cons.mp hbegins
  obtain ⟨lparen, rest, rfl, hlparen, hbegins⟩ := begins_cons.mp hbegins
  rw [List.append_cons] at hbegins
  obtain ⟨between, hparameters, hblock⟩ := begins_append.mp hbegins
  obtain ⟨lbrace, between, rfl, hlbrace⟩ := hus.exists_lbrace hblock
  have ho : o.kind = .function := congrArg Word.kind ho
  have hlparen : lparen.kind = .lparen := congrArg Word.kind hlparen
  have hlength := hparameters.length_eq
  simp only [List.length_cons] at hfuel hlength
  rw [operand, yields_bind, yields_current, Reader.current_cons, ho]
  simp only [yields_bind, yields_expect, Reader.peek_cons, Reader.advance_cons, List.headD_cons]
  refine ⟨hlparen, ?_⟩
  refine (yields_parameterList hparameters (by omega) lparen).after fun ps' rparen hps => ?_
  refine ⟨hlbrace, ?_⟩
  have hbodyFuel : 8 * (lbrace :: between).length ≤ fuel := by
    rw [List.length_cons]
    omega
  refine (hbody hus hblock hbodyFuel).after fun body' rbrace hbody' => ?_
  refine ⟨?_, rbrace, rfl⟩
  simp only [Expr.shape, hps, hbody']

theorem Expr.Rereads.cond {t : Token} {c : Expr} {yes : Block} (hc : c.Rereads eof)
    (hyes : yes.Rereads eof) : (Expr.cond t c yes none).Rereads eof := by
  rintro level _ tail ⟨us, vs, hus, hvs, rfl⟩ - - helse
  refine .of_operand (List.cons_ne_nil _ _) fun fuel rest ds hbegins hfuel => ?_
  obtain ⟨o, rest, rfl, ho, hbegins⟩ := begins_cons.mp hbegins
  obtain ⟨lparen, rest, rfl, hlparen, hbegins⟩ := begins_cons.mp hbegins
  obtain ⟨between, hcondition, hbegins⟩ := begins_append.mp hbegins
  have hnext : (between.headD eof).kind.Closes := hbegins.closes ⟨rfl, by decide⟩
  obtain ⟨rparen, between, rfl, hrparen, hblock⟩ := begins_cons.mp hbegins
  obtain ⟨lbrace, between, rfl, hlbrace⟩ := hvs.exists_lbrace hblock
  have ho : o.kind = .if := congrArg Word.kind ho
  have hlparen : lparen.kind = .lparen := congrArg Word.kind hlparen
  have hrparen : rparen.kind = .rparen := congrArg Word.kind hrparen
  have hlength := hcondition.length_eq
  simp only [List.length_cons] at hfuel hlength
  rw [operand, yields_bind, yields_current, Reader.current_cons, ho]
  simp only [yields_bind, yields_expect, yields_advance, Reader.peek_cons, Reader.advance_cons,
    List.headD_cons]
  refine ⟨hlparen, ?_⟩
  refine (hus.yields_expression hc hnext hcondition (by omega)).after fun c' t' hc' => ?_
  refine ⟨hrparen, hlbrace, ?_⟩
  have hyesFuel : 8 * (lbrace :: between).length ≤ fuel := by
    rw [List.length_cons]
    omega
  refine (hyes hvs hblock hyesFuel).after fun yes' rbrace hyes' => ?_
  rw [yields_peek, Reader.peek_cons, if_neg helse]
  refine ⟨?_, rbrace, rfl⟩
  simp only [Expr.shape, hc', hyes']

theorem Expr.Rereads.cond_else {t : Token} {c : Expr} {yes no : Block} (hc : c.Rereads eof)
    (hyes : yes.Rereads eof) (hno : no.Rereads eof) :
    (Expr.cond t c yes (some no)).Rereads eof := by
  rintro level _ tail ⟨us, vs, vs', hus, hvs, hvs', rfl⟩ - - -
  refine .of_operand (List.cons_ne_nil _ _) fun fuel rest ds hbegins hfuel => ?_
  obtain ⟨o, rest, rfl, ho, hbegins⟩ := begins_cons.mp hbegins
  obtain ⟨lparen, rest, rfl, hlparen, hbegins⟩ := begins_cons.mp hbegins
  obtain ⟨between, hcondition, hbegins⟩ := begins_append.mp hbegins
  have hnext : (between.headD eof).kind.Closes := hbegins.closes ⟨rfl, by decide⟩
  obtain ⟨rparen, between, rfl, hrparen, hbegins⟩ := begins_cons.mp hbegins
  obtain ⟨behind, hblock, hbegins⟩ := begins_append.mp hbegins
  obtain ⟨e, behind, rfl, he, hblock'⟩ := begins_cons.mp hbegins
  obtain ⟨lbrace, between, rfl, hlbrace⟩ := hvs.exists_lbrace hblock
  obtain ⟨lbrace', behind, rfl, hlbrace'⟩ := hvs'.exists_lbrace hblock'
  have ho : o.kind = .if := congrArg Word.kind ho
  have hlparen : lparen.kind = .lparen := congrArg Word.kind hlparen
  have hrparen : rparen.kind = .rparen := congrArg Word.kind hrparen
  have he : e.kind = .else := congrArg Word.kind he
  have hlength := hcondition.length_eq
  have hlength' := hblock.length_eq
  simp only [List.length_cons] at hfuel hlength hlength'
  -- either block begins further on, so there is fuel for it
  have hyesFuel : 8 * (lbrace :: between).length ≤ fuel := by
    rw [List.length_cons]
    omega
  have hnoFuel : 8 * (lbrace' :: behind).length ≤ fuel := by
    rw [List.length_cons]
    omega
  rw [operand, yields_bind, yields_current, Reader.current_cons, ho]
  simp only [yields_bind, yields_expect, yields_advance, Reader.peek_cons, Reader.advance_cons,
    List.headD_cons]
  refine ⟨hlparen, ?_⟩
  refine (hus.yields_expression hc hnext hcondition (by omega)).after fun c' t' hc' => ?_
  refine ⟨hrparen, hlbrace, ?_⟩
  refine (hyes hvs hblock hyesFuel).after fun yes' rbrace hyes' => ?_
  rw [yields_peek, Reader.peek_cons, List.headD_cons, if_pos he]
  simp only [yields_bind, yields_expect, yields_advance, Reader.peek_cons, Reader.advance_cons,
    List.headD_cons]
  refine ⟨hlbrace', ?_⟩
  refine (hno hvs' hblock' hnoFuel).after fun no' rbrace' hno' => ?_
  refine ⟨?_, rbrace', rfl⟩
  simp only [Expr.shape, hc', hyes', hno']

/-- A statement starts with one of these words. -/
theorem Stmt.Spelled.first {s : Stmt} (h : s.Spelled false ws) :
    ∃ w vs, ws = w :: vs ∧ (w.kind = .let ∨ w.kind = .return ∨ w.kind.starts) := by
  cases s with
  | bind t id e =>
    obtain ⟨us, ending, -, -, -, rfl⟩ := h
    exact ⟨_, _, rfl, .inl rfl⟩
  | ret t e =>
    obtain ⟨us, ending, -, -, rfl⟩ := h
    exact ⟨_, _, rfl, .inr (.inl rfl)⟩
  | expr t e =>
    obtain ⟨us, ending, hus, -, rfl⟩ := h
    obtain ⟨w, vs, rfl, hw⟩ := hus.starts fun _ => Expr.Spelled.starts e
    exact ⟨w, _, rfl, .inr (.inr hw)⟩
  | block b => exact h.elim

/-- Statements up to the end of a text or of a block. -/
theorem yields_statements {inBlock : Bool} {ss : List Stmt} (hss : ∀ s ∈ ss, s.Rereads eof)
    (h : Stmt.SpelledAll false ss ws) (hbegins : Begins ws rest tail)
    (hstop : (tail.headD eof).kind = .eof ∨ inBlock ∧ (tail.headD eof).kind = .rbrace)
    (hfuel : 8 * rest.length + 4 ≤ fuel + 1) (done : Array Stmt) :
    (statements inBlock done (fuel + 1)).Yields ⟨rest, eof, ds⟩ fun ss' r =>
      Stmt.shapeAll ss' = Stmt.shapeAll (done.toList ++ ss) ∧ r = ⟨tail, eof, ds⟩ := by
  induction ss generalizing ws rest fuel done with
  | nil =>
    obtain rfl : ws = [] := h
    obtain rfl := begins_nil.mp hbegins
    rw [statements, yields_bind, yields_current, Reader.current_mk, if_pos hstop]
    exact ⟨by rw [List.append_nil], rfl⟩
  | cons s ss ih =>
    obtain ⟨us, vs, hus, hvs, rfl⟩ := h
    rw [List.forall_mem_cons] at hss
    obtain ⟨between, hs, hbehind⟩ := begins_append.mp hbegins
    obtain ⟨w, us, rfl, hw⟩ := hus.first
    -- no statement starts with what ends the statements
    have hmore : ¬((rest.headD eof).kind = .eof ∨ inBlock ∧ (rest.headD eof).kind = .rbrace) := by
      obtain ⟨t, rest, rfl, ht, -⟩ := begins_cons.mp hs
      obtain rfl : t.word = w := ht
      change t.kind = .let ∨ t.kind = .return ∨ t.kind.starts at hw
      rw [List.headD_cons]
      rintro (hkind | ⟨-, hkind⟩)
      all_goals
        rw [hkind] at hw
        rcases hw with hw | hw | hw <;> cases hw
    have hlength := hs.length_eq
    rw [List.length_cons] at hlength
    obtain ⟨fuel, rfl⟩ : ∃ n, fuel = n + 1 := ⟨fuel - 1, by omega⟩
    rw [statements, yields_bind, yields_current, Reader.current_mk, if_neg hmore, yields_bind]
    refine yields_attempt ((hss.1 hus hs (by omega)).after fun s' t' hs' => ?_)
    simp only [yields_bind, yields_advance, Reader.advance_cons]
    refine (ih hss.2 hvs hbehind (by omega) (done.push s')).mono fun ss' r hss' => ?_
    exact ⟨hss'.1.trans (by simp [Stmt.shapeAll_eq_map, hs']), hss'.2⟩

theorem Block.Rereads.of_statements {t : Token} {ss : List Stmt} (hss : ∀ s ∈ ss, s.Rereads eof) :
    (Block.mk t ss).Rereads eof := by
  rintro _ rest tail fuel ds ⟨us, hus, rfl⟩ hbegins hfuel
  obtain ⟨lbrace, rest, rfl, hlbrace, hbegins⟩ := begins_cons.mp hbegins
  obtain ⟨between, hbody, hbegins⟩ := begins_append.mp hbegins
  obtain ⟨rbrace, behind, rfl, hrbrace, htail⟩ := begins_cons.mp hbegins
  obtain rfl := begins_nil.mp htail
  have hrbrace : rbrace.kind = .rbrace := congrArg Word.kind hrbrace
  rw [List.length_cons] at hfuel
  obtain ⟨fuel, rfl⟩ : ∃ n, fuel = n + 2 := ⟨fuel - 2, by omega⟩
  rw [block, yields_bind, yields_current, Reader.current_cons, yields_bind, yields_advance,
    Reader.advance_cons, yields_bind]
  have hstop : ((rbrace :: behind).headD eof).kind = .eof ∨
      true ∧ ((rbrace :: behind).headD eof).kind = .rbrace := .inr ⟨rfl, hrbrace⟩
  refine (yields_statements hss hus hbody hstop (by omega) #[]).mono ?_
  rintro ss' _ ⟨hss', rfl⟩
  rw [yields_bind, yields_current, Reader.current_cons, if_neg (by rw [hrbrace]; decide)]
  refine ⟨?_, rbrace, rfl⟩
  simp only [Block.shape, hss', List.nil_append]

/-- The semicolon behind a statement. -/
theorem yields_ending {α : Type} {a : α} {P : α → Prop} (h : Ended false ws)
    (hbegins : Begins ws rest tail) (ha : P a) (t : Token) :
    (skip .semicolon).Yields ⟨t :: rest, eof, ds⟩ fun _ r => Stops eof ds tail P a r := by
  obtain rfl : ws = [Kind.semicolon.word] := h.elim id nofun
  obtain ⟨semicolon, rest, rfl, hsemicolon, htail⟩ := begins_cons.mp hbegins
  obtain rfl := begins_nil.mp htail
  have hsemicolon : semicolon.kind = .semicolon := congrArg Word.kind hsemicolon
  rw [yields_skip, Reader.peek_cons, List.headD_cons, if_pos hsemicolon]
  exact ⟨ha, semicolon, rfl⟩

theorem Ended.closes {ws : List Word} (h : Ended false ws) (hbegins : Begins ws rest tail) :
    (rest.headD eof).kind.Closes := by
  obtain rfl : ws = [Kind.semicolon.word] := h.elim id nofun
  exact hbegins.closes ⟨rfl, by decide⟩

theorem Stmt.Rereads.bind {t : Token} {id : Ident} {e : Expr} (he : e.Rereads eof) :
    (Stmt.bind t id e).Rereads eof := by
  rintro _ rest tail fuel ds ⟨us, ending, -, hus, hending, rfl⟩ hbegins hfuel
  obtain ⟨o, rest, rfl, ho, hbegins⟩ := begins_cons.mp hbegins
  obtain ⟨x, rest, rfl, hx, hbegins⟩ := begins_cons.mp hbegins
  obtain ⟨assign, rest, rfl, hassign, hbegins⟩ := begins_cons.mp hbegins
  obtain ⟨between, hvalue, hbehind⟩ := begins_append.mp hbegins
  have ho : o.kind = .let := congrArg Word.kind ho
  have hident : x.kind = .ident := congrArg Word.kind hx
  have hname : x.literal = id.name := congrArg Word.literal hx
  have hassign : assign.kind = .assign := congrArg Word.kind hassign
  simp only [List.length_cons] at hfuel
  obtain ⟨fuel, rfl⟩ : ∃ n, fuel = n + 1 := ⟨fuel - 1, by omega⟩
  rw [statement, yields_bind, yields_current, Reader.current_cons, ho]
  simp only [yields_bind, yields_expect, yields_current, yields_advance, Reader.peek_cons,
    Reader.advance_cons, Reader.current_cons, List.headD_cons]
  refine ⟨hident, hassign, ?_⟩
  refine (hus.yields_expression he (hending.closes hbehind) hvalue (by omega)).after
    fun e' t' he' => ?_
  refine yields_ending hending hbehind ?_ t'
  have hbare : (⟨x⟩ : Ident).bare = id.bare := by rw [Ident.bare, Ident.bare, Ident.name, hname]
  simp only [Stmt.shape, he', hbare]

theorem Stmt.Rereads.ret {t : Token} {e : Expr} (he : e.Rereads eof) :
    (Stmt.ret t e).Rereads eof := by
  rintro _ rest tail fuel ds ⟨us, ending, hus, hending, rfl⟩ hbegins hfuel
  obtain ⟨o, rest, rfl, ho, hbegins⟩ := begins_cons.mp hbegins
  obtain ⟨between, hvalue, hbehind⟩ := begins_append.mp hbegins
  have ho : o.kind = .return := congrArg Word.kind ho
  simp only [List.length_cons] at hfuel
  obtain ⟨fuel, rfl⟩ : ∃ n, fuel = n + 1 := ⟨fuel - 1, by omega⟩
  rw [statement, yields_bind, yields_current, Reader.current_cons, ho]
  simp only [yields_bind, yields_advance, Reader.advance_cons]
  refine (hus.yields_expression he (hending.closes hbehind) hvalue (by omega)).after
    fun e' t' he' => ?_
  refine yields_ending hending hbehind ?_ t'
  simp only [Stmt.shape, he']

theorem Stmt.Rereads.expr {t : Token} {e : Expr} (he : e.Rereads eof) :
    (Stmt.expr t e).Rereads eof := by
  rintro _ rest tail fuel ds ⟨us, ending, hus, hending, rfl⟩ hbegins hfuel
  obtain ⟨between, hvalue, hbehind⟩ := begins_append.mp hbegins
  obtain ⟨w, us, rfl, hw⟩ := hus.starts fun _ => Expr.Spelled.starts e
  obtain ⟨o, rest, rfl, ho, -⟩ := begins_cons.mp hvalue
  obtain rfl : o.word = w := ho
  obtain ⟨fuel, rfl⟩ : ∃ n, fuel = n + 1 := ⟨fuel - 1, by omega⟩
  rw [statement, yields_bind, yields_current, Reader.current_cons]
  change o.kind.starts at hw
  split
  · next hlet =>
    rw [hlet] at hw
    cases hw
  · next hreturn =>
    rw [hreturn] at hw
    cases hw
  · rw [yields_bind]
    refine (hus.yields_expression he (hending.closes hbehind) hvalue (by omega)).after
      fun e' t' he' => ?_
    rw [yields_bind]
    refine yields_ending hending hbehind ?_ t'
    simp only [Stmt.shape, he']

/-! ### Trees -/

mutual

/-- **Every expression is read back.** -/
theorem Expr.rereads (eof : Token) (e : Expr) : e.Rereads eof := by
  match e with
  | .name id => exact Expr.rereads_name id
  | .integer t n => exact Expr.rereads_integer t n
  | .boolean t b => exact Expr.rereads_boolean t b
  | .string t s => exact Expr.rereads_string t s
  | .unary _ _ e => exact (Expr.rereads eof e).unary
  | .binary _ _ l r => exact (Expr.rereads eof l).binary (Expr.rereads eof r)
  | .cond _ c yes none => exact (Expr.rereads eof c).cond (Block.rereads eof yes)
  | .cond _ c yes (some no) =>
    exact (Expr.rereads eof c).cond_else (Block.rereads eof yes) (Block.rereads eof no)
  | .function _ _ body => exact .function (Block.rereads eof body)
  | .call _ f es => exact (Expr.rereads eof f).call (Expr.rereads_all eof es)
  | .array _ es => exact .array (Expr.rereads_all eof es)
  | .hash _ ps => exact .hash (Expr.rereads_pairs eof ps)
  | .index _ e i => exact (Expr.rereads eof e).index (Expr.rereads eof i)
termination_by structural e

theorem Expr.rereads_all (eof : Token) (es : List Expr) : ∀ e ∈ es, e.Rereads eof := by
  match es with
  | [] => exact List.forall_mem_nil _
  | e :: es => exact List.forall_mem_cons.mpr ⟨Expr.rereads eof e, Expr.rereads_all eof es⟩
termination_by structural es

theorem Expr.rereads_pairs (eof : Token) (ps : List (Expr × Expr)) :
    ∀ p ∈ ps, p.1.Rereads eof ∧ p.2.Rereads eof := by
  match ps with
  | [] => exact List.forall_mem_nil _
  | (k, v) :: ps =>
    exact List.forall_mem_cons.mpr
      ⟨⟨Expr.rereads eof k, Expr.rereads eof v⟩, Expr.rereads_pairs eof ps⟩
termination_by structural ps

theorem Block.rereads (eof : Token) (b : Block) : b.Rereads eof := by
  match b with
  | .mk _ ss => exact .of_statements (Stmt.rereads_all eof ss)
termination_by structural b

theorem Stmt.rereads (eof : Token) (s : Stmt) : s.Rereads eof := by
  match s with
  | .bind _ _ e => exact .bind (Expr.rereads eof e)
  | .ret _ e => exact .ret (Expr.rereads eof e)
  | .expr _ e => exact .expr (Expr.rereads eof e)
  | .block _ =>
    intro ws rest tail fuel ds hws
    exact hws.elim
termination_by structural s

theorem Stmt.rereads_all (eof : Token) (ss : List Stmt) : ∀ s ∈ ss, s.Rereads eof := by
  match ss with
  | [] => exact List.forall_mem_nil _
  | s :: ss => exact List.forall_mem_cons.mpr ⟨Stmt.rereads eof s, Stmt.rereads_all eof ss⟩
termination_by structural ss

end

/-! ### Programs -/

namespace Program

/-- Tokens that are read as statements, up to the last one, are a program without a diagnostic. -/
theorem ofTokens_of_yields {ts : List Token} {P : List Stmt → Prop}
    (h : (Reading.statements false #[] (8 * ts.length + 8)).Yields ⟨ts, eof, #[]⟩ fun ss r =>
      P ss ∧ r = ⟨[], eof, #[]⟩) : ∃ ss, P ss ∧ ofTokens ts eof = (⟨ss⟩, []) := by
  unfold Yields Ensures at h
  split at h
  · next ss r hrun =>
    obtain ⟨hss, rfl⟩ := h
    have hread : (Reading.statements false #[] (8 * ts.length + 8)).run ⟨ts, eof, #[]⟩ =
        (some ss, ⟨[], eof, #[]⟩) := hrun
    refine ⟨ss, hss, ?_⟩
    rw [ofTokens, hread]
    rfl
  · exact h.elim

/-- Words that spell a program, with spaces between them, are read as a program of its shape. -/
theorem Spelled.parse {p : Program} (h : p.Spelled false ws) :
    ∃ p', Program.parse (String.ofList (Word.spaced ws)) = .ok p' ∧ p'.shape = p.shape := by
  have hwords := Token.scan_spaced (Stmt.SpelledAll.proper p.statements h)
  have heof := Token.kind_scan_snd (String.ofList (Word.spaced ws))
  unfold Program.parse read
  generalize Token.scan (String.ofList (Word.spaced ws)) = scan at hwords heof ⊢
  obtain ⟨ts, eof⟩ := scan
  have hbegins : Begins ws ts [] := ⟨ts, hwords, by rw [List.append_nil]⟩
  have hstatements : (Reading.statements false #[] (8 * ts.length + 8)).Yields ⟨ts, eof, #[]⟩
      fun ss r => Stmt.shapeAll ss = Stmt.shapeAll p.statements ∧ r = ⟨[], eof, #[]⟩ :=
    yields_statements (Stmt.rereads_all eof p.statements) h hbegins (.inl heof) (by omega) #[]
  obtain ⟨ss, hss, hofTokens⟩ := ofTokens_of_yields hstatements
  refine ⟨⟨ss⟩, ?_, congrArg Program.mk hss⟩
  dsimp only
  rw [hofTokens]

/-- **Writing and parsing undo each other.** Every program that can be written has words that spell it,
and whichever of them are written, with single spaces between them and any number of further
parentheses, the text parses, to a program with the same structure, operators, names and literal
values. -/
theorem parse_spaced {p : Program} (h : p.Writable) :
    (∃ ws, p.Spelled false ws) ∧ ∀ ws, p.Spelled false ws →
      ∃ p', Program.parse (String.ofList (Word.spaced ws)) = .ok p' ∧ p'.shape = p.shape :=
  ⟨Stmt.exists_spelledAll p.statements h, fun _ hws => hws.parse⟩

/-- A difference whose right operand needs parentheses. -/
def rightDifference : Program where
  statements :=
    [.expr default (.binary default .minus (.name ⟨⟨.ident, "a", default⟩⟩)
      (.binary default .minus (.name ⟨⟨.ident, "b", default⟩⟩) (.name ⟨⟨.ident, "c", default⟩⟩)))]

/-- Without the parentheses, the text would be another difference. -/
theorem parse_spaced_rightDifference : rightDifference.Writable ∧
    ∃ p, Program.parse "a - ( b - c ) ;" = .ok p ∧ p.shape = rightDifference.shape := by
  have hname : ∀ c : Char, isNameStart c → Kind.keyword? (String.ofList [c]) = none →
      IsName (String.ofList [c]) :=
    fun c hc hkeyword => ⟨⟨c, [], String.toList_ofList, hc, List.forall_mem_nil _⟩, hkeyword⟩
  have ha : IsName "a" := hname 'a' rfl rfl
  have hb : IsName "b" := hname 'b' rfl rfl
  have hc : IsName "c" := hname 'c' rfl rfl
  have hwritable : rightDifference.Writable := ⟨⟨ha, hb, hc⟩, trivial⟩
  have hinner : (Expr.binary default .minus (.name ⟨⟨.ident, "b", default⟩⟩)
      (.name ⟨⟨.ident, "c", default⟩⟩)).Spelled false
        [⟨.ident, "b"⟩, Kind.minus.word, ⟨.ident, "c"⟩] :=
    ⟨_, _, .bare (by decide) ⟨hb, rfl⟩, .bare (by decide) ⟨hc, rfl⟩, rfl⟩
  have hspelled : rightDifference.Spelled false [⟨.ident, "a"⟩, Kind.minus.word, Kind.lparen.word,
      ⟨.ident, "b"⟩, Kind.minus.word, ⟨.ident, "c"⟩, Kind.rparen.word, Kind.semicolon.word] :=
    ⟨_, _, ⟨_, _, .bare trivial ⟨_, _, .bare (by decide) ⟨ha, rfl⟩,
      (Enclosed.bare trivial hinner).parens, rfl⟩, .inl rfl, rfl⟩, rfl, rfl⟩
  have htext : String.ofList (Word.spaced [⟨.ident, "a"⟩, Kind.minus.word, Kind.lparen.word,
      ⟨.ident, "b"⟩, Kind.minus.word, ⟨.ident, "c"⟩, Kind.rparen.word, Kind.semicolon.word]) =
        "a - ( b - c ) ;" := by decide +kernel
  rw [← htext]
  exact ⟨hwritable, (parse_spaced hwritable).2 _ hspelled⟩

end Program

end Monkey
