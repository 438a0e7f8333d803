import Monkey.Proofs.Places
import Monkey.Proofs.Printing
import Monkey.Proofs.Reread

/-!
# What is printed is read

The text of a plain expression that was read is read as the same expression (`Program.parse_text`). What
is read has the same shape, since the words of the text spell the expression (`Expr.Rereads`). That its
tokens have the same kinds and literals takes more. Those of most nodes are told by the node
(`Expr.Labelled`), and an integer may be written in several ways, but the words of the text are the
same before and behind, and so are the integers among them (`Expr.numerals`).
-/

namespace Monkey

/-! ### Integers as they are written -/

/-- The integers among the words, as they are written. -/
def Word.numerals (ws : List Word) : List String :=
  ws.filterMap fun w => if w.kind = .int then some w.literal else none

namespace Word

@[simp] theorem numerals_nil : numerals [] = [] := rfl

@[simp] theorem numerals_append (us vs : List Word) :
    numerals (us ++ vs) = numerals us ++ numerals vs := List.filterMap_append

theorem numerals_cons {w : Word} (hw : w.kind ≠ .int) (ws : List Word) :
    numerals (w :: ws) = numerals ws := by
  rw [numerals, List.filterMap_cons, if_neg hw]
  rfl

end Word

mutual

/-- The integers of a plain expression, as they are written, from left to right. -/
def Expr.numerals : Expr → List String
  | .integer t _ => [t.literal]
  | .unary _ _ e => e.numerals
  | .binary _ _ l r => l.numerals ++ r.numerals
  | .call _ f es => f.numerals ++ Expr.numeralsAll es
  | .array _ es => Expr.numeralsAll es
  | .hash _ ps => Expr.numeralsPairs ps
  | .index _ e i => e.numerals ++ i.numerals
  | .name _ | .boolean _ _ | .string _ _ | .cond _ _ _ _ | .function _ _ _ => []
termination_by structural e => e

/-- The integers of plain expressions. -/
def Expr.numeralsAll : List Expr → List String
  | [] => []
  | e :: es => e.numerals ++ Expr.numeralsAll es
termination_by structural es => es

/-- The integers of plain entries. -/
def Expr.numeralsPairs : List (Expr × Expr) → List String
  | [] => []
  | (k, v) :: ps => k.numerals ++ (v.numerals ++ Expr.numeralsPairs ps)
termination_by structural ps => ps

end

theorem Enclosed.numerals {free : Prop} {P : List Word → Prop} {ws : List Word} {ns : List String}
    (h : Enclosed free P ws) (hP : ∀ us, P us → Word.numerals us = ns) : Word.numerals ws = ns := by
  obtain ⟨n, us, hus, -, rfl⟩ := h
  have hparens : ∀ (k : Kind), k ≠ .int → Word.numerals (List.replicate n k.word) = [] := by
    intro k hk
    induction n with
    | zero => rfl
    | succ n ih => rw [List.replicate_succ, Word.numerals_cons hk, ih]
  rw [Word.numerals_append, Word.numerals_append, hparens _ (by decide), hparens _ (by decide),
    hP us hus]
  simp

mutual

/-- The integers among the words of a plain expression are its own. -/
theorem Expr.Spelled.numerals (e : Expr) (he : e.Plain) {ws : List Word} (h : e.Spelled true ws) :
    Word.numerals ws = e.numerals := by
  match e, he, h with
  | .name _, _, ⟨_, hws⟩ =>
    rw [hws]
    rfl
  | .integer _ _, _, ⟨_, _, hliteral, hws⟩ =>
    rw [hws, hliteral rfl]
    rfl
  | .boolean _ b, _, hws =>
    obtain rfl : ws = _ := hws
    cases b <;> rfl
  | .unary _ op e, he, ⟨us, hus, hws⟩ =>
    have hop : op.kind.word.kind ≠ .int := by cases op <;> decide
    rw [hws, Word.numerals_cons hop]
    exact hus.numerals fun _ => Expr.Spelled.numerals e he
  | .binary _ op l r, he, ⟨us, vs, hus, hvs, hws⟩ =>
    have hop : op.kind.word.kind ≠ .int := by cases op <;> decide
    rw [hws, Word.numerals_append, Word.numerals_cons hop,
      hus.numerals fun _ => Expr.Spelled.numerals l he.1,
      hvs.numerals fun _ => Expr.Spelled.numerals r he.2]
    rfl
  | .call _ f es, he, ⟨us, vs, hus, hvs, hws⟩ =>
    rw [hws, Word.numerals_append, Word.numerals_cons (by decide), Word.numerals_append,
      hus.numerals fun _ => Expr.Spelled.numerals f he.1, Expr.SpelledAll.numerals es he.2 hvs]
    simp [Word.numerals_cons, Kind.word, Expr.numerals]
  | .array _ es, he, ⟨us, hus, hws⟩ =>
    rw [hws, Word.numerals_cons (by decide), Word.numerals_append,
      Expr.SpelledAll.numerals es he hus]
    simp [Word.numerals_cons, Kind.word, Expr.numerals]
  | .hash _ ps, he, ⟨us, hus, hws⟩ =>
    rw [hws, Word.numerals_cons (by decide), Word.numerals_append,
      Expr.SpelledPairs.numerals ps he hus]
    simp [Word.numerals_cons, Kind.word, Expr.numerals]
  | .index _ e i, he, ⟨us, vs, hus, hvs, hws⟩ =>
    rw [hws, Word.numerals_append, Word.numerals_cons (by decide), Word.numerals_append,
      hus.numerals fun _ => Expr.Spelled.numerals e he.1,
      hvs.numerals fun _ => Expr.Spelled.numerals i he.2]
    simp [Word.numerals_cons, Kind.word, Expr.numerals]
termination_by structural e

theorem Expr.SpelledAll.numerals (es : List Expr) (he : Expr.PlainAll es) {ws : List Word}
    (h : Expr.SpelledAll true es ws) : Word.numerals ws = Expr.numeralsAll es := by
  match es, he, h with
  | [], _, hws =>
    obtain rfl : ws = [] := hws
    rfl
  | e :: es, he, ⟨us, vs, hus, hvs, hws⟩ =>
    rw [hws, Word.numerals_append, hus.numerals fun _ => Expr.Spelled.numerals e he.1,
      Expr.SpelledRest.numerals es he.2 hvs]
    rfl
termination_by structural es

theorem Expr.SpelledRest.numerals (es : List Expr) (he : Expr.PlainAll es) {ws : List Word}
    (h : Expr.SpelledRest true es ws) : Word.numerals ws = Expr.numeralsAll es := by
  match es, he, h with
  | [], _, hws =>
    obtain rfl : ws = [] := hws
    rfl
  | e :: es, he, ⟨us, vs, hus, hvs, hws⟩ =>
    rw [hws, Word.numerals_cons (by decide), Word.numerals_append,
      hus.numerals fun _ => Expr.Spelled.numerals e he.1, Expr.SpelledRest.numerals es he.2 hvs]
    rfl
termination_by structural es

theorem Expr.SpelledPairs.numerals (ps : List (Expr × Expr)) (he : Expr.PlainPairs ps)
    {ws : List Word} (h : Expr.SpelledPairs true ps ws) :
    Word.numerals ws = Expr.numeralsPairs ps := by
  match ps, he, h with
  | [], _, hws =>
    obtain rfl : ws = [] := hws
    rfl
  | (k, v) :: ps, he, ⟨us, vs, separator, rest, hus, hvs, hseparator, hrest, hws⟩ =>
    have hnone : Word.numerals separator = [] := by
      rcases hseparator with rfl | ⟨-, rfl⟩ <;> rfl
    rw [hws, Word.numerals_append, Word.numerals_cons (by decide), Word.numerals_append,
      Word.numerals_append, hnone, hus.numerals fun _ => Expr.Spelled.numerals k he.1,
      hvs.numerals fun _ => Expr.Spelled.numerals v he.2.1,
      Expr.SpelledPairs.numerals ps he.2.2 hrest]
    rfl
termination_by structural ps

end

/-! ### Shapes and integers tell trees apart -/

mutual

/-- The number of integers can be told from the shape. -/
theorem Expr.length_numerals_shape (e : Expr) : e.shape.numerals.length = e.numerals.length := by
  match e with
  | .name _ | .integer _ _ | .boolean _ _ | .string _ _ | .function _ _ _ => rfl
  | .cond _ _ _ none | .cond _ _ _ (some _) => rfl
  | .unary _ _ e => exact Expr.length_numerals_shape e
  | .binary _ _ l r | .index _ l r =>
    simp only [Expr.shape, Expr.numerals, List.length_append, Expr.length_numerals_shape l,
      Expr.length_numerals_shape r]
  | .call _ f es =>
    simp only [Expr.shape, Expr.numerals, List.length_append, Expr.length_numerals_shape f,
      Expr.length_numeralsAll_shape es]
  | .array _ es => exact Expr.length_numeralsAll_shape es
  | .hash _ ps => exact Expr.length_numeralsPairs_shape ps
termination_by structural e

theorem Expr.length_numeralsAll_shape (es : List Expr) :
    (Expr.numeralsAll (Expr.shapeAll es)).length = (Expr.numeralsAll es).length := by
  match es with
  | [] => rfl
  | e :: es =>
    simp only [Expr.shapeAll, Expr.numeralsAll, List.length_append, Expr.length_numerals_shape e,
      Expr.length_numeralsAll_shape es]
termination_by structural es

theorem Expr.length_numeralsPairs_shape (ps : List (Expr × Expr)) :
    (Expr.numeralsPairs (Expr.shapePairs ps)).length = (Expr.numeralsPairs ps).length := by
  match ps with
  | [] => rfl
  | (k, v) :: ps =>
    simp only [Expr.shapePairs, Expr.numeralsPairs, List.length_append,
      Expr.length_numerals_shape k, Expr.length_numerals_shape v,
      Expr.length_numeralsPairs_shape ps]
termination_by structural ps

end

theorem Expr.length_numerals_eq {e e' : Expr} (h : e'.shape = e.shape) :
    e'.numerals.length = e.numerals.length := by
  rw [← e'.length_numerals_shape, h, e.length_numerals_shape]

/-- Expressions of different constructors have different shapes. -/
theorem Expr.shape_ne_shape {e e' : Expr} (h : e'.ctorIdx ≠ e.ctorIdx) : e'.shape ≠ e.shape := by
  have hshape : ∀ e : Expr, e.shape.ctorIdx = e.ctorIdx := by
    intro e
    cases e with
    | cond _ _ _ no => cases no <;> rfl
    | _ => rfl
  intro heq
  rw [← hshape e', heq, hshape e] at h
  exact h rfl

theorem Token.unplaced_congr {t t' : Token} (h : t'.word = t.word) : t'.unplaced = t.unplaced := by
  rw [unplaced_eq, h, ← unplaced_eq]

/-- The expression without the places of its tokens. -/
def Expr.unplaced (e : Expr) : Expr := e.relocate fun _ => default

theorem Ident.Labelled.unplaced_eq {id id' : Ident} (h : id.Labelled) (h' : id'.Labelled)
    (hbare : id'.bare = id.bare) : id'.relocate (fun _ => default) = id.relocate fun _ => default := by
  have hname : id'.name = id.name := congrArg (fun id => id.token.literal) hbare
  have hword : id'.token.word = id.token.word := by
    rw [Token.word, Token.word, h.2, h'.2]
    exact congrArg (Word.mk .ident) hname
  exact congrArg Ident.mk (Token.unplaced_congr hword)

mutual

/-- **Labelled expressions of one shape with the same integers**, as they are written, differ in nothing
but their places. -/
theorem Expr.unplaced_eq_of_shape (e e' : Expr) (he : e.Plain) (hl : e.Labelled) (hl' : e'.Labelled)
    (hshape : e'.shape = e.shape) (hnumerals : e'.numerals = e.numerals) :
    e'.unplaced = e.unplaced := by
  match e, he, hl with
  | .name id, _, hl =>
    cases e' with
    | name id' =>
      have hid := hl.unplaced_eq hl' (Expr.name.inj hshape)
      exact congrArg Expr.name hid
    | _ => exact absurd hshape (Expr.shape_ne_shape nofun)
  | .integer t n, _, hl =>
    cases e' with
    | integer t' n' =>
      obtain ⟨-, rfl⟩ := Expr.integer.inj hshape
      have hword : t'.word = t.word := by
        rw [Token.word, Token.word, hl.1, hl'.1]
        exact congrArg (Word.mk .int) (List.cons.inj hnumerals).1
      exact congrArg (Expr.integer · n') (Token.unplaced_congr hword)
    | _ => exact absurd hshape (Expr.shape_ne_shape nofun)
  | .boolean t b, _, hl =>
    cases e' with
    | boolean t' b' =>
      obtain ⟨-, rfl⟩ := Expr.boolean.inj hshape
      have hword : t'.word = t.word := Eq.trans hl' (Eq.symm hl)
      exact congrArg (Expr.boolean · b') (Token.unplaced_congr hword)
    | _ => exact absurd hshape (Expr.shape_ne_shape nofun)
  | .unary t op e, he, hl =>
    cases e' with
    | unary t' op' e' =>
      obtain ⟨-, rfl, hoperand⟩ := Expr.unary.inj hshape
      have ht : t'.unplaced = t.unplaced := Token.unplaced_congr (hl'.1.trans hl.1.symm)
      have he' := Expr.unplaced_eq_of_shape e e' he hl.2 hl'.2 hoperand hnumerals
      show Expr.unary t'.unplaced op' e'.unplaced = Expr.unary t.unplaced op' e.unplaced
      rw [ht, he']
    | _ => exact absurd hshape (Expr.shape_ne_shape nofun)
  | .binary t op l r, he, hl =>
    cases e' with
    | binary t' op' l' r' =>
      obtain ⟨-, rfl, hleft, hright⟩ := Expr.binary.inj hshape
      have ht : t'.unplaced = t.unplaced := Token.unplaced_congr (hl'.1.trans hl.1.symm)
      -- where the integers of one operand end is told by their number, and this by the shape
      obtain ⟨hleftNumerals, hrightNumerals⟩ :=
        List.append_inj hnumerals (Expr.length_numerals_eq hleft)
      have hl₁ := Expr.unplaced_eq_of_shape l l' he.1 hl.2.1 hl'.2.1 hleft hleftNumerals
      have hr₁ := Expr.unplaced_eq_of_shape r r' he.2 hl.2.2 hl'.2.2 hright hrightNumerals
      show Expr.binary t'.unplaced op' l'.unplaced r'.unplaced =
        Expr.binary t.unplaced op' l.unplaced r.unplaced
      rw [ht, hl₁, hr₁]
    | _ => exact absurd hshape (Expr.shape_ne_shape nofun)
  | .call t f es, he, hl =>
    cases e' with
    | call t' f' es' =>
      obtain ⟨-, hcallee, harguments⟩ := Expr.call.inj hshape
      have ht : t'.unplaced = t.unplaced := Token.unplaced_congr (hl'.1.trans hl.1.symm)
      obtain ⟨hcalleeNumerals, hargumentNumerals⟩ :=
        List.append_inj hnumerals (Expr.length_numerals_eq hcallee)
      have hf := Expr.unplaced_eq_of_shape f f' he.1 hl.2.1 hl'.2.1 hcallee hcalleeNumerals
      have hes := Expr.unplacedAll_eq_of_shape es es' he.2 hl.2.2 hl'.2.2 harguments
        hargumentNumerals
      show Expr.call t'.unplaced f'.unplaced _ = Expr.call t.unplaced f.unplaced _
      rw [ht, hf, hes]
    | _ => exact absurd hshape (Expr.shape_ne_shape nofun)
  | .array t es, he, hl =>
    cases e' with
    | array t' es' =>
      have ht : t'.unplaced = t.unplaced := Token.unplaced_congr (hl'.1.trans hl.1.symm)
      have hes := Expr.unplacedAll_eq_of_shape es es' he hl.2 hl'.2 (Expr.array.inj hshape).2
        hnumerals
      show Expr.array t'.unplaced _ = Expr.array t.unplaced _
      rw [ht, hes]
    | _ => exact absurd hshape (Expr.shape_ne_shape nofun)
  | .hash t ps, he, hl =>
    cases e' with
    | hash t' ps' =>
      have ht : t'.unplaced = t.unplaced := Token.unplaced_congr (hl'.1.trans hl.1.symm)
      have hps := Expr.unplacedPairs_eq_of_shape ps ps' he hl.2 hl'.2 (Expr.hash.inj hshape).2
        hnumerals
      show Expr.hash t'.unplaced _ = Expr.hash t.unplaced _
      rw [ht, hps]
    | _ => exact absurd hshape (Expr.shape_ne_shape nofun)
  | .index t e i, he, hl =>
    cases e' with
    | index t' e' i' =>
      obtain ⟨-, hcollection, hkey⟩ := Expr.index.inj hshape
      have ht : t'.unplaced = t.unplaced := Token.unplaced_congr (hl'.1.trans hl.1.symm)
      obtain ⟨hcollectionNumerals, hkeyNumerals⟩ :=
        List.append_inj hnumerals (Expr.length_numerals_eq hcollection)
      have he' := Expr.unplaced_eq_of_shape e e' he.1 hl.2.1 hl'.2.1 hcollection
        hcollectionNumerals
      have hi := Expr.unplaced_eq_of_shape i i' he.2 hl.2.2 hl'.2.2 hkey hkeyNumerals
      show Expr.index t'.unplaced e'.unplaced i'.unplaced =
        Expr.index t.unplaced e.unplaced i.unplaced
      rw [ht, he', hi]
    | _ => exact absurd hshape (Expr.shape_ne_shape nofun)
termination_by structural e

theorem Expr.unplacedAll_eq_of_shape (es es' : List Expr) (he : Expr.PlainAll es)
    (hl : Expr.LabelledAll es) (hl' : Expr.LabelledAll es')
    (hshape : Expr.shapeAll es' = Expr.shapeAll es)
    (hnumerals : Expr.numeralsAll es' = Expr.numeralsAll es) :
    Expr.relocateAll (fun _ => default) es' = Expr.relocateAll (fun _ => default) es := by
  match es, es', he, hl, hl' with
  | [], [], _, _, _ => rfl
  | [], _ :: _, _, _, _ | _ :: _, [], _, _, _ => cases hshape
  | e :: es, e' :: es', he, hl, hl' =>
    obtain ⟨hfirst, hrest⟩ := List.cons.inj hshape
    obtain ⟨hfirstNumerals, hrestNumerals⟩ :=
      List.append_inj hnumerals (Expr.length_numerals_eq hfirst)
    have he' := Expr.unplaced_eq_of_shape e e' he.1 hl.1 hl'.1 hfirst hfirstNumerals
    have hes := Expr.unplacedAll_eq_of_shape es es' he.2 hl.2 hl'.2 hrest hrestNumerals
    show e'.unplaced :: _ = e.unplaced :: _
    rw [he', hes]
termination_by structural es

theorem Expr.unplacedPairs_eq_of_shape (ps ps' : List (Expr × Expr)) (he : Expr.PlainPairs ps)
    (hl : Expr.LabelledPairs ps) (hl' : Expr.LabelledPairs ps')
    (hshape : Expr.shapePairs ps' = Expr.shapePairs ps)
    (hnumerals : Expr.numeralsPairs ps' = Expr.numeralsPairs ps) :
    Expr.relocatePairs (fun _ => default) ps' = Expr.relocatePairs (fun _ => default) ps := by
  match ps, ps', he, hl, hl' with
  | [], [], _, _, _ => rfl
  | [], _ :: _, _, _, _ | _ :: _, [], _, _, _ => cases hshape
  | (k, v) :: ps, (k', v') :: ps', he, hl, hl' =>
    obtain ⟨hentry, hrest⟩ := List.cons.inj hshape
    obtain ⟨hkey, hvalue⟩ := Prod.mk.inj hentry
    obtain ⟨hkeyNumerals, hnumerals⟩ :=
      List.append_inj hnumerals (Expr.length_numerals_eq hkey)
    obtain ⟨hvalueNumerals, hrestNumerals⟩ :=
      List.append_inj hnumerals (Expr.length_numerals_eq hvalue)
    have hk := Expr.unplaced_eq_of_shape k k' he.1 hl.1 hl'.1 hkey hkeyNumerals
    have hv := Expr.unplaced_eq_of_shape v v' he.2.1 hl.2.1 hl'.2.1 hvalue hvalueNumerals
    have hps := Expr.unplacedPairs_eq_of_shape ps ps' he.2.2 hl.2.2 hl'.2.2 hrest hrestNumerals
    show (k'.unplaced, v'.unplaced) :: _ = (k.unplaced, v.unplaced) :: _
    rw [hk, hv, hps]
termination_by structural ps

end

/-! ### Texts tell no places -/

section

variable (f : Span → Span)

mutual

/-- The text of an expression does not depend on where its tokens stand. -/
theorem Expr.text_relocate (e : Expr) : (e.relocate f).text = e.text := by
  match e with
  | .name _ | .integer _ _ | .boolean _ _ | .string _ _ => rfl
  | .unary _ _ e => simp only [Expr.relocate, Expr.text, Expr.text_relocate e]
  | .binary _ _ l r | .index _ l r =>
    simp only [Expr.relocate, Expr.text, Expr.text_relocate l, Expr.text_relocate r]
  | .cond _ c yes none =>
    simp only [Expr.relocate, Expr.text, Expr.text_relocate c, Block.text_relocate yes]
  | .cond _ c yes (some no) =>
    simp only [Expr.relocate, Expr.text, Expr.text_relocate c, Block.text_relocate yes,
      Block.text_relocate no]
  | .function t ps body =>
    have hnames : (ps.map (Ident.relocate f)).map Ident.name = ps.map Ident.name := by
      rw [List.map_map]
      rfl
    simp only [Expr.relocate, Expr.text, Token.literal_relocate, hnames, Block.text_relocate body]
  | .call _ e es => simp only [Expr.relocate, Expr.text, Expr.text_relocate e, Expr.texts_relocate es]
  | .array _ es => simp only [Expr.relocate, Expr.text, Expr.texts_relocate es]
  | .hash _ ps => simp only [Expr.relocate, Expr.text, Expr.pairTexts_relocate ps]
termination_by structural e

theorem Expr.texts_relocate (es : List Expr) (done : Array String) :
    Expr.texts done (Expr.relocateAll f es) = Expr.texts done es := by
  match es with
  | [] => rfl
  | e :: es =>
    simp only [Expr.relocateAll, Expr.texts, Expr.text_relocate e, Expr.texts_relocate es]
termination_by structural es

theorem Expr.pairTexts_relocate (ps : List (Expr × Expr)) (done : Array String) :
    Expr.pairTexts done (Expr.relocatePairs f ps) = Expr.pairTexts done ps := by
  match ps with
  | [] => rfl
  | (k, v) :: ps =>
    simp only [Expr.relocatePairs, Expr.pairTexts, Expr.text_relocate k, Expr.text_relocate v,
      Expr.pairTexts_relocate ps]
termination_by structural ps

theorem Block.text_relocate (b : Block) : (b.relocate f).text = b.text := by
  match b with
  | .mk _ ss => exact Stmt.appendAll_relocate ss ""
termination_by structural b

theorem Stmt.text_relocate (s : Stmt) : (s.relocate f).text = s.text := by
  match s with
  | .bind _ _ e =>
    simp only [Stmt.relocate, Stmt.text, Token.literal_relocate, Ident.name_relocate,
      Expr.text_relocate e]
  | .ret _ e =>
    simp only [Stmt.relocate, Stmt.text, Token.literal_relocate, Expr.text_relocate e]
  | .expr _ e => exact Expr.text_relocate e
  | .block b => exact Block.text_relocate b
termination_by structural s

theorem Stmt.appendAll_relocate (ss : List Stmt) (out : String) :
    Stmt.appendAll out (Stmt.relocateAll f ss) = Stmt.appendAll out ss := by
  match ss with
  | [] => rfl
  | s :: ss =>
    simp only [Stmt.relocateAll, Stmt.appendAll, Stmt.text_relocate s, Stmt.appendAll_relocate ss]
termination_by structural ss

end

end

/-! ### Reading a text again -/

section

open Reading

variable {eof : Token} {rest : List Token} {ws : List Word} {fuel : Nat}

/-- A whole text that spells an expression, without a semicolon, is read as one statement. -/
theorem Expr.yields_statements (e : Expr) (h : Enclosed True (e.Spelled false) ws)
    (heof : eof.kind = .eof) (hbegins : Begins ws rest []) (hfuel : 8 * rest.length + 2 ≤ fuel) :
    (statements false #[] (fuel + 2)).Yields ⟨rest, eof, #[]⟩ fun ss r =>
      (∃ t e', ss = [.expr t e'] ∧ e'.shape = e.shape) ∧ r = ⟨[], eof, #[]⟩ := by
  obtain ⟨w, us, rfl, hw⟩ := h.starts fun _ => Expr.Spelled.starts e
  obtain ⟨o, tail, hrest, ho, -⟩ := begins_cons.mp hbegins
  have hstarts : o.kind.starts := by
    rw [← ho] at hw
    exact hw
  have hcloses : (([] : List Token).headD eof).kind.Closes := by
    rw [List.headD_nil, heof]
    exact ⟨rfl, by decide⟩
  have hexpression : (expression Level.lowest fuel).Yields ⟨rest, eof, #[]⟩
      (Stops eof #[] [] fun e' => e'.shape = e.shape) :=
    h.yields_expression (e.rereads eof) hcloses hbegins hfuel
  -- no expression starts with the keyword of another statement
  have hstatement : (statement (fuel + 1)).Yields ⟨rest, eof, #[]⟩ (Stops eof #[] []
      fun s => ∃ t e', s = .expr t e' ∧ e'.shape = e.shape) := by
    rw [hrest] at hexpression ⊢
    rw [statement, yields_bind, yields_current, Reader.current_cons]
    split
    · next hlet =>
      rw [hlet] at hstarts
      cases hstarts
    · next hreturn =>
      rw [hreturn] at hstarts
      cases hstarts
    · rw [yields_bind]
      refine hexpression.after fun e' t he' => ?_
      have hnone : eof.kind ≠ .semicolon := by
        rw [heof]
        decide
      rw [yields_bind, yields_skip, Reader.peek_cons, List.headD_nil, if_neg hnone]
      exact ⟨⟨o, e', rfl, he'⟩, t, rfl⟩
  -- nor with what ends the statements
  have hmore : ¬((rest.headD eof).kind = .eof ∨
      false ∧ (rest.headD eof).kind = .rbrace) := by
    rw [hrest, List.headD_cons]
    rintro (hkind | ⟨hfalse, -⟩)
    · rw [hkind] at hstarts
      cases hstarts
    · cases hfalse
  rw [statements, yields_bind, yields_current, Reader.current_mk, if_neg hmore, yields_bind]
  refine yields_attempt (hstatement.after fun s t hs => ?_)
  obtain ⟨o', e', rfl, he'⟩ := hs
  simp only [yields_bind, yields_advance, Reader.advance_cons]
  rw [statements, yields_bind, yields_current, Reader.current_mk, if_pos (.inl heof)]
  exact ⟨⟨o', e', rfl, he'⟩, rfl⟩

end

namespace Program

/-- The text of a plain expression is read as one statement, without a diagnostic. -/
theorem exists_read_text {e : Expr} (he : e.Plain) (hl : e.Labelled) :
    ∃ t e', read e.text = (⟨[.expr t e']⟩, []) ∧ e'.shape = e.shape ∧
      (Token.scan e.text).1.map Token.word = e.printed := by
  have hmore : BreaksOff [] := fun d hd => nomatch hd
  have hmakeUp := e.makeUp_text he hl (.last .nil) hmore
  rw [List.append_nil, List.append_nil] at hmakeUp
  have hwords := hmakeUp.scan
  have henclosed : Enclosed True (e.Spelled false) e.printed :=
    (e.enclosed_printed he hl).mono fun _ => trivial
  have heof := Token.kind_scan_snd e.text
  unfold read
  generalize Token.scan e.text = scan at hwords heof ⊢
  obtain ⟨ts, eof⟩ := scan
  have hbegins : Begins e.printed ts [] := ⟨ts, hwords, (List.append_nil ts).symm⟩
  have hyields := e.yields_statements henclosed heof hbegins
    (by omega : 8 * ts.length + 2 ≤ 8 * ts.length + 6)
  obtain ⟨_, ⟨t, e', rfl, hshape⟩, hread⟩ := ofTokens_of_yields hyields
  exact ⟨t, e', hread, hshape, hwords⟩

/-- The integers of an expression that is read as the only statement are those of its text. -/
theorem numerals_of_read {source : String} {t : Token} {e : Expr}
    (h : read source = (⟨[.expr t e]⟩, [])) (he : e.Plain) :
    Word.numerals ((Token.scan source).1.map Token.word) = e.numerals := by
  have hspelled := spelled_read source (by rw [h])
  rw [h] at hspelled
  obtain ⟨_, _, ⟨us, ending, hus, hending, rfl⟩, rfl, hwords⟩ := hspelled
  have hnone : Word.numerals ending = [] := by
    rcases hending with rfl | ⟨-, rfl⟩ <;> rfl
  rw [hwords, List.append_nil, Word.numerals_append, hnone, List.append_nil]
  exact hus.numerals fun _ => Expr.Spelled.numerals e he

theorem labelled_of_read {source : String} {t : Token} {e : Expr} {ds : List Diagnostic}
    (h : read source = (⟨[.expr t e]⟩, ds)) : e.Labelled := by
  have hlabelled := labelled_read source
  rw [h] at hlabelled
  exact hlabelled.1

/-- **Printing and parsing undo each other.** The text of a plain expression that was parsed is parsed as
the same expression, which has this text again. -/
theorem parse_text {source : String} {t : Token} {e : Expr}
    (h : parse source = .ok ⟨[.expr t e]⟩) (he : e.Plain) :
    ∃ t' e', parse e.text = .ok ⟨[.expr t' e']⟩ ∧ e'.unplaced = e.unplaced ∧ e'.text = e.text := by
  have hl : e.Labelled := labelled_of_read (parse_eq_ok_iff.mp h)
  obtain ⟨t', e', hread, hshape, hwords⟩ := exists_read_text he hl
  have hl' : e'.Labelled := labelled_of_read hread
  have hnumerals : e'.numerals = e.numerals := by
    have hprinted : Enclosed (Level.call ≤ e.level) (e.Spelled true) e.printed :=
      e.enclosed_printed he hl
    rw [← numerals_of_read hread (he.of_shape hshape), hwords]
    exact hprinted.numerals fun _ => Expr.Spelled.numerals e he
  have hunplaced := e.unplaced_eq_of_shape e' he hl hl' hshape hnumerals
  refine ⟨t', e', parse_eq_ok_iff.mpr hread, hunplaced, ?_⟩
  calc e'.text = e'.unplaced.text := (e'.text_relocate _).symm
    _ = e.unplaced.text := by rw [hunplaced]
    _ = e.text := e.text_relocate _

/-- Parentheses that the tree does not need, and a leading zero, which it keeps. -/
theorem parse_text_product : ∃ t e, parse "-(07) * a[0]" = .ok ⟨[.expr t e]⟩ ∧ e.Plain ∧
    ∃ t' e', parse "((-07) * (a[0]))" = .ok ⟨[.expr t' e']⟩ ∧
      e'.unplaced = e.unplaced ∧ e'.text = "((-07) * (a[0]))" := by
  have hscan : Token.scan "-(07) * a[0]" =
      ([⟨.minus, "-", ⟨0, 1, 1, 1⟩⟩, ⟨.lparen, "(", ⟨1, 2, 1, 2⟩⟩, ⟨.int, "07", ⟨2, 4, 1, 3⟩⟩,
        ⟨.rparen, ")", ⟨4, 5, 1, 5⟩⟩, ⟨.asterisk, "*", ⟨6, 7, 1, 7⟩⟩, ⟨.ident, "a", ⟨8, 9, 1, 9⟩⟩,
        ⟨.lbracket, "[", ⟨9, 10, 1, 10⟩⟩, ⟨.int, "0", ⟨10, 11, 1, 11⟩⟩,
        ⟨.rbracket, "]", ⟨11, 12, 1, 12⟩⟩], ⟨.eof, "", ⟨12, 12, 1, 13⟩⟩) := by decide +kernel
  obtain ⟨t, e, hread, he, htext⟩ : ∃ t e, read "-(07) * a[0]" = (⟨[.expr t e]⟩, []) ∧ e.Plain ∧
      e.text = "((-07) * (a[0]))" := by
    unfold read
    rw [hscan]
    exact ⟨_, _, rfl, ⟨trivial, trivial, trivial⟩, rfl⟩
  have hparse := parse_eq_ok_iff.mpr hread
  have hagain := parse_text hparse he
  rw [htext] at hagain
  exact ⟨t, e, hparse, he, hagain⟩

end Program

end Monkey
