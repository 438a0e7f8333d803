import Monkey.Program.Text
import Monkey.Proofs.Labels
import Monkey.Proofs.Respacing
import Monkey.Proofs.Writing

/-!
# The text of expressions

An expression without strings, conditionals and functions (`Expr.Plain`) has a text that spells it. The
words of this text are `Expr.printed`. They spell the expression with enough parentheses for every
place (`Expr.enclosed_printed`), and the scanner finds them in the text (`Expr.makeUp_text`), though no
space keeps them apart in most places.
-/

namespace Monkey

/-! ### Plain expressions -/

mutual

/-- The expression is made of names, integers, booleans, operators, calls, arrays, hashes and indices
only. -/
def Expr.Plain : Expr → Prop
  | .name _ | .integer _ _ | .boolean _ _ => True
  | .unary _ _ e => e.Plain
  | .binary _ _ l r => l.Plain ∧ r.Plain
  | .call _ f es => f.Plain ∧ Expr.PlainAll es
  | .array _ es => Expr.PlainAll es
  | .hash _ ps => Expr.PlainPairs ps
  | .index _ e i => e.Plain ∧ i.Plain
  | .string _ _ | .cond _ _ _ _ | .function _ _ _ => False
termination_by structural e => e

/-- All the expressions are plain. -/
def Expr.PlainAll : List Expr → Prop
  | [] => True
  | e :: es => e.Plain ∧ Expr.PlainAll es
termination_by structural es => es

/-- All the entries are plain. -/
def Expr.PlainPairs : List (Expr × Expr) → Prop
  | [] => True
  | (k, v) :: ps => k.Plain ∧ v.Plain ∧ Expr.PlainPairs ps
termination_by structural ps => ps

end

mutual

/-- Whether an expression is plain can be told from its shape. -/
theorem Expr.plain_shape (e : Expr) : e.shape.Plain ↔ e.Plain := by
  match e with
  | .name _ | .integer _ _ | .boolean _ _ | .string _ _ | .function _ _ _ => exact Iff.rfl
  | .cond _ _ _ none | .cond _ _ _ (some _) => exact Iff.rfl
  | .unary _ _ e => exact Expr.plain_shape e
  | .binary _ _ l r | .index _ l r => exact and_congr (Expr.plain_shape l) (Expr.plain_shape r)
  | .call _ f es => exact and_congr (Expr.plain_shape f) (Expr.plainAll_shape es)
  | .array _ es => exact Expr.plainAll_shape es
  | .hash _ ps => exact Expr.plainPairs_shape ps
termination_by structural e

theorem Expr.plainAll_shape (es : List Expr) :
    Expr.PlainAll (Expr.shapeAll es) ↔ Expr.PlainAll es := by
  match es with
  | [] => exact Iff.rfl
  | e :: es => exact and_congr (Expr.plain_shape e) (Expr.plainAll_shape es)
termination_by structural es

theorem Expr.plainPairs_shape (ps : List (Expr × Expr)) :
    Expr.PlainPairs (Expr.shapePairs ps) ↔ Expr.PlainPairs ps := by
  match ps with
  | [] => exact Iff.rfl
  | (k, v) :: ps =>
    exact and_congr (Expr.plain_shape k)
      (and_congr (Expr.plain_shape v) (Expr.plainPairs_shape ps))
termination_by structural ps

end

theorem Expr.Plain.of_shape {e e' : Expr} (h : e.Plain) (hshape : e'.shape = e.shape) :
    e'.Plain := by
  rwa [← e'.plain_shape, hshape, e.plain_shape]

/-! ### The words of a text -/

mutual

/-- The words of the text of an expression: operator expressions and indices have parentheses around
them, and nothing else has. -/
def Expr.printed : Expr → List Word
  | .name id => [id.word]
  | .integer t _ => [⟨.int, t.literal⟩]
  | .boolean _ b => [(if b then Kind.true else Kind.false).word]
  | .unary _ op e => Kind.lparen.word :: op.kind.word :: (e.printed ++ [Kind.rparen.word])
  | .binary _ op l r =>
    Kind.lparen.word :: (l.printed ++ op.kind.word :: (r.printed ++ [Kind.rparen.word]))
  | .call _ f es => f.printed ++ Kind.lparen.word :: (Expr.printedAll es ++ [Kind.rparen.word])
  | .array _ es => Kind.lbracket.word :: (Expr.printedAll es ++ [Kind.rbracket.word])
  | .hash _ ps => Kind.lbrace.word :: (Expr.printedPairs ps ++ [Kind.rbrace.word])
  | .index _ e i => Kind.lparen.word ::
    (e.printed ++ Kind.lbracket.word :: (i.printed ++ [Kind.rbracket.word, Kind.rparen.word]))
  | .string _ _ | .cond _ _ _ _ | .function _ _ _ => []
termination_by structural e => e

/-- The words of the texts of expressions, with commas between them. -/
def Expr.printedAll : List Expr → List Word
  | [] => []
  | e :: es => e.printed ++ Expr.printedRest es
termination_by structural es => es

/-- The words of the texts of expressions, with a comma before each of them. -/
def Expr.printedRest : List Expr → List Word
  | [] => []
  | e :: es => Kind.comma.word :: (e.printed ++ Expr.printedRest es)
termination_by structural es => es

/-- The words of the texts of entries, with commas between them. -/
def Expr.printedPairs : List (Expr × Expr) → List Word
  | [] => []
  | (k, v) :: ps => k.printed ++ Kind.colon.word :: (v.printed ++ Expr.printedMore ps)
termination_by structural ps => ps

/-- The words of the texts of entries, with a comma before each of them. -/
def Expr.printedMore : List (Expr × Expr) → List Word
  | [] => []
  | (k, v) :: ps =>
    Kind.comma.word :: (k.printed ++ Kind.colon.word :: (v.printed ++ Expr.printedMore ps))
termination_by structural ps => ps

end

section

variable {lax : Bool}

/-- What is called or indexed may stand everywhere else, too. -/
theorem Enclosed.loosen {e : Expr} {P : List Word → Prop} {ws : List Word} {level : Nat}
    (h : Enclosed (Level.call ≤ e.level) P ws) (hlevel : level ≤ Level.call) :
    Enclosed (level ≤ e.level) P ws :=
  h.mono fun hle => Nat.le_trans hlevel hle

mutual

/-- **The words of its text spell the expression**, and they may stand wherever an expression may. -/
theorem Expr.enclosed_printed (e : Expr) (he : e.Plain) (hl : e.Labelled) :
    Enclosed (Level.call ≤ e.level) (e.Spelled lax) e.printed := by
  have hcall : Level.call ≤ Level.call := Nat.le_refl _
  match e, he, hl with
  | .name id, _, hl => exact .bare hcall ⟨hl.1, rfl⟩
  | .integer t n, _, hl => exact .bare hcall ⟨t.literal, hl.2, fun _ => rfl, rfl⟩
  | .boolean _ b, _, _ => exact .bare hcall rfl
  | .unary t op e, he, hl =>
    have hoperand := (Expr.enclosed_printed e he hl.2).loosen (by decide : Level.unary ≤ Level.call)
    have hspelled : (Expr.unary t op e).Spelled lax (op.kind.word :: e.printed) :=
      ⟨e.printed, hoperand, rfl⟩
    exact (Enclosed.bare trivial hspelled).parens
  | .binary t op l r, he, hl =>
    have hop : op.level < Level.call := Nat.lt_trans op.level_lt_unary (by decide)
    have hleft := (Expr.enclosed_printed l he.1 hl.2.1).loosen (Nat.le_of_lt hop)
    have hright := (Expr.enclosed_printed r he.2 hl.2.2).loosen (Nat.succ_le_of_lt hop)
    have hspelled : (Expr.binary t op l r).Spelled lax (l.printed ++ op.kind.word :: r.printed) :=
      ⟨l.printed, r.printed, hleft, hright, rfl⟩
    have hwords : Enclosed (Level.call ≤ op.level) _ _ := (Enclosed.bare trivial hspelled).parens
    rwa [List.append_assoc, List.cons_append] at hwords
  | .call _ f es, he, hl =>
    exact .bare hcall ⟨_, _, Expr.enclosed_printed f he.1 hl.2.1,
      Expr.spelledAll_printed es he.2 hl.2.2, rfl⟩
  | .array _ es, he, hl => exact .bare hcall ⟨_, Expr.spelledAll_printed es he hl.2, rfl⟩
  | .hash _ ps, he, hl => exact .bare hcall ⟨_, Expr.spelledPairs_printed ps he hl.2, rfl⟩
  | .index t e i, he, hl =>
    have hcollection := Expr.enclosed_printed e he.1 hl.2.1
    have hkey := (Expr.enclosed_printed i he.2 hl.2.2).mono fun _ => trivial
    have hspelled : (Expr.index t e i).Spelled lax
        (e.printed ++ Kind.lbracket.word :: (i.printed ++ [Kind.rbracket.word])) :=
      ⟨e.printed, i.printed, hcollection, hkey, rfl⟩
    have hwords : Enclosed (Level.call ≤ Level.call) _ _ := (Enclosed.bare trivial hspelled).parens
    rwa [List.append_assoc, List.cons_append, List.append_assoc] at hwords
termination_by structural e

theorem Expr.spelledAll_printed (es : List Expr) (he : Expr.PlainAll es)
    (hl : Expr.LabelledAll es) : Expr.SpelledAll lax es (Expr.printedAll es) := by
  match es, he, hl with
  | [], _, _ => exact rfl
  | e :: es, he, hl =>
    exact ⟨_, _, (Expr.enclosed_printed e he.1 hl.1).mono fun _ => trivial,
      Expr.spelledRest_printed es he.2 hl.2, rfl⟩
termination_by structural es

theorem Expr.spelledRest_printed (es : List Expr) (he : Expr.PlainAll es)
    (hl : Expr.LabelledAll es) : Expr.SpelledRest lax es (Expr.printedRest es) := by
  match es, he, hl with
  | [], _, _ => exact rfl
  | e :: es, he, hl =>
    exact ⟨_, _, (Expr.enclosed_printed e he.1 hl.1).mono fun _ => trivial,
      Expr.spelledRest_printed es he.2 hl.2, rfl⟩
termination_by structural es

theorem Expr.spelledPairs_printed (ps : List (Expr × Expr)) (he : Expr.PlainPairs ps)
    (hl : Expr.LabelledPairs ps) : Expr.SpelledPairs lax ps (Expr.printedPairs ps) := by
  match ps, he, hl with
  | [], _, _ => exact rfl
  | (k, v) :: ps, he, hl =>
    have hkey := (Expr.enclosed_printed k he.1 hl.1).mono fun _ => trivial
    have hvalue := (Expr.enclosed_printed v he.2.1 hl.2.1).mono fun _ => trivial
    have hrest := Expr.spelledPairs_printed ps he.2.2 hl.2.2
    cases ps with
    | nil => exact ⟨_, _, [], [], hkey, hvalue, .inr ⟨rfl, rfl⟩, rfl, rfl⟩
    | cons p ps => exact ⟨_, _, [Kind.comma.word], _, hkey, hvalue, .inl rfl, hrest, rfl⟩
termination_by structural ps

end

end

/-! ### Words in a text -/

/-- The text does not go on with a name or a number. -/
def BreaksOff (more : List Char) : Prop := ∀ d ∈ more.head?, isNameRest d = false

theorem breaksOff_cons {d : Char} {ds : List Char} (h : isNameRest d = false) :
    BreaksOff (d :: ds) := by
  intro c hc
  rwa [← Option.some.inj hc]

theorem BreaksOff.goesOn {more : List Char} (h : BreaksOff more) {k : Kind}
    (hk : ∀ d, k.goesOn d → isNameRest d) : ∀ d ∈ more.head?, k.goesOn d = false := by
  intro d hd
  rw [Bool.eq_false_iff]
  intro hopen
  have hclosed := h d hd
  rw [hk d hopen] at hclosed
  cases hclosed

/-- Only an assignment or an equality sign starts with an equals sign, and no expression does. -/
theorem Word.CutFrom.not_starts {w : Word} {cs more : List Char} (h : w.CutFrom '=' cs more) :
    ¬w.kind.starts := by
  have hlexeme := h.lexeme
  generalize w.kind = k at hlexeme
  cases hlexeme with
  | symbol hsymbol => cases k <;> cases hsymbol
  | word hc => exact absurd hc (by decide)
  | int hc => exact absurd hc (by decide)
  | illegal _ hmark => exact absurd (by decide) hmark
  | assign | eq => decide

namespace Word.MakeUp

variable {ws : List Word} {more : List Char}

/-- A word in front of others that do not go on with it. Strings would have to be closed. -/
theorem word {w : Word} (hw : w.Proper) (hstring : w.kind ≠ .string)
    (hmore : ∀ d ∈ more.head?, w.kind.goesOn d = false) (h : MakeUp ws more) :
    MakeUp (w :: ws) (w.literal.toList ++ more) := by
  have hapart : Apart [] := fun c hc => nomatch hc
  obtain ⟨c, cs, htext, hcut⟩ := hw.cutFrom hapart
  rw [text, if_neg hstring] at htext
  rw [htext]
  exact cons (hcut.change hmore fun h => absurd h hstring) h

/-- A bracket, a comma or a colon, which no character goes on with. -/
theorem symbol (h : MakeUp ws more) (k : Kind) (c : Char) (hk : k.isFixed)
    (hc : k.spelling.toList = [c]) (hopen : ∀ d, k.goesOn d = false) :
    MakeUp (k.word :: ws) (c :: more) := by
  have hstring : k ≠ .string := by
    rintro rfl
    cases hk
  have hword := word (Kind.proper_word hk) hstring (fun d _ => hopen d) h
  rwa [Kind.word, hc] at hword

theorem head?_ne_equals {w : Word} {cs : List Char} (h : MakeUp (w :: ws) cs)
    (hw : w.kind.starts) : cs.head? ≠ some '=' := by
  intro hequals
  obtain ⟨cs, rfl⟩ := List.head?_eq_some_iff.mp hequals
  obtain ⟨ts, hlaid, hwords⟩ := h .start
  generalize hcs : '=' :: cs = text at hlaid
  cases hlaid with
  | last => cases hwords
  | @token t ts _ gap c lexeme more hgap hcut =>
    obtain rfl : t.word = w := (List.cons.inj hwords).1
    cases hgap with
    | nil =>
      obtain rfl : '=' = c := (List.cons.inj hcs).1
      exact hcut.not_starts hw
    | blank hblank =>
      obtain rfl := (List.cons.inj hcs).1
      cases hblank
    | comment => cases hcs
    | lastLine hend => cases hend

end Word.MakeUp

/-! ### The scanner finds the words -/

theorem UnaryOp.spelling_kind (op : UnaryOp) : op.kind.spelling = op.symbol := by
  cases op <;> rfl

theorem BinaryOp.spelling_kind (op : BinaryOp) : op.kind.spelling = op.symbol := by
  cases op <;> rfl

/-- Texts with a comma and a space before each of them. -/
def commaTexts (ss : List String) : List Char := ss.flatMap fun t => ',' :: ' ' :: t.toList

theorem toList_intercalate_cons (s : String) (ss : List String) :
    (", ".intercalate (s :: ss)).toList = s.toList ++ commaTexts ss := by
  induction ss generalizing s with
  | nil => simp [commaTexts]
  | cons t ts ih =>
    have hrest := ih t
    rw [String.toList_intercalate, List.map_cons] at hrest
    rw [String.toList_intercalate, List.map_cons, List.map_cons, List.intercalate_cons_cons, hrest]
    simp [commaTexts]

theorem Expr.pairTexts_eq (done : Array String) (ps : List (Expr × Expr)) :
    pairTexts done ps = done ++ (ps.map fun p => p.1.text ++ ":" ++ p.2.text).toArray := by
  induction ps generalizing done with
  | nil => simp [pairTexts]
  | cons p ps ih => simp [pairTexts, ih]

theorem Expr.printed_starts (e : Expr) (he : e.Plain) (hl : e.Labelled) :
    ∃ w ws, e.printed = w :: ws ∧ w.kind.starts := by
  have hspelled : Enclosed (Level.call ≤ e.level) (e.Spelled true) e.printed :=
    e.enclosed_printed he hl
  exact hspelled.starts fun _ => Expr.Spelled.starts e

/-- A literal, a name or a reserved word. -/
theorem Word.MakeUp.name {w : Word} {ws : List Word} {more : List Char} (hw : w.Proper)
    (hkind : w.kind = .ident ∨ w.kind = .int ∨ w.kind = .true ∨ w.kind = .false)
    (hmore : BreaksOff more) (h : MakeUp ws more) :
    MakeUp (w :: ws) (w.literal.toList ++ more) := by
  refine h.word hw ?_ (hmore.goesOn fun d hd => ?_)
  · rcases hkind with hk | hk | hk | hk <;> rw [hk] <;> decide
  · rcases hkind with hk | hk | hk | hk <;> rw [hk] at hd
    · exact hd
    · exact Bool.or_eq_true_iff.mpr (.inr hd)
    · exact hd
    · exact hd

mutual

/-- **The scanner finds the words of an expression in its text**, and behind them what it finds in the
text behind. -/
theorem Expr.makeUp_text (e : Expr) (he : e.Plain) (hl : e.Labelled) {ws : List Word}
    {more : List Char} (h : Word.MakeUp ws more) (hmore : BreaksOff more) :
    Word.MakeUp (e.printed ++ ws) (e.text.toList ++ more) := by
  match e, he, hl with
  | .name id, _, hl => exact h.name (w := id.word) hl.1 (.inl rfl) hmore
  | .integer t n, _, hl =>
    exact h.name (w := ⟨.int, t.literal⟩) (integer?_eq_some hl.2) (.inr (.inl rfl)) hmore
  | .boolean t b, _, hl =>
    have hliteral : t.literal = (if b then Kind.true else Kind.false).word.literal :=
      congrArg Word.literal hl
    rw [Expr.text, Expr.printed, hliteral]
    refine h.name (Kind.proper_word (by cases b <;> rfl)) ?_ hmore
    cases b with
    | true => exact .inr (.inr (.inl rfl))
    | false => exact .inr (.inr (.inr rfl))
  | .unary _ op e, he, hl =>
    have hclose := h.symbol .rparen ')' rfl rfl fun _ => rfl
    have hinner := Expr.makeUp_text e he hl.2 hclose (breaksOff_cons rfl)
    have hop : Word.MakeUp (op.kind.word :: (e.printed ++ Kind.rparen.word :: ws))
        (op.kind.spelling.toList ++ (e.text.toList ++ ')' :: more)) := by
      refine hinner.word (Kind.proper_word (by cases op <;> rfl)) (by cases op <;> nofun) ?_
      -- a bang must not meet an equals sign, and no operand starts with one
      intro d hd
      obtain ⟨w, vs, hprinted, hw⟩ := Expr.printed_starts e he hl.2
      rw [hprinted] at hinner
      have hequals := hinner.head?_ne_equals hw
      cases op with
      | minus => rfl
      | bang => exact beq_false_of_ne fun h => hequals (h ▸ hd)
    have hwhole := hop.symbol .lparen '(' rfl rfl fun _ => rfl
    rw [op.spelling_kind] at hwhole
    simpa [Expr.text, Expr.printed] using hwhole
  | .binary _ op l r, he, hl =>
    have hclose := h.symbol .rparen ')' rfl rfl fun _ => rfl
    have hright := (Expr.makeUp_text r he.2 hl.2.2 hclose (breaksOff_cons rfl)).space
    have hop := hright.word (Kind.proper_word (k := op.kind) (by cases op <;> rfl))
      (by cases op <;> nofun) fun d hd => by
        obtain rfl : ' ' = d := Option.some.inj hd
        exact Kind.goesOn_blank _ rfl
    have hleft := Expr.makeUp_text l he.1 hl.2.1 hop.space (breaksOff_cons rfl)
    have hwhole := hleft.symbol .lparen '(' rfl rfl fun _ => rfl
    have hspelling : op.kind.word.literal = op.symbol := op.spelling_kind
    rw [hspelling] at hwhole
    simpa [Expr.text, Expr.printed] using hwhole
  | .call _ f es, he, hl =>
    have hclose := h.symbol .rparen ')' rfl rfl fun _ => rfl
    have harguments := Expr.makeUp_texts es he.2 hl.2.2 hclose (breaksOff_cons rfl)
    have hopen := harguments.symbol .lparen '(' rfl rfl fun _ => rfl
    have hwhole := Expr.makeUp_text f he.1 hl.2.1 hopen (breaksOff_cons rfl)
    simpa [Expr.text, Expr.printed] using hwhole
  | .array _ es, he, hl =>
    have hclose := h.symbol .rbracket ']' rfl rfl fun _ => rfl
    have helements := Expr.makeUp_texts es he hl.2 hclose (breaksOff_cons rfl)
    have hwhole := helements.symbol .lbracket '[' rfl rfl fun _ => rfl
    simpa [Expr.text, Expr.printed] using hwhole
  | .hash _ ps, he, hl =>
    have hclose := h.symbol .rbrace '\x7d' rfl rfl fun _ => rfl
    have hentries := Expr.makeUp_pairTexts ps he hl.2 hclose (breaksOff_cons rfl)
    have hwhole := hentries.symbol .lbrace '\x7b' rfl rfl fun _ => rfl
    simpa [Expr.text, Expr.printed] using hwhole
  | .index _ e i, he, hl =>
    have hclose := h.symbol .rparen ')' rfl rfl fun _ => rfl
    have hbracket := hclose.symbol .rbracket ']' rfl rfl fun _ => rfl
    have hkey := Expr.makeUp_text i he.2 hl.2.2 hbracket (breaksOff_cons rfl)
    have hopen := hkey.symbol .lbracket '[' rfl rfl fun _ => rfl
    have hcollection := Expr.makeUp_text e he.1 hl.2.1 hopen (breaksOff_cons rfl)
    have hwhole := hcollection.symbol .lparen '(' rfl rfl fun _ => rfl
    simpa [Expr.text, Expr.printed] using hwhole
termination_by structural e

theorem Expr.makeUp_texts (es : List Expr) (he : Expr.PlainAll es) (hl : Expr.LabelledAll es)
    {ws : List Word} {more : List Char} (h : Word.MakeUp ws more) (hmore : BreaksOff more) :
    Word.MakeUp (Expr.printedAll es ++ ws)
      ((", ".intercalate (Expr.texts #[] es).toList).toList ++ more) := by
  match es, he, hl with
  | [], _, _ => exact h
  | e :: es, he, hl =>
    obtain ⟨hrest, hbreaks⟩ := Expr.makeUp_restTexts es he.2 hl.2 h hmore
    have hwhole := Expr.makeUp_text e he.1 hl.1 hrest hbreaks
    rw [Expr.texts_eq, Array.empty_append, List.map_cons, toList_intercalate_cons]
    simpa [Expr.printedAll] using hwhole
termination_by structural es

theorem Expr.makeUp_restTexts (es : List Expr) (he : Expr.PlainAll es) (hl : Expr.LabelledAll es)
    {ws : List Word} {more : List Char} (h : Word.MakeUp ws more) (hmore : BreaksOff more) :
    Word.MakeUp (Expr.printedRest es ++ ws) (commaTexts (es.map Expr.text) ++ more) ∧
      BreaksOff (commaTexts (es.map Expr.text) ++ more) := by
  match es, he, hl with
  | [], _, _ => exact ⟨h, hmore⟩
  | e :: es, he, hl =>
    obtain ⟨hrest, hbreaks⟩ := Expr.makeUp_restTexts es he.2 hl.2 h hmore
    have hfirst := Expr.makeUp_text e he.1 hl.1 hrest hbreaks
    have hwhole := hfirst.space.symbol .comma ',' rfl rfl fun _ => rfl
    exact ⟨by simpa [Expr.printedRest, commaTexts] using hwhole, breaksOff_cons rfl⟩
termination_by structural es

theorem Expr.makeUp_pairTexts (ps : List (Expr × Expr)) (he : Expr.PlainPairs ps)
    (hl : Expr.LabelledPairs ps) {ws : List Word} {more : List Char} (h : Word.MakeUp ws more)
    (hmore : BreaksOff more) : Word.MakeUp (Expr.printedPairs ps ++ ws)
      ((", ".intercalate (Expr.pairTexts #[] ps).toList).toList ++ more) := by
  match ps, he, hl with
  | [], _, _ => exact h
  | (k, v) :: ps, he, hl =>
    obtain ⟨hrest, hbreaks⟩ := Expr.makeUp_morePairs ps he.2.2 hl.2.2 h hmore
    have hvalue := Expr.makeUp_text v he.2.1 hl.2.1 hrest hbreaks
    have hcolon := hvalue.symbol .colon ':' rfl rfl fun _ => rfl
    have hwhole := Expr.makeUp_text k he.1 hl.1 hcolon (breaksOff_cons rfl)
    rw [Expr.pairTexts_eq, Array.empty_append, List.map_cons, toList_intercalate_cons]
    simpa [Expr.printedPairs] using hwhole
termination_by structural ps

theorem Expr.makeUp_morePairs (ps : List (Expr × Expr)) (he : Expr.PlainPairs ps)
    (hl : Expr.LabelledPairs ps) {ws : List Word} {more : List Char} (h : Word.MakeUp ws more)
    (hmore : BreaksOff more) :
    Word.MakeUp (Expr.printedMore ps ++ ws)
        (commaTexts (ps.map fun p => p.1.text ++ ":" ++ p.2.text) ++ more) ∧
      BreaksOff (commaTexts (ps.map fun p => p.1.text ++ ":" ++ p.2.text) ++ more) := by
  match ps, he, hl with
  | [], _, _ => exact ⟨h, hmore⟩
  | (k, v) :: ps, he, hl =>
    obtain ⟨hrest, hbreaks⟩ := Expr.makeUp_morePairs ps he.2.2 hl.2.2 h hmore
    have hvalue := Expr.makeUp_text v he.2.1 hl.2.1 hrest hbreaks
    have hcolon := hvalue.symbol .colon ':' rfl rfl fun _ => rfl
    have hkey := Expr.makeUp_text k he.1 hl.1 hcolon (breaksOff_cons rfl)
    have hwhole := hkey.space.symbol .comma ',' rfl rfl fun _ => rfl
    exact ⟨by simpa [Expr.printedMore, commaTexts] using hwhole, breaksOff_cons rfl⟩
termination_by structural ps

end

end Monkey
