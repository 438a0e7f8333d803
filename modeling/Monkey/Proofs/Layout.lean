import Monkey.Proofs.Scanning

/-!
# How texts are laid out

A text is its tokens in order, with blanks and comments between them. `Token.LaidOut` says so without
the scanner: a filler and a lexeme in turn, each lexeme as long as what stands behind it makes it. The
scanner cuts every text in this way (`Token.laidOut_scan`), and there is no other way to cut it
(`Token.LaidOut.scan_eq`).

So that texts can be put together from lexemes, `Word.CutFrom.change` puts other characters behind a
lexeme. All that matters is that the first of them does not go on with it (`Kind.goesOn`). With a space
between any two of them, all proper words can be put together (`Token.scan_spaced`).
-/

namespace Monkey

/-! ### Fillers -/

/-- Blanks and comments. A comment runs to the line feed that ends its line. At the end of a text, the
last line needs none. -/
inductive Filler (atEnd : Bool) : List Char → Prop
  | nil : Filler atEnd []
  | blank {c : Char} {cs : List Char} (hc : isBlank c) (h : Filler atEnd cs) : Filler atEnd (c :: cs)
  | comment {text cs : List Char} (htext : '\n' ∉ text) (h : Filler atEnd cs) :
    Filler atEnd ('/' :: '/' :: (text ++ '\n' :: cs))
  | lastLine {text : List Char} (hend : atEnd) (htext : '\n' ∉ text) :
    Filler atEnd ('/' :: '/' :: text)

theorem Filler.append {atEnd : Bool} {as bs : List Char} (has : Filler false as)
    (hbs : Filler atEnd bs) : Filler atEnd (as ++ bs) := by
  induction has with
  | nil => exact hbs
  | blank hc _ ih => exact .blank hc ih
  | comment htext _ ih =>
    rw [List.cons_append, List.cons_append, List.append_assoc, List.cons_append]
    exact .comment htext ih
  | lastLine hend => cases hend

/-- A text is filled up, or a lexeme starts in it. -/
theorem exists_filler (cs : List Char) : Filler true cs ∨ ∃ gap c more, cs = gap ++ c :: more ∧
    Filler false gap ∧ isBlank c = false ∧ ¬(c = '/' ∧ more.head? = some '/') := by
  induction hn : cs.length using Nat.strong_induction_on generalizing cs with
  | _ n ih =>
  -- what stands before the rest of the text can be put in front of its filler
  have hfront : ∀ front rest, rest.length < n → (∀ atEnd ds, Filler atEnd ds →
      Filler atEnd (front ++ ds)) → cs = front ++ rest → Filler true cs ∨
      ∃ gap c more, cs = gap ++ c :: more ∧ Filler false gap ∧ isBlank c = false ∧
        ¬(c = '/' ∧ more.head? = some '/') := by
    intro front rest hlt hfiller hcs
    rcases ih rest.length hlt rest rfl with hrest | ⟨gap, c, more, rfl, hgap, hc⟩
    · exact .inl (hcs ▸ hfiller true rest hrest)
    · exact .inr ⟨front ++ gap, c, more, by rw [hcs, List.append_assoc], hfiller false gap hgap, hc⟩
  cases cs with
  | nil => exact .inl .nil
  | cons c cs =>
    rw [List.length_cons] at hn
    by_cases hblank : isBlank c
    · exact hfront [c] cs (by omega) (fun _ _ h => .blank hblank h) rfl
    by_cases hcomment : c = '/' ∧ cs.head? = some '/'
    · obtain ⟨rfl, hslash⟩ := hcomment
      obtain ⟨cs, rfl⟩ := List.head?_eq_some_iff.mp hslash
      by_cases hfeed : '\n' ∈ cs
      · obtain ⟨text, rest, rfl, htext⟩ := List.eq_append_cons_of_mem hfeed
        simp only [List.length_append, List.length_cons] at hn
        refine hfront ('/' :: '/' :: (text ++ ['\n'])) rest (by omega) (fun atEnd ds h => ?_) ?_
        · have hfiller := Filler.comment htext h
          simpa using hfiller
        · simp
      · exact .inl (.lastLine rfl hfeed)
    · exact .inr ⟨[], c, cs, rfl, .nil, by simpa using hblank, hcomment⟩

/-! ### Lexemes -/

/-- The characters that go on with a word of the kind. Two slashes start a comment. -/
def Kind.goesOn : Kind → Char → Bool
  | .slash, d => d == '/'
  | .assign, d | .bang, d => d == '='
  | .int, d => d.isDigit
  | .ident, d | .function, d | .let, d | .true, d | .false, d | .if, d | .else, d | .return, d =>
    isNameRest d
  | _, _ => Bool.false

theorem Kind.goesOn_ofWord (word : String) (d : Char) : (ofWord word).goesOn d = isNameRest d := by
  unfold ofWord keyword?
  split <;> rfl

/-- A lexeme stays what it is when other characters stand behind it that do not go on with it. Nothing
may be put behind a string that runs to the end of the text. -/
theorem Lexeme.change {k : Kind} {c : Char} {cs more more' : List Char} (h : Lexeme k c cs more)
    (hmore : ∀ d ∈ more'.head?, k.goesOn d = false)
    (hend : k = .string → more = [] → more' = []) : Lexeme k c cs more' := by
  cases h with
  | symbol h => exact .symbol h
  | assign => exact .assign fun heq => absurd (hmore '=' heq) (by decide)
  | bang => exact .bang fun heq => absurd (hmore '=' heq) (by decide)
  | eq => exact .eq
  | notEq => exact .notEq
  | quoted hcontent => exact .quoted hcontent
  | unclosed hcontent =>
    obtain rfl := hend rfl rfl
    exact .unclosed hcontent
  | int hc hcs => exact .int hc hcs hmore
  | word hc hcs _ hk =>
    refine .word hc hcs (fun d hd => ?_) hk
    have hclosed := hmore d hd
    rwa [← hk, Kind.goesOn_ofWord] at hclosed
  | illegal hsymbol hmark hdigit hstart => exact .illegal hsymbol hmark hdigit hstart

namespace Word

/-- A lexeme starts at every character that is not skipped. -/
theorem exists_cutFrom {c : Char} {cs : List Char} (hblank : isBlank c = false)
    (hcomment : ¬(c = '/' ∧ cs.head? = some '/')) :
    ∃ w lexeme more, cs = lexeme ++ more ∧ CutFrom w c lexeme more := by
  obtain ⟨lexeme, more, rfl, -, hlexeme⟩ := exists_lexeme c cs
  exact ⟨⟨_, literalOf _ c lexeme⟩, lexeme, more, rfl, hblank, hcomment, hlexeme.extent_eq, rfl⟩

theorem CutFrom.lexeme {w : Word} {c : Char} {cs more : List Char} (h : w.CutFrom c cs more) :
    Lexeme w.kind c cs more := extent_eq_iff.mp h.extent

/-- What a string lexeme is made of: its literal stands between quotes, or behind one at the end of
the text. -/
theorem CutFrom.quoted {w : Word} {c : Char} {cs more : List Char} (h : w.CutFrom c cs more)
    (hkind : w.kind = .string) : '"' ∉ w.literal.toList ∧
      (c :: cs = '"' :: (w.literal.toList ++ ['"']) ∨
        c :: cs = '"' :: w.literal.toList ∧ more = []) := by
  have hlexeme := h.lexeme
  have hliteral := h.literal
  rw [hkind] at hlexeme
  rw [literalOf, if_pos hkind] at hliteral
  rw [← hliteral, String.toList_ofList]
  cases hlexeme with
  | symbol hsymbol => cases hsymbol
  | quoted hcontent =>
    rw [takeWhile_quote hcontent]
    exact ⟨hcontent, .inl rfl⟩
  | unclosed hcontent =>
    rw [takeWhile_unclosed hcontent]
    exact ⟨hcontent, .inr ⟨rfl, rfl⟩⟩
  | word _ _ _ hk => exact absurd hk (Kind.ofWord_ne_string _)

/-- **A lexeme is cut off just the same** in front of other characters that do not go on with it. -/
theorem CutFrom.change {w : Word} {c : Char} {cs more more' : List Char} (h : w.CutFrom c cs more)
    (hmore : ∀ d ∈ more'.head?, w.kind.goesOn d = false)
    (hend : w.kind = .string → more = [] → more' = []) : w.CutFrom c cs more' := by
  refine ⟨h.notBlank, ?_, (h.lexeme.change hmore hend).extent_eq, h.literal⟩
  rintro ⟨rfl, hslash⟩
  -- the lexeme is a slash on its own, and with one behind it would be a comment
  obtain ⟨hkind, rfl⟩ := h.lexeme.of_slash
  have hopen := hmore '/' hslash
  rw [hkind] at hopen
  cases hopen

theorem CutFrom.kind_ne_eof {w : Word} {c : Char} {cs more : List Char} (h : w.CutFrom c cs more) :
    w.kind ≠ .eof := by
  have hkind := Cursor.extent_kind_ne_eof c (cs ++ more)
  rwa [h.extent] at hkind

end Word

namespace Cursor

/-! ### Passing over fillers -/

theorem skip_blank {c : Char} (hc : isBlank c) (cs : List Char) (p : Position) :
    skip false (c :: cs) p = skip false cs (p.advance c) := by
  rw [skip, Bool.false_and, if_neg Bool.false_ne_true, if_pos hc]

theorem skip_inComment {c : Char} (hc : c ≠ '\n') (cs : List Char) (p : Position) :
    skip true (c :: cs) p = skip true cs (p.advance c) := by
  rw [skip, Bool.true_and, if_pos (bne_iff_ne.mpr hc)]

theorem skip_comment {text : List Char} (htext : '\n' ∉ text) (cs : List Char) (p : Position) :
    skip true (text ++ '\n' :: cs) p = skip false cs (p.after (text ++ ['\n'])) := by
  induction text generalizing p with
  | nil => rfl
  | cons c text ih =>
    rw [List.mem_cons, not_or] at htext
    rw [List.cons_append, skip_inComment (Ne.symm htext.1), ih htext.2]
    rfl

theorem skip_lastLine {text : List Char} (htext : '\n' ∉ text) (p : Position) :
    skip true text p = ⟨[], p.after text⟩ := by
  induction text generalizing p with
  | nil => rfl
  | cons c text ih =>
    rw [List.mem_cons, not_or] at htext
    rw [skip_inComment (Ne.symm htext.1), ih htext.2]
    rfl

/-- Two slashes start a comment. -/
theorem skip_slashes (cs : List Char) (p : Position) :
    skip false ('/' :: '/' :: cs) p = skip true cs ((p.advance '/').advance '/') := rfl

theorem skip_filler {gap : List Char} (hgap : Filler false gap) (rest : List Char) (p : Position) :
    skip false (gap ++ rest) p = skip false rest (p.after gap) := by
  induction hgap generalizing p with
  | nil => rfl
  | blank hc _ ih =>
    rw [List.cons_append, skip_blank hc, ih]
    rfl
  | @comment text cs htext _ ih =>
    rw [List.cons_append, List.cons_append, List.append_assoc, List.cons_append, skip_slashes,
      skip_comment htext, ih, ← Position.after_append, List.append_assoc]
    rfl
  | lastLine hend => cases hend

theorem skip_last {cs : List Char} (h : Filler true cs) (p : Position) :
    skip false cs p = ⟨[], p.after cs⟩ := by
  induction h generalizing p with
  | nil => rfl
  | blank hc _ ih =>
    rw [skip_blank hc, ih]
    rfl
  | @comment text cs htext _ ih =>
    rw [skip_slashes, skip_comment htext, ih, ← Position.after_append, List.append_assoc]
    rfl
  | lastLine _ htext =>
    rw [skip_slashes, skip_lastLine htext]
    rfl

theorem next_filler {gap : List Char} (hgap : Filler false gap) (rest : List Char) (p : Position) :
    next ⟨gap ++ rest, p⟩ = next ⟨rest, p.after gap⟩ := by
  unfold next
  rw [skip_filler hgap]

theorem next_last {cs : List Char} (h : Filler true cs) (p : Position) :
    next ⟨cs, p⟩ = (.eof (p.after cs), ⟨[], p.after cs⟩) := by
  unfold next
  rw [skip_last h]

end Cursor

namespace Token

/-! ### Laid out tokens -/

/-- The text `cs`, which starts at the position `p`, is made of the tokens `ts`: a filler and a lexeme
in turn, and a last filler. -/
inductive LaidOut : List Token → Position → List Char → Prop
  | last {p : Position} {cs : List Char} (h : Filler true cs) : LaidOut [] p cs
  | token {t : Token} {ts : List Token} {p : Position} {gap : List Char} {c : Char}
    {lexeme more : List Char} (hgap : Filler false gap) (hcut : t.word.CutFrom c lexeme more)
    (hspan : t.span = .between (p.after gap) (p.after (gap ++ c :: lexeme)))
    (hrest : LaidOut ts (p.after (gap ++ c :: lexeme)) more) :
    LaidOut (t :: ts) p (gap ++ c :: (lexeme ++ more))

/-- Every text is laid out. -/
theorem exists_laidOut (cs : List Char) (p : Position) : ∃ ts, LaidOut ts p cs := by
  induction hn : cs.length using Nat.strong_induction_on generalizing cs p with
  | _ n ih =>
  rcases exists_filler cs with hlast | ⟨gap, c, rest, rfl, hgap, hblank, hcomment⟩
  · exact ⟨[], .last hlast⟩
  · obtain ⟨w, lexeme, more, rfl, hcut⟩ := Word.exists_cutFrom hblank hcomment
    have hlt : more.length < n := by
      simp only [List.length_append, List.length_cons] at hn
      omega
    obtain ⟨ts, hrest⟩ := ih more.length hlt more (p.after (gap ++ c :: lexeme)) rfl
    exact ⟨⟨w.kind, w.literal, _⟩ :: ts, .token hgap hcut rfl hrest⟩

/-- The scanner cuts a text where it is laid out, and it then stands at the end of the text. -/
theorem LaidOut.words {ts : List Token} {p : Position} {cs : List Char} (h : LaidOut ts p cs)
    (done : Array Token) :
    (Cursor.words ⟨cs, p⟩ done).1.toList = done.toList ++ ts ∧
      (Cursor.words ⟨cs, p⟩ done).2.next = (.eof (p.after cs), ⟨[], p.after cs⟩) := by
  induction h generalizing done with
  | last h =>
    rw [Cursor.words, Cursor.next_last h]
    exact ⟨(List.append_nil _).symm, Cursor.next_last h _⟩
  | @token t ts p gap c lexeme more hgap hcut hspan _ ih =>
    have hnext : Cursor.next ⟨gap ++ c :: (lexeme ++ more), p⟩ =
        (t, ⟨more, p.after (gap ++ c :: lexeme)⟩) := by
      rw [Cursor.next_filler hgap, hcut.next, ← Position.after_append, ← hspan]
      rfl
    have hkind : t.kind ≠ .eof := hcut.kind_ne_eof
    rw [Cursor.words, hnext]
    dsimp only
    rw [if_neg hkind, (ih _).1, (ih _).2, ← Position.after_append]
    simp

/-- **Scanning lays out the text.** -/
theorem laidOut_scan (source : String) : LaidOut (scan source).1 .start source.toList := by
  obtain ⟨ts, h⟩ := exists_laidOut source.toList .start
  have hwords : (scan source).1 = ts := (h.words #[]).1
  rwa [hwords]

/-- **There is one way to lay out a text.** -/
theorem LaidOut.scan_eq {ts : List Token} {source : String} (h : LaidOut ts .start source.toList) :
    (scan source).1 = ts :=
  (h.words #[]).1

/-- Behind all tokens the scanner stands at the end of the text, and there it stays. -/
theorem next_words (source : String) :
    ((Cursor.ofString source).words #[]).2.next =
      (.eof (Position.start.after source.toList), ⟨[], Position.start.after source.toList⟩) :=
  ((laidOut_scan source).words #[]).2

theorem scan_snd (source : String) :
    (scan source).2 = .eof (Position.start.after source.toList) :=
  congrArg Prod.fst (next_words source)

/-- Further blanks and comments may stand in front. -/
theorem LaidOut.filler {ts : List Token} {p : Position} {gap cs : List Char}
    (hgap : Filler false gap) (h : LaidOut ts (p.after gap) cs) : LaidOut ts p (gap ++ cs) := by
  cases h with
  | last hlast => exact .last (hgap.append hlast)
  | token hfront hcut hspan hrest =>
    rw [← List.append_assoc]
    apply LaidOut.token (hgap.append hfront) hcut
    · rw [hspan, ← Position.after_append, ← Position.after_append, List.append_assoc]
    · rwa [List.append_assoc, Position.after_append]

end Token

namespace Word

/-! ### Texts put together from words -/

/-- The text `cs` is made up of the words `ws`, wherever it starts. -/
def MakeUp (ws : List Word) (cs : List Char) : Prop :=
  ∀ p, ∃ ts, Token.LaidOut ts p cs ∧ ts.map Token.word = ws

theorem MakeUp.last {cs : List Char} (h : Filler true cs) : MakeUp [] cs :=
  fun _ => ⟨[], .last h, rfl⟩

theorem MakeUp.filler {ws : List Word} {gap cs : List Char} (hgap : Filler false gap)
    (h : MakeUp ws cs) : MakeUp ws (gap ++ cs) := by
  intro p
  obtain ⟨ts, hlaid, hwords⟩ := h (p.after gap)
  exact ⟨ts, hlaid.filler hgap, hwords⟩

/-- One more word in front. -/
theorem MakeUp.cons {w : Word} {ws : List Word} {c : Char} {lexeme more : List Char}
    (hcut : w.CutFrom c lexeme more) (h : MakeUp ws more) :
    MakeUp (w :: ws) (c :: (lexeme ++ more)) := by
  intro p
  obtain ⟨ts, hlaid, hwords⟩ := h (p.after ([] ++ c :: lexeme))
  refine ⟨⟨w.kind, w.literal, _⟩ :: ts, .token .nil hcut rfl hlaid, ?_⟩
  rw [List.map_cons, hwords]
  rfl

/-- A proper word, and what stands apart behind it. -/
theorem MakeUp.proper {w : Word} {ws : List Word} {more : List Char} (hw : w.Proper)
    (hmore : Apart more) (h : MakeUp ws more) : MakeUp (w :: ws) (w.text ++ more) := by
  obtain ⟨c, cs, htext, hcut⟩ := hw.cutFrom hmore
  rw [htext]
  exact .cons hcut h

/-- A space between words. -/
theorem MakeUp.space {ws : List Word} {more : List Char} (h : MakeUp ws more) :
    MakeUp ws (' ' :: more) :=
  .filler (.blank rfl .nil) h

/-- Proper words make up their text with one space between any two of them. -/
theorem makeUp_spaced {ws : List Word} (hws : ∀ w ∈ ws, w.Proper) : MakeUp ws (spaced ws) := by
  induction ws with
  | nil => exact .last .nil
  | cons w ws ih =>
    rw [List.forall_mem_cons] at hws
    cases ws with
    | nil =>
      have hapart : Apart [] := fun c hc => nomatch hc
      have hword := MakeUp.proper hws.1 hapart (.last .nil)
      simpa [spaced] using hword
    | cons v vs =>
      have hapart : Apart (' ' :: spaced (v :: vs)) := fun c hc => (Option.some.inj hc).symm
      have hwords := MakeUp.proper hws.1 hapart (ih hws.2).space
      simpa [spaced] using hwords

/-- The scanner finds the words that make up a text. -/
theorem MakeUp.scan {ws : List Word} {source : String} (h : MakeUp ws source.toList) :
    (Token.scan source).1.map Token.word = ws := by
  obtain ⟨ts, hlaid, hwords⟩ := h .start
  rw [hlaid.scan_eq, hwords]

end Word

/-- **Proper words are read back** from their text with one space between any two of them. -/
theorem Token.scan_spaced {ws : List Word} (hws : ∀ w ∈ ws, w.Proper) :
    (scan (String.ofList (Word.spaced ws))).1.map Token.word = ws := by
  apply Word.MakeUp.scan
  rw [String.toList_ofList]
  exact Word.makeUp_spaced hws

end Monkey
