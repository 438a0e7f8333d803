import Monkey.Proofs.Lexemes

/-!
# Words and their text

Which words a text can contain. Every token of a text is a `Word.Proper` one, unless it is of the kind
`illegal` (`Token.proper_of_mem_scan`), and the text of a proper word is cut off as a whole, whatever
stands apart behind it (`Word.Proper.cutFrom`).
-/

namespace Monkey

/-! ### Proper words -/

namespace Word

/-- A word that a text can contain. Only names, integers and strings have a literal to choose. -/
def Proper (w : Word) : Prop :=
  match w.kind with
  | .ident => IsName w.literal
  | .int => w.literal.toList ≠ [] ∧ ∀ c ∈ w.literal.toList, c.isDigit
  | .string => '"' ∉ w.literal.toList
  | .illegal | .eof => False
  | k => w.literal = k.spelling

/-- The text of a word. A string stands between quotes. -/
def text (w : Word) : List Char :=
  if w.kind = .string then '"' :: (w.literal.toList ++ ['"']) else w.literal.toList

/-- The text of words, with one space between any two. -/
def spaced (ws : List Word) : List Char := [' '].intercalate (ws.map text)

end Word

/-- The word of an operator, a delimiter or a reserved word is a proper one. -/
theorem Kind.proper_word {k : Kind} (h : k.isFixed) : k.word.Proper := by
  cases k with
  | illegal | eof | ident | int | string => cases h
  | _ => rfl

theorem Kind.ofWord_ne_string (word : String) : ofWord word ≠ string := by
  unfold ofWord keyword?
  split <;> simp

/-- A reserved word is its spelling. -/
theorem Kind.spelling_of_keyword? {word : String} {k : Kind} (h : keyword? word = some k) :
    Word.Proper ⟨k, word⟩ := by
  unfold keyword? at h
  split at h
  all_goals
    cases h
    try exact rfl

/-- The word that a list of characters makes is a reserved one or a name. -/
theorem Kind.proper_ofWord {c : Char} {cs : List Char} (hc : isNameStart c)
    (hcs : ∀ d ∈ cs, isNameRest d) :
    Word.Proper ⟨ofWord (String.ofList (c :: cs)), String.ofList (c :: cs)⟩ := by
  rw [ofWord]
  cases h : keyword? (String.ofList (c :: cs)) with
  | none => exact ⟨⟨c, cs, String.toList_ofList, hc, hcs⟩, h⟩
  | some k => exact spelling_of_keyword? h

/-! ### Every token is a proper word -/

/-- The literal of a token of a text. -/
theorem Lexeme.proper {k : Kind} {c : Char} {cs more : List Char} (h : Lexeme k c cs more)
    (hk : k ≠ .illegal) : Word.Proper ⟨k, literalOf k c cs⟩ := by
  cases h with
  | symbol h => cases k <;> cases h <;> rfl
  | assign => exact rfl
  | bang => exact rfl
  | eq => exact rfl
  | notEq => exact rfl
  | quoted | unclosed =>
    change '"' ∉ (literalOf .string _ _).toList
    rw [literalOf, if_pos rfl, String.toList_ofList]
    intro hmem
    simpa using List.mem_takeWhile_imp hmem
  | int hc hcs =>
    rw [literalOf, if_neg (by decide)]
    exact ⟨by simp, by rw [String.toList_ofList]; exact List.forall_mem_cons.mpr ⟨hc, hcs⟩⟩
  | word hc hcs _ hword =>
    subst hword
    rw [literalOf, if_neg (Kind.ofWord_ne_string _)]
    exact Kind.proper_ofWord hc hcs
  | illegal => exact absurd rfl hk

namespace Cursor

theorem proper_next {s : Cursor} (heof : s.next.1.kind ≠ .eof) (h : s.next.1.kind ≠ .illegal) :
    s.next.1.word.Proper := by
  unfold next at heof h ⊢
  dsimp only at heof h ⊢
  split
  · next hrest =>
    rw [hrest] at heof
    exact absurd rfl heof
  · next c cs hrest =>
    rw [hrest] at h
    obtain ⟨lexeme, more, rfl, hlength, hlexeme⟩ := exists_lexeme c cs
    have htake : (lexeme ++ more).take (extent c (lexeme ++ more)).2 = lexeme :=
      List.take_left' hlength
    dsimp only [Token.word]
    rw [htake]
    exact hlexeme.proper h

theorem words_spec (s : Cursor) (done : Array Token) :
    (s.words done).2.next.1.kind = .eof ∧
      ∀ t ∈ (s.words done).1.toList, t ∈ done.toList ∨
        t.kind ≠ .eof ∧ (t.kind ≠ .illegal → t.word.Proper) := by
  fun_induction words s done with
  | case1 s done step heof => exact ⟨heof, fun t ht => .inl ht⟩
  | case2 s done step heof ih =>
    refine ⟨ih.1, fun t ht => ?_⟩
    rcases ih.2 t ht with hdone | hproper
    · rw [Array.toList_push, List.mem_append, List.mem_singleton] at hdone
      rcases hdone with hdone | rfl
      · exact .inl hdone
      · exact .inr ⟨heof, proper_next heof⟩
    · exact .inr hproper

end Cursor

namespace Token

/-- The token behind all others is the end of the text. -/
theorem kind_scan_snd (source : String) : (scan source).2.kind = .eof :=
  (Cursor.words_spec (.ofString source) #[]).1

/-- **Every token of a text is a proper word** or a character that starts none. -/
theorem proper_of_mem_scan {source : String} {t : Token} (ht : t ∈ (scan source).1) :
    t.kind ≠ .eof ∧ (t.kind ≠ .illegal → t.word.Proper) := by
  rcases (Cursor.words_spec (.ofString source) #[]).2 t ht with h | h
  · cases h
  · exact h

end Token

/-! ### Proper words are cut out of their text -/

/-- What may stand behind a word that is written apart: nothing, or a space and more. -/
def Apart (more : List Char) : Prop := ∀ c ∈ more.head?, c = ' '

/-- No character but a space goes on behind a word that is written apart. -/
theorem Apart.head?_ne {more : List Char} (h : Apart more) {d : Char} (hd : d ≠ ' ') :
    more.head? ≠ some d := fun hmore => hd (h d hmore)

theorem Apart.not_head? {more : List Char} (h : Apart more) {p : Char → Bool} (hp : p ' ' = false) :
    ∀ d ∈ more.head?, p d = false := by
  intro d hd
  rw [h d hd, hp]

namespace Word

/-- What cutting finds at the front of a text that starts with the word `w`. -/
structure CutFrom (w : Word) (c : Char) (cs more : List Char) : Prop where
  notBlank : isBlank c = false
  noComment : ¬(c = '/' ∧ (cs ++ more).head? = some '/')
  extent : Monkey.extent c (cs ++ more) = (w.kind, cs.length)
  literal : literalOf w.kind c cs = w.literal

/-- A token in front of which nothing is skipped. -/
theorem CutFrom.of_lexeme {w : Word} {c : Char} {cs more : List Char}
    (h : Lexeme w.kind c cs more) (hkind : w.kind ≠ .illegal) (hslash : more.head? ≠ some '/')
    (hliteral : literalOf w.kind c cs = w.literal) : w.CutFrom c cs more where
  notBlank := h.notBlank hkind
  noComment := by
    rintro ⟨rfl, hcomment⟩
    obtain ⟨-, rfl⟩ := h.of_slash
    exact hslash hcomment
  extent := h.extent_eq
  literal := hliteral

/-- The text of a proper word is cut off as a whole, whatever stands apart behind it. -/
theorem Proper.cutFrom {w : Word} (h : w.Proper) {more : List Char} (hmore : Apart more) :
    ∃ c cs, w.text = c :: cs ∧ w.CutFrom c cs more := by
  obtain ⟨k, literal⟩ := w
  have hslash : more.head? ≠ some '/' := hmore.head?_ne (by decide)
  have hequals : more.head? ≠ some '=' := hmore.head?_ne (by decide)
  -- all but strings are written as they are
  have hplain : ∀ (c : Char) (cs : List Char), k ≠ .string → k ≠ .illegal →
      literal = String.ofList (c :: cs) → Lexeme k c cs more →
      ∃ c cs, text ⟨k, literal⟩ = c :: cs ∧ CutFrom ⟨k, literal⟩ c cs more := by
    intro c cs hstring hillegal hliteral hlexeme
    refine ⟨c, cs, ?_, .of_lexeme hlexeme hillegal hslash ?_⟩
    · rw [text, if_neg hstring, hliteral, String.toList_ofList]
    · rw [literalOf, if_neg hstring, hliteral]
  have hword : ∀ (c : Char) (cs : List Char), literal = String.ofList (c :: cs) → isNameStart c →
      cs.all isNameRest → k ≠ .illegal → Kind.ofWord literal = k →
      ∃ c cs, text ⟨k, literal⟩ = c :: cs ∧ CutFrom ⟨k, literal⟩ c cs more := by
    intro c cs hliteral hc hcs hillegal hkind
    refine hplain c cs (hkind ▸ Kind.ofWord_ne_string _) hillegal hliteral ?_
    exact .word hc (List.all_eq_true.mp hcs) (hmore.not_head? (by decide)) (hliteral ▸ hkind)
  cases k with
  | illegal => exact h.elim
  | eof => exact h.elim
  | ident =>
    obtain ⟨⟨c, cs, hliteral, hc, hcs⟩, hkeyword⟩ := h
    refine hword c cs ?_ hc (List.all_eq_true.mpr hcs) (by decide) ?_
    · rw [← hliteral, String.ofList_toList]
    · rw [Kind.ofWord, hkeyword]
      rfl
  | int =>
    obtain ⟨hne, hdigits⟩ := h
    obtain ⟨c, cs, hliteral⟩ := List.exists_cons_of_ne_nil hne
    dsimp only at hdigits hliteral
    rw [hliteral, List.forall_mem_cons] at hdigits
    refine hplain c cs (by decide) (by decide) ?_ ?_
    · rw [← hliteral, String.ofList_toList]
    · exact .int hdigits.1 hdigits.2 (hmore.not_head? (by decide))
  | string =>
    refine ⟨'"', literal.toList ++ ['"'], rfl, .of_lexeme (.quoted h) nofun hslash ?_⟩
    rw [literalOf, if_pos rfl, takeWhile_quote h, String.ofList_toList]
  | function =>
    obtain rfl : literal = "fn" := h
    exact hword 'f' ['n'] rfl (by decide) (by decide) (by decide) rfl
  | «let» =>
    obtain rfl : literal = "let" := h
    exact hword 'l' ['e', 't'] rfl (by decide) (by decide) (by decide) rfl
  | true =>
    obtain rfl : literal = "true" := h
    exact hword 't' ['r', 'u', 'e'] rfl (by decide) (by decide) (by decide) rfl
  | false =>
    obtain rfl : literal = "false" := h
    exact hword 'f' ['a', 'l', 's', 'e'] rfl (by decide) (by decide) (by decide) rfl
  | «if» =>
    obtain rfl : literal = "if" := h
    exact hword 'i' ['f'] rfl (by decide) (by decide) (by decide) rfl
  | «else» =>
    obtain rfl : literal = "else" := h
    exact hword 'e' ['l', 's', 'e'] rfl (by decide) (by decide) (by decide) rfl
  | «return» =>
    obtain rfl : literal = "return" := h
    exact hword 'r' ['e', 't', 'u', 'r', 'n'] rfl (by decide) (by decide) (by decide) rfl
  | eq => exact hplain '=' ['='] (by decide) (by decide) h .eq
  | notEq => exact hplain '!' ['='] (by decide) (by decide) h .notEq
  | assign => exact hplain '=' [] (by decide) (by decide) h (.assign hequals)
  | bang => exact hplain '!' [] (by decide) (by decide) h (.bang hequals)
  | _ => exact hplain _ [] (by decide) (by decide) h (.symbol rfl)

/-- The next token is the word that the text starts with. -/
theorem CutFrom.next {w : Word} {c : Char} {cs more : List Char} (h : w.CutFrom c cs more)
    (p : Position) : Cursor.next ⟨c :: (cs ++ more), p⟩ =
      (⟨w.kind, w.literal, .between p (p.after (c :: cs))⟩, ⟨more, p.after (c :: cs)⟩) := by
  have hskip : Cursor.skip false (c :: (cs ++ more)) p = ⟨c :: (cs ++ more), p⟩ := by
    rw [Cursor.skip, h.notBlank, if_neg (by simp), if_neg (by simp), if_neg h.noComment]
  unfold Cursor.next
  dsimp only
  rw [hskip]
  dsimp only
  rw [h.extent]
  dsimp only
  rw [List.take_left, List.drop_left, h.literal]

end Word

end Monkey
