import Mathlib.Data.List.TakeWhile
import Monkey.Proofs.Grammar

/-!
# What tokens look like

`Lexeme k c cs more` says that the characters `c :: cs` are a token of the kind `k` when `more` stands
behind them: a symbol, a string with its second quote or without one, or a run of digits or of the
characters of a name that goes on for as long as it can. That is what `extent` finds at the front of
a text (`extent_eq_iff`), so that nothing later has to go through its table of characters.
-/

namespace Monkey

/-! ### Runs of characters -/

/-- A run of characters of one sort ends in front of the first one of another. -/
theorem takeWhile_append_of_head? {p : Char → Bool} {cs more : List Char} (hcs : ∀ d ∈ cs, p d)
    (hmore : ∀ d ∈ more.head?, p d = false) : (cs ++ more).takeWhile p = cs := by
  rw [List.takeWhile_append_of_pos hcs]
  cases more with
  | nil => rw [List.takeWhile_nil, List.append_nil]
  | cons d ds => rw [List.takeWhile_cons, hmore d rfl, if_neg Bool.false_ne_true, List.append_nil]

/-- A text is a run of characters of one sort, and what does not go on with it. -/
theorem exists_run (p : Char → Bool) (cs : List Char) :
    ∃ run more, cs = run ++ more ∧ (∀ d ∈ run, p d) ∧ (∀ d ∈ more.head?, p d = false) := by
  refine ⟨cs.takeWhile p, cs.dropWhile p, List.takeWhile_append_dropWhile.symm,
    fun d hd => List.mem_takeWhile_imp hd, fun d hd => ?_⟩
  have hhead := List.head?_dropWhile_not p cs
  rw [Option.mem_def.mp hd] at hhead
  exact hhead

/-- A text without a quote runs to its end. -/
theorem takeWhile_unclosed {cs : List Char} (hcs : '"' ∉ cs) : cs.takeWhile (· ≠ '"') = cs := by
  rw [List.takeWhile_eq_self_iff]
  intro d hd
  rw [decide_eq_true_eq]
  rintro rfl
  exact hcs hd

/-- A text with a quote runs to the first one. -/
theorem takeWhile_quote {cs : List Char} (hcs : '"' ∉ cs) (rest : List Char) :
    (cs ++ '"' :: rest).takeWhile (· ≠ '"') = cs := by
  rw [List.takeWhile_append_of_pos (List.takeWhile_eq_self_iff.mp (takeWhile_unclosed hcs))]
  simp

/-! ### The sorts of tokens -/

/-- The character of a kind that is written with one, whatever stands behind it. -/
def Kind.symbol? : Kind → Option Char
  | plus => some '+'
  | minus => some '-'
  | asterisk => some '*'
  | slash => some '/'
  | lt => some '<'
  | gt => some '>'
  | comma => some ','
  | semicolon => some ';'
  | colon => some ':'
  | lparen => some '('
  | rparen => some ')'
  | lbrace => some '\x7b'
  | rbrace => some '\x7d'
  | lbracket => some '['
  | rbracket => some ']'
  | _ => none

/-- In front of `more`, the characters `c :: cs` are a token of the kind `k`. -/
inductive Lexeme : Kind → Char → List Char → List Char → Prop
  | symbol {k : Kind} {c : Char} {more : List Char} (h : k.symbol? = some c) : Lexeme k c [] more
  | assign {more : List Char} (hmore : more.head? ≠ some '=') : Lexeme .assign '=' [] more
  | bang {more : List Char} (hmore : more.head? ≠ some '=') : Lexeme .bang '!' [] more
  | eq {more : List Char} : Lexeme .eq '=' ['='] more
  | notEq {more : List Char} : Lexeme .notEq '!' ['='] more
  | quoted {content more : List Char} (hcontent : '"' ∉ content) :
    Lexeme .string '"' (content ++ ['"']) more
  /-- Without a second quote, a string runs to the end of the text. -/
  | unclosed {content : List Char} (hcontent : '"' ∉ content) : Lexeme .string '"' content []
  | int {c : Char} {cs more : List Char} (hc : c.isDigit) (hcs : ∀ d ∈ cs, d.isDigit)
    (hmore : ∀ d ∈ more.head?, d.isDigit = false) : Lexeme .int c cs more
  | word {k : Kind} {c : Char} {cs more : List Char} (hc : isNameStart c)
    (hcs : ∀ d ∈ cs, isNameRest d) (hmore : ∀ d ∈ more.head?, isNameRest d = false)
    (hk : Kind.ofWord (String.ofList (c :: cs)) = k) : Lexeme k c cs more
  /-- A character that starts none of the others. -/
  | illegal {c : Char} {more : List Char} (hsymbol : ∀ k : Kind, k.symbol? ≠ some c)
    (hmark : c ∉ ['=', '!', '"']) (hdigit : ¬c.isDigit) (hstart : ¬isNameStart c) :
    Lexeme .illegal c [] more

/-! ### The start of a text -/

theorem extent_digit {c : Char} (hc : c.isDigit) (cs : List Char) :
    extent c cs = (.int, (cs.takeWhile Char.isDigit).length) := by
  unfold extent
  split
  all_goals first
    | exact absurd hc (by decide)
    | exact if_pos hc

theorem extent_nameStart {c : Char} (hc : isNameStart c) (cs : List Char) :
    extent c cs = (.ofWord (String.ofList (c :: cs.takeWhile isNameRest)),
      (cs.takeWhile isNameRest).length) := by
  have hdigit : ¬c.isDigit := by
    intro hdigit
    have hnine : c.val ≤ 57 := of_decide_eq_true (Bool.and_eq_true_iff.mp hdigit).2
    rw [isNameStart, Bool.or_eq_true] at hc
    rcases hc with halpha | hunderscore
    · rcases Bool.or_eq_true_iff.mp halpha with hupper | hlower
      · have h : 65 ≤ c.val ∧ c.val ≤ 90 := of_decide_eq_true hupper
        exact absurd (UInt32.le_trans h.1 hnine) (by decide)
      · have h : 97 ≤ c.val := of_decide_eq_true (Bool.and_eq_true_iff.mp hlower).1
        exact absurd (UInt32.le_trans h hnine) (by decide)
    · obtain rfl := beq_iff_eq.mp hunderscore
      exact absurd hnine (by decide)
  unfold extent
  split
  all_goals first
    | exact absurd hc (by decide)
    | rw [if_neg hdigit, if_pos hc]

/-- A string ends with its second quote. -/
theorem extent_quoted {cs : List Char} (hcs : '"' ∉ cs) (rest : List Char) :
    extent '"' (cs ++ '"' :: rest) = (.string, cs.length + 1) := by
  rw [extent]
  simp only [takeWhile_quote hcs, List.drop_left]
  rfl

theorem extent_unclosed {cs : List Char} (hcs : '"' ∉ cs) :
    extent '"' cs = (.string, cs.length) := by
  rw [extent]
  simp only [takeWhile_unclosed hcs, List.drop_length]
  rfl

/-- The front of a text is a token. -/
theorem exists_lexeme (c : Char) (cs : List Char) : ∃ lexeme more, cs = lexeme ++ more ∧
    lexeme.length = (extent c cs).2 ∧ Lexeme (extent c cs).1 c lexeme more := by
  by_cases hmark : c ∈ ['=', '!', '"']
  · simp only [List.mem_cons, List.not_mem_nil, or_false] at hmark
    rcases hmark with rfl | rfl | rfl
    · by_cases heq : cs.head? = some '='
      · obtain ⟨cs, rfl⟩ := List.head?_eq_some_iff.mp heq
        exact ⟨['='], cs, rfl, rfl, .eq⟩
      · rw [show extent '=' cs = (.assign, 0) from if_neg heq]
        exact ⟨[], cs, rfl, rfl, .assign heq⟩
    · by_cases heq : cs.head? = some '='
      · obtain ⟨cs, rfl⟩ := List.head?_eq_some_iff.mp heq
        exact ⟨['='], cs, rfl, rfl, .notEq⟩
      · rw [show extent '!' cs = (.bang, 0) from if_neg heq]
        exact ⟨[], cs, rfl, rfl, .bang heq⟩
    · by_cases hclosed : '"' ∈ cs
      · obtain ⟨content, rest, rfl, hcontent⟩ := List.eq_append_cons_of_mem hclosed
        rw [extent_quoted hcontent]
        exact ⟨content ++ ['"'], rest, by simp, by simp, .quoted hcontent⟩
      · rw [extent_unclosed hclosed]
        exact ⟨cs, [], by simp, rfl, .unclosed hclosed⟩
  by_cases hdigit : c.isDigit
  · obtain ⟨run, more, rfl, hrun, hmore⟩ := exists_run Char.isDigit cs
    rw [extent_digit hdigit, takeWhile_append_of_head? hrun hmore]
    exact ⟨run, more, rfl, rfl, .int hdigit hrun hmore⟩
  by_cases hstart : isNameStart c
  · obtain ⟨run, more, rfl, hrun, hmore⟩ := exists_run isNameRest cs
    rw [extent_nameStart hstart, takeWhile_append_of_head? hrun hmore]
    exact ⟨run, more, rfl, rfl, .word hstart hrun hmore rfl⟩
  unfold extent
  split
  all_goals first
    | exact absurd (by decide) hmark
    | exact ⟨[], cs, rfl, rfl, .symbol rfl⟩
    | rw [if_neg hdigit, if_neg hstart]
  -- what is left is no symbol of any kind
  refine ⟨[], cs, rfl, rfl, .illegal (fun k hk => ?_) hmark hdigit hstart⟩
  cases k <;> cases hk <;> contradiction

/-- A token is as long as it can be. -/
theorem Lexeme.extent_eq {k : Kind} {c : Char} {cs more : List Char} (h : Lexeme k c cs more) :
    extent c (cs ++ more) = (k, cs.length) := by
  cases h with
  | symbol hk => cases k <;> cases hk <;> rfl
  | assign hmore => exact if_neg hmore
  | bang hmore => exact if_neg hmore
  | eq => rfl
  | notEq => rfl
  | quoted hcontent =>
    rw [List.append_assoc, List.singleton_append, extent_quoted hcontent, List.length_append,
      List.length_singleton]
  | unclosed hcontent => rw [List.append_nil, extent_unclosed hcontent]
  | int hc hcs hmore => rw [extent_digit hc, takeWhile_append_of_head? hcs hmore]
  | word hc hcs hmore hk =>
    rw [extent_nameStart hc, takeWhile_append_of_head? hcs hmore, hk]
  | illegal hsymbol hmark hdigit hstart =>
    -- another token would start with another character
    obtain ⟨lexeme, more, rfl, hlength, hlexeme⟩ := exists_lexeme c more
    rw [List.nil_append]
    generalize hextent : extent c (lexeme ++ more) = e at hlength hlexeme
    obtain ⟨k, n⟩ := e
    cases hlexeme with
    | symbol hk => exact absurd hk (hsymbol k)
    | int hc => exact absurd hc hdigit
    | word hc => exact absurd hc hstart
    | illegal =>
      obtain rfl : 0 = n := hlength
      rfl
    | _ => exact absurd (by decide) hmark

/-- **What a text starts with** is the token that its first characters are in front of the others. -/
theorem extent_eq_iff {k : Kind} {c : Char} {cs more : List Char} :
    extent c (cs ++ more) = (k, cs.length) ↔ Lexeme k c cs more := by
  refine ⟨fun h => ?_, Lexeme.extent_eq⟩
  obtain ⟨lexeme, more', happend, hlength, hlexeme⟩ := exists_lexeme c (cs ++ more)
  rw [h] at hlength hlexeme
  obtain ⟨rfl, rfl⟩ := List.append_inj happend hlength.symm
  exact hlexeme

namespace Lexeme

variable {k : Kind} {c : Char} {cs more : List Char}

theorem notBlank (h : Lexeme k c cs more) (hk : k ≠ .illegal) : isBlank c = false := by
  rw [Bool.eq_false_iff]
  intro hblank
  simp only [isBlank, Bool.or_eq_true, beq_iff_eq] at hblank
  cases h with
  | symbol h =>
    cases k
    all_goals
      cases h
      try simp at hblank
  | int hc =>
    rcases hblank with ((rfl | rfl) | rfl) | rfl
    all_goals exact absurd hc (by decide)
  | word hc =>
    rcases hblank with ((rfl | rfl) | rfl) | rfl
    all_goals exact absurd hc (by decide)
  | illegal => exact absurd rfl hk
  | _ => simp at hblank

/-- A slash that starts a token is one on its own. -/
theorem of_slash (h : Lexeme k '/' cs more) : k = .slash ∧ cs = [] := by
  obtain ⟨hkind, hlength⟩ := Prod.mk.inj h.extent_eq
  exact ⟨hkind.symm, List.length_eq_zero_iff.mp hlength.symm⟩

end Lexeme

end Monkey
