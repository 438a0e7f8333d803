import Monkey.Proofs.Layout
import Monkey.Proofs.Turns

/-!
# The braces of a line

By the braces of a line the console decides whether more lines belong to an input. It counts them on its
own, without the scanner, and leaves out those between quotes (`openBraces`). The scanner also knows
comments. So the two counts differ by the braces that stand in the comment of the line
(`openBraces_eq`), and they agree on a line without a comment. What the console does is then decided
by the tokens of the line (`openBraces_tokens`).

Both counts are followed along the layout of the line. `Counted n cs rest` says that the characters in
front of `rest` count for `n`, and that no comment starts in them.
-/

namespace Monkey

/-- The number of opening braces among some tokens beyond that of closing ones, in 32 bits like the
count that the console makes. -/
def Token.balance (ts : List Token) : Int32 :=
  Int32.ofNat (ts.countP (·.kind = .lbrace)) - Int32.ofNat (ts.countP (·.kind = .rbrace))

/-- Of fewer tokens than 32 bits can count, this is the number itself. -/
theorem Token.toInt_balance {ts : List Token} (h : ts.length < 2147483648) : (balance ts).toInt =
    (ts.countP (·.kind = .lbrace) : Int) - ts.countP (·.kind = .rbrace) := by
  have hopening : ts.countP (·.kind = .lbrace) ≤ ts.length := List.countP_le_length
  have hclosing : ts.countP (·.kind = .rbrace) ≤ ts.length := List.countP_le_length
  rw [balance, Int32.toInt_sub, Int32.toInt_ofNat_of_lt (Nat.lt_of_le_of_lt hopening h),
    Int32.toInt_ofNat_of_lt (Nat.lt_of_le_of_lt hclosing h)]
  apply Int.bmod_eq_of_le
  · omega
  · omega

/-- What stands in `cs` from the first two slashes on that are not between quotes. The text starts
between quotes if `quotes` says so. -/
def commentFrom (quotes : Bool) : List Char → List Char
  | [] => []
  | c :: cs =>
    if c = '"' then commentFrom (!quotes) cs
    else if c = '/' ∧ cs.head? = some '/' ∧ quotes = false then c :: cs
    else commentFrom quotes cs

/-- The comment of a line. It is empty when the line has none. -/
def comment (line : String) : String := String.ofList (commentFrom false line.toList)

/-! ### Counting piece by piece -/

/-- The text `cs` ends with `rest`. What stands before counts for `n`, and no comment starts in it. -/
structure Counted (n : Int32) (cs rest : List Char) : Prop where
  balance : braceBalance false cs = n + braceBalance false rest
  comment : commentFrom false cs = commentFrom false rest

/-- A character that means nothing for quotes, braces and comments. -/
def isPlain (c : Char) : Bool := c != '"' && c != '\x7b' && c != '\x7d' && c != '/'

namespace Counted

variable {n m : Int32} {c : Char} {cs rest more content : List Char}

theorem refl (cs : List Char) : Counted 0 cs cs := ⟨(Int32.zero_add _).symm, rfl⟩

theorem trans (h : Counted n cs rest) (h' : Counted m rest more) : Counted (n + m) cs more where
  balance := by rw [h.balance, h'.balance, Int32.add_assoc]
  comment := h.comment.trans h'.comment

/-- A slash on its own counts for nothing. -/
theorem slash (h : cs.head? ≠ some '/') : Counted 0 ('/' :: cs) cs where
  balance := by simp [braceBalance]
  comment := by simp [commentFrom, h]

theorem plain (hc : isPlain c) (cs : List Char) : Counted 0 (c :: cs) cs := by
  simp only [isPlain, Bool.and_eq_true, bne_iff_ne] at hc
  obtain ⟨⟨⟨hquote, hopen⟩, hclose⟩, hslash⟩ := hc
  constructor
  · simp [braceBalance, hquote, hopen, hclose]
  · simp [commentFrom, hquote, hslash]

theorem plains (h : ∀ d ∈ cs, isPlain d) (rest : List Char) : Counted 0 (cs ++ rest) rest := by
  induction cs with
  | nil => exact refl rest
  | cons d cs ih =>
    rw [List.forall_mem_cons] at h
    exact (plain h.1 _).trans (ih h.2)

theorem opening (cs : List Char) : Counted 1 ('\x7b' :: cs) cs where
  balance := by simp [braceBalance]
  comment := by simp [commentFrom]

theorem closing (cs : List Char) : Counted (-1) ('\x7d' :: cs) cs where
  balance := by
    simp [braceBalance]
    rw [Int32.sub_eq_add_neg, Int32.add_comm]
  comment := by simp [commentFrom]

/-- Between quotes nothing counts. -/
theorem between (hcontent : '"' ∉ content) (rest : List Char) :
    braceBalance true (content ++ rest) = braceBalance true rest ∧
      commentFrom true (content ++ rest) = commentFrom true rest := by
  induction content with
  | nil => exact ⟨rfl, rfl⟩
  | cons d content ih =>
    rw [List.mem_cons, not_or] at hcontent
    obtain ⟨hd, hcontent⟩ := hcontent
    simpa [braceBalance, commentFrom, Ne.symm hd] using ih hcontent

theorem quoted (hcontent : '"' ∉ content) (rest : List Char) :
    Counted 0 ('"' :: (content ++ '"' :: rest)) rest := by
  obtain ⟨hbalance, hcomment⟩ := between hcontent ('"' :: rest)
  constructor
  · simp [braceBalance] at hbalance ⊢
    exact hbalance
  · simp [commentFrom] at hcomment ⊢
    exact hcomment

/-- A string without a second quote runs to the end of the line. -/
theorem unclosed (hcontent : '"' ∉ content) : Counted 0 ('"' :: content) [] := by
  obtain ⟨hbalance, hcomment⟩ := between hcontent []
  rw [List.append_nil] at hbalance hcomment
  constructor
  · simpa [braceBalance] using hbalance
  · simpa [commentFrom] using hcomment

end Counted

/-! ### Fillers and lexemes -/

theorem isPlain_of_isBlank {c : Char} (hc : isBlank c) : isPlain c := by
  simp only [isBlank, Bool.or_eq_true, beq_iff_eq] at hc
  rcases hc with ((rfl | rfl) | rfl) | rfl <;> rfl

theorem isPlain_of_isNameRest {c : Char} (hc : isNameRest c) : isPlain c := by
  simp only [isPlain, Bool.and_eq_true, bne_iff_ne]
  refine ⟨⟨⟨?_, ?_⟩, ?_⟩, ?_⟩
  all_goals
    rintro rfl
    exact absurd hc (by decide)

/-- On one line, blanks are all that can stand between two tokens. -/
theorem Filler.counted {gap : List Char} (h : Filler false gap) (hline : '\n' ∉ gap)
    (rest : List Char) : Counted 0 (gap ++ rest) rest := by
  apply Counted.plains
  induction h with
  | nil => exact fun d hd => nomatch hd
  | blank hc _ ih =>
    rw [List.mem_cons, not_or] at hline
    exact List.forall_mem_cons.mpr ⟨isPlain_of_isBlank hc, ih hline.2⟩
  | comment => simp at hline
  | lastLine hend => cases hend

/-- Behind the last token, all braces of a line are those of its comment. -/
theorem Filler.braceBalance_eq {cs : List Char} (h : Filler true cs) (hline : '\n' ∉ cs) :
    braceBalance false cs = braceBalance false (commentFrom false cs) := by
  induction h with
  | nil => rfl
  | @blank c cs hc _ ih =>
    rw [List.mem_cons, not_or] at hline
    have hblank := Counted.plain (isPlain_of_isBlank hc) cs
    rw [hblank.balance, hblank.comment, Int32.zero_add, ih hline.2]
  | comment => simp at hline
  | lastLine => simp [commentFrom]

/-- What a token counts for. -/
def Kind.brace : Kind → Int32
  | lbrace => 1
  | rbrace => -1
  | _ => 0

theorem Kind.brace_ofWord (word : String) : (ofWord word).brace = 0 := by
  unfold ofWord keyword?
  split <;> rfl

theorem Token.balance_cons (t : Token) (ts : List Token) :
    balance (t :: ts) = t.kind.brace + balance ts := by
  unfold balance
  rw [List.countP_cons, List.countP_cons, Int32.ofNat_add, Int32.ofNat_add]
  generalize Int32.ofNat (ts.countP _) = opening
  generalize Int32.ofNat (ts.countP _) = closing
  cases t.kind
  all_goals
    simp only [Kind.brace, decide_true, decide_false, reduceCtorEq, if_true, if_false]
    grind

/-- A lexeme counts for what its kind does. -/
theorem Lexeme.counted {k : Kind} {c : Char} {lexeme more : List Char} (h : Lexeme k c lexeme more)
    (hcomment : ¬(c = '/' ∧ (lexeme ++ more).head? = some '/')) :
    Counted k.brace (c :: (lexeme ++ more)) more := by
  -- most lexemes have no brace, quote or slash in them
  have hplain : k.brace = 0 → isPlain c → (∀ d ∈ lexeme, isPlain d) →
      Counted k.brace (c :: (lexeme ++ more)) more := by
    intro hkind hc hlexeme
    rw [hkind]
    exact .plains (List.forall_mem_cons.mpr ⟨hc, hlexeme⟩) more
  cases h with
  | @symbol k c _ h =>
    cases k with
    | lbrace =>
      obtain rfl : '\x7b' = c := Option.some.inj h
      exact .opening more
    | rbrace =>
      obtain rfl : '\x7d' = c := Option.some.inj h
      exact .closing more
    | slash =>
      obtain rfl : '/' = c := Option.some.inj h
      exact .slash fun hslash => hcomment ⟨rfl, hslash⟩
    | _ =>
      cases h
      all_goals exact hplain rfl rfl nofun
  | assign => exact hplain rfl rfl nofun
  | bang => exact hplain rfl rfl nofun
  | eq => exact hplain rfl rfl (List.forall_mem_singleton.mpr rfl)
  | notEq => exact hplain rfl rfl (List.forall_mem_singleton.mpr rfl)
  | quoted hcontent =>
    rw [List.append_assoc, List.singleton_append]
    exact .quoted hcontent more
  | unclosed hcontent =>
    rw [List.append_nil]
    exact .unclosed hcontent
  | int hc hcs =>
    have hdigit : ∀ d : Char, d.isDigit → isPlain d := fun d hd =>
      isPlain_of_isNameRest (by rw [isNameRest, hd, Bool.or_true])
    exact hplain rfl (hdigit c hc) fun d hd => hdigit d (hcs d hd)
  | word hc hcs _ hk =>
    refine hplain (hk ▸ Kind.brace_ofWord _) (isPlain_of_isNameRest ?_)
      fun d hd => isPlain_of_isNameRest (hcs d hd)
    rw [isNameRest, hc, Bool.true_or]
  | illegal hsymbol hmark =>
    -- braces and slashes are symbols, and a quote starts a string
    refine hplain rfl ?_ nofun
    simp only [isPlain, Bool.and_eq_true, bne_iff_ne]
    refine ⟨⟨⟨?_, ?_⟩, ?_⟩, ?_⟩ <;> rintro rfl
    · exact hmark (by decide)
    · exact hsymbol .lbrace rfl
    · exact hsymbol .rbrace rfl
    · exact hsymbol .slash rfl

/-! ### Lines -/

/-- The count along the layout of a line. -/
theorem Token.LaidOut.braceBalance_eq {ts : List Token} {p : Position} {cs : List Char}
    (h : LaidOut ts p cs) (hline : '\n' ∉ cs) :
    braceBalance false cs = balance ts + braceBalance false (commentFrom false cs) := by
  induction h with
  | last h =>
    rw [h.braceBalance_eq hline]
    exact (Int32.zero_add _).symm
  | @token t ts p gap c lexeme more hgap hcut _ _ ih =>
    simp only [List.mem_append, List.mem_cons, not_or] at hline
    have hcounted := (hgap.counted hline.1 (c :: (lexeme ++ more))).trans
      (hcut.lexeme.counted hcut.noComment)
    rw [hcounted.balance, hcounted.comment, ih hline.2.2.2, Token.balance_cons, Int32.zero_add,
      Int32.add_assoc]
    rfl

/-- The count of a line is that of its tokens and that of its comment together. -/
theorem openBraces_eq {line : String} (hline : '\n' ∉ line.toList) :
    openBraces line = Token.balance (Token.scan line).1 + openBraces (comment line) := by
  unfold openBraces comment
  rw [String.toList_ofList]
  exact (Token.laidOut_scan line).braceBalance_eq hline

/-- **The braces of a line are those of its tokens** and those of its comment; those of its tokens are
counted exactly as long as 32 bits are enough. When the braces of its comment are balanced, so in
particular when it has no comment, the tokens of a line of input decide whether the console is inside an
input of several lines after it. -/
theorem openBraces_tokens {line : String} (hline : '\n' ∉ line.toList) :
    openBraces line = Token.balance (Token.scan line).1 + openBraces (comment line) ∧
      ((Token.scan line).1.length < 2147483648 → (Token.balance (Token.scan line).1).toInt =
        ((Token.scan line).1.countP (·.kind = .lbrace) : Int) -
          (Token.scan line).1.countP (·.kind = .rbrace)) ∧
      (openBraces (comment line) = 0 →
        ∀ (lookUp : String → Except String String) (c : Console) (input : String),
          trimEnd input = line → c.Reads line →
          ((c.turn lookUp input).console.multiline = true ↔
            0 < c.depth + Token.balance (Token.scan line).1)) := by
  refine ⟨openBraces_eq hline, Token.toInt_balance, fun hcomment lookUp c input hinput hreads => ?_⟩
  subst hinput
  obtain ⟨-, htakes⟩ := Console.takes_turn lookUp hreads
  rw [htakes.multiline_iff, openBraces_eq hline, hcomment, Int32.add_zero]

/-- A brace between quotes is no token, and neither are two balanced ones in the comment. -/
theorem openBraces_tokens_quoted :
    let line := "fn(x) \x7b \"\x7d\" // \x7b\x7d"
    let c := Console.start {} 0 #[] false
    '\n' ∉ line.toList ∧ openBraces (comment line) = 0 ∧ c.Reads line ∧ openBraces line = 1 + 0 ∧
      (c.turn .ok (line ++ "\n")).console.multiline = true := by
  intro line c
  have hline : '\n' ∉ line.toList := by decide
  have hcomment : openBraces (comment line) = 0 := by decide +kernel
  have hreads : c.Reads line := ⟨by decide, by decide⟩
  have htokens : Token.balance (Token.scan line).1 = 1 := by decide +kernel
  obtain ⟨hcount, -, hmode⟩ := openBraces_tokens hline
  rw [htokens] at hcount hmode
  have hinput : trimEnd (line ++ "\n") = line := by decide +kernel
  refine ⟨hline, hcomment, hreads, hcount.trans (congrArg _ hcomment), ?_⟩
  exact (hmode hcomment .ok c (line ++ "\n") hinput hreads).mpr (by decide)

/-- A brace in a comment is no token either, but it makes the console wait for more lines. -/
theorem openBraces_tokens_commented :
    '\n' ∉ "// \x7b".toList ∧ Token.balance (Token.scan "// \x7b").1 = 0 ∧ openBraces "// \x7b" = 1 ∧
      ((Console.start {} 0 #[] false).turn .ok "// \x7b\n").console.multiline = true := by
  refine ⟨by decide, by decide +kernel, by decide, ?_⟩
  decide +kernel

end Monkey
