import Monkey.Proofs.Coverage

/-!
# Other spaces between the same tokens

What stands between tokens does not matter. Take the slices of all tokens of a text, and write any
blanks and comments between them, a blank first: the new text has the same kinds and literals in the
same order (`Token.scan_separated`).

The blank in front of a separator is what it takes. It goes on with no word (`Kind.goesOn_blank`), so
every slice is cut off as before. A string that runs to the end of the text can only be the last
token, and nothing is written behind that.
-/

namespace Monkey

/-- What may be written between two tokens: blanks and comments, a blank first. A comment runs to its
line feed. -/
structure Separator (text : String) : Prop where
  filler : Filler false text.toList
  blank : ∃ c ∈ text.toList.head?, isBlank c

/-- Texts in order, with `sep i` behind the text number `i`, unless it is the last. -/
def separated (sep : Nat → String) : List String → String
  | [] => ""
  | [text] => text
  | text :: next :: texts => text ++ sep 0 ++ separated (fun i => sep (i + 1)) (next :: texts)

theorem Kind.goesOn_blank (k : Kind) {c : Char} (hc : isBlank c) : k.goesOn c = Bool.false := by
  simp only [isBlank, Bool.or_eq_true, beq_iff_eq] at hc
  rcases hc with ((rfl | rfl) | rfl) | rfl
  all_goals cases k <;> decide

namespace Token

/-- A text that has tokens has characters. -/
theorem LaidOut.ne_nil {t : Token} {ts : List Token} {p : Position} {cs : List Char}
    (h : LaidOut (t :: ts) p cs) : cs ≠ [] := by
  cases h with
  | token => simp

theorem LaidOut.separated {source : String} {ts : List Token} {before cs : List Char}
    (hsource : source.toList = before ++ cs) (h : LaidOut ts (Position.start.after before) cs)
    {sep : Nat → String} (hsep : ∀ i, Separator (sep i)) :
    Word.MakeUp (ts.map word) (separated sep (ts.map fun t => t.span.slice source)).toList := by
  generalize hp : Position.start.after before = p at h
  induction h generalizing before sep with
  | last _ => exact .last .nil
  | @token t ts p gap c lexeme more _ hcut hspan hrest ih =>
    subst hp
    simp only [← Position.after_append] at hspan ih
    have hfront : source.toList = before ++ gap ++ c :: lexeme ++ more := by
      simpa using hsource
    have hbehind : source.toList = before ++ (gap ++ c :: lexeme) ++ more := by
      simpa using hsource
    have hslice : t.span.slice source = String.ofList (c :: lexeme) := by
      apply slice_of_front hfront
      rwa [List.append_assoc]
    cases ts with
    | nil =>
      -- nothing is written behind the last slice
      have hlast : t.word.CutFrom c lexeme [] := hcut.change (by simp) fun _ _ => rfl
      simpa [Monkey.separated, hslice] using Word.MakeUp.cons hlast (.last .nil)
    | cons u us =>
      have htail := ih hbehind (fun i => hsep (i + 1)) rfl
      obtain ⟨b, hb, hblank⟩ := (hsep 0).blank
      have hmore := Word.MakeUp.filler (hsep 0).filler htail
      have hcut' : t.word.CutFrom c lexeme ((sep 0).toList ++ (Monkey.separated
          (fun i => sep (i + 1)) ((u :: us).map fun t => t.span.slice source)).toList) := by
        apply hcut.change
        · intro d hd
          obtain ⟨rest, hsep0⟩ := List.head?_eq_some_iff.mp hb
          rw [hsep0] at hd
          obtain rfl : b = d := Option.some.inj hd
          exact t.word.kind.goesOn_blank hblank
        · intro _ hnil
          exact absurd hnil hrest.ne_nil
      have hall := Word.MakeUp.cons hcut' hmore
      simpa [Monkey.separated, hslice] using hall

/-- **Spaces and comments do not matter.** The slices of all tokens of a text, with any separators
between them, are a text with the same kinds and literals, up to the end of the text. -/
theorem scan_separated (source : String) {sep : Nat → String} (hsep : ∀ i, Separator (sep i)) :
    let text := Monkey.separated sep ((scan source).1.map fun t => t.span.slice source)
    (scan text).1.map word = (scan source).1.map word ∧ (scan text).2.word = (scan source).2.word := by
  have hlaid : LaidOut (scan source).1 (Position.start.after []) source.toList := laidOut_scan source
  constructor
  · exact (hlaid.separated (List.nil_append _).symm hsep).scan
  · rw [scan_snd, scan_snd]
    rfl

/-- An equality sign stays whole, and no comment becomes part of a name. -/
theorem scan_separated_equality : Separator "\t// and\n" ∧
    (scan "x\t// and\n==\t// and\n1").1.map word = (scan "x==1").1.map word := by
  have hline : '\n' ∉ [' ', 'a', 'n', 'd'] := by decide
  have hsep : Separator "\t// and\n" := ⟨.blank rfl (.comment hline .nil), '\t', rfl, rfl⟩
  have htext : Monkey.separated (fun _ => "\t// and\n")
      ((scan "x==1").1.map fun t => t.span.slice "x==1") = "x\t// and\n==\t// and\n1" := by
    decide +kernel
  have hwords := (scan_separated "x==1" fun _ => hsep).1
  rw [htext] at hwords
  exact ⟨hsep, hwords⟩

end Token

end Monkey
