import Mathlib.Data.List.DropRight
import Mathlib.Data.String.Basic
import Mathlib.Logic.Function.Iterate
import Monkey.Proofs.Layout

/-!
# Tokens cover their text

Nothing of a source text is lost when it is cut into tokens. The spans of the tokens stand in order,
their literals are what stands there, and between them there are only blanks and comments
(`Token.Covers`). Offsets count bytes, so what a span covers is taken from the bytes of the text
(`stretch`).

All of it is read off the layout of the text. A token stands behind a known run of characters
(`Token.LaidOut.exists_front`), and this run alone tells its offset, line and column
(`Position.after_start`).
-/

namespace Monkey

/-! ### Places of a text -/

/-- What stands in a text between two byte offsets. -/
def stretch (source : String) (start stop : Nat) : String :=
  String.Pos.Raw.extract source ⟨start⟩ ⟨stop⟩

/-- The text of a span. -/
def Span.slice (s : Span) (source : String) : String := stretch source s.start s.stop

theorem stretch_eq {source : String} (front text back : List Char)
    (h : source.toList = front ++ text ++ back) {stop : Nat}
    (hstop : stop = String.utf8Len front + String.utf8Len text) :
    stretch source (String.utf8Len front) stop = String.ofList text := by
  rw [hstop, ← String.ofList_toList (s := source), h]
  exact String.extract_of_valid front text back

theorem isValid_utf8Len {source : String} {front back : List Char}
    (h : source.toList = front ++ back) :
    (⟨String.utf8Len front⟩ : String.Pos.Raw).IsValid source := by
  apply String.Pos.Raw.isValid_iff_exists_append.mpr
  refine ⟨String.ofList front, String.ofList back, ?_, ?_⟩
  · rw [← String.ofList_append, ← h, String.ofList_toList]
  · rw [String.rawEndPos, String.utf8ByteSize_ofList]

/-- The lines of a run of characters are one more than its line feeds, and the next column is one
more than the characters behind the last of them. -/
theorem Position.after_start (cs : List Char) :
    Position.start.after cs =
      ⟨String.utf8Len cs, 1 + cs.count '\n', 1 + (cs.rtakeWhile (· ≠ '\n')).length⟩ := by
  induction cs using List.reverseRecOn with
  | nil => rfl
  | append_singleton cs c ih =>
    rw [after_append, ih, after_cons, after_nil, advance, String.utf8Len_append, List.count_append]
    by_cases hc : c = '\n'
    · subst hc
      rw [if_pos rfl, List.rtakeWhile_concat_neg _ _ _ (by decide)]
      rfl
    · rw [if_neg hc, List.rtakeWhile_concat_pos _ _ _ (by simpa using hc),
        List.count_singleton, if_neg (by simpa using hc), List.length_append, String.utf8Len_cons,
        String.utf8Len_nil, Nat.zero_add]
      rfl

namespace Token

/-- The offsets of a token are those of characters, and the text before it tells its line and
column. -/
structure Marked (source : String) (t : Token) : Prop where
  start : (⟨t.span.start⟩ : String.Pos.Raw).IsValid source
  stop : (⟨t.span.stop⟩ : String.Pos.Raw).IsValid source
  line : t.span.line = 1 + (stretch source 0 t.span.start).toList.count '\n'
  column : t.span.column =
    1 + ((stretch source 0 t.span.start).toList.rtakeWhile (· ≠ '\n')).length

/-- The literal of a token is what stands at its span. For a string it is what stands there behind
the first quote and before the second one. When the text ends without a second quote, it is all the
rest of the text. -/
def Quotes (source : String) (t : Token) : Prop :=
  if t.kind = .string then
    '"' ∉ t.literal.toList ∧
      (t.span.slice source = "\"" ++ t.literal ++ "\"" ∨
        t.span.slice source = "\"" ++ t.literal ∧ t.span.stop = source.utf8ByteSize)
  else t.span.slice source = t.literal

/-- From the offset `start` on, only blanks and comments stand before, between and behind the
tokens. -/
def Parted (source : String) : Nat → List Token → Prop
  | start, [] => Filler true (stretch source start source.utf8ByteSize).toList
  | start, t :: ts =>
    Filler false (stretch source start t.span.start).toList ∧ Parted source t.span.stop ts

/-- How the tokens of a text stand in it, with one token `finish` behind them at the end of the
text. -/
structure Covers (source : String) (ts : List Token) (finish : Token) : Prop where
  ends : (∀ t ∈ ts, t.kind ≠ .eof) ∧ finish.kind = .eof
  ordered : (ts ++ [finish]).Pairwise fun t u => t.span.stop ≤ u.span.start
  nonempty : ∀ t ∈ ts, t.span.start < t.span.stop
  marked : ∀ t ∈ ts ++ [finish], t.Marked source
  quotes : ∀ t ∈ ts ++ [finish], t.Quotes source
  parted : Parted source 0 ts
  finish : finish.span.start = source.utf8ByteSize ∧ finish.span.stop = source.utf8ByteSize

/-! ### A token and what stands before it -/

/-- A token of a laid out text stands behind a run of characters that starts with what stands before
all the tokens. -/
theorem LaidOut.exists_front {ts : List Token} {before cs : List Char}
    (h : LaidOut ts (Position.start.after before) cs) {t : Token} (ht : t ∈ ts) :
    ∃ gap c lexeme more, before ++ cs = before ++ gap ++ c :: lexeme ++ more ∧
      t.word.CutFrom c lexeme more ∧
      t.span = .between (Position.start.after (before ++ gap))
        (Position.start.after (before ++ gap ++ c :: lexeme)) := by
  generalize hp : Position.start.after before = p at h
  induction h generalizing before with
  | last _ => cases ht
  | @token u ts p gap c lexeme more _ hcut hspan _ ih =>
    subst hp
    simp only [← Position.after_append] at hspan ih
    rcases List.mem_cons.mp ht with rfl | ht
    · refine ⟨gap, c, lexeme, more, by simp, hcut, ?_⟩
      rwa [List.append_assoc]
    · obtain ⟨gap', c', lexeme', more', heq, hcut', hspan'⟩ := ih ht rfl
      refine ⟨gap ++ c :: lexeme ++ gap', c', lexeme', more', ?_, hcut', ?_⟩
      · simpa using heq
      · simpa using hspan'

theorem marked_of_front {source : String} {front text back : List Char}
    (h : source.toList = front ++ text ++ back) {t : Token}
    (hspan : t.span =
      .between (Position.start.after front) (Position.start.after (front ++ text))) :
    t.Marked source := by
  have hbefore : stretch source 0 (String.utf8Len front) = String.ofList front := by
    apply stretch_eq [] front (text ++ back)
    · rw [h, List.append_assoc, List.nil_append]
    · exact (Nat.zero_add _).symm
  rw [Position.after_start, Position.after_start] at hspan
  refine ⟨?_, ?_, ?_, ?_⟩
  · rw [hspan]
    exact isValid_utf8Len (h.trans (List.append_assoc _ _ _))
  · rw [hspan]
    exact isValid_utf8Len h
  · rw [hspan]
    show 1 + front.count '\n' = _
    rw [Span.between, hbefore, String.toList_ofList]
  · rw [hspan]
    show 1 + (front.rtakeWhile (· ≠ '\n')).length = _
    rw [Span.between, hbefore, String.toList_ofList]

/-- What stands at the span of a token. -/
theorem slice_of_front {source : String} {front text back : List Char}
    (h : source.toList = front ++ text ++ back) {t : Token}
    (hspan : t.span =
      .between (Position.start.after front) (Position.start.after (front ++ text))) :
    t.span.slice source = String.ofList text := by
  rw [Span.slice, hspan, Position.after_start, Position.after_start]
  exact stretch_eq front text back h (String.utf8Len_append _ _)

/-- A token covers at least one character. -/
theorem nonempty_of_front {front lexeme : List Char} {c : Char} {t : Token}
    (hspan : t.span = .between (Position.start.after front)
      (Position.start.after (front ++ c :: lexeme))) : t.span.start < t.span.stop := by
  rw [hspan, Position.after_start, Position.after_start]
  show String.utf8Len front < String.utf8Len (front ++ c :: lexeme)
  rw [String.utf8Len_append, String.utf8Len_cons]
  have hsize : 0 < c.utf8Size := c.utf8Size_pos
  omega

theorem quotes_of_front {source : String} {front lexeme back : List Char} {c : Char}
    (h : source.toList = front ++ c :: lexeme ++ back) {t : Token}
    (hcut : t.word.CutFrom c lexeme back)
    (hspan : t.span = .between (Position.start.after front)
      (Position.start.after (front ++ c :: lexeme))) : t.Quotes source := by
  unfold Quotes
  rw [slice_of_front h hspan]
  split
  · next hkind =>
    obtain ⟨hliteral, htext⟩ := hcut.quoted hkind
    refine ⟨hliteral, htext.imp (fun htext => ?_) fun ⟨htext, hback⟩ => ⟨?_, ?_⟩⟩
    · rw [htext, ← String.toList_inj]
      simp [Token.word]
    · rw [htext, ← String.toList_inj]
      simp [Token.word]
    · rw [hspan, Position.after_start, Position.after_start, ← String.ofList_toList (s := source), h,
        hback, List.append_nil, String.utf8ByteSize_ofList]
      rfl
  · next hkind =>
    have hliteral : literalOf t.kind c lexeme = t.literal := hcut.literal
    rwa [literalOf, if_neg hkind] at hliteral

/-! ### All tokens -/

/-- A token lies between what stands before all tokens and the end of the text. -/
theorem LaidOut.within {ts : List Token} {before cs : List Char}
    (h : LaidOut ts (Position.start.after before) cs) {t : Token} (ht : t ∈ ts) :
    String.utf8Len before ≤ t.span.start ∧ t.span.stop ≤ String.utf8Len (before ++ cs) := by
  obtain ⟨gap, c, lexeme, more, hcs, -, hspan⟩ := h.exists_front ht
  rw [hspan, Position.after_start, Position.after_start, hcs]
  constructor
  · show String.utf8Len before ≤ String.utf8Len (before ++ gap)
    rw [String.utf8Len_append]
    exact Nat.le_add_right _ _
  · show String.utf8Len (before ++ gap ++ c :: lexeme) ≤ _
    rw [String.utf8Len_append _ more]
    exact Nat.le_add_right _ _

theorem LaidOut.ordered {ts : List Token} {before cs : List Char}
    (h : LaidOut ts (Position.start.after before) cs) :
    ts.Pairwise fun t u => t.span.stop ≤ u.span.start := by
  generalize hp : Position.start.after before = p at h
  induction h generalizing before with
  | last _ => exact .nil
  | @token t ts p gap c lexeme more _ _ hspan hrest ih =>
    subst hp
    simp only [← Position.after_append] at hspan hrest ih
    refine .cons (fun u hu => ?_) (ih rfl)
    have hstart := (hrest.within hu).1
    rw [hspan, Position.after_start, Position.after_start]
    exact hstart

/-- Between the tokens of a laid out text are its fillers. -/
theorem LaidOut.parted {source : String} {ts : List Token} {before cs : List Char}
    (hsource : source.toList = before ++ cs) (h : LaidOut ts (Position.start.after before) cs) :
    Parted source (String.utf8Len before) ts := by
  generalize hp : Position.start.after before = p at h
  induction h generalizing before with
  | @last p cs hlast =>
    have hsize : source.utf8ByteSize = String.utf8Len before + String.utf8Len cs := by
      rw [← String.ofList_toList (s := source), hsource, String.utf8ByteSize_ofList,
        String.utf8Len_append]
    rw [Parted, stretch_eq before cs [] (by rw [hsource, List.append_nil]) hsize,
      String.toList_ofList]
    exact hlast
  | @token t ts p gap c lexeme more hgap _ hspan _ ih =>
    subst hp
    simp only [← Position.after_append] at hspan ih
    rw [Position.after_start, Position.after_start] at hspan
    have hstretch : stretch source (String.utf8Len before) t.span.start = String.ofList gap := by
      rw [hspan]
      exact stretch_eq before gap (c :: (lexeme ++ more))
        (hsource.trans (List.append_assoc _ _ _).symm) (String.utf8Len_append _ _)
    rw [Parted, hstretch, String.toList_ofList]
    refine ⟨hgap, ?_⟩
    have hbehind : source.toList = before ++ (gap ++ c :: lexeme) ++ more := by
      simpa using hsource
    rw [hspan]
    exact ih hbehind rfl

/-- The token at the end of a text is marked, and its literal is empty. -/
theorem eof_spec (source : String) :
    Marked source (.eof (Position.start.after source.toList)) ∧
      Quotes source (.eof (Position.start.after source.toList)) := by
  have hsource : source.toList = source.toList ++ [] ++ [] := by simp
  have hspan : (Token.eof (Position.start.after source.toList)).span =
      .between (Position.start.after source.toList)
        (Position.start.after (source.toList ++ [])) := by
    rw [List.append_nil]
    rfl
  exact ⟨marked_of_front hsource hspan, slice_of_front hsource hspan⟩

end Token

/-- The place behind the next token. -/
def Cursor.behind (s : Cursor) : Cursor := s.next.2

/-- At the end of a text, asking for more tokens changes nothing. -/
theorem Cursor.next_behind {s : Cursor} {p : Position} (h : s.next = (.eof p, ⟨[], p⟩)) (n : Nat) :
    (behind^[n] s).next.1 = .eof p := by
  cases n with
  | zero => exact congrArg Prod.fst h
  | succ n =>
    have hstays : behind ⟨[], p⟩ = ⟨[], p⟩ := rfl
    have hbehind : s.behind = ⟨[], p⟩ := congrArg Prod.snd h
    rw [Function.iterate_succ_apply, hbehind, Function.iterate_fixed hstays]
    rfl

/-- **Tokens cover their text.** The tokens of every text cover it, and behind the last one there is
the end of the text, however often a token is asked for. -/
theorem Token.scan_covers (source : String) :
    Covers source (scan source).1 (scan source).2 ∧
      ∀ n, (Cursor.behind^[n] ((Cursor.ofString source).words #[]).2).next.1 = (scan source).2 := by
  have hlaid : LaidOut (scan source).1 (Position.start.after []) source.toList := laidOut_scan source
  have hfinish := scan_snd source
  have hsize : String.utf8Len source.toList = source.utf8ByteSize := by
    rw [← String.utf8ByteSize_ofList, String.ofList_toList]
  have hend : (scan source).2.span.start = source.utf8ByteSize ∧
      (scan source).2.span.stop = source.utf8ByteSize := by
    rw [hfinish, Position.after_start, hsize]
    exact ⟨rfl, rfl⟩
  -- what holds of the end of the text and of every token holds of all
  have hall : ∀ P : Token → Prop, P (scan source).2 → (∀ t ∈ (scan source).1, P t) →
      ∀ t ∈ (scan source).1 ++ [(scan source).2], P t := by
    intro P hlast htokens t ht
    rcases List.mem_append.mp ht with ht | ht
    · exact htokens t ht
    · rwa [List.mem_singleton.mp ht]
  refine ⟨⟨⟨fun t ht => (proper_of_mem_scan ht).1, kind_scan_snd source⟩, ?_, ?_, ?_, ?_, ?_, hend⟩, ?_⟩
  · rw [List.pairwise_append]
    refine ⟨hlaid.ordered, List.pairwise_singleton _ _, fun t ht u hu => ?_⟩
    rw [List.mem_singleton.mp hu, hend.1, ← hsize]
    exact (hlaid.within ht).2
  · intro t ht
    obtain ⟨gap, c, lexeme, more, -, -, hspan⟩ := hlaid.exists_front ht
    exact nonempty_of_front hspan
  · apply hall
    · rw [hfinish]
      exact (eof_spec source).1
    · intro t ht
      obtain ⟨gap, c, lexeme, more, hsource, -, hspan⟩ := hlaid.exists_front ht
      exact marked_of_front hsource hspan
  · apply hall
    · rw [hfinish]
      exact (eof_spec source).2
    · intro t ht
      obtain ⟨gap, c, lexeme, more, hsource, hcut, hspan⟩ := hlaid.exists_front ht
      exact quotes_of_front hsource hcut hspan
  · exact hlaid.parted rfl
  · intro n
    rw [hfinish]
    exact Cursor.next_behind (next_words source) n

end Monkey
