import Mathlib.Data.List.Basic
import Monkey.Text.Lines
import Monkey.Text.Padding

/-!
# Texts that are made of lines

A listing is made of lines, each of which ends with a line feed. As long as no line has a character
that ends one, the lines can be read back (`lines_unlines`), so such a text is made of its lines in one
way only (`unlines_injective`). Where line feeds stand between the lines only, a line may have carriage
returns inside, but it must not be empty (`lines_intercalate`). A line is made of words with one blank
between them in the same way (`unwords_injective`). Decimal numbers are lines and words, and no two of
them are the same.
-/

namespace Monkey

/-- The lines, each with a line feed behind it. -/
def unlines (ls : List String) : String := String.join (ls.map fun l => l ++ "\n")

@[simp] theorem unlines_nil : unlines [] = "" := rfl

@[simp] theorem unlines_cons (l : String) (ls : List String) :
    unlines (l :: ls) = l ++ "\n" ++ unlines ls := by
  rw [unlines, List.map_cons, String.join_cons]
  rfl

@[simp] theorem unlines_append (ls ls' : List String) :
    unlines (ls ++ ls') = unlines ls ++ unlines ls' := by
  rw [unlines, List.map_append, String.join_append]
  rfl

/-- The text has no character that ends a line. -/
def IsLine (s : String) : Prop := ∀ c ∈ s.toList, c ≠ '\n' ∧ c ≠ '\r'

instance (s : String) : Decidable (IsLine s) :=
  List.decidableBAll (fun c => c ≠ '\n' ∧ c ≠ '\r') s.toList

theorem IsLine.not_mem {s : String} (h : IsLine s) : '\n' ∉ s.toList :=
  fun hmem => (h _ hmem).1 rfl

theorem IsLine.getLast?_ne {s : String} (h : IsLine s) : s.toList.getLast? ≠ some '\r' :=
  fun hlast => (h _ (List.mem_of_getLast? hlast)).2 rfl

/-! ### Reading lines back -/

/-- A line ends at the first line feed. -/
theorem linesFrom_append (line cs ds : List Char) :
    linesFrom line (cs ++ '\n' :: ds) = linesFrom line (cs ++ ['\n']) ++ linesFrom [] ds := by
  induction cs generalizing line with
  | nil =>
    rw [List.nil_append, List.nil_append, linesFrom, linesFrom, if_pos rfl, if_pos rfl]
    rfl
  | cons c cs ih =>
    rw [List.cons_append, List.cons_append, linesFrom, linesFrom]
    split
    · rw [ih]
      rfl
    · exact ih (c :: line)

/-- The lines behind a line feed do not depend on what is in front of it. -/
theorem lines_append (s t : String) : lines (s ++ "\n" ++ t) = lines (s ++ "\n") ++ lines t := by
  have hfeed : "\n".toList = ['\n'] := rfl
  rw [lines, lines, lines, String.toList_append, String.toList_append, hfeed, List.append_assoc,
    List.singleton_append]
  exact linesFrom_append [] s.toList t.toList

/-- What comes before the next line feed belongs to the line. -/
theorem linesFrom_of_not_mem {line cs ds : List Char} (h : '\n' ∉ cs) :
    linesFrom line (cs ++ ds) = linesFrom (cs.reverse ++ line) ds := by
  induction cs generalizing line with
  | nil => rfl
  | cons c cs ih =>
    rw [List.mem_cons, not_or] at h
    rw [List.cons_append, linesFrom, if_neg (Ne.symm h.1), ih h.2, List.reverse_cons,
      List.append_assoc, List.singleton_append]

/-- A text before a line feed is a line, unless there is a carriage return between them. -/
theorem lines_line {s : String} (hfeed : '\n' ∉ s.toList)
    (hreturn : s.toList.getLast? ≠ some '\r') : lines (s ++ "\n") = [s] := by
  have hline : s.toList.reverse.head? ≠ some '\r' := by rwa [List.head?_reverse]
  have hfeeds : "\n".toList = ['\n'] := rfl
  rw [lines, String.toList_append, hfeeds, linesFrom_of_not_mem hfeed, List.append_nil, linesFrom,
    if_pos rfl, if_neg hline]
  dsimp only
  rw [List.reverse_reverse, String.ofList_toList]
  rfl

/-- A text without a line feed is a line, unless it is empty. -/
theorem lines_last {s : String} (hfeed : '\n' ∉ s.toList) (hne : s ≠ "") : lines s = [s] := by
  have hline : s.toList.reverse ≠ [] := by simpa using hne
  rw [lines, ← List.append_nil s.toList, linesFrom_of_not_mem hfeed, List.append_nil, linesFrom,
    if_neg hline, List.reverse_reverse, String.ofList_toList]

/-- The line feeds are between the lines. -/
theorem not_mem_of_mem_lines {s l : String} (h : l ∈ lines s) : '\n' ∉ l.toList := by
  suffices hfrom : ∀ {line cs : List Char}, '\n' ∉ line → l ∈ linesFrom line cs → '\n' ∉ l.toList from
    hfrom List.not_mem_nil h
  intro line cs hline hl
  induction cs generalizing line with
  | nil =>
    rw [linesFrom] at hl
    split at hl
    · cases hl
    · rw [List.mem_singleton.mp hl, String.toList_ofList, List.mem_reverse]
      exact hline
  | cons c cs ih =>
    rw [linesFrom] at hl
    split at hl
    · rcases List.mem_cons.mp hl with rfl | hl
      · rw [String.toList_ofList, List.mem_reverse]
        split
        · exact fun hmem => hline (List.mem_of_mem_tail hmem)
        · exact hline
      · exact ih List.not_mem_nil hl
    · next hc => exact ih (List.not_mem_cons_of_ne_of_not_mem (Ne.symm hc) hline) hl

/-- **Lines are read back** from a text that has line feeds between them. -/
theorem lines_intercalate {ls : List String} (hfeed : ∀ l ∈ ls, '\n' ∉ l.toList)
    (hreturn : ∀ l ∈ ls, l.toList.getLast? ≠ some '\r') (hne : ∀ l ∈ ls, l ≠ "") :
    lines ("\n".intercalate ls) = ls := by
  induction ls with
  | nil => rfl
  | cons l ls ih =>
    obtain ⟨hl, hls⟩ := List.forall_mem_cons.mp hfeed
    obtain ⟨hl', hls'⟩ := List.forall_mem_cons.mp hreturn
    obtain ⟨hl'', hls''⟩ := List.forall_mem_cons.mp hne
    cases ls with
    | nil => rw [String.intercalate_singleton, lines_last hl hl'']
    | cons l' ls =>
      rw [String.intercalate_cons_cons, lines_append, lines_line hl hl', ih hls hls' hls'']
      rfl

/-- **Lines are read back.** -/
theorem lines_unlines {ls : List String} (h : ∀ l ∈ ls, IsLine l) : lines (unlines ls) = ls := by
  induction ls with
  | nil => rfl
  | cons l ls ih =>
    obtain ⟨hl, hls⟩ := List.forall_mem_cons.mp h
    rw [unlines_cons, lines_append, lines_line hl.not_mem hl.getLast?_ne, ih hls]
    rfl

/-- Texts of the same lines only are the same. -/
theorem unlines_injective {ls ls' : List String} (h : ∀ l ∈ ls, IsLine l)
    (h' : ∀ l ∈ ls', IsLine l) (heq : unlines ls = unlines ls') : ls = ls' := by
  rw [← lines_unlines h, ← lines_unlines h', heq]

/-! ### What lines are made of -/

theorem IsLine.append {s t : String} (hs : IsLine s) (ht : IsLine t) : IsLine (s ++ t) := by
  intro c hc
  rw [String.toList_append, List.mem_append] at hc
  rcases hc with hc | hc
  · exact hs c hc
  · exact ht c hc

/-- The digits of a number in decimal. -/
theorem toList_toString_nat (n : Nat) : (toString n).toList = Nat.toDigits 10 n := by
  rw [Nat.toString_eq_ofList_toDigits, String.toList_ofList]

theorem isDigit_of_mem_toString {n : Nat} {c : Char} (h : c ∈ (toString n).toList) :
    c.isDigit = true := by
  rw [toList_toString_nat] at h
  exact Nat.isDigit_of_mem_toDigits (by decide) (by decide) h

theorem isDigit_of_mem_alignRight {width n : Nat} {c : Char}
    (h : c ∈ (alignRight width '0' n).toList) : c.isDigit = true := by
  rw [alignRight, String.toList_ofList, List.leftpad, List.mem_append] at h
  rcases h with h | h
  · rw [List.eq_of_mem_replicate h]
    rfl
  · exact isDigit_of_mem_toString h

/-- A text of digits is a line. -/
theorem isLine_of_digits {s : String} (h : ∀ c ∈ s.toList, c.isDigit = true) : IsLine s := by
  intro c hc
  constructor
  · rintro rfl
    exact absurd (h _ hc) (by decide)
  · rintro rfl
    exact absurd (h _ hc) (by decide)

theorem isLine_toString (n : Nat) : IsLine (toString n) :=
  isLine_of_digits fun _ => isDigit_of_mem_toString

theorem isLine_alignRight (width n : Nat) : IsLine (alignRight width '0' n) :=
  isLine_of_digits fun _ => isDigit_of_mem_alignRight

theorem isLine_toString_int (n : Int) : IsLine (toString n) := by
  cases n with
  | ofNat n => exact isLine_toString n
  | negSucc n =>
    have hminus : IsLine "-" := by decide
    exact hminus.append (isLine_toString (n + 1))

/-! ### Words -/

/-- The text has no blank. -/
def IsWord (s : String) : Prop := ' ' ∉ s.toList

instance (s : String) : Decidable (IsWord s) := inferInstanceAs (Decidable (' ' ∉ s.toList))

/-- Two texts that come to their first separator are the same on both sides of it. -/
theorem append_cons_injective {α : Type} {x : α} {xs xs' ys ys' : List α} (hxs : x ∉ xs)
    (hxs' : x ∉ xs') (h : xs ++ x :: ys = xs' ++ x :: ys') : xs = xs' ∧ ys = ys' := by
  induction xs generalizing xs' with
  | nil =>
    cases xs' with
    | nil => exact ⟨rfl, (List.cons.inj h).2⟩
    | cons y xs' =>
      obtain ⟨rfl, -⟩ := List.cons.inj h
      exact absurd List.mem_cons_self hxs'
  | cons z xs ih =>
    rw [List.mem_cons, not_or] at hxs
    cases xs' with
    | nil => exact absurd (List.cons.inj h).1.symm hxs.1
    | cons y xs' =>
      rw [List.mem_cons, not_or] at hxs'
      obtain ⟨rfl, hrest⟩ := List.cons.inj h
      obtain ⟨rfl, rfl⟩ := ih hxs.2 hxs'.2 hrest
      exact ⟨rfl, rfl⟩

/-- **Words are read back** from a text that has blanks between them. -/
theorem unwords_injective {ws ws' : List String} (h : ∀ w ∈ ws, IsWord w) (h' : ∀ w ∈ ws', IsWord w)
    (hws : ws ≠ []) (hws' : ws' ≠ []) (heq : " ".intercalate ws = " ".intercalate ws') :
    ws = ws' := by
  -- the words are what the text is cut into at its blanks
  have hsplit : ∀ {vs : List String}, (∀ v ∈ vs, IsWord v) → vs ≠ [] →
      (" ".intercalate vs).toList.splitOn ' ' = vs.map String.toList := by
    intro vs hvs hne
    rw [String.toList_intercalate]
    exact List.splitOn_intercalate ' ' (List.forall_mem_map.mpr hvs) (by simpa using hne)
  have hmap : ws.map String.toList = ws'.map String.toList := by
    rw [← hsplit h hws, ← hsplit h' hws', heq]
  exact List.map_injective_iff.mpr (fun _ _ => String.toList_inj.mp) hmap

/-- A text of digits is a word. -/
theorem isWord_of_digits {s : String} (h : ∀ c ∈ s.toList, c.isDigit = true) : IsWord s :=
  fun hblank => absurd (h _ hblank) (by decide)

theorem isWord_toString (n : Nat) : IsWord (toString n) :=
  isWord_of_digits fun _ => isDigit_of_mem_toString

theorem isWord_alignRight (width n : Nat) : IsWord (alignRight width '0' n) :=
  isWord_of_digits fun _ => isDigit_of_mem_alignRight

theorem IsWord.append {s t : String} (hs : IsWord s) (ht : IsWord t) : IsWord (s ++ t) := by
  intro h
  rw [String.toList_append, List.mem_append] at h
  exact h.elim hs ht

/-! ### Numbers -/

theorem toString_nat_injective {m n : Nat} (h : toString m = toString n) : m = n := by
  have hread : ∀ k : Nat, Nat.ofDigitChars 10 (toString k).toList 0 = k := by
    intro k
    rw [toList_toString_nat]
    exact Nat.ofDigitChars_toDigits (by decide) (by decide)
  rw [← hread m, h, hread]

/-- The sign of a negative number is no digit. -/
theorem toString_nat_ne_minus (n : Nat) (s : String) : toString n ≠ "-" ++ s := by
  intro h
  have hminus : '-' ∈ (toString n).toList := by
    rw [h, String.toList_append]
    exact List.mem_cons_self
  exact absurd (isDigit_of_mem_toString hminus) (by decide)

theorem toString_int_injective {m n : Int} (h : toString m = toString n) : m = n := by
  cases m with
  | ofNat m =>
    cases n with
    | ofNat n => rw [toString_nat_injective h]
    | negSucc n => exact absurd h (toString_nat_ne_minus m _)
  | negSucc m =>
    cases n with
    | ofNat n => exact absurd h.symm (toString_nat_ne_minus n _)
    | negSucc n =>
      have hsucc := toString_nat_injective ((String.append_right_inj "-").mp h)
      rw [Nat.succ.inj hsucc]

end Monkey
