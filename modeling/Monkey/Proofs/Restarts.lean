import Mathlib.Data.List.Induction
import Mathlib.Data.List.TakeWhile
import Monkey.CommandLine
import Monkey.Proofs.Lines
import Monkey.Proofs.Turns

/-!
# The history survives restarts

A console keeps its history in a text with one entry per line, and the next console reads it from there.
Reading drops blank lines, and a carriage return in front of a line feed belongs to the line end, so not
every list of texts comes back. The entries of a console do (`History.ofText_toText`): each of them is on one
line and does not end in white space (`History.IsEntry`). A line that is remembered as it was typed in is
such a text since white space at its end was dropped. An input of several lines is one since its last
line closes a brace, and so is not empty, and its line feeds are replaced.

`Console.Recorded` is the invariant. One lemma for each function of the console says that it is kept, and
`Console.Recorded.turns` that it holds at every prompt. `Sitting.history_kept` is the main statement, about
any number of consoles, one after the other.
-/

namespace Monkey

/-! ### White space -/

theorem mem_of_mem_trimEnd {s : String} {c : Char} (h : c ∈ (trimEnd s).toList) : c ∈ s.toList := by
  rw [trimEnd, String.toList_ofList, List.mem_reverse] at h
  exact List.mem_reverse.mp ((List.dropWhile_suffix isSpace).subset h)

/-- A text does not end in white space when that was dropped. -/
theorem getLast?_trimEnd {s : String} (h : trimEnd s ≠ "") :
    ∃ c, (trimEnd s).toList.getLast? = some c ∧ isSpace c = false := by
  have hne : s.toList.reverse.dropWhile isSpace ≠ [] := by
    intro hnil
    rw [trimEnd, hnil] at h
    exact h rfl
  rw [trimEnd, String.toList_ofList, List.getLast?_reverse, List.head?_eq_some_head hne]
  exact ⟨_, rfl, List.head_dropWhile_not isSpace hne⟩

theorem isSpace_of_trimEnd {s : String} (h : trimEnd s = "") : ∀ c ∈ s.toList, isSpace c = true := by
  have hnil : s.toList.reverse.dropWhile isSpace = [] := by
    simpa [trimEnd] using h
  simpa using List.dropWhile_eq_nil_iff.mp hnil

/-- A text of which nothing is left is white space. -/
theorem isSpace_of_trim {s : String} (h : trim s = "") : ∀ c ∈ s.toList, isSpace c = true := by
  have hrest := isSpace_of_trimEnd h
  rw [String.toList_ofList] at hrest
  have hnil : s.toList.dropWhile isSpace = [] := by
    refine Decidable.byContradiction fun hne => ?_
    -- what is left would start with a character that is no white space
    have hhead := List.head_dropWhile_not isSpace hne
    rw [hrest _ (List.head_mem hne)] at hhead
    cases hhead
  exact List.dropWhile_eq_nil_iff.mp hnil

/-! ### Entries -/

namespace History

/-- A text on one line that does not end in white space. -/
structure IsEntry (s : String) : Prop where
  not_mem : '\n' ∉ s.toList
  ends : ∃ c, s.toList.getLast? = some c ∧ isSpace c = false

variable {s : String}

theorem isEntry_trimEnd (h : '\n' ∉ s.toList) (hne : trimEnd s ≠ "") : IsEntry (trimEnd s) where
  not_mem hmem := h (mem_of_mem_trimEnd hmem)
  ends := getLast?_trimEnd hne

theorem IsEntry.trim_ne (h : IsEntry s) : trim s ≠ "" := by
  intro hblank
  obtain ⟨c, hc, hspace⟩ := h.ends
  rw [isSpace_of_trim hblank c (List.mem_of_getLast? hc)] at hspace
  cases hspace

theorem IsEntry.getLast?_ne (h : IsEntry s) : s.toList.getLast? ≠ some '\r' := by
  intro hreturn
  obtain ⟨c, hc, hspace⟩ := h.ends
  obtain rfl := Option.some.inj (hreturn.symm.trans hc)
  cases hspace

theorem IsEntry.ne_empty (h : IsEntry s) : s ≠ "" := by
  rintro rfl
  obtain ⟨c, hc, -⟩ := h.ends
  cases hc

/-- **What was kept is read back.** -/
theorem ofText_toText {h : History} (hentries : ∀ e ∈ h, IsEntry e) : ofText h.toText = h := by
  have hlist : ∀ e ∈ h.toList, IsEntry e := fun e he => hentries e (Array.mem_toList_iff.mp he)
  have hlines : lines h.toText = h.toList :=
    lines_intercalate (fun e he => (hlist e he).not_mem) (fun e he => (hlist e he).getLast?_ne)
      fun e he => (hlist e he).ne_empty
  have hfilter : (h.toList.filter fun line => trim line ≠ "") = h.toList :=
    List.filter_eq_self.mpr fun e he => decide_eq_true (hlist e he).trim_ne
  rw [ofText, hlines, hfilter]

end History

open History (IsEntry)

/-! ### Consoles -/

namespace Console

/-- Every text in the history is an entry, and inside an input of several lines a brace is open. -/
structure Recorded (c : Console) : Prop where
  entries : ∀ e ∈ c.history, IsEntry e
  pending : c.multiline = true → 0 < c.balance

variable {c : Console} {line input : String}

theorem recorded_start (limits : Limits) (steps : Nat) {history : History} (coloured : Bool)
    (h : ∀ e ∈ history, IsEntry e) : (start limits steps history coloured).Recorded where
  entries := h
  pending hmode := nomatch hmode

/-- An input on one line ends as its last line does. -/
theorem isEntry_oneLine (text : String) (h : IsEntry line) : IsEntry (oneLine (text ++ line)) where
  not_mem hmem := by
    rw [oneLine, String.toList_ofList] at hmem
    obtain ⟨ch, -, hch⟩ := List.mem_map.mp hmem
    split at hch
    · cases hch
    · next hne => exact hne hch
  ends := by
    obtain ⟨c, hlast, hspace⟩ := h.ends
    have hne : c ≠ '\n' := by
      rintro rfl
      cases hspace
    refine ⟨c, ?_, hspace⟩
    rw [oneLine, String.toList_ofList, String.toList_append, List.getLast?_map, List.getLast?_append,
      hlast, Option.some_or, Option.map_some, if_neg hne]

namespace Recorded

theorem remember (hc : c.Recorded) (h : IsEntry line) : (c.remember line).Recorded where
  entries := Array.forall_mem_push.mpr ⟨h, hc.entries⟩
  pending := hc.pending

theorem enter (hc : c.Recorded) (h : 0 < openBraces line) : (c.enter line).Recorded where
  entries := hc.entries
  pending _ := h

/-- A line that ends an input of several lines closes a brace, so it is not empty. -/
theorem continueInput (hc : c.Recorded) (hmode : c.multiline = true)
    (h : line ≠ "" → IsEntry line) : (c.continueInput line).2.2.Recorded := by
  unfold Console.continueInput
  split
  · exact ⟨hc.entries, fun hmode => nomatch hmode⟩
  dsimp only
  split
  · next hclosed =>
    have hne : line ≠ "" := by
      rintro rfl
      have hopen := hc.pending hmode
      have hempty : openBraces "" = 0 := rfl
      rw [hempty, Int32.add_zero] at hclosed
      exact absurd hopen (Int32.not_lt.mpr hclosed)
    have hentry := isEntry_oneLine (c.buffer ++ "\n") (h hne)
    exact ⟨Array.forall_mem_push.mpr ⟨hentry, hc.entries⟩, fun hmode => nomatch hmode⟩
  · next hopen => exact ⟨hc.entries, fun _ => Int32.not_le.mp hopen⟩

theorem command (hc : c.Recorded) (line : String) : (c.command line).2.2.Recorded := by
  unfold Console.command
  split
  · exact hc
  split
  · exact hc
  split
  · exact ⟨hc.entries, hc.pending⟩
  split
  · exact hc
  · exact hc

/-- **A line keeps the history in order**, whatever it is. -/
theorem feed (hc : c.Recorded) (h : '\n' ∉ input.toList) : (c.feed input).2.2.Recorded := by
  have hentry : trimEnd input ≠ "" → IsEntry (trimEnd input) := History.isEntry_trimEnd h
  unfold Console.feed
  dsimp only
  split
  · exact hc
  next hskip =>
  split
  · exact hc
  split
  · next hmode => exact hc.continueInput hmode hentry
  next hmode =>
  have hne : trimEnd input ≠ "" := fun hempty => hskip ⟨hempty, Bool.eq_false_iff.mpr hmode⟩
  have hremembered := hc.remember (hentry hne)
  split
  · exact hremembered.command _
  split
  · next hopen => exact hremembered.enter hopen
  · exact hremembered

theorem execute (hc : c.Recorded) (source : String) : (c.execute source).2.Recorded :=
  ⟨hc.entries, hc.pending⟩

theorem load (hc : c.Recorded) (content : Except String String) : (c.load content).2.Recorded := by
  cases content with
  | ok source => exact hc.execute source
  | error reason => exact hc

theorem turn (hc : c.Recorded) (lookUp : String → Except String String) (h : '\n' ∉ input.toList) :
    (c.turn lookUp input).console.Recorded := by
  rcases hfed : c.feed input with ⟨shown, reply, c'⟩
  have hc' : c'.Recorded := by
    have hfeed := hc.feed h
    rwa [hfed] at hfeed
  unfold Console.turn
  rw [hfed]
  cases reply with
  | next => exact hc'
  | evaluate source => exact hc'.execute source
  | load path => exact hc'.load (lookUp path)
  | quit => exact hc'

/-- **The history is in order at every prompt.** -/
theorem turns (hc : c.Recorded) (lookUp : String → Except String String) {inputs : List String}
    (h : ∀ input ∈ inputs, '\n' ∉ input.toList) :
    (c.afterTurns (c.turns lookUp inputs)).Recorded := by
  induction inputs generalizing c with
  | nil => exact hc
  | cons input inputs ih =>
    rw [List.forall_mem_cons] at h
    have hturn := hc.turn lookUp h.1
    rw [Console.turns, afterTurns_cons]
    split
    · exact ih hturn h.2
    · exact hturn

end Recorded

end Console

/-! ### One console after the other -/

/-- A run of the program that opens a console. -/
structure Sitting where
  /-- What the program finds, but for the history, which is that of the run before. -/
  surroundings : Surroundings
  arguments : List String
  steps : Nat
  limits : Limits
  converses : (Invocation.ofArguments surroundings.environment arguments).job steps
    surroundings.coloured = .converse limits

namespace Sitting

/-- The console at its first prompt, when the history was kept in the given text, if there was one. -/
def opened (r : Sitting) (kept : Option String) : Console :=
  .start r.limits r.steps (.ofText (kept.getD "")) r.surroundings.coloured

/-- What the lines that are typed in lead to. -/
def turns (r : Sitting) (kept : Option String) : List Console.Turn :=
  (r.opened kept).turns r.surroundings.lookUp (lines r.surroundings.input)

/-- The console at its end, when the history is saved. -/
def closed (r : Sitting) (kept : Option String) : Console :=
  (r.opened kept).afterTurns (r.turns kept)

/-- The text of the history after the run. -/
def leaves (r : Sitting) (kept : Option String) : Option String :=
  (({ r.surroundings with history := kept } : Surroundings).run r.steps r.arguments).history

/-- The text of the history after several runs, if there was none before them. -/
def keptAfter (rs : List Sitting) : Option String := rs.foldl (fun kept r => r.leaves kept) none

theorem leaves_eq (r : Sitting) (kept : Option String) :
    r.leaves kept = some (r.closed kept).history.toText := by
  unfold leaves Surroundings.run
  dsimp only
  rw [r.converses]
  dsimp only
  rw [(Console.transcript_eq _ _ _).2]
  rfl

theorem recorded_turns (r : Sitting) {kept : Option String}
    (h : ∀ e ∈ History.ofText (kept.getD ""), IsEntry e) (n : Nat) :
    ((r.opened kept).afterTurns ((r.turns kept).take n)).Recorded := by
  rw [turns, ← Console.turns_take]
  refine (Console.recorded_start _ _ _ h).turns _ fun input hinput => ?_
  exact not_mem_of_mem_lines (List.mem_of_mem_take hinput)

theorem recorded_closed (r : Sitting) {kept : Option String}
    (h : ∀ e ∈ History.ofText (kept.getD ""), IsEntry e) : (r.closed kept).Recorded := by
  have hall := r.recorded_turns h (r.turns kept).length
  rwa [List.take_length] at hall

theorem ofText_leaves (r : Sitting) {kept : Option String}
    (h : ∀ e ∈ History.ofText (kept.getD ""), IsEntry e) :
    History.ofText ((r.leaves kept).getD "") = (r.closed kept).history := by
  rw [leaves_eq]
  exact History.ofText_toText (r.recorded_closed h).entries

theorem keptAfter_concat (rs : List Sitting) (r : Sitting) :
    keptAfter (rs ++ [r]) = r.leaves (keptAfter rs) :=
  List.foldl_concat ..

/-- Nothing but entries is ever kept. -/
theorem isEntry_keptAfter (rs : List Sitting) :
    ∀ e ∈ History.ofText ((keptAfter rs).getD ""), IsEntry e := by
  induction rs using List.reverseRecOn with
  | nil => exact fun e he => nomatch he
  | append_singleton rs r ih =>
    rw [keptAfter_concat, r.ofText_leaves ih]
    exact (r.recorded_closed ih).entries

/-- **The history survives restarts.** Open a console, any number of times, with no history before the
first one, and type in whatever you like. At every prompt each entry of the history is on one line
and is not blank. What is saved is the history as it is at the end, and the next console starts with the
same entries. -/
theorem history_kept (earlier : List Sitting) (r next : Sitting) :
    let kept := keptAfter earlier
    (∀ n, ∀ e ∈ ((r.opened kept).afterTurns ((r.turns kept).take n)).history,
        '\n' ∉ e.toList ∧ trim e ≠ "") ∧
      keptAfter (earlier ++ [r]) = some (r.closed kept).history.toText ∧
      (next.opened (keptAfter (earlier ++ [r]))).history = (r.closed kept).history := by
  intro kept
  have hkept := isEntry_keptAfter earlier
  rw [keptAfter_concat]
  refine ⟨fun n e he => ?_, r.leaves_eq kept, r.ofText_leaves hkept⟩
  have hentry := (r.recorded_turns hkept n).entries e he
  exact ⟨hentry.not_mem, hentry.trim_ne⟩

/-- The program is started without arguments, and a text is typed in. -/
def ofInput (input : String) : Sitting where
  surroundings := ⟨fun _ => none, .error, input, none, false⟩
  arguments := []
  steps := stepLimit
  limits := {}
  converses := rfl

/-- An input of two lines, a command, an input that is left unfinished, and another run. -/
example :
    keptAfter [ofInput "if (true) \x7b\r\n\x7d\n.history\n\x7b\n1", ofInput "2 \n"] =
      some "if (true) \x7b\nif (true) \x7b \x7d\n.history\n\x7b\n2" := by
  decide +kernel

end Sitting

end Monkey
