import Monkey.Proofs.Batch
import Monkey.Proofs.Turns

/-!
# Lines that belong together

The console puts lines together until their braces are balanced. `CutUp` says without the console how
lines are to be cut into groups: every group is the shortest one that is `Finished`, lines that are empty
are left out between groups, and the lines behind the last group are `Unfinished`. There is one way to cut
lines up (`CutUp.unique`), and it is what the console does, so that it evaluates every group once and
drops no line (`Console.turns_cutUp`).

The state of the console says nothing but which lines are unfinished (`Console.Entering`). A line of input
is put behind them, and either they stay unfinished or they are evaluated (`Console.Takes.entering`).
-/

namespace Monkey

/-! ### Groups of lines -/

/-- The balance of the braces of some lines. -/
def linesBalance (ls : List String) : Int32 := (ls.map openBraces).sum

/-- Lines as one text. -/
def joinLines (ls : List String) : String := "\n".intercalate ls

/-- Lines behind which another one has to follow: behind each of them there are braces to be closed. -/
def Unfinished (ls : List String) : Prop :=
  ∀ front, front <+: ls → front ≠ [] → 0 < linesBalance front

/-- Lines with all braces closed behind the last of them, and only there. -/
structure Finished (ls : List String) : Prop where
  ne_nil : ls ≠ []
  closed : linesBalance ls ≤ 0
  shortest : ∀ front, front <+: ls → front ≠ [] → front ≠ ls → 0 < linesBalance front

/-- Lines, the groups that they are cut into, and the unfinished lines behind the last group. -/
inductive CutUp : List String → List (List String) → List String → Prop
  | pending {last : List String} (h : Unfinished last) : CutUp last [] last
  | blank {ls : List String} {groups : List (List String)} {last : List String}
    (h : CutUp ls groups last) : CutUp ("" :: ls) groups last
  | group {g ls : List String} {groups : List (List String)} {last : List String} (hg : Finished g)
    (hblank : g ≠ [""]) (h : CutUp ls groups last) : CutUp (g ++ ls) (g :: groups) last

theorem linesBalance_concat (ls : List String) (line : String) :
    linesBalance (ls ++ [line]) = linesBalance ls + openBraces line := by
  simp [linesBalance]

theorem joinLines_concat {ls : List String} (h : ls ≠ []) (line : String) :
    joinLines (ls ++ [line]) = joinLines ls ++ "\n" ++ line := by
  rw [joinLines, String.intercalate_append_of_ne_nil h (by simp), String.intercalate_singleton]
  rfl

theorem unfinished_nil : Unfinished [] := fun _ hfront hne => absurd (List.prefix_nil.mp hfront) hne

/-- A front of lines and one more is a front of the lines, or all of it. -/
theorem prefix_concat_cases {front ls : List String} {line : String} (h : front <+: ls ++ [line]) :
    front <+: ls ∨ front = ls ++ [line] :=
  (List.prefix_concat_iff.mp h).symm

namespace Unfinished

variable {ls : List String} {line : String}

theorem concat (h : Unfinished ls) (hopen : 0 < linesBalance (ls ++ [line])) :
    Unfinished (ls ++ [line]) := by
  intro front hfront hne
  rcases prefix_concat_cases hfront with hfront | rfl
  · exact h front hfront hne
  · exact hopen

theorem finished (h : Unfinished ls) (hclosed : linesBalance (ls ++ [line]) ≤ 0) :
    Finished (ls ++ [line]) where
  ne_nil := by simp
  closed := hclosed
  shortest front hfront hne hproper := by
    rcases prefix_concat_cases hfront with hfront | rfl
    · exact h front hfront hne
    · exact absurd rfl hproper

/-- No front of unfinished lines is finished. -/
theorem not_finished (h : Unfinished ls) {g : List String} (hg : Finished g) : ¬g <+: ls :=
  fun hfront => absurd (h g hfront hg.ne_nil) (Int32.not_lt.mpr hg.closed)

end Unfinished

theorem finished_blank : Finished [""] := by
  have hclosed : linesBalance ([] ++ [""]) ≤ 0 := by decide
  exact unfinished_nil.finished hclosed

/-- Of two finished fronts of the same lines none goes further than the other. -/
theorem Finished.eq_of_prefix {g g' : List String} (hg : Finished g) (hg' : Finished g')
    (h : g <+: g') : g = g' := by
  refine Decidable.byContradiction fun hne => ?_
  exact absurd (hg'.shortest g h hg.ne_nil hne) (Int32.not_lt.mpr hg.closed)

theorem Finished.eq_of_append {g g' ls ls' : List String} (hg : Finished g) (hg' : Finished g')
    (h : g ++ ls = g' ++ ls') : g = g' := by
  rcases List.prefix_or_prefix_of_prefix (List.prefix_append g ls) (h ▸ List.prefix_append g' ls')
    with hfront | hfront
  · exact hg.eq_of_prefix hg' hfront
  · exact (hg'.eq_of_prefix hg hfront).symm

/-- **There is one way to cut lines up.** -/
theorem CutUp.unique {ls : List String} {groups groups' : List (List String)}
    {last last' : List String} (h : CutUp ls groups last) (h' : CutUp ls groups' last') :
    groups = groups' ∧ last = last' := by
  -- of two cuts, the next group of one cannot be a proper part of the next group of the other
  induction h generalizing groups' last' with
  | pending hlast =>
    cases h' with
    | pending _ => exact ⟨rfl, rfl⟩
    | blank _ => exact absurd (List.prefix_append [""] _) (hlast.not_finished finished_blank)
    | group hg _ _ => exact absurd (List.prefix_append _ _) (hlast.not_finished hg)
  | @blank ls groups last h ih =>
    generalize hls : "" :: ls = all at h'
    cases h' with
    | pending hlast =>
      subst hls
      exact absurd (List.prefix_append [""] _) (hlast.not_finished finished_blank)
    | blank h' =>
      obtain ⟨-, rfl⟩ := List.cons.inj hls
      exact ih h'
    | group hg hblank _ => exact absurd (finished_blank.eq_of_append hg hls).symm hblank
  | @group g ls groups last hg hblank h ih =>
    generalize hls : g ++ ls = all at h'
    cases h' with
    | pending hlast =>
      subst hls
      exact absurd (List.prefix_append _ _) (hlast.not_finished hg)
    | blank _ => exact absurd (hg.eq_of_append finished_blank hls) hblank
    | group hg' _ h' =>
      obtain rfl := hg.eq_of_append hg' hls
      obtain rfl := List.append_cancel_left hls
      obtain ⟨rfl, rfl⟩ := ih h'
      exact ⟨rfl, rfl⟩

namespace Console

/-! ### Lines that the console waits to be finished -/

variable {c c' : Console} {line : String} {source : Option String} {last : List String}

/-- The console has kept the unfinished lines `last`. -/
structure Entering (c : Console) (last : List String) : Prop where
  unfinished : Unfinished last
  multiline_iff : c.multiline = true ↔ last ≠ []
  buffer : c.buffer = joinLines last
  balance : c.multiline = true → c.balance = linesBalance last
  closed : c.multiline = false → c.balance ≤ 0

theorem entering_nil (hmode : c.multiline = false) (hbuffer : c.buffer = "")
    (hclosed : c.balance ≤ 0) : c.Entering [] where
  unfinished := unfinished_nil
  multiline_iff := by simp [hmode]
  buffer := hbuffer
  balance h := by simp [hmode] at h
  closed _ := hclosed

namespace Entering

theorem eq_nil (h : c.Entering last) (hmode : c.multiline = false) : last = [] := by
  refine Decidable.byContradiction fun hne => ?_
  simp [h.multiline_iff.mpr hne] at hmode

/-- An input of several lines is one that has braces to be closed. -/
theorem multiline_iff_pos (h : c.Entering last) : c.multiline = true ↔ 0 < c.balance := by
  constructor
  · intro hmode
    rw [h.balance hmode]
    exact h.unfinished last List.prefix_rfl (h.multiline_iff.mp hmode)
  · intro hpos
    refine Decidable.byContradiction fun hmode => ?_
    exact absurd (h.closed (Bool.eq_false_iff.mpr hmode)) (Int32.not_le.mpr hpos)

/-- One more line of an input of several lines. -/
theorem concat (h : c.Entering last) (hmode : c.multiline = true) (line : String) :
    c.buffer ++ "\n" ++ line = joinLines (last ++ [line]) ∧
      c.balance + openBraces line = linesBalance (last ++ [line]) := by
  rw [joinLines_concat (h.multiline_iff.mp hmode), linesBalance_concat, h.buffer, h.balance hmode]
  exact ⟨rfl, rfl⟩

end Entering

/-- **A line of input** is left out, or kept behind the unfinished lines, or evaluated with them. -/
theorem Takes.entering (h : c.Takes line source c') (hc : c.Entering last) :
    source = none ∧ last = [] ∧ line = "" ∧ c'.Entering [] ∨
      source = none ∧ c'.Entering (last ++ [line]) ∨
      source = some (joinLines (last ++ [line])) ∧ Finished (last ++ [line]) ∧
        last ++ [line] ≠ [""] ∧ c'.Entering [] := by
  -- the balance of the lines so far tells whether the new one ends the input
  cases h with
  | blank hmode hline =>
    obtain rfl := hc.eq_nil hmode
    exact .inl ⟨rfl, rfl, hline, hc⟩
  | enter hmode hline hopen =>
    obtain rfl := hc.eq_nil hmode
    have hbalance : 0 < linesBalance ([] ++ [line]) := by simpa [linesBalance] using hopen
    refine .inr (.inl ⟨rfl, unfinished_nil.concat hbalance, ?_, ?_, ?_, ?_⟩)
    · exact iff_of_true rfl (by simp)
    · exact String.intercalate_singleton.symm
    · intro _
      show openBraces line = linesBalance ([] ++ [line])
      simp [linesBalance]
    · exact fun h => nomatch h
  | single hmode hline hclosed =>
    obtain rfl := hc.eq_nil hmode
    have hbalance : linesBalance ([] ++ [line]) ≤ 0 := by simpa [linesBalance] using hclosed
    refine .inr (.inr ⟨?_, unfinished_nil.finished hbalance, by simpa using hline, ?_⟩)
    · rw [List.nil_append, joinLines, String.intercalate_singleton]
    · exact entering_nil hmode hc.buffer (hc.closed hmode)
  | extend hmode hopen =>
    obtain ⟨hbuffer, hbalance⟩ := hc.concat hmode line
    rw [hbuffer, hbalance]
    rw [hbalance] at hopen
    refine .inr (.inl ⟨rfl, hc.unfinished.concat hopen, ?_, rfl, fun _ => rfl, ?_⟩)
    · exact iff_of_true hmode (by simp)
    · intro h
      simp [hmode] at h
  | finish hmode hclosed =>
    obtain ⟨hbuffer, hbalance⟩ := hc.concat hmode line
    rw [hbuffer, hbalance]
    rw [hbalance] at hclosed
    have hne := hc.multiline_iff.mp hmode
    refine .inr (.inr ⟨rfl, hc.unfinished.finished hclosed, ?_, entering_nil rfl rfl hclosed⟩)
    intro hblank
    have happend : last ++ [line] = [] ++ [""] := hblank
    exact hne (List.append_inj_left' happend rfl)

/-- A line of input changes the session by what it makes the console evaluate, and by nothing else. -/
theorem Takes.session (h : c.Takes line source c') :
    c'.session = c.session.evalAll source.toList := by
  cases h <;> rfl

/-! ### Runs -/

/-- The line is input wherever it stands. -/
def IsInput (line : String) : Prop := isExit line = false ∧ line.toList.head? ≠ some '.'

theorem IsInput.reads (h : IsInput line) (c : Console) : c.Reads line := by
  refine ⟨h.1, ?_⟩
  split
  · rintro rfl
    exact h.2 (by decide)
  · exact h.2

variable {lookUp : String → Except String String} {inputs : List String}

/-- Lines of input do not end the console. -/
theorem length_turns (hinputs : ∀ input ∈ inputs, IsInput (trimEnd input)) (c : Console) :
    (c.turns lookUp inputs).length = inputs.length := by
  induction inputs generalizing c with
  | nil => rfl
  | cons input inputs ih =>
    rw [List.forall_mem_cons] at hinputs
    obtain ⟨hgoes, -⟩ := takes_turn lookUp (hinputs.1.reads c)
    rw [turns, if_pos hgoes, List.length_cons, List.length_cons, ih hinputs.2]

/-- Some turns evaluate the groups that the lines `ls` are cut into, and nothing else, and the lines
`rest` are kept after them. -/
structure Evaluates (c : Console) (ts : List Turn) (ls : List String) (groups : List (List String))
    (rest : List String) : Prop where
  cutUp : CutUp ls groups rest
  sources : ts.filterMap Turn.source = groups.map joinLines
  session : (c.afterTurns ts).session = c.session.evalAll (groups.map joinLines)
  entering : (c.afterTurns ts).Entering rest

namespace Evaluates

variable {turn : Turn} {ts : List Turn} {ls ls' g rest : List String} {groups : List (List String)}

/-- One more turn before, in which nothing is evaluated. -/
theorem keep (h : turn.console.Evaluates ts ls groups rest) (hsource : turn.source = none)
    (hsession : turn.console.session = c.session.evalAll turn.source.toList)
    (hcut : CutUp ls' groups rest) : c.Evaluates (turn :: ts) ls' groups rest where
  cutUp := hcut
  sources := by rw [List.filterMap_cons_none hsource, h.sources]
  session := by
    rw [hsource] at hsession
    rw [afterTurns_cons, h.session, hsession]
    rfl
  entering := h.entering

/-- One more turn before, in which a group is evaluated. -/
theorem group (h : turn.console.Evaluates ts ls groups rest)
    (hsource : turn.source = some (joinLines g))
    (hsession : turn.console.session = c.session.evalAll turn.source.toList)
    (hg : Finished g) (hblank : g ≠ [""]) : c.Evaluates (turn :: ts) (g ++ ls) (g :: groups) rest where
  cutUp := .group hg hblank h.cutUp
  sources := by rw [List.filterMap_cons_some hsource, h.sources, List.map_cons]
  session := by
    rw [hsource] at hsession
    rw [afterTurns_cons, h.session, hsession]
    rfl
  entering := h.entering

end Evaluates

/-- From a state in which the lines `last` are kept, lines of input make the console evaluate the groups
that all these lines are cut into. -/
theorem Entering.turns (hc : c.Entering last) (hinputs : ∀ input ∈ inputs, IsInput (trimEnd input)) :
    ∃ groups rest,
      c.Evaluates (c.turns lookUp inputs) (last ++ inputs.map trimEnd) groups rest := by
  induction inputs generalizing c last with
  | nil =>
    rw [List.map_nil, List.append_nil]
    exact ⟨[], last, .pending hc.unfinished, rfl, rfl, hc⟩
  | cons input inputs ih =>
    rw [List.forall_mem_cons] at hinputs
    obtain ⟨hgoes, htakes⟩ := takes_turn lookUp (hinputs.1.reads c)
    rw [Console.turns, if_pos hgoes, List.map_cons]
    rcases htakes.entering hc with
      ⟨hsource, rfl, hline, hkept⟩ | ⟨hsource, hkept⟩ | ⟨hsource, hfinished, hblank, hkept⟩
    · obtain ⟨groups, rest, h⟩ := ih hkept hinputs.2
      rw [hline]
      exact ⟨groups, rest, h.keep hsource htakes.session (.blank h.cutUp)⟩
    · obtain ⟨groups, rest, h⟩ := ih hkept hinputs.2
      refine ⟨groups, rest, h.keep hsource htakes.session ?_⟩
      have hcut := h.cutUp
      rwa [List.append_assoc] at hcut
    · obtain ⟨groups, rest, h⟩ := ih hkept hinputs.2
      have hgroup := h.group hsource htakes.session hfinished hblank
      rw [List.append_assoc] at hgroup
      exact ⟨_, rest, hgroup⟩

theorem entering_start (limits : Limits) (steps : Nat) (history : History) (coloured : Bool) :
    (start limits steps history coloured).Entering [] :=
  entering_nil rfl rfl (Int32.le_refl 0)

/-- **No line is lost, and none is evaluated twice.** Take any lines of input. At the prompt behind the
first `n` of them, what the console has evaluated so far are the groups that these lines are cut into, in
order and each as one text. The lines behind the last group are in the buffer. Inside an input of several
lines, and only there, the balance is above zero, and it is that of the lines in the buffer. -/
theorem turns_cutUp (limits : Limits) (steps : Nat) (history : History) (coloured : Bool)
    (lookUp : String → Except String String) {inputs : List String}
    (hinputs : ∀ input ∈ inputs, IsInput (trimEnd input)) :
    let c := start limits steps history coloured
    let ts := c.turns lookUp inputs
    (c.transcript lookUp #[] inputs).2 = c.afterTurns ts ∧ ts.length = inputs.length ∧
      ∀ n ≤ inputs.length, ∃ groups last,
        let c' := c.afterTurns (ts.take n)
        CutUp ((inputs.take n).map trimEnd) groups last ∧
          (ts.take n).filterMap Turn.source = groups.map joinLines ∧
          c'.session = c.session.evalAll (groups.map joinLines) ∧
          c'.buffer = joinLines last ∧ (c'.multiline = true ↔ last ≠ []) ∧
          (c'.multiline = true ↔ 0 < c'.balance) ∧
          (c'.multiline = true → c'.balance = linesBalance last) := by
  intro c ts
  refine ⟨(transcript_eq #[] inputs c).2, length_turns hinputs c, fun n _ => ?_⟩
  have hfront : ∀ input ∈ inputs.take n, IsInput (trimEnd input) :=
    fun input hinput => hinputs input (List.mem_of_mem_take hinput)
  obtain ⟨groups, last, h⟩ : ∃ groups last, c.Evaluates (c.turns lookUp (inputs.take n))
      ([] ++ (inputs.take n).map trimEnd) groups last :=
    (entering_start limits steps history coloured).turns hfront
  rw [turns_take] at h
  exact ⟨groups, last, h.cutUp, h.sources, h.session, h.entering.buffer, h.entering.multiline_iff,
    h.entering.multiline_iff_pos, h.entering.balance⟩

/-- An input of three lines, one of them empty, behind an empty line, and a second input that is not
finished. -/
theorem turns_cutUp_function :
    let inputs := ["\n", "fn() \x7b\n", "\n", "\x7d\r\n", "[\x7b\n"]
    (∀ input ∈ inputs, IsInput (trimEnd input)) ∧
      ∃ groups last, CutUp ["", "fn() \x7b", "", "\x7d", "[\x7b"] groups last ∧
        groups.map joinLines = ["fn() \x7b\n\n\x7d"] ∧ joinLines last = "[\x7b" := by
  intro inputs
  have hinputs : ∀ input ∈ inputs, IsInput (trimEnd input) := by
    unfold IsInput
    decide +kernel
  refine ⟨hinputs, ?_⟩
  obtain ⟨-, -, hprompts⟩ := turns_cutUp {} 0 #[] false .ok hinputs
  obtain ⟨groups, last, hcut, hsources, -, hbuffer, -⟩ := hprompts 5 (Nat.le_refl 5)
  have htrimmed : (inputs.take 5).map trimEnd = ["", "fn() \x7b", "", "\x7d", "[\x7b"] := by
    decide +kernel
  refine ⟨groups, last, htrimmed ▸ hcut, hsources.symm.trans ?_, hbuffer.symm.trans ?_⟩
  · decide +kernel
  · decide +kernel

end Console

end Monkey
