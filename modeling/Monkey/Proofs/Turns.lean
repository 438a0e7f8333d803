import Monkey.Console

/-!
# Turns of a console

A console takes its turns line by line. `Console.turns` lists them, and the state at every prompt can
be read off the list. A transcript shows what the turns show, with the prompts between them
(`Console.transcript_eq`).

A line that is neither a command nor an exit word is input (`Console.Reads`). `Console.Takes` says in
five cases what such a line can do, and `Console.takes_turn` that it does nothing else.
-/

namespace Monkey.Console

/-! ### Runs as lists of turns -/

variable {lookUp : String → Except String String}

/-- The turns for a list of lines, up to the line that ends the console. -/
def turns (lookUp : String → Except String String) : List String → Console → List Turn
  | [], _ => []
  | line :: rest, c =>
    let turn := c.turn lookUp line
    turn :: if turn.goesOn then turns lookUp rest turn.console else []

/-- The state of a console after some turns. -/
def afterTurns (c : Console) (ts : List Turn) : Console := ts.foldl (fun _ turn => turn.console) c

theorem afterTurns_cons (c : Console) (turn : Turn) (ts : List Turn) :
    c.afterTurns (turn :: ts) = turn.console.afterTurns ts := rfl

/-- What some turns show, a prompt before each of them. -/
def shownBy (c : Console) : List Turn → List Emission
  | [] => []
  | turn :: ts => .out c.prompt :: (turn.shown ++ turn.console.shownBy ts)

/-- What is shown when there is no further line: nothing more if the console has ended before. -/
def closing (c : Console) (ts : List Turn) : List Emission :=
  if ts.all Turn.goesOn then [.out (c.afterTurns ts).prompt, .out endOfInput] else []

theorem closing_cons (c : Console) (turn : Turn) (ts : List Turn) :
    c.closing (turn :: ts) = if turn.goesOn then turn.console.closing ts else [] := by
  unfold closing afterTurns
  rw [List.all_cons, List.foldl_cons]
  cases turn.goesOn <;> rfl

/-- **A transcript is made of the turns.** -/
theorem transcript_eq (shown : Array Emission) (lines : List String) (c : Console) :
    (c.transcript lookUp shown lines).1.toList =
        shown.toList ++ (c.shownBy (c.turns lookUp lines) ++ c.closing (c.turns lookUp lines)) ∧
      (c.transcript lookUp shown lines).2 = c.afterTurns (c.turns lookUp lines) := by
  induction lines generalizing shown c with
  | nil => simp [transcript, turns, shownBy, closing, afterTurns]
  | cons line rest ih =>
    rw [transcript, turns, closing_cons, shownBy]
    cases h : (c.turn lookUp line).goesOn with
    | true =>
      obtain ⟨hshown, hconsole⟩ := ih
        (shown.push (.out c.prompt) ++ (c.turn lookUp line).shown.toArray)
        (c.turn lookUp line).console
      rw [if_pos rfl, if_pos rfl, if_pos rfl, hshown, hconsole]
      simp [afterTurns]
    | false => simp [shownBy, afterTurns]

/-- For fewer lines there are the same turns, but fewer. -/
theorem turns_take (lines : List String) (c : Console) (n : Nat) :
    c.turns lookUp (lines.take n) = (c.turns lookUp lines).take n := by
  induction lines generalizing c n with
  | nil => simp [turns]
  | cons line rest ih =>
    cases n with
    | zero => simp [turns]
    | succ n =>
      rw [List.take_succ_cons, turns, turns, List.take_succ_cons]
      split
      · rw [ih]
      · rw [List.take_nil]

/-! ### Lines of input -/

/-- The line is input: it does not end the console, and it is no command. Inside an input of several
lines there is one command only. -/
def Reads (c : Console) (line : String) : Prop :=
  isExit line = false ∧ if c.multiline then line ≠ ".break" else line.toList.head? ≠ some '.'

/-- The balance of the braces that are waiting to be closed. -/
def depth (c : Console) : Int32 := if c.multiline then c.balance else 0

/-- The console after a source text was evaluated. -/
def evaluated (c : Console) (source : String) : Console :=
  { c with session := (c.session.eval source).2 }

/-- The text of an input on one line. -/
def oneLine (text : String) : String :=
  String.ofList (text.toList.map fun ch => if ch = '\n' then ' ' else ch)

/-- What a line of input does: the source text that it makes the console evaluate, if any, and the
console after it. -/
inductive Takes (c : Console) (line : String) : Option String → Console → Prop
  /-- Nothing. -/
  | blank (hmode : c.multiline = false) (hline : line = "") : Takes c line none c
  /-- It starts an input of several lines. -/
  | enter (hmode : c.multiline = false) (hline : line ≠ "") (hopen : 0 < openBraces line) :
    Takes c line none ((c.remember line).enter line)
  /-- It is an input of its own. -/
  | single (hmode : c.multiline = false) (hline : line ≠ "") (hclosed : openBraces line ≤ 0) :
    Takes c line (some line) ((c.remember line).evaluated line)
  /-- It goes on with an input of several lines. -/
  | extend (hmode : c.multiline = true) (hopen : 0 < c.balance + openBraces line) :
    Takes c line none
      { c with buffer := c.buffer ++ "\n" ++ line, balance := c.balance + openBraces line }
  /-- It ends an input of several lines. -/
  | finish (hmode : c.multiline = true) (hclosed : c.balance + openBraces line ≤ 0) :
    Takes c line (some (c.buffer ++ "\n" ++ line))
      (evaluated
        { c with
          multiline := false, buffer := "", balance := c.balance + openBraces line
          history := c.history.push (oneLine (c.buffer ++ "\n" ++ line)) }
        (c.buffer ++ "\n" ++ line))

variable {c c' : Console} {line input : String} {source : Option String}

/-- What the turn of a line that is read comes down to. -/
theorem feed_reads (h : c.Reads (trimEnd input)) :
    c.feed input =
      if trimEnd input = "" ∧ c.multiline = false then ([], .next, c)
      else if c.multiline then c.continueInput (trimEnd input)
      else if 0 < openBraces (trimEnd input) then
        ([], .next, (c.remember (trimEnd input)).enter (trimEnd input))
      else ([], .evaluate (trimEnd input), c.remember (trimEnd input)) := by
  obtain ⟨hexit, hcommand⟩ := h
  unfold feed
  dsimp only
  rw [hexit, if_neg (by decide : ¬false = true)]
  cases hmode : c.multiline with
  | true => rw [if_pos rfl, if_pos rfl]
  | false =>
    rw [hmode, if_neg (by decide : ¬false = true)] at hcommand
    simp only [hcommand, if_false]

/-- **What a line of input does.** -/
theorem takes_turn (lookUp : String → Except String String) (h : c.Reads (trimEnd input)) :
    (c.turn lookUp input).goesOn = true ∧
      c.Takes (trimEnd input) (c.turn lookUp input).source (c.turn lookUp input).console := by
  unfold turn
  rw [feed_reads h]
  -- a line continues the input before it, or starts a new one
  cases hmode : c.multiline with
  | true =>
    have hbreak : trimEnd input ≠ ".break" := by
      have hcommand := h.2
      rwa [if_pos hmode] at hcommand
    rw [if_neg (by simp), if_pos rfl, continueInput, if_neg hbreak]
    dsimp only
    by_cases hclosed : c.balance + openBraces (trimEnd input) ≤ 0
    · rw [if_pos hclosed]
      exact ⟨rfl, .finish hmode hclosed⟩
    · rw [if_neg hclosed]
      exact ⟨rfl, .extend hmode (Int32.not_le.mp hclosed)⟩
  | false =>
    by_cases hline : trimEnd input = ""
    · rw [if_pos ⟨hline, rfl⟩]
      exact ⟨rfl, .blank hmode hline⟩
    · rw [if_neg (by simp [hline]), if_neg (by decide)]
      by_cases hopen : 0 < openBraces (trimEnd input)
      · rw [if_pos hopen]
        exact ⟨rfl, .enter hmode hline hopen⟩
      · rw [if_neg hopen]
        exact ⟨rfl, .single hmode hline (Int32.not_lt.mp hopen)⟩

/-- After a line of input the console is inside an input of several lines as long as braces are waiting
to be closed. -/
theorem Takes.multiline_iff (h : c.Takes line source c') :
    c'.multiline = true ↔ 0 < c.depth + openBraces line := by
  unfold depth
  cases h with
  | blank hmode hline =>
    subst hline
    simp [hmode, openBraces, braceBalance]
  | enter hmode _ hopen =>
    have henters : ((c.remember line).enter line).multiline = true := rfl
    simpa [henters, hmode] using hopen
  | single hmode _ hclosed =>
    have hstays : ((c.remember line).evaluated line).multiline = c.multiline := rfl
    simpa [hstays, hmode] using hclosed
  | extend hmode hopen => simpa [hmode] using hopen
  | finish hmode hclosed => simpa [hmode, evaluated] using hclosed

end Monkey.Console
