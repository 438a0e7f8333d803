import Monkey.Evaluation
import Monkey.Proofs.Reading
import Monkey.Proofs.Relocation
import Monkey.Proofs.Scanning

/-!
# Places have no meaning

Two texts of the same words may be laid out in different ways. Their tokens differ in nothing but their
spans then, and no step of the parser looks at these: on tokens at other places it decides in the same way
and moves just as far, and what it makes of them is the same thing at other places (`Reading.Relocates`).
Since the compiler looks at no span either and code has none, the two texts have the same value, or the
same error, up to the place that is blamed for it (`meaning_of_words`).
-/

namespace Monkey

/-! ### Readers -/

namespace Reader

variable (f : Span → Span)

/-- The reader of the tokens at other places. -/
def relocate (r : Reader) : Reader :=
  ⟨r.rest.map (Token.relocate f), r.eof.relocate f, r.diagnostics.map (Diagnostic.relocate f)⟩

theorem headD_map (ts : List Token) (eof : Token) :
    (ts.map (Token.relocate f)).headD (eof.relocate f) = (ts.headD eof).relocate f := by
  cases ts with
  | nil => rfl
  | cons t ts => rfl

@[simp] theorem current_relocate (r : Reader) : (r.relocate f).current = r.current.relocate f :=
  headD_map f r.rest r.eof

@[simp] theorem peek_relocate (r : Reader) : (r.relocate f).peek = r.peek.relocate f := by
  unfold peek relocate
  rw [← List.map_tail]
  exact headD_map f r.rest.tail r.eof

@[simp] theorem advance_relocate (r : Reader) : (r.relocate f).advance = r.advance.relocate f := by
  unfold advance relocate
  rw [← List.map_tail]

@[simp] theorem report_relocate (r : Reader) (d : Diagnostic) :
    (r.relocate f).report (d.relocate f) = (r.report d).relocate f := by
  unfold report relocate
  rw [← Array.map_push]

theorem dropStatement_map (eof : Token) (ts : List Token) :
    dropStatement (eof.relocate f) (ts.map (Token.relocate f)) =
      (dropStatement eof ts).map (Token.relocate f) := by
  induction ts with
  | nil => rfl
  | cons t ts ih =>
    simp only [List.map_cons, dropStatement, headD_map, Token.kind_relocate, ih]
    split
    · rfl
    · rfl

@[simp] theorem synchronize_relocate (r : Reader) :
    (r.relocate f).synchronize = r.synchronize.relocate f := by
  unfold synchronize relocate
  rw [dropStatement_map]

end Reader

namespace Reading

/-! ### Steps at other places -/

variable {α β γ δ : Type} {f : Span → Span}

/-- The step `y` does at other places what `x` does. The results, too, are at other places, as `g`
says. -/
def Relocates (f : Span → Span) (g : α → β) (x : Reading α) (y : Reading β) : Prop :=
  ∀ r, y.run.run (r.relocate f) = ((x.run.run r).1.map g, (x.run.run r).2.relocate f)

/-- One step after another. -/
theorem Relocates.bind {g : α → β} {g' : γ → δ} {x : Reading α} {y : Reading β}
    {next : α → Reading γ} {next' : β → Reading δ} (h : Relocates f g x y)
    (hnext : ∀ a, Relocates f g' (next a) (next' (g a))) :
    Relocates f g' (x >>= next) (y >>= next') := by
  intro r
  rw [run_bind, run_bind, h r]
  cases x.run.run r with
  | mk result r₁ =>
    cases result with
    | none => rfl
    | some a => exact hnext a r₁

theorem Relocates.ite {g : α → β} {p : Prop} [Decidable p] {x x' : Reading α} {y y' : Reading β}
    (h : Relocates f g x y) (h' : Relocates f g x' y') :
    Relocates f g (if p then x else x') (if p then y else y') := by
  split
  · exact h
  · exact h'

theorem Relocates.attempt {g : α → β} {x : Reading α} {y : Reading β} (h : Relocates f g x y) :
    Relocates f (Option.map g) (attempt x) (attempt y) := by
  intro r
  have hr := h r
  change (some (y.run.run (r.relocate f)).1, (y.run.run (r.relocate f)).2) = _
  rw [hr]
  rfl

theorem relocates_pure {g : α → β} {a : α} {b : β} (h : b = g a) :
    Relocates f g (pure a) (pure b) := by
  intro r
  rw [h]
  rfl

theorem relocates_failure {g : α → β} : Relocates f g failure failure := fun _ => rfl

theorem relocates_fail {g : α → β} (d : Diagnostic) :
    Relocates f g (fail d) (fail (d.relocate f)) := by
  intro r
  show (none, (r.relocate f).report (d.relocate f)) = _
  rw [Reader.report_relocate]
  rfl

theorem relocates_current : Relocates f (Token.relocate f) current current := by
  intro r
  show (some (r.relocate f).current, r.relocate f) = _
  rw [Reader.current_relocate]
  rfl

theorem relocates_peek : Relocates f (Token.relocate f) peek peek := by
  intro r
  show (some (r.relocate f).peek, r.relocate f) = _
  rw [Reader.peek_relocate]
  rfl

theorem relocates_advance : Relocates f id advance advance := by
  intro r
  show (some (), (r.relocate f).advance) = _
  rw [Reader.advance_relocate]
  rfl

theorem relocates_recover :
    Relocates f id (modify (·.synchronize.advance) : Reading PUnit) (modify (·.synchronize.advance)) := by
  intro r
  show (some (), (r.relocate f).synchronize.advance) = _
  rw [Reader.synchronize_relocate, Reader.advance_relocate]
  rfl

theorem relocates_expect (kind : Kind) : Relocates f id (expect kind) (expect kind) :=
  relocates_peek.bind fun t =>
    .ite relocates_advance (relocates_fail (.unexpectedToken kind t.kind t.span))

theorem relocates_skip (kind : Kind) : Relocates f id (skip kind) (skip kind) :=
  relocates_peek.bind fun _ => .ite relocates_advance (relocates_pure rfl)

/-! ### The steps of the parser at other places -/

/-- The steps of the parser do the same at other places, when they may nest to a depth of `fuel`. -/
structure RelocatesAt (f : Span → Span) (fuel : Nat) : Prop where
  expression : ∀ level, Relocates f (Expr.relocate f) (expression level fuel) (expression level fuel)
  continuation : ∀ level left, Relocates f (Expr.relocate f) (continuation level left fuel)
    (continuation level (left.relocate f) fuel)
  extension : ∀ left, Relocates f (Expr.relocate f) (extension left fuel)
    (extension (left.relocate f) fuel)
  operand : Relocates f (Expr.relocate f) (operand fuel) (operand fuel)
  expressionList : ∀ close, Relocates f (Expr.relocateAll f) (expressionList close fuel)
    (expressionList close fuel)
  expressions : ∀ close done, Relocates f (Expr.relocateAll f) (expressions close done fuel)
    (expressions close (done.map (Expr.relocate f)) fuel)
  pairs : ∀ done, Relocates f (Expr.relocatePairs f) (pairs done fuel)
    (pairs (done.map (Prod.map (Expr.relocate f) (Expr.relocate f))) fuel)
  block : Relocates f (Block.relocate f) (block fuel) (block fuel)
  statements : ∀ inBlock done, Relocates f (Stmt.relocateAll f) (statements inBlock done fuel)
    (statements inBlock (done.map (Stmt.relocate f)) fuel)
  statement : Relocates f (Stmt.relocate f) (statement fuel) (statement fuel)

theorem relocates_parameters (fuel : Nat) (done : Array Ident) :
    Relocates f (List.map (Ident.relocate f)) (parameters done fuel)
      (parameters (done.map (Ident.relocate f)) fuel) := by
  induction fuel generalizing done with
  | zero => exact relocates_failure
  | succ fuel ih =>
    rw [parameters, parameters]
    refine relocates_peek.bind fun _ => .ite (relocates_advance.bind fun _ => ?_) ?_
    · refine (relocates_expect _).bind fun _ => relocates_current.bind fun t => ?_
      have hrest := ih (done.push ⟨t⟩)
      rw [Array.map_push] at hrest
      exact hrest
    · exact (relocates_expect _).bind fun _ => relocates_pure Array.toList_map

theorem relocates_parameterList (fuel : Nat) :
    Relocates f (List.map (Ident.relocate f)) (parameterList fuel) (parameterList fuel) := by
  refine relocates_peek.bind fun _ => .ite (relocates_advance.bind fun _ => relocates_pure rfl) ?_
  refine (relocates_expect _).bind fun _ => relocates_current.bind fun t => ?_
  have hrest := relocates_parameters (f := f) fuel #[⟨t⟩]
  rw [List.map_toArray] at hrest
  exact hrest

namespace RelocatesAt

variable {fuel : Nat} (h : RelocatesAt f fuel)

include h

theorem extension_succ (left : Expr) :
    Relocates f (Expr.relocate f) (Reading.extension left (fuel + 1))
      (Reading.extension (left.relocate f) (fuel + 1)) := by
  rw [Reading.extension, Reading.extension]
  refine relocates_current.bind fun t => ?_
  rw [Token.kind_relocate]
  split
  · refine relocates_advance.bind fun _ => (h.expression _).bind fun right => ?_
    exact relocates_pure rfl
  · apply Relocates.ite
    · exact (h.expressionList _).bind fun es => relocates_pure rfl
    · refine relocates_advance.bind fun _ => (h.expression _).bind fun key => ?_
      exact (relocates_expect _).bind fun _ => relocates_pure rfl

theorem operand_succ :
    Relocates f (Expr.relocate f) (Reading.operand (fuel + 1)) (Reading.operand (fuel + 1)) := by
  rw [Reading.operand]
  refine relocates_current.bind fun t => ?_
  rw [Token.kind_relocate]
  split
  · exact relocates_pure rfl
  · rw [Token.literal_relocate]
    split
    · exact relocates_pure rfl
    · exact relocates_fail (.invalidInteger t.literal t.span)
  · exact relocates_pure rfl
  · exact relocates_pure rfl
  · exact relocates_pure rfl
  · exact relocates_advance.bind fun _ => (h.expression _).bind fun _ => relocates_pure rfl
  · exact relocates_advance.bind fun _ => (h.expression _).bind fun _ => relocates_pure rfl
  · refine relocates_advance.bind fun _ => (h.expression _).bind fun _ => ?_
    exact (relocates_expect _).bind fun _ => relocates_pure rfl
  · refine (relocates_expect _).bind fun _ => relocates_advance.bind fun _ => ?_
    refine (h.expression _).bind fun _ => (relocates_expect _).bind fun _ => ?_
    refine (relocates_expect _).bind fun _ => h.block.bind fun _ => ?_
    refine relocates_peek.bind fun _ => .ite (relocates_advance.bind fun _ => ?_) (relocates_pure rfl)
    exact (relocates_expect _).bind fun _ => h.block.bind fun _ => relocates_pure rfl
  · refine (relocates_expect _).bind fun _ => (relocates_parameterList fuel).bind fun _ => ?_
    exact (relocates_expect _).bind fun _ => h.block.bind fun _ => relocates_pure rfl
  · exact (h.expressionList _).bind fun _ => relocates_pure rfl
  · have hpairs := h.pairs #[]
    rw [Array.map_empty] at hpairs
    exact hpairs.bind fun _ => relocates_pure rfl
  · exact relocates_fail (.noExpression t.kind t.span)

theorem pairs_succ (done : Array (Expr × Expr)) :
    Relocates f (Expr.relocatePairs f) (Reading.pairs done (fuel + 1))
      (Reading.pairs (done.map (Prod.map (Expr.relocate f) (Expr.relocate f))) (fuel + 1)) := by
  rw [Reading.pairs, Reading.pairs]
  refine relocates_peek.bind fun _ => .ite (relocates_advance.bind fun _ => relocates_pure ?_) ?_
  · rw [Array.toList_map, Expr.relocatePairs_eq_map]
  · refine relocates_advance.bind fun _ => (h.expression _).bind fun key => ?_
    refine (relocates_expect _).bind fun _ => relocates_advance.bind fun _ => ?_
    refine (h.expression _).bind fun value => relocates_peek.bind fun _ => ?_
    have hrest := h.pairs (done.push (key, value))
    rw [Array.map_push] at hrest
    exact .ite hrest ((relocates_expect _).bind fun _ => hrest)

theorem statements_succ (inBlock : Bool) (done : Array Stmt) :
    Relocates f (Stmt.relocateAll f) (Reading.statements inBlock done (fuel + 1))
      (Reading.statements inBlock (done.map (Stmt.relocate f)) (fuel + 1)) := by
  rw [Reading.statements, Reading.statements]
  refine relocates_current.bind fun t => .ite (relocates_pure ?_) ?_
  · rw [Array.toList_map, Stmt.relocateAll_eq_map]
  · refine h.statement.attempt.bind fun s => ?_
    cases s with
    | none => exact relocates_recover.bind fun _ => h.statements _ _
    | some s =>
      have hrest := h.statements inBlock (done.push s)
      rw [Array.map_push] at hrest
      exact relocates_advance.bind fun _ => hrest

theorem statement_succ :
    Relocates f (Stmt.relocate f) (Reading.statement (fuel + 1)) (Reading.statement (fuel + 1)) := by
  rw [Reading.statement]
  refine relocates_current.bind fun t => ?_
  rw [Token.kind_relocate]
  split
  · refine (relocates_expect _).bind fun _ => relocates_current.bind fun _ => ?_
    refine (relocates_expect _).bind fun _ => relocates_advance.bind fun _ => ?_
    exact (h.expression _).bind fun _ => (relocates_skip _).bind fun _ => relocates_pure rfl
  · refine relocates_advance.bind fun _ => (h.expression _).bind fun _ => ?_
    exact (relocates_skip _).bind fun _ => relocates_pure rfl
  · exact (h.expression _).bind fun _ => (relocates_skip _).bind fun _ => relocates_pure rfl

end RelocatesAt

/-- **No step of the parser looks at a span.** -/
theorem relocatesAt (f : Span → Span) (fuel : Nat) : RelocatesAt f fuel := by
  induction fuel with
  | zero => constructor <;> intros <;> exact relocates_failure
  | succ fuel h =>
    refine ⟨fun level => ?_, fun level left => ?_, h.extension_succ, h.operand_succ, fun close => ?_,
      fun close done => ?_, h.pairs_succ, ?_, h.statements_succ, h.statement_succ⟩
    · rw [expression]
      exact h.operand.bind fun left => h.continuation level left
    · rw [continuation, continuation]
      refine relocates_peek.bind fun _ => .ite (relocates_advance.bind fun _ => ?_) (relocates_pure rfl)
      exact (h.extension left).bind fun _ => h.continuation level _
    · rw [expressionList]
      refine relocates_advance.bind fun _ => relocates_current.bind fun _ =>
        .ite (relocates_pure rfl) ((h.expression _).bind fun e => ?_)
      have hrest := h.expressions close #[e]
      rw [List.map_toArray] at hrest
      exact hrest
    · rw [expressions, expressions]
      refine relocates_peek.bind fun _ => .ite ?_ ?_
      · refine relocates_advance.bind fun _ => relocates_advance.bind fun _ => ?_
        refine (h.expression _).bind fun e => ?_
        have hrest := h.expressions close (done.push e)
        rw [Array.map_push] at hrest
        exact hrest
      · refine (relocates_expect _).bind fun _ => relocates_pure ?_
        rw [Array.toList_map, Expr.relocateAll_eq_map]
    · rw [block]
      refine relocates_current.bind fun t => relocates_advance.bind fun _ => ?_
      have hstatements := h.statements true #[]
      rw [Array.map_empty] at hstatements
      refine hstatements.bind fun ss => relocates_current.bind fun last => ?_
      exact .ite (relocates_fail (.unexpectedToken .rbrace .eof last.span)) (relocates_pure rfl)

end Reading

/-! ### Texts -/

namespace Program

theorem ofTokens_eq (tokens : List Token) (eof : Token) :
    ofTokens tokens eof =
      let run := (Reading.statements false #[] (8 * tokens.length + 8)).run.run ⟨tokens, eof, #[]⟩
      (⟨run.1.getD []⟩, run.2.diagnostics.toList) := rfl

/-- **Tokens at other places are read alike**: as the same program with the same faults, all at other
places. -/
theorem ofTokens_relocate (f : Span → Span) (tokens : List Token) (eof : Token) :
    ofTokens (tokens.map (Token.relocate f)) (eof.relocate f) =
      ((ofTokens tokens eof).1.relocate f, (ofTokens tokens eof).2.map (Diagnostic.relocate f)) := by
  have hstart : Reader.relocate f ⟨tokens, eof, #[]⟩ =
      ⟨tokens.map (Token.relocate f), eof.relocate f, #[]⟩ := by
    rw [Reader.relocate, Array.map_empty]
  have hread := (Reading.relocatesAt f (8 * tokens.length + 8)).statements false #[]
    ⟨tokens, eof, #[]⟩
  rw [Array.map_empty, hstart] at hread
  rw [ofTokens_eq, ofTokens_eq, List.length_map, hread]
  generalize (Reading.statements false #[] _).run.run ⟨tokens, eof, #[]⟩ = run
  obtain ⟨statements?, r⟩ := run
  refine Prod.ext ?_ Array.toList_map
  cases statements? with
  | none => rfl
  | some ss => rfl

end Program

/-! ### Nothing but words -/

/-- The token without its place. -/
def Token.unplaced (t : Token) : Token := t.relocate fun _ => default

/-- The program without the places of its tokens. -/
def Program.unplaced (p : Program) : Program := p.relocate fun _ => default

/-- The diagnostic without its place. -/
def Diagnostic.unplaced (d : Diagnostic) : Diagnostic := d.relocate fun _ => default

/-- The error without its place. -/
def Error.unplaced (e : Error) : Error := e.relocate fun _ => default

/-- The token that ends a text is empty. -/
theorem Cursor.literal_next_eof {s : Cursor} (h : s.next.1.kind = .eof) : s.next.1.literal = "" := by
  unfold next at h ⊢
  dsimp only at h ⊢
  split at h
  · rfl
  · exact absurd h (extent_kind_ne_eof _ _)

namespace Token

theorem unplaced_eq (t : Token) : t.unplaced = ⟨t.word.kind, t.word.literal, default⟩ := rfl

/-- Without their places, the tokens of a text are its words. -/
theorem map_unplaced_eq {ts ts' : List Token} (h : ts.map word = ts'.map word) :
    ts.map unplaced = ts'.map unplaced := by
  have hwords : ∀ ts : List Token,
      ts.map unplaced = (ts.map word).map fun w => ⟨w.kind, w.literal, default⟩ := by
    intro ts
    rw [List.map_map]
    rfl
  rw [hwords, hwords, h]

/-- Without its place, the token behind all others is the same for all texts. -/
theorem unplaced_scan_snd (source : String) : (scan source).2.unplaced = ⟨.eof, "", default⟩ := by
  have hkind : (scan source).2.kind = .eof := kind_scan_snd source
  have hliteral : (scan source).2.literal = "" := Cursor.literal_next_eof hkind
  rw [unplaced_eq, word, hkind, hliteral]

end Token

/-- Texts of the same words are read alike. -/
theorem Program.read_unplaced {s s' : String}
    (h : (Token.scan s).1.map Token.word = (Token.scan s').1.map Token.word) :
    (read s).1.unplaced = (read s').1.unplaced ∧
      (read s).2.map Diagnostic.unplaced = (read s').2.map Diagnostic.unplaced := by
  have hread : ∀ s, ((read s).1.unplaced, (read s).2.map Diagnostic.unplaced) =
      ofTokens ((Token.scan s).1.map Token.unplaced) (Token.scan s).2.unplaced :=
    fun s => (ofTokens_relocate _ _ _).symm
  apply Prod.mk.inj
  rw [hread, hread, Token.map_unplaced_eq h, Token.unplaced_scan_snd, Token.unplaced_scan_snd]

/-- The code of a text can be told from its program without places. -/
theorem compile_unplaced (source : String) :
    (compile source).mapError Error.unplaced =
      match (Program.read source).2.map Diagnostic.unplaced with
      | [] => (Program.read source).1.unplaced.compile.mapError Error.compile
      | d :: ds => .error (.parse (d :: ds)) := by
  unfold compile Program.parse
  cases Program.read source with
  | mk p ds =>
    cases ds with
    | nil =>
      dsimp only [List.map_nil]
      rw [Program.unplaced, Program.compile_relocate]
      cases p.compile with
      | error e => rfl
      | ok chunk => rfl
    | cons d ds => rfl

/-- The value of a text can be told from its code. What a run comes to has no place. -/
theorem evaluate_unplaced (limits : Limits) (steps : Nat) (source : String) :
    (evaluate limits steps source).mapError Error.unplaced =
      match limits.check with
      | .error e => .error (.limits e)
      | .ok () => ((compile source).mapError Error.unplaced).bind fun chunk =>
        let run := (Machine.start chunk #[] limits).run steps
        run.1.result run.2 := by
  have hresult : ∀ (outcome : Outcome) (m : Machine),
      (outcome.result m).mapError Error.unplaced = outcome.result m := by
    intro outcome m
    cases outcome with
    | finished => rfl
    | failed e => rfl
    | unfinished => rfl
  unfold evaluate
  cases limits.check with
  | error e => rfl
  | ok u =>
    cases compile source with
    | error e => rfl
    | ok chunk => exact hresult _ _

/-- **A text means what its words mean.** Two texts of the same words, however they are laid out, are the
same program, with the same faults, the same code and the same value, or the same error. Only the places
that programs, faults and compile errors name may be different. -/
theorem meaning_of_words {s s' : String}
    (h : (Token.scan s).1.map Token.word = (Token.scan s').1.map Token.word) :
    (Program.read s).1.unplaced = (Program.read s').1.unplaced ∧
      (Program.read s).2.map Diagnostic.unplaced = (Program.read s').2.map Diagnostic.unplaced ∧
      (compile s).mapError Error.unplaced = (compile s').mapError Error.unplaced ∧
      ∀ (limits : Limits) (steps : Nat),
        (evaluate limits steps s).mapError Error.unplaced =
          (evaluate limits steps s').mapError Error.unplaced := by
  obtain ⟨hprogram, hfaults⟩ := Program.read_unplaced h
  have hcompile : (compile s).mapError Error.unplaced = (compile s').mapError Error.unplaced := by
    rw [compile_unplaced, compile_unplaced, hprogram, hfaults]
  refine ⟨hprogram, hfaults, hcompile, ?_⟩
  intro limits steps
  rw [evaluate_unplaced, evaluate_unplaced, hcompile]

/-- A comment and a line break move the fault of a text, and change nothing else. -/
theorem meaning_of_words_fault :
    compile "1 + )" = .error (.parse [.noExpression .rparen ⟨4, 5, 1, 5⟩]) ∧
      (compile "1 + // one\n  )").mapError Error.unplaced =
        .error (.parse [.noExpression .rparen default]) := by
  have hwords : (Token.scan "1 + )").1.map Token.word =
      (Token.scan "1 + // one\n  )").1.map Token.word := by decide +kernel
  have hfaults : (Program.read "1 + )").2 = [.noExpression .rparen ⟨4, 5, 1, 5⟩] := by
    decide +kernel
  have hcompile : compile "1 + )" = .error (.parse [.noExpression .rparen ⟨4, 5, 1, 5⟩]) := by
    unfold compile Program.parse
    generalize Program.read "1 + )" = read at hfaults
    obtain ⟨p, ds⟩ := read
    obtain rfl : ds = _ := hfaults
    rfl
  obtain ⟨-, -, hsame, -⟩ := meaning_of_words hwords
  rw [hcompile] at hsame
  exact ⟨hcompile, hsame.symm⟩

end Monkey
