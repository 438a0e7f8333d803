import Monkey.Proofs.Reading

/-!
# The parser as scripts

What a step of the parser does can be seen from outside by its result only. Here it is written down as
data: the body of a step is a `Script`, a tree of looks at the next two tokens, moves, and calls of
other steps. A script is played on a `Walk`, a reader that also counts the tokens asked for and knows
whether the end of the text was looked at.

Playing a body, with the steps in it nested as deep as the parser has them nest, is what the parser
does (`Parse.Step.run_eq_play`). So whatever is proved of all scripts by induction, or of the few
bodies one by one, is proved of the parser.
-/

namespace Monkey

namespace Parse

/-! ### Steps -/

/-- A step of the parser with what it is given, by the sort of thing that it reads. -/
inductive Step : Type → Type
  | expression (level : Nat) : Step Expr
  | continuation (level : Nat) (left : Expr) : Step Expr
  | extension (left : Expr) : Step Expr
  | operand : Step Expr
  | expressionList (close : Kind) : Step (List Expr)
  | expressions (close : Kind) (done : Array Expr) : Step (List Expr)
  | pairs (done : Array (Expr × Expr)) : Step (List (Expr × Expr))
  | block : Step Block
  | statements (inBlock : Bool) (done : Array Stmt) : Step (List Stmt)
  | statement : Step Stmt
  | parameters (done : Array Ident) : Step (List Ident)

/-- The step as the parser does it, with a bound on how deep steps nest. -/
def Step.run {α : Type} : Step α → Nat → Reading α
  | expression level => Reading.expression level
  | continuation level left => Reading.continuation level left
  | extension left => Reading.extension left
  | operand => Reading.operand
  | expressionList close => Reading.expressionList close
  | expressions close done => Reading.expressions close done
  | pairs done => Reading.pairs done
  | block => Reading.block
  | statements inBlock done => Reading.statements inBlock done
  | statement => Reading.statement
  | parameters done => Reading.parameters done

/-! ### Scripts -/

/-- What a step does, one act after the other. A step that is entered may fail, and what comes then is
up to the script. A diagnostic is the last thing that a script does. -/
inductive Script (α : Type) : Type 1
  | give (a : α)
  | abort
  | fail (d : Diagnostic)
  | withCurrent (next : Token → Script α)
  | withPeek (next : Token → Script α)
  | thenAdvance (next : Script α)
  | thenRecover (next : Script α)
  | enter {β : Type} (s : Step β) (next : Option β → Script α)

namespace Script

variable {α β : Type}

/-- One script after the other. The second one is left out when the first one fails. -/
def bind : Script α → (α → Script β) → Script β
  | give a, f => f a
  | abort, _ => abort
  | fail d, _ => fail d
  | withCurrent next, f => withCurrent fun t => (next t).bind f
  | withPeek next, f => withPeek fun t => (next t).bind f
  | thenAdvance next, f => thenAdvance (next.bind f)
  | thenRecover next, f => thenRecover (next.bind f)
  | enter s next, f => enter s fun a => (next a).bind f

instance : Monad Script where
  pure := give
  bind := bind

/-- The current token. -/
def current : Script Token := withCurrent give

/-- The token behind the current one. -/
def peek : Script Token := withPeek give

/-- Makes the next token the current one. -/
def advance : Script Unit := thenAdvance (give ())

/-- Skips the rest of a statement that could not be read. -/
def recover : Script Unit := thenRecover (give ())

/-- Enters a step, and fails where it fails. -/
def call (s : Step α) : Script α :=
  enter s fun
    | some a => give a
    | none => abort

/-- Enters a step, and gives `none` where it fails. -/
def attempt (s : Step α) : Script (Option α) := enter s give

/-- Moves to the next token if it is of the kind `kind`, and gives up otherwise. -/
def expect (kind : Kind) : Script Unit := do
  let next ← peek
  if next.kind = kind then advance
  else fail (.unexpectedToken kind next.kind next.span)

/-- Moves to the next token if it is of the kind `kind`, and stays otherwise. -/
def skip (kind : Kind) : Script Unit := do
  if (← peek).kind = kind then advance

/-- The parameters of a function, read from the opening parenthesis to the closing one. -/
def parameterList : Script (List Ident) := do
  if (← peek).kind = .rparen then
    advance
    return []
  expect .ident
  call (.parameters #[⟨← current⟩])

end Script

open Script in
/-- What the step does between entering and leaving it. -/
def Step.body {α : Type} : Step α → Script α
  | expression level => do
    let left ← call .operand
    call (.continuation level left)
  | continuation level left => do
    if level < (← peek).kind.level then
      advance
      let whole ← call (.extension left)
      call (.continuation level whole)
    else
      return left
  | extension left => do
    let t ← current
    match BinaryOp.ofKind? t.kind with
    | some op =>
      advance
      let right ← call (.expression t.kind.level)
      return .binary t op left right
    | none =>
      if t.kind = .lparen then
        return .call t left (← call (.expressionList .rparen))
      else
        advance
        let key ← call (.expression Level.lowest)
        expect .rbracket
        return .index t left key
  | operand => do
    let t ← current
    match t.kind with
    | .ident => return .name ⟨t⟩
    | .int =>
      match integer? t.literal with
      | some n => return .integer t n
      | none => fail (.invalidInteger t.literal t.span)
    | .string => return .string t t.literal
    | .true => return .boolean t true
    | .false => return .boolean t false
    | .bang =>
      advance
      return .unary t .bang (← call (.expression Level.unary))
    | .minus =>
      advance
      return .unary t .minus (← call (.expression Level.unary))
    | .lparen =>
      advance
      let e ← call (.expression Level.lowest)
      expect .rparen
      return e
    | .if =>
      expect .lparen
      advance
      let condition ← call (.expression Level.lowest)
      expect .rparen
      expect .lbrace
      let consequence ← call .block
      if (← peek).kind = .else then
        advance
        expect .lbrace
        return .cond t condition consequence (some (← call .block))
      else
        return .cond t condition consequence none
    | .function =>
      expect .lparen
      let ps ← parameterList
      expect .lbrace
      return .function t ps (← call .block)
    | .lbracket => return .array t (← call (.expressionList .rbracket))
    | .lbrace => return .hash t (← call (.pairs #[]))
    | kind => fail (.noExpression kind t.span)
  | expressionList close => do
    advance
    if (← current).kind = close then
      return []
    else
      let e ← call (.expression Level.lowest)
      call (.expressions close #[e])
  | expressions close done => do
    if (← peek).kind = .comma then
      advance
      advance
      let e ← call (.expression Level.lowest)
      call (.expressions close (done.push e))
    else
      expect close
      return done.toList
  | pairs done => do
    if (← peek).kind = .rbrace then
      advance
      return done.toList
    else
      advance
      let key ← call (.expression Level.lowest)
      expect .colon
      advance
      let value ← call (.expression Level.lowest)
      unless (← peek).kind = .rbrace do
        expect .comma
      call (.pairs (done.push (key, value)))
  | block => do
    let t ← current
    advance
    let ss ← call (.statements true #[])
    let last ← current
    if last.kind = .eof then
      fail (.unexpectedToken .rbrace .eof last.span)
    else
      return .mk t ss
  | statements inBlock done => do
    let t ← current
    if t.kind = .eof ∨ inBlock ∧ t.kind = .rbrace then
      return done.toList
    else
      match ← attempt .statement with
      | some s =>
        advance
        call (.statements inBlock (done.push s))
      | none =>
        recover
        call (.statements inBlock done)
  | statement => do
    let t ← current
    match t.kind with
    | .let =>
      expect .ident
      let id : Ident := ⟨← current⟩
      expect .assign
      advance
      let value ← call (.expression Level.lowest)
      skip .semicolon
      return .bind t id value
    | .return =>
      advance
      let value ← call (.expression Level.lowest)
      skip .semicolon
      return .ret t value
    | _ =>
      let value ← call (.expression Level.lowest)
      skip .semicolon
      return .expr t value
  | parameters done => do
    if (← peek).kind = .comma then
      advance
      expect .ident
      call (.parameters (done.push ⟨← current⟩))
    else
      expect .rparen
      return done.toList

/-! ### Playing a script -/

/-- A reader with what was asked of it: how many tokens after the first two, and whether the end of
the text was among those looked at. -/
structure Walk extends Reader where
  asked : Nat
  sawEnd : Bool

namespace Walk

variable (w : Walk)

/-- Looks at the token `n` places behind the current one. -/
def look (n : Nat) : Walk := { w with sawEnd := w.sawEnd || w.rest.length ≤ n }

/-- Adds a diagnostic. -/
def report (d : Diagnostic) : Walk := { w with toReader := w.toReader.report d }

/-- Makes the next token the current one. -/
def advance : Walk where
  toReader := w.toReader.advance
  asked := w.asked + 1
  sawEnd := w.sawEnd || w.rest.isEmpty

/-- Skips the rest of a statement and the token that it stops on. It stops short of the end of the text
only on a semicolon or because of the token behind. -/
def recover : Walk where
  toReader := w.toReader.synchronize.advance
  asked := w.asked + (w.rest.length - w.toReader.synchronize.rest.length) + 1
  sawEnd := w.sawEnd || (w.toReader.synchronize.rest.tail.isEmpty &&
    !w.toReader.synchronize.rest.any (·.kind = .semicolon))

@[simp] theorem toReader_look (n : Nat) : (w.look n).toReader = w.toReader := rfl

@[simp] theorem toReader_advance : w.advance.toReader = w.toReader.advance := rfl

@[simp] theorem toReader_recover : w.recover.toReader = w.toReader.synchronize.advance := rfl

@[simp] theorem asked_advance : w.advance.asked = w.asked + 1 := rfl

end Walk

/-- What a step that is entered does to a walk. -/
abbrev Playing := ⦃α : Type⦄ → Step α → Walk → Option α × Walk

namespace Script

variable {α β : Type}

/-- What the script does to a walk, with `enters` for the steps that it enters. -/
def play (enters : Playing) : Script α → Walk → Option α × Walk
  | give a, w => (some a, w)
  | abort, w => (none, w)
  | fail d, w => (none, w.report d)
  | withCurrent next, w => (next w.current).play enters (w.look 0)
  | withPeek next, w => (next w.peek).play enters (w.look 1)
  | thenAdvance next, w => next.play enters w.advance
  | thenRecover next, w => next.play enters w.recover
  | enter s next, w => (next (enters s w).1).play enters (enters s w).2

theorem play_bind (enters : Playing) (x : Script α) (f : α → Script β) (w : Walk) :
    (x >>= f).play enters w = match x.play enters w with
      | (some a, w') => (f a).play enters w'
      | (none, w') => (none, w') := by
  induction x generalizing w with
  | give | abort | fail => rfl
  | withCurrent _ ih => exact ih w.current (w.look 0)
  | withPeek _ ih => exact ih w.peek (w.look 1)
  | thenAdvance _ ih => exact ih w.advance
  | thenRecover _ ih => exact ih w.recover
  | enter s _ ih => exact ih (enters s w).1 (enters s w).2

theorem play_call (enters : Playing) (s : Step α) (w : Walk) :
    (call s).play enters w = enters s w := by
  rw [call, play]
  cases enters s w with
  | mk a w' => cases a <;> rfl

theorem play_attempt_bind (enters : Playing) (s : Step α) (f : Option α → Script β) (w : Walk) :
    (attempt s >>= f).play enters w = (f (enters s w).1).play enters (enters s w).2 := rfl

end Script

/-- What the step does to a walk when steps nest no deeper than `depth`. -/
def Step.play : Nat → Playing
  | 0 => fun _ _ w => (none, w)
  | depth + 1 => fun _ s w => s.body.play (Step.play depth) w

/-! ### The parser plays the bodies of its steps -/

/-- The script does to the reader of a walk what the step of the parser does. -/
def Renders {α : Type} (enters : Playing) (x : Script α) (y : Reading α) : Prop :=
  ∀ w, y.run.run w.toReader = ((x.play enters w).1, (x.play enters w).2.toReader)

section

variable {α β : Type} {enters : Playing}

theorem Renders.bind {x : Script α} {y : Reading α} {f : α → Script β} {g : α → Reading β}
    (h : Renders enters x y) (hf : ∀ a, Renders enters (f a) (g a)) :
    Renders enters (x >>= f) (y >>= g) := by
  intro w
  rw [Reading.run_bind, Script.play_bind, h w]
  cases x.play enters w with
  | mk a w' =>
    cases a with
    | none => rfl
    | some a => exact hf a w'

theorem Renders.ite {c : Prop} [Decidable c] {x x' : Script α} {y y' : Reading α}
    (h : Renders enters x y) (h' : Renders enters x' y') :
    Renders enters (if c then x else x') (if c then y else y') := by
  split
  · exact h
  · exact h'

theorem renders_pure (a : α) : Renders enters (pure a) (pure a) := fun _ => rfl

theorem renders_fail (d : Diagnostic) : Renders (α := α) enters (.fail d) (Reading.fail d) :=
  fun _ => rfl

theorem renders_current : Renders enters .current Reading.current := fun _ => rfl

theorem renders_peek : Renders enters .peek Reading.peek := fun _ => rfl

theorem renders_advance : Renders enters .advance Reading.advance := fun _ => rfl

theorem renders_recover :
    Renders enters .recover (modify (·.synchronize.advance) : Reading PUnit) := fun _ => rfl

theorem renders_expect (kind : Kind) : Renders enters (.expect kind) (Reading.expect kind) :=
  renders_peek.bind fun _ => .ite renders_advance (renders_fail _)

theorem renders_skip (kind : Kind) : Renders enters (.skip kind) (Reading.skip kind) :=
  renders_peek.bind fun _ => .ite renders_advance (renders_pure _)

end

section

variable {depth : Nat} (h : ∀ ⦃α : Type⦄ (s : Step α) (w : Walk),
  (s.run depth).run.run w.toReader = ((Step.play depth s w).1, (Step.play depth s w).2.toReader))

include h

theorem renders_call {α : Type} (s : Step α) : Renders (Step.play depth) (.call s) (s.run depth) := by
  intro w
  rw [h s w, Script.play_call]

theorem renders_attempt {α : Type} (s : Step α) :
    Renders (Step.play depth) (.attempt s) (Reading.attempt (s.run depth)) := by
  intro w
  show (some ((s.run depth).run.run w.toReader).1, ((s.run depth).run.run w.toReader).2) = _
  rw [h s w]
  rfl

theorem renders_extension (left : Expr) :
    Renders (Step.play depth) (Step.extension left).body (Reading.extension left (depth + 1)) := by
  rw [Reading.extension]
  refine renders_current.bind fun t => ?_
  cases BinaryOp.ofKind? t.kind with
  | some op =>
    refine renders_advance.bind fun _ => ?_
    exact (renders_call h (.expression _)).bind fun _ => renders_pure _
  | none =>
    refine .ite ((renders_call h (.expressionList _)).bind fun _ => renders_pure _) ?_
    refine renders_advance.bind fun _ => (renders_call h (.expression _)).bind fun _ => ?_
    exact (renders_expect _).bind fun _ => renders_pure _

theorem renders_parameterList :
    Renders (Step.play depth) .parameterList (Reading.parameterList depth) := by
  refine renders_peek.bind fun _ => .ite (renders_advance.bind fun _ => renders_pure _) ?_
  refine (renders_expect _).bind fun _ => renders_current.bind fun _ => ?_
  exact renders_call h (.parameters _)

theorem renders_operand :
    Renders (Step.play depth) Step.operand.body (Reading.operand (depth + 1)) := by
  rw [Reading.operand]
  refine renders_current.bind fun t => ?_
  cases t.kind with
  | ident | string | true | false => exact renders_pure _
  | int =>
    cases integer? t.literal with
    | some n => exact renders_pure _
    | none => exact renders_fail _
  | bang | minus =>
    refine renders_advance.bind fun _ => ?_
    exact (renders_call h (.expression _)).bind fun _ => renders_pure _
  | lparen =>
    refine renders_advance.bind fun _ => (renders_call h (.expression _)).bind fun _ => ?_
    exact (renders_expect _).bind fun _ => renders_pure _
  | «if» =>
    refine (renders_expect _).bind fun _ => renders_advance.bind fun _ => ?_
    refine (renders_call h (.expression _)).bind fun _ => (renders_expect _).bind fun _ => ?_
    refine (renders_expect _).bind fun _ => (renders_call h .block).bind fun _ => ?_
    refine renders_peek.bind fun _ => .ite (renders_advance.bind fun _ => ?_) (renders_pure _)
    exact (renders_expect _).bind fun _ => (renders_call h .block).bind fun _ => renders_pure _
  | function =>
    refine (renders_expect _).bind fun _ => (renders_parameterList h).bind fun _ => ?_
    exact (renders_expect _).bind fun _ => (renders_call h .block).bind fun _ => renders_pure _
  | lbracket => exact (renders_call h (.expressionList _)).bind fun _ => renders_pure _
  | lbrace => exact (renders_call h (.pairs _)).bind fun _ => renders_pure _
  | _ => exact renders_fail _

theorem renders_pairs (done : Array (Expr × Expr)) :
    Renders (Step.play depth) (Step.pairs done).body (Reading.pairs done (depth + 1)) := by
  rw [Reading.pairs]
  refine renders_peek.bind fun _ => .ite (renders_advance.bind fun _ => renders_pure _) ?_
  refine renders_advance.bind fun _ => (renders_call h (.expression _)).bind fun _ => ?_
  refine (renders_expect _).bind fun _ => renders_advance.bind fun _ => ?_
  refine (renders_call h (.expression _)).bind fun _ => renders_peek.bind fun _ => ?_
  refine .ite (renders_call h (.pairs _)) ((renders_expect _).bind fun _ => ?_)
  exact renders_call h (.pairs _)

theorem renders_statements (inBlock : Bool) (done : Array Stmt) :
    Renders (Step.play depth) (Step.statements inBlock done).body
      (Reading.statements inBlock done (depth + 1)) := by
  rw [Reading.statements]
  refine renders_current.bind fun t => .ite (renders_pure _) ?_
  refine (renders_attempt h .statement).bind fun a => ?_
  cases a with
  | none => exact renders_recover.bind fun _ => renders_call h (.statements _ _)
  | some s => exact renders_advance.bind fun _ => renders_call h (.statements _ _)

theorem renders_statement :
    Renders (Step.play depth) Step.statement.body (Reading.statement (depth + 1)) := by
  rw [Reading.statement]
  refine renders_current.bind fun t => ?_
  cases t.kind with
  | «let» =>
    refine (renders_expect _).bind fun _ => renders_current.bind fun _ => ?_
    refine (renders_expect _).bind fun _ => renders_advance.bind fun _ => ?_
    refine (renders_call h (.expression _)).bind fun _ => ?_
    exact (renders_skip _).bind fun _ => renders_pure _
  | «return» =>
    refine renders_advance.bind fun _ => (renders_call h (.expression _)).bind fun _ => ?_
    exact (renders_skip _).bind fun _ => renders_pure _
  | _ =>
    refine (renders_call h (.expression _)).bind fun _ => ?_
    exact (renders_skip _).bind fun _ => renders_pure _

/-- Every step does what its body says, when the steps in it do. -/
theorem renders_body ⦃α : Type⦄ (s : Step α) :
    Renders (Step.play depth) s.body (s.run (depth + 1)) := by
  cases s with
  | expression level =>
    show Renders _ _ (Reading.expression level (depth + 1))
    rw [Reading.expression]
    exact (renders_call h .operand).bind fun left => renders_call h (.continuation level left)
  | continuation level left =>
    show Renders _ _ (Reading.continuation level left (depth + 1))
    rw [Reading.continuation]
    refine renders_peek.bind fun _ => .ite (renders_advance.bind fun _ => ?_) (renders_pure _)
    exact (renders_call h (.extension left)).bind fun _ => renders_call h (.continuation _ _)
  | extension left => exact renders_extension h left
  | operand => exact renders_operand h
  | expressionList close =>
    show Renders _ _ (Reading.expressionList close (depth + 1))
    rw [Reading.expressionList]
    refine renders_advance.bind fun _ => renders_current.bind fun _ => .ite (renders_pure _) ?_
    exact (renders_call h (.expression _)).bind fun _ => renders_call h (.expressions _ _)
  | expressions close done =>
    show Renders _ _ (Reading.expressions close done (depth + 1))
    rw [Reading.expressions]
    refine renders_peek.bind fun _ => .ite ?_ ((renders_expect _).bind fun _ => renders_pure _)
    refine renders_advance.bind fun _ => renders_advance.bind fun _ => ?_
    exact (renders_call h (.expression _)).bind fun _ => renders_call h (.expressions _ _)
  | pairs done => exact renders_pairs h done
  | block =>
    show Renders _ _ (Reading.block (depth + 1))
    rw [Reading.block]
    refine renders_current.bind fun _ => renders_advance.bind fun _ => ?_
    refine (renders_call h (.statements _ _)).bind fun _ => renders_current.bind fun _ => ?_
    exact .ite (renders_fail _) (renders_pure _)
  | statements inBlock done => exact renders_statements h inBlock done
  | statement => exact renders_statement h
  | parameters done =>
    show Renders _ _ (Reading.parameters done (depth + 1))
    rw [Reading.parameters]
    refine renders_peek.bind fun _ => .ite ?_ ((renders_expect _).bind fun _ => renders_pure _)
    refine renders_advance.bind fun _ => (renders_expect _).bind fun _ => ?_
    exact renders_current.bind fun _ => renders_call h (.parameters _)

end

/-- **The parser plays the bodies of its steps**: with the same bound on how deep they nest, it gives
the same result and leaves the same reader. -/
theorem Step.run_eq_play {α : Type} (depth : Nat) (s : Step α) (w : Walk) :
    (s.run depth).run.run w.toReader =
      ((Step.play depth s w).1, (Step.play depth s w).2.toReader) := by
  induction depth generalizing α s w with
  | zero => cases s <;> rfl
  | succ depth ih => exact renders_body (fun _ => ih) s w

end Parse

end Monkey
