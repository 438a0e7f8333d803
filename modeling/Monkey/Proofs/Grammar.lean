import Monkey.Program.Parser

/-!
# The grammar

Which words spell which trees. `Expr.Spelled`, `Block.Spelled` and `Stmt.Spelled` read a tree off in
the order of the source. They leave a writer some choices:

* any number of matched parentheses around an expression (`Enclosed`), but at least one pair where
  the expression is an operand that binds too loosely for its place;
* a comma behind the last entry of a hash literal.

There are two grammars. The strict one is for writing trees, whatever tokens they keep: an integer may
have any literal with its value, and every statement has a semicolon behind it. The `lax` one is for
trees that were read: an integer has the literal of its token, and semicolons may be missing.

How loosely an expression binds is its `Expr.level`: that of its outermost operator. The left operand
of a binary operator may bind as tightly as the operator, the right one has to bind tighter, the
operand of a unary operator must not be a binary one, and what is called or indexed must not be an
operator expression at all.
-/

namespace Monkey

/-! ### Words -/

/-- A token without its place. -/
structure Word where
  kind : Kind
  literal : String
deriving Repr, DecidableEq, Inhabited

/-- The word that a token is. -/
def Token.word (t : Token) : Word := ⟨t.kind, t.literal⟩

/-- The text of an operator, a delimiter or a reserved word. All other kinds have no text of their
own. -/
def Kind.spelling : Kind → String
  | function => "fn"
  | .let => "let"
  | true => "true"
  | false => "false"
  | .if => "if"
  | .else => "else"
  | .return => "return"
  | illegal | eof | ident | int | string => ""
  | k => k.name

/-- The kinds of tokens that always have the same text. -/
def Kind.isFixed : Kind → Bool
  | illegal | eof | ident | int | string => Bool.false
  | _ => Bool.true

/-- The word of an operator, a delimiter or a reserved word. -/
def Kind.word (k : Kind) : Word := ⟨k, k.spelling⟩

/-- The word of a name. -/
def Ident.word (id : Ident) : Word := ⟨.ident, id.name⟩

/-- Names start with a letter or an underscore, go on with these and digits, and are not reserved. -/
def IsName (x : String) : Prop :=
  (∃ c cs, x.toList = c :: cs ∧ isNameStart c ∧ ∀ d ∈ cs, isNameRest d) ∧ Kind.keyword? x = none

/-! ### Parts of the grammar -/

/-- The level of the outermost operator, and that of calls when there is none. -/
def Expr.level : Expr → Nat
  | unary _ _ _ => Level.unary
  | binary _ op _ _ => op.level
  | _ => Level.call

theorem BinaryOp.level_lt_unary (op : BinaryOp) : op.level < Level.unary := by
  cases op <;> decide

theorem BinaryOp.lowest_lt_level (op : BinaryOp) : Level.lowest < op.level := by
  cases op <;> decide

/-- Words that are `spelled`, in any number of matched parentheses. Only what is `free` to stand
without parentheses may have none. -/
def Enclosed (free : Prop) (spelled : List Word → Prop) (ws : List Word) : Prop :=
  ∃ n us, spelled us ∧ (n = 0 → free) ∧
    ws = List.replicate n Kind.lparen.word ++ (us ++ List.replicate n Kind.rparen.word)

namespace Enclosed

variable {free free' : Prop} {P : List Word → Prop} {ws : List Word}

theorem mono (h : Enclosed free P ws) (himp : free → free') : Enclosed free' P ws := by
  obtain ⟨n, us, hus, hfree, rfl⟩ := h
  exact ⟨n, us, hus, fun hn => himp (hfree hn), rfl⟩

theorem bare (hfree : free) (h : P ws) : Enclosed free P ws :=
  ⟨0, ws, h, fun _ => hfree, by simp⟩

/-- One more pair of parentheses. -/
theorem parens (h : Enclosed free P ws) :
    Enclosed free' P (Kind.lparen.word :: (ws ++ [Kind.rparen.word])) := by
  obtain ⟨n, us, hus, -, rfl⟩ := h
  refine ⟨n + 1, us, hus, fun hn => absurd hn (Nat.succ_ne_zero n), ?_⟩
  rw [List.replicate_succ, List.replicate_succ']
  simp

end Enclosed

/-- What stands behind a statement: a semicolon, or nothing at all where that is allowed. -/
def Ended (lax : Bool) (ws : List Word) : Prop := ws = [Kind.semicolon.word] ∨ lax ∧ ws = []

/-- The words of a parameter list: names with commas between them. -/
def parameterWords : List Ident → List Word
  | [] => []
  | id :: ids => id.word :: ids.flatMap fun id => [Kind.comma.word, id.word]

/-! ### Trees -/

section

variable (lax : Bool)

mutual

/-- The words spell the expression, without parentheses around it. -/
def Expr.Spelled : Expr → List Word → Prop
  | .name id, ws => IsName id.name ∧ ws = [id.word]
  | .integer t n, ws => ∃ literal, integer? literal = some n ∧ (lax → literal = t.literal) ∧
      ws = [⟨.int, literal⟩]
  | .boolean _ b, ws => ws = [(if b then Kind.true else Kind.false).word]
  | .string _ s, ws => '"' ∉ s.toList ∧ ws = [⟨.string, s⟩]
  | .unary _ op e, ws => ∃ us, Enclosed (Level.unary ≤ e.level) e.Spelled us ∧ ws = op.kind.word :: us
  | .binary _ op l r, ws => ∃ us vs, Enclosed (op.level ≤ l.level) l.Spelled us ∧
      Enclosed (op.level < r.level) r.Spelled vs ∧ ws = us ++ op.kind.word :: vs
  | .cond _ c yes none, ws => ∃ us vs, Enclosed True c.Spelled us ∧ yes.Spelled vs ∧
      ws = Kind.if.word :: Kind.lparen.word :: (us ++ Kind.rparen.word :: vs)
  | .cond _ c yes (some no), ws => ∃ us vs vs', Enclosed True c.Spelled us ∧ yes.Spelled vs ∧
      no.Spelled vs' ∧ ws = Kind.if.word :: Kind.lparen.word ::
        (us ++ Kind.rparen.word :: (vs ++ Kind.else.word :: vs'))
  | .function _ ps body, ws => ∃ us, (∀ id ∈ ps, IsName id.name) ∧ body.Spelled us ∧
      ws = Kind.function.word :: Kind.lparen.word :: (parameterWords ps ++ Kind.rparen.word :: us)
  | .call _ f es, ws => ∃ us vs, Enclosed (Level.call ≤ f.level) f.Spelled us ∧
      Expr.SpelledAll es vs ∧ ws = us ++ Kind.lparen.word :: (vs ++ [Kind.rparen.word])
  | .array _ es, ws => ∃ us, Expr.SpelledAll es us ∧
      ws = Kind.lbracket.word :: (us ++ [Kind.rbracket.word])
  | .hash _ ps, ws => ∃ us, Expr.SpelledPairs ps us ∧
      ws = Kind.lbrace.word :: (us ++ [Kind.rbrace.word])
  | .index _ e i, ws => ∃ us vs, Enclosed (Level.call ≤ e.level) e.Spelled us ∧
      Enclosed True i.Spelled vs ∧ ws = us ++ Kind.lbracket.word :: (vs ++ [Kind.rbracket.word])
termination_by structural e => e

/-- The words spell the expressions, with commas between them. -/
def Expr.SpelledAll : List Expr → List Word → Prop
  | [], ws => ws = []
  | e :: es, ws => ∃ us vs, Enclosed True e.Spelled us ∧ Expr.SpelledRest es vs ∧ ws = us ++ vs
termination_by structural es => es

/-- The words spell the expressions, with a comma before each of them. -/
def Expr.SpelledRest : List Expr → List Word → Prop
  | [], ws => ws = []
  | e :: es, ws => ∃ us vs, Enclosed True e.Spelled us ∧ Expr.SpelledRest es vs ∧
      ws = Kind.comma.word :: (us ++ vs)
termination_by structural es => es

/-- The words spell the entries of a hash literal. The last of them may have a comma behind it, all
others have one. -/
def Expr.SpelledPairs : List (Expr × Expr) → List Word → Prop
  | [], ws => ws = []
  | (k, v) :: ps, ws => ∃ us vs separator rest, Enclosed True k.Spelled us ∧
      Enclosed True v.Spelled vs ∧ (separator = [Kind.comma.word] ∨ ps = [] ∧ separator = []) ∧
      Expr.SpelledPairs ps rest ∧ ws = us ++ Kind.colon.word :: (vs ++ (separator ++ rest))
termination_by structural ps => ps

/-- The words spell the block, with its braces. -/
def Block.Spelled : Block → List Word → Prop
  | .mk _ ss, ws => ∃ us, Stmt.SpelledAll ss us ∧
      ws = Kind.lbrace.word :: (us ++ [Kind.rbrace.word])
termination_by structural b => b

/-- The words spell the statement, with what stands behind it. -/
def Stmt.Spelled : Stmt → List Word → Prop
  | .bind _ id e, ws => ∃ us ending, IsName id.name ∧ Enclosed True e.Spelled us ∧
      Ended lax ending ∧ ws = Kind.let.word :: id.word :: Kind.assign.word :: (us ++ ending)
  | .ret _ e, ws => ∃ us ending, Enclosed True e.Spelled us ∧ Ended lax ending ∧
      ws = Kind.return.word :: (us ++ ending)
  | .expr _ e, ws => ∃ us ending, Enclosed True e.Spelled us ∧ Ended lax ending ∧ ws = us ++ ending
  | .block _, _ => False
termination_by structural s => s

/-- The words spell the statements, one after the other. -/
def Stmt.SpelledAll : List Stmt → List Word → Prop
  | [], ws => ws = []
  | s :: ss, ws => ∃ us vs, s.Spelled us ∧ Stmt.SpelledAll ss vs ∧ ws = us ++ vs
termination_by structural ss => ss

end

/-- The words spell the program. -/
def Program.Spelled (p : Program) (ws : List Word) : Prop := Stmt.SpelledAll lax p.statements ws

end

/-! ### The first word -/

/-- The kinds of the first words of expressions. -/
def Kind.starts : Kind → Bool
  | ident | int | string | true | false | bang | minus | lparen | .if | function | lbracket
  | lbrace => Bool.true
  | _ => Bool.false

theorem Enclosed.starts {free : Prop} {P : List Word → Prop} {ws : List Word}
    (h : Enclosed free P ws) (hP : ∀ us, P us → ∃ w vs, us = w :: vs ∧ w.kind.starts) :
    ∃ w vs, ws = w :: vs ∧ w.kind.starts := by
  obtain ⟨n, us, hus, -, rfl⟩ := h
  cases n with
  | zero =>
    obtain ⟨w, vs, rfl, hw⟩ := hP us hus
    exact ⟨w, _, rfl, hw⟩
  | succ n => exact ⟨Kind.lparen.word, _, rfl, rfl⟩

/-- An expression starts with the first word of the operand on its left. -/
theorem Expr.Spelled.starts {lax : Bool} (e : Expr) {ws : List Word} (h : e.Spelled lax ws) :
    ∃ w vs, ws = w :: vs ∧ w.kind.starts := by
  match e, h with
  | .name _, ⟨_, hws⟩ => exact ⟨_, _, hws, rfl⟩
  | .integer _ _, ⟨_, _, _, hws⟩ => exact ⟨_, _, hws, rfl⟩
  | .boolean _ b, hws => exact ⟨_, _, hws, by cases b <;> rfl⟩
  | .string _ _, ⟨_, hws⟩ => exact ⟨_, _, hws, rfl⟩
  | .unary _ op _, ⟨_, _, hws⟩ => exact ⟨_, _, hws, by cases op <;> rfl⟩
  | .cond _ _ _ none, ⟨_, _, _, _, hws⟩ => exact ⟨_, _, hws, rfl⟩
  | .cond _ _ _ (some _), ⟨_, _, _, _, _, _, hws⟩ => exact ⟨_, _, hws, rfl⟩
  | .function _ _ _, ⟨_, _, _, hws⟩ => exact ⟨_, _, hws, rfl⟩
  | .array _ _, ⟨_, _, hws⟩ => exact ⟨_, _, hws, rfl⟩
  | .hash _ _, ⟨_, _, hws⟩ => exact ⟨_, _, hws, rfl⟩
  | .binary _ _ l _, ⟨_, _, hl, _, hws⟩ | .call _ l _, ⟨_, _, hl, _, hws⟩
  | .index _ l _, ⟨_, _, hl, _, hws⟩ =>
    obtain ⟨w, vs, rfl, hw⟩ := hl.starts fun _ => Expr.Spelled.starts l
    exact ⟨w, _, hws, hw⟩
termination_by structural e

end Monkey
