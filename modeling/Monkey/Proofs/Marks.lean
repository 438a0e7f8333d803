import Mathlib.Data.List.Forall2
import Monkey.Proofs.Decoding
import Monkey.Proofs.Operands

/-!
# What a program does outside its functions

The `let` and `return` statements outside function bodies are all that a program does to the names
and to the course of its top level. `Program.marks` lists them in the order in which they are compiled,
those inside the branches of conditionals included.

Each of them becomes one instruction, and no other instruction of the top level stores a global or
returns. The main statement, `Walk.Marked` of all resolved trees (`Expr.marked`, `Stmt.markedAll`),
pairs the marks of a tree with these instructions of its code, and says that the names the walk has
added are those of the bindings.
-/

namespace Monkey

/-! ### Marks -/

/-- A statement that does more than to compute a value. -/
inductive Mark where
  /-- The binding of a name. -/
  | bound (name : String)
  /-- A return. -/
  | returned
deriving Repr, DecidableEq

/-- The name that is bound. -/
def Mark.name? : Mark → Option String
  | bound x => some x
  | returned => none

mutual

/-- The bindings and returns in an expression, outside function literals. -/
def Expr.marks : Expr → List Mark
  | .name _ => []
  | .integer _ _ => []
  | .string _ _ => []
  | .boolean _ _ => []
  | .unary _ _ e => e.marks
  | .binary _ op l r => if op = .lt then r.marks ++ l.marks else l.marks ++ r.marks
  | .cond _ condition consequence none => condition.marks ++ consequence.marks
  | .cond _ condition consequence (some alternative) =>
    condition.marks ++ (consequence.marks ++ alternative.marks)
  | .function _ _ _ => []
  | .call _ callee arguments => callee.marks ++ Expr.marksAll arguments
  | .array _ elements => Expr.marksAll elements
  | .hash _ pairs => Expr.marksPairs pairs
  | .index _ collection key => collection.marks ++ key.marks
termination_by structural e => e

/-- The bindings and returns in several expressions. -/
def Expr.marksAll : List Expr → List Mark
  | [] => []
  | e :: es => e.marks ++ Expr.marksAll es
termination_by structural es => es

/-- The bindings and returns in keys and values. -/
def Expr.marksPairs : List (Expr × Expr) → List Mark
  | [] => []
  | (key, value) :: pairs => key.marks ++ (value.marks ++ Expr.marksPairs pairs)
termination_by structural pairs => pairs

/-- The bindings and returns in a block. -/
def Block.marks : Block → List Mark
  | .mk _ statements => Stmt.marksAll statements
termination_by structural b => b

/-- The bindings and returns in a statement. What stands in the value comes first. -/
def Stmt.marks : Stmt → List Mark
  | .bind _ id value => value.marks ++ [.bound id.name]
  | .ret _ value => value.marks ++ [.returned]
  | .expr _ value => value.marks
  | .block body => body.marks
termination_by structural s => s

/-- The bindings and returns in several statements. -/
def Stmt.marksAll : List Stmt → List Mark
  | [] => []
  | s :: ss => s.marks ++ Stmt.marksAll ss
termination_by structural ss => ss

end

/-- The bindings and returns of a program outside function bodies, in the order in which they are
compiled. -/
def Program.marks (p : Program) : List Mark := Stmt.marksAll p.statements

/-- The names that a program binds outside function bodies, one for each binding. -/
def Program.lets (p : Program) : List String := p.marks.filterMap Mark.name?

/-! ### Marked instructions -/

/-- The instruction stores a global or returns. -/
def Instruction.isMarked (i : Instruction) : Bool :=
  match i.op with
  | .setGlobal | .returnValue | .ret => true
  | _ => false

/-- The instruction does what the mark says, when the names have the given slots. -/
def Mark.DoneBy (names : Numbering String) : Mark → Instruction → Prop
  | bound x, i => ∃ slot, names.find? x = some slot ∧ i.op = .setGlobal ∧ i.operands = [slot]
  | returned, i => i.op = .returnValue

theorem Mark.DoneBy.mono {ns ns' : Numbering String} (h : ns.Extends ns') {mark : Mark}
    {i : Instruction} (hi : mark.DoneBy ns i) : mark.DoneBy ns' i := by
  cases mark with
  | bound x =>
    obtain ⟨slot, hslot, hop⟩ := hi
    exact ⟨slot, h x slot hslot, hop⟩
  | returned => exact hi

/-- What is on the left of two lists that go together has its partner on the right. -/
theorem exists_of_forall₂ {α β : Type} {R : α → β → Prop} {as : List α} {bs : List β}
    (h : List.Forall₂ R as bs) {a : α} (ha : a ∈ as) : ∃ b ∈ bs, R a b := by
  induction h with
  | nil => cases ha
  | @cons a' b as bs hab _ ih =>
    rcases List.mem_cons.mp ha with rfl | ha
    · exact ⟨b, List.mem_cons_self, hab⟩
    · obtain ⟨b', hb', hab'⟩ := ih ha
      exact ⟨b', List.mem_cons_of_mem _ hb', hab'⟩

namespace Piece

/-- The instructions of pieces that store a global or return. -/
def marked (start : Nat) (ps : List Piece) : List Instruction :=
  (instructionsAll start ps).filter Instruction.isMarked

@[simp] theorem marked_nil (start : Nat) : marked start [] = [] := rfl

@[simp] theorem marked_append (start : Nat) (ps qs : List Piece) :
    marked start (ps ++ qs) = marked start ps ++ marked (start + sizeAll ps) qs := by
  simp [marked]

theorem marked_op (start : Nat) (op : Opcode) (ns : List Nat) :
    marked start [.op op ns] = [⟨start, op, ns⟩].filter Instruction.isMarked := by
  simp [marked, instructionsAll, instructions]

/-- The jumps of a branch are not marked. -/
theorem marked_branch (start : Nat) (yes no : List Piece) :
    marked start [.branch yes no] =
      marked (start + 3) yes ++ marked (start + 3 + sizeAll yes + 3) no := by
  simp [marked, instructionsAll, instructions, Instruction.isMarked]

end Piece

open Piece

/-- A block that stands for a value does what its statements do. -/
theorem Command.marked_valuePieces (start : Nat) (cs : List Command) :
    marked start (Command.valuePieces cs) = marked start (Command.piecesAll cs) := by
  rcases Command.valuePieces_cases cs with ⟨ds, t, rfl, hpieces⟩ | hpieces
  · rw [hpieces, Command.piecesAll_append]
    simp [Command.piecesAll, Command.pieces, marked_op, Instruction.isMarked]
  · rw [hpieces]
    simp [marked_op, Instruction.isMarked]

/-! ### Walks and marks -/

/-- Outside functions the walk leads from `w` to `w'`, past the marks, and what it makes has the code
`ps`: it adds the names of the bindings, and the marks are done one after the other by the instructions
that store a global or return. -/
structure Walk.Marked (w w' : Walk) (marks : List Mark) (ps : List Piece) : Prop where
  outermost : w'.scope.locals? = none
  grows : w.scope.globals.Extends w'.scope.globals
  names : ∀ x, (w'.scope.globals.find? x).isSome ↔
    (w.scope.globals.find? x).isSome ∨ Mark.bound x ∈ marks
  done : ∀ start, List.Forall₂ (Mark.DoneBy w'.scope.globals) marks (Piece.marked start ps)

namespace Walk.Marked

variable {w w₁ w' : Walk} {marks marks' : List Mark} {ps qs : List Piece}

/-- Nothing is done where the scope stays and no instruction is marked. -/
theorem none (hw : w.scope.locals? = none) (hscope : w'.scope = w.scope)
    (hps : ∀ start, Piece.marked start ps = []) : w.Marked w' [] ps where
  outermost := hscope ▸ hw
  grows := hscope ▸ .refl _
  names x := by simp [hscope]
  done start := by rw [hps]; exact .nil

/-- What is done first and what is done next. -/
theorem append (h : w.Marked w₁ marks ps) (h' : w₁.Marked w' marks' qs) :
    w.Marked w' (marks ++ marks') (ps ++ qs) where
  outermost := h'.outermost
  grows := h.grows.trans h'.grows
  names x := by rw [h'.names, h.names, List.mem_append, or_assoc]
  done start := by
    rw [marked_append]
    exact List.rel_append ((h.done start).imp fun _ _ hi => hi.mono h'.grows) (h'.done _)

/-- An instruction that is not marked adds nothing. -/
theorem concat (h : w.Marked w' marks ps) {op : Opcode} {ns : List Nat}
    (hop : Instruction.isMarked ⟨0, op, ns⟩ = false) : w.Marked w' marks (ps ++ [.op op ns]) where
  outermost := h.outermost
  grows := h.grows
  names := h.names
  done start := by
    have hmarked : Instruction.isMarked ⟨start + sizeAll ps, op, ns⟩ = false := hop
    rw [marked_append, marked_op, List.filter_cons_of_neg (by simp [hmarked]), List.filter_nil,
      List.append_nil]
    exact h.done start

/-- A return is done by the instruction behind its value. -/
theorem ret (h : w.Marked w' marks ps) :
    w.Marked w' (marks ++ [.returned]) (ps ++ [.op .returnValue []]) where
  outermost := h.outermost
  grows := h.grows
  names x := by rw [h.names, List.mem_append, List.mem_singleton]; simp
  done start := by
    rw [marked_append]
    exact List.rel_append (h.done start) (.cons rfl .nil)

/-- A binding is done by the instruction behind its value. The name has its slot already there. -/
theorem store {x : String} {s : Symbol} (hw : w.scope.locals? = .none)
    (hs : Resolving.define x w = some (s, w₁)) (h : w₁.Marked w' marks ps) :
    w.Marked w' (marks ++ [.bound x]) (ps ++ [s.storePiece]) := by
  obtain ⟨hfound, rfl⟩ := Resolving.define_eq_some.mp hs
  obtain ⟨hin, rfl, hstorage⟩ := Scope.find?_in hfound
  -- outside functions the symbol is a global one
  have hglobal : s.storage = .global := by
    rw [hstorage, Scope.storage_define, Scope.storage_eq_global_iff, hw]
  have hslot : (w.scope.define s.name).globals.find? s.name = some s.slot := by
    simpa [Symbol.In, hglobal] using hin
  have hdefine : ∀ y, ((w.scope.define s.name).globals.find? y).isSome ↔
      (w.scope.globals.find? y).isSome ∨ y = s.name := by
    intro y
    cases hscope : w.scope with
    | nested ns outer => simp [hscope, Scope.locals?] at hw
    | outermost ns =>
      simp only [Scope.define, Scope.globals, Numbering.find?_add]
      by_cases hy : y = s.name
      · subst hy
        cases hfind : ns.find? s.name <;> simp
      · simp [hy, Ne.symm hy]
  exact {
    outermost := h.outermost
    grows := (w.scope.grows_define s.name).globals.trans h.grows
    names := fun y => by
      rw [h.names, hdefine, List.mem_append, List.mem_singleton, Mark.bound.injEq, or_assoc]
      tauto
    done := fun start => by
      rw [marked_append, Symbol.storePiece, hglobal]
      exact List.rel_append (h.done start) (.cons ⟨_, h.grows _ _ hslot, rfl, rfl⟩ .nil) }

/-- A branch does what its two sides do. -/
theorem branch {cs ds : List Command} (h : w.Marked w₁ marks (Command.piecesAll cs))
    (h' : w₁.Marked w' marks' (Command.piecesAll ds)) :
    w.Marked w' (marks ++ marks')
      [.branch (Command.valuePieces cs) (Command.valuePieces ds)] where
  outermost := h'.outermost
  grows := h.grows.trans h'.grows
  names x := by rw [h'.names, h.names, List.mem_append, or_assoc]
  done start := by
    rw [marked_branch, Command.marked_valuePieces, Command.marked_valuePieces]
    exact List.rel_append ((h.done _).imp fun _ _ hi => hi.mono h'.grows) (h'.done _)

end Walk.Marked

/-- A function literal does nothing but to push a constant. -/
theorem Resolving.marked_function {name : Option String} {parameters : List String}
    {body : Resolving (List Command)} {w w' : Walk} {t : Term} (hw : w.scope.locals? = none)
    (h : Resolving.function name parameters body w = some (t, w')) : w.Marked w' [] t.pieces := by
  obtain ⟨w₁, cs, w₂, -, -, rfl, rfl⟩ := Resolving.function_eq_some.mp h
  exact .none hw rfl fun start => rfl

/-- A binding does what its value does, and then what its own mark says. -/
theorem Resolving.marked_store {x : String} {value : Resolving Term} {marks : List Mark}
    {w w' : Walk} {cs : List Command} (hw : w.scope.locals? = none)
    (hvalue : ∀ {w w' t}, w.scope.locals? = none → value w = some (t, w') →
      w.Marked w' marks t.pieces)
    (h : (do let s ← define x; return [Command.store s (← value)]) w = some (cs, w')) :
    w.Marked w' (marks ++ [.bound x]) (Command.piecesAll cs) := by
  obtain ⟨s, w₁, hs, t, ht, rfl⟩ := store_eq_some.mp h
  have hw₁ : w₁.scope.locals? = none := by
    obtain ⟨-, rfl⟩ := define_eq_some.mp hs
    rw [← Scope.storage_eq_global_iff, Scope.storage_define, Scope.storage_eq_global_iff, hw]
  rw [Command.piecesAll, List.flatMap_singleton]
  exact (hvalue hw₁ ht).store hw hs

mutual

/-- **The marks of an expression** are done by its code. -/
theorem Expr.marked (e : Expr) {w w' : Walk} {t : Term} (hw : w.scope.locals? = none)
    (h : e.resolve w = some (t, w')) : w.Marked w' e.marks t.pieces := by
  cases e with
  | name id =>
    obtain ⟨s, -, rfl, rfl⟩ := Expr.resolve_name.mp h
    refine .none hw rfl fun start => ?_
    rw [Term.pieces, Symbol.loadPiece]
    cases s.storage <;> rfl
  | integer _ n =>
    obtain ⟨rfl, rfl⟩ := Expr.resolve_integer.mp h
    exact .none hw rfl fun start => rfl
  | string _ s =>
    obtain ⟨rfl, rfl⟩ := Expr.resolve_string.mp h
    exact .none hw rfl fun start => rfl
  | boolean _ b =>
    obtain ⟨rfl, rfl⟩ := Expr.resolve_boolean.mp h
    refine .none hw rfl fun start => ?_
    cases b <;> rfl
  | unary _ op e =>
    obtain ⟨t₁, h₁, rfl⟩ := Expr.resolve_unary.mp h
    refine (Expr.marked e hw h₁).concat ?_
    cases op <;> rfl
  | binary _ op l r =>
    by_cases hop : op = .lt
    · -- the right operand comes first
      subst hop
      obtain ⟨t₁, w₁, h₁, t₂, h₂, rfl⟩ := Expr.resolve_lt.mp h
      have hr := Expr.marked r hw h₁
      rw [Expr.marks, if_pos rfl]
      exact hr.append ((Expr.marked l hr.outermost h₂).concat rfl)
    · obtain ⟨t₁, w₁, h₁, t₂, h₂, rfl⟩ := (Expr.resolve_binary hop).mp h
      have hl := Expr.marked l hw h₁
      rw [Expr.marks, if_neg hop]
      refine hl.append ((Expr.marked r hl.outermost h₂).concat ?_)
      cases op <;> rfl
  | cond _ condition consequence alternative =>
    cases alternative with
    | none =>
      obtain ⟨c, w₁, hc, yes, hyes, rfl⟩ := Expr.resolve_cond_none.mp h
      have hcondition := Expr.marked condition hw hc
      have hconsequence := Block.marked consequence hcondition.outermost hyes
      -- without an alternative the other side of the branch has no statement
      have hempty : w'.Marked w' [] (Command.piecesAll []) :=
        .none hconsequence.outermost rfl fun start => rfl
      have hbranch := hconsequence.branch hempty
      rw [List.append_nil] at hbranch
      exact hcondition.append hbranch
    | some block =>
      obtain ⟨c, w₁, hc, yes, w₂, hyes, no, hno, rfl⟩ := Expr.resolve_cond_some.mp h
      have hcondition := Expr.marked condition hw hc
      have hconsequence := Block.marked consequence hcondition.outermost hyes
      have halternative := Block.marked block hconsequence.outermost hno
      exact hcondition.append (hconsequence.branch halternative)
  | function _ parameters body => exact Resolving.marked_function hw h
  | call _ callee arguments =>
    obtain ⟨f, w₁, hf, ts, hts, rfl⟩ := Expr.resolve_call.mp h
    have hcallee := Expr.marked callee hw hf
    exact hcallee.append ((Expr.markedAll arguments hcallee.outermost hts).concat rfl)
  | array _ elements =>
    obtain ⟨ts, hts, rfl⟩ := Expr.resolve_array.mp h
    exact (Expr.markedAll elements hw hts).concat rfl
  | hash _ pairs =>
    obtain ⟨ts, hts, rfl⟩ := Expr.resolve_hash.mp h
    exact (Expr.markedPairs pairs hw hts).concat rfl
  | index _ collection key =>
    obtain ⟨t₁, w₁, h₁, t₂, h₂, rfl⟩ := Expr.resolve_index.mp h
    have hcollection := Expr.marked collection hw h₁
    exact hcollection.append ((Expr.marked key hcollection.outermost h₂).concat rfl)
termination_by structural e

theorem Expr.markedAll (es : List Expr) {w w' : Walk} {ts : List Term}
    (hw : w.scope.locals? = none) (h : Expr.resolveAll es w = some (ts, w')) :
    w.Marked w' (Expr.marksAll es) (Term.piecesAll ts) := by
  cases es with
  | nil =>
    obtain ⟨rfl, rfl⟩ := Expr.resolveAll_nil.mp h
    exact .none hw rfl fun start => rfl
  | cons e es =>
    obtain ⟨t, w₁, ht, ts, hts, rfl⟩ := Expr.resolveAll_cons.mp h
    have he := Expr.marked e hw ht
    exact he.append (Expr.markedAll es he.outermost hts)
termination_by structural es

theorem Expr.markedPairs (ps : List (Expr × Expr)) {w w' : Walk} {ts : List Term}
    (hw : w.scope.locals? = none) (h : Expr.resolvePairs ps w = some (ts, w')) :
    w.Marked w' (Expr.marksPairs ps) (Term.piecesAll ts) := by
  cases ps with
  | nil =>
    obtain ⟨rfl, rfl⟩ := Expr.resolvePairs_nil.mp h
    exact .none hw rfl fun start => rfl
  | cons p ps =>
    cases p with
    | mk key value =>
    obtain ⟨k, w₁, hk, v, w₂, hv, ts, hts, rfl⟩ := Expr.resolvePairs_cons.mp h
    have hkey := Expr.marked key hw hk
    have hvalue := Expr.marked value hkey.outermost hv
    exact hkey.append (hvalue.append (Expr.markedPairs ps hvalue.outermost hts))
termination_by structural ps

theorem Block.marked (b : Block) {w w' : Walk} {cs : List Command} (hw : w.scope.locals? = none)
    (h : b.resolve w = some (cs, w')) : w.Marked w' b.marks (Command.piecesAll cs) := by
  cases b with
  | mk _ statements => exact Stmt.markedAll statements hw h
termination_by structural b

theorem Stmt.marked (s : Stmt) {w w' : Walk} {cs : List Command} (hw : w.scope.locals? = none)
    (h : s.resolve w = some (cs, w')) : w.Marked w' s.marks (Command.piecesAll cs) := by
  cases s with
  | bind _ id value =>
    -- only a function literal takes the name that it is bound to
    cases value with
    | function _ parameters body =>
      exact Resolving.marked_store hw (fun hw₁ ht => Resolving.marked_function hw₁ ht) h
    | _ => exact Resolving.marked_store hw (fun hw₁ ht => Expr.marked _ hw₁ ht) h
  | ret _ value =>
    obtain ⟨t, ht, rfl⟩ := Stmt.resolve_ret.mp h
    rw [Command.piecesAll, List.flatMap_singleton]
    exact (Expr.marked value hw ht).ret
  | expr _ value =>
    obtain ⟨t, ht, rfl⟩ := Stmt.resolve_expr.mp h
    rw [Command.piecesAll, List.flatMap_singleton]
    exact (Expr.marked value hw ht).concat rfl
  | block body => exact Block.marked body hw h
termination_by structural s

/-- **The marks of statements** are done by their code. -/
theorem Stmt.markedAll (ss : List Stmt) {w w' : Walk} {cs : List Command}
    (hw : w.scope.locals? = none) (h : Stmt.resolveAll ss w = some (cs, w')) :
    w.Marked w' (Stmt.marksAll ss) (Command.piecesAll cs) := by
  cases ss with
  | nil =>
    obtain ⟨rfl, rfl⟩ := Stmt.resolveAll_nil.mp h
    exact .none hw rfl fun start => rfl
  | cons s ss =>
    obtain ⟨cs₁, w₁, h₁, cs₂, h₂, rfl⟩ := Stmt.resolveAll_cons.mp h
    have hs := Stmt.marked s hw h₁
    rw [Command.piecesAll_append]
    exact hs.append (Stmt.markedAll ss hs.outermost h₂)
termination_by structural ss

end

end Monkey
