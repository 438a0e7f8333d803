import Mathlib.Data.List.Forall2
import Monkey.Proofs.Compiling
import Monkey.Proofs.Decoding

/-!
# What a program contains

Two lists read off a program: its function literals, in the order of their ends (`Program.functions`),
and the lengths of its array and hash literals and argument lists outside of function literals, in
the order in which the code of a stream counts them (`Stmt.countsAll`). Both are found again in
the resolved program: the lengths as the operands of `OpArray`, `OpHash` and `OpCall`, and the
functions as the functions among the literals (`Stmt.resolveAll_inventory`).
-/

namespace Monkey

/-! ### Counts -/

mutual

/-- The numbers of elements, of keys and values, and of arguments in an expression. -/
def Expr.counts : Expr → List (Opcode × Nat)
  | .name _ | .integer _ _ | .string _ _ | .boolean _ _ | .function _ _ _ => []
  | .unary _ _ e => e.counts
  | .binary _ op l r => if op = .lt then r.counts ++ l.counts else l.counts ++ r.counts
  | .cond _ condition consequence alternative =>
    condition.counts ++ (consequence.counts ++
      match alternative with
      | some block => block.counts
      | none => [])
  | .call _ callee arguments =>
    callee.counts ++ (Expr.countsAll arguments ++ [(.call, arguments.length)])
  | .array _ elements => Expr.countsAll elements ++ [(.array, elements.length)]
  | .hash _ pairs => Expr.countsPairs pairs ++ [(.hash, 2 * pairs.length)]
  | .index _ collection key => collection.counts ++ key.counts
termination_by structural e => e

/-- The counts of several expressions. -/
def Expr.countsAll : List Expr → List (Opcode × Nat)
  | [] => []
  | e :: es => e.counts ++ Expr.countsAll es
termination_by structural es => es

/-- The counts of keys and values. -/
def Expr.countsPairs : List (Expr × Expr) → List (Opcode × Nat)
  | [] => []
  | (key, value) :: pairs => key.counts ++ (value.counts ++ Expr.countsPairs pairs)
termination_by structural pairs => pairs

/-- The counts of a block. -/
def Block.counts : Block → List (Opcode × Nat)
  | .mk _ statements => Stmt.countsAll statements
termination_by structural b => b

/-- The counts of a statement. -/
def Stmt.counts : Stmt → List (Opcode × Nat)
  | .bind _ _ value | .ret _ value | .expr _ value => value.counts
  | .block body => body.counts
termination_by structural s => s

/-- The counts of several statements. -/
def Stmt.countsAll : List Stmt → List (Opcode × Nat)
  | [] => []
  | s :: ss => s.counts ++ Stmt.countsAll ss
termination_by structural ss => ss

end

/-! ### Function literals -/

mutual

/-- The function literals in an expression, with their parameters and bodies. -/
def Expr.functions : Expr → List (List Ident × Block)
  | .name _ | .integer _ _ | .string _ _ | .boolean _ _ => []
  | .unary _ _ e => e.functions
  | .binary _ op l r =>
    if op = .lt then r.functions ++ l.functions else l.functions ++ r.functions
  | .cond _ condition consequence alternative =>
    condition.functions ++ (consequence.functions ++
      match alternative with
      | some block => block.functions
      | none => [])
  | .function _ parameters body => body.functions ++ [(parameters, body)]
  | .call _ callee arguments => callee.functions ++ Expr.functionsAll arguments
  | .array _ elements => Expr.functionsAll elements
  | .hash _ pairs => Expr.functionsPairs pairs
  | .index _ collection key => collection.functions ++ key.functions
termination_by structural e => e

/-- The function literals in several expressions. -/
def Expr.functionsAll : List Expr → List (List Ident × Block)
  | [] => []
  | e :: es => e.functions ++ Expr.functionsAll es
termination_by structural es => es

/-- The function literals in keys and values. -/
def Expr.functionsPairs : List (Expr × Expr) → List (List Ident × Block)
  | [] => []
  | (key, value) :: pairs => key.functions ++ (value.functions ++ Expr.functionsPairs pairs)
termination_by structural pairs => pairs

/-- The function literals in a block. -/
def Block.functions : Block → List (List Ident × Block)
  | .mk _ statements => Stmt.functionsAll statements
termination_by structural b => b

/-- The function literals in a statement. -/
def Stmt.functions : Stmt → List (List Ident × Block)
  | .bind _ _ value | .ret _ value | .expr _ value => value.functions
  | .block body => body.functions
termination_by structural s => s

/-- The function literals in several statements. -/
def Stmt.functionsAll : List Stmt → List (List Ident × Block)
  | [] => []
  | s :: ss => s.functions ++ Stmt.functionsAll ss
termination_by structural ss => ss

end

/-- The function literals of a program. -/
def Program.functions (p : Program) : List (List Ident × Block) := Stmt.functionsAll p.statements

/-! ### Counts of code -/

/-- The operand of an instruction that makes a value of many, or calls with many. -/
def Instruction.count? (i : Instruction) : Option (Opcode × Nat) :=
  if i.op = .array ∨ i.op = .hash ∨ i.op = .call then some (i.op, i.operands.headD 0) else none

namespace Piece

/-- The counts of the instructions of pieces. -/
def counts (start : Nat) (ps : List Piece) : List (Opcode × Nat) :=
  (instructionsAll start ps).filterMap Instruction.count?

@[simp] theorem counts_append (start : Nat) (ps qs : List Piece) :
    counts start (ps ++ qs) = counts start ps ++ counts (start + sizeAll ps) qs := by
  simp [counts]

/-- Other instructions count nothing. -/
theorem counts_op {start : Nat} {op : Opcode} {ns : List Nat}
    (h : op ≠ .array ∧ op ≠ .hash ∧ op ≠ .call) : counts start [.op op ns] = [] := by
  simp [counts, instructionsAll, instructions, Instruction.count?, h]

theorem counts_array (start n : Nat) : counts start [.op .array [n]] = [(.array, n)] := rfl

theorem counts_hash (start n : Nat) : counts start [.op .hash [n]] = [(.hash, n)] := rfl

theorem counts_call (start n : Nat) : counts start [.op .call [n]] = [(.call, n)] := rfl

theorem counts_branch (start : Nat) (yes no : List Piece) :
    counts start [.branch yes no] =
      counts (start + 3) yes ++ counts (start + 3 + sizeAll yes + 3) no := by
  simp [counts, instructionsAll, instructions, Instruction.count?]

end Piece

open Piece Resolving

/-- How a block ends does not count. -/
theorem Command.counts_valuePieces (start : Nat) (cs : List Command) :
    counts start (Command.valuePieces cs) = counts start (Command.piecesAll cs) := by
  rcases Command.valuePieces_cases cs with ⟨ds, t, rfl, hpieces⟩ | hpieces
  · rw [hpieces, Command.piecesAll_append]
    simp [Command.piecesAll, Command.pieces, counts_op]
  · simp [hpieces, counts_op]

/-- How the body of a function ends does not count. -/
theorem Command.counts_bodyPieces (start : Nat) (cs : List Command) :
    counts start (Command.bodyPieces cs) = counts start (Command.piecesAll cs) := by
  rcases Command.bodyPieces_cases cs with ⟨ds, t, rfl, hpieces⟩ | ⟨ds, t, rfl, hpieces⟩ | hpieces
  · rw [hpieces, Command.piecesAll_append]
    simp [Command.piecesAll, Command.pieces, counts_op]
  · rw [hpieces, Command.piecesAll_append]
    simp [Command.piecesAll, Command.pieces]
  · simp [hpieces, counts_op]

theorem Term.counts_binary (start : Nat) (op : Operation) (t u : Term) :
    counts start (Term.binary op t u).pieces =
      counts start t.pieces ++ counts (start + sizeAll t.pieces) u.pieces := by
  rw [Term.pieces, counts_append, counts_append, counts_op, List.append_nil]
  cases op with
  | arith op => cases op <;> decide
  | equal => decide
  | notEqual => decide
  | greater => decide

theorem Term.counts_cond {t : Term} {yes no : List Command} {ks ms ns : List (Opcode × Nat)}
    (ht : ∀ start, counts start t.pieces = ks)
    (hyes : ∀ start, counts start (Command.piecesAll yes) = ms)
    (hno : ∀ start, counts start (Command.piecesAll no) = ns) (start : Nat) :
    counts start (Term.cond t yes no).pieces = ks ++ (ms ++ ns) := by
  rw [Term.pieces, counts_append, counts_branch, Command.counts_valuePieces,
    Command.counts_valuePieces, ht, hyes, hno]

/-! ### The resolved program contains the same -/

/-- Somewhere in a program, the body of the function literal resolves to the commands behind its
parameters, and the names bound there are these. -/
def Resolves (f : List Ident × Block) (names : Numbering String) (body : List Command) : Prop :=
  ∃ w w₁ w₂ : Walk,
    defineAll (f.1.map Ident.name) { w with scope := w.scope.enclose } = some ((), w₁) ∧
      f.2.resolve w₁ = some (body, w₂) ∧ w₂.scope.names = names

/-- The literal is that of the given function, and its code has the counts of the body. -/
def Literal.Of (l : Literal) (f : List Ident × Block) : Prop :=
  ∃ name names body, l = .function name (f.1.map Ident.name) names body ∧
    (∀ start, counts start (Command.bodyPieces body) = f.2.counts) ∧ Resolves f names body

/-- Whether a literal is a function. -/
def Literal.isFunction : Literal → Bool
  | function _ _ _ _ => true
  | _ => false

/-- The functions among the literals that come between `w` and `w'`. -/
def Walk.Adds (w w' : Walk) (fs : List (List Ident × Block)) : Prop :=
  ∃ ls, w'.literals.toList = w.literals.toList ++ ls ∧
    List.Forall₂ Literal.Of (ls.filter Literal.isFunction) fs

theorem Walk.Adds.refl (w : Walk) : w.Adds w [] := ⟨[], by simp, .nil⟩

theorem Walk.Adds.trans {w₁ w₂ w₃ : Walk} {fs gs : List (List Ident × Block)} (h : w₁.Adds w₂ fs)
    (h' : w₂.Adds w₃ gs) : w₁.Adds w₃ (fs ++ gs) := by
  obtain ⟨ls, hls, hfs⟩ := h
  obtain ⟨ms, hms, hgs⟩ := h'
  refine ⟨ls ++ ms, by rw [hms, hls, List.append_assoc], ?_⟩
  rw [List.filter_append]
  exact List.rel_append hfs hgs

theorem Resolving.define_adds {x : String} {w w' : Walk} {s : Symbol}
    (h : define x w = some (s, w')) : w.Adds w' [] := by
  obtain ⟨-, rfl⟩ := define_eq_some.mp h
  exact ⟨[], by simp, .nil⟩

theorem Resolving.defineAll_adds {xs : List String} {w w' : Walk}
    (h : defineAll xs w = some ((), w')) : w.Adds w' [] := by
  induction xs generalizing w with
  | nil =>
    obtain ⟨-, rfl⟩ := pure_eq_some.mp h
    exact .refl w
  | cons x xs ih =>
    obtain ⟨s, w₁, hx, hxs⟩ := bind_eq_some.mp h
    exact (define_adds hx).trans (ih hxs)

theorem Resolving.function_adds {name : Option String} {parameters : List Ident} {body : Block}
    {w w' : Walk} {t : Term}
    (hbody : ∀ {w w' cs}, body.resolve w = some (cs, w') →
      (∀ start, counts start (Command.piecesAll cs) = body.counts) ∧ w.Adds w' body.functions)
    (h : function name (parameters.map Ident.name) body.resolve w = some (t, w')) :
    (∀ start, counts start t.pieces = []) ∧
      w.Adds w' (body.functions ++ [(parameters, body)]) := by
  obtain ⟨w₁, cs, w₂, hparameters, hcs, rfl, rfl⟩ := function_eq_some.mp h
  obtain ⟨hcounts, hadds⟩ := hbody hcs
  refine ⟨fun start => counts_op (by decide), ?_⟩
  have hinside : Walk.Adds { w with scope := w.scope.enclose } w₂ ([] ++ body.functions) :=
    (defineAll_adds hparameters).trans hadds
  obtain ⟨ls, hls, hfunctions⟩ := hinside
  refine ⟨ls ++ [.function name (parameters.map Ident.name) w₂.scope.names cs], ?_, ?_⟩
  · simp [hls]
  · rw [List.filter_append]
    have hresolves : Resolves (parameters, body) w₂.scope.names cs :=
      ⟨w, w₁, w₂, hparameters, hcs, rfl⟩
    refine List.rel_append hfunctions
      (.cons ⟨name, w₂.scope.names, cs, rfl, fun start => ?_, hresolves⟩ .nil)
    rw [Command.counts_bodyPieces, hcounts]

/-- A binding contains what its value contains. -/
theorem Resolving.store_inventory {x : String} {value : Resolving Term} {w w' : Walk}
    {cs : List Command} {ns : List (Opcode × Nat)} {fs : List (List Ident × Block)}
    (hvalue : ∀ {w w' t}, value w = some (t, w') →
      (∀ start, counts start t.pieces = ns) ∧ w.Adds w' fs)
    (h : (do let s ← define x; return [Command.store s (← value)]) w = some (cs, w')) :
    (∀ start, counts start (Command.piecesAll cs) = ns) ∧ w.Adds w' fs := by
  obtain ⟨s, w₁, hs, t, ht, rfl⟩ := store_eq_some.mp h
  obtain ⟨hcounts, hadds⟩ := hvalue ht
  refine ⟨fun start => ?_, (define_adds hs).trans hadds⟩
  rw [Command.piecesAll, List.flatMap_singleton, Command.pieces, counts_append, hcounts,
    Symbol.storePiece]
  cases s.storage <;> rw [counts_op (by decide), List.append_nil]

mutual

/-- What an expression contains is found again in the resolved one. -/
theorem Expr.resolve_inventory (e : Expr) {w w' : Walk} {t : Term}
    (h : e.resolve w = some (t, w')) :
    (∀ start, counts start t.pieces = e.counts) ∧ w.Adds w' e.functions := by
  cases e with
  | name id =>
    obtain ⟨s, -, rfl, rfl⟩ := Expr.resolve_name.mp h
    refine ⟨fun start => ?_, .refl w⟩
    rw [Term.pieces, Symbol.loadPiece]
    cases s.storage <;> exact counts_op (by decide)
  | integer _ n =>
    obtain ⟨rfl, rfl⟩ := Expr.resolve_integer.mp h
    exact ⟨fun start => counts_op (by decide), [.integer n], by simp, .nil⟩
  | string _ s =>
    obtain ⟨rfl, rfl⟩ := Expr.resolve_string.mp h
    exact ⟨fun start => counts_op (by decide), [.string s], by simp, .nil⟩
  | boolean _ b =>
    obtain ⟨rfl, rfl⟩ := Expr.resolve_boolean.mp h
    refine ⟨fun start => ?_, .refl w⟩
    cases b <;> exact counts_op (by decide)
  | unary _ op e =>
    obtain ⟨t₁, h₁, rfl⟩ := Expr.resolve_unary.mp h
    obtain ⟨hcounts, hadds⟩ := Expr.resolve_inventory e h₁
    refine ⟨fun start => ?_, hadds⟩
    rw [Term.pieces, counts_append, hcounts, counts_op (by cases op <;> decide), List.append_nil,
      Expr.counts]
  | binary _ op l r =>
    rw [Expr.counts, Expr.functions]
    by_cases hop : op = .lt
    · -- the operands come in the other order, in the pieces as in the counts
      subst hop
      obtain ⟨t₁, w₁, h₁, t₂, h₂, rfl⟩ := Expr.resolve_lt.mp h
      obtain ⟨hcounts₁, hadds₁⟩ := Expr.resolve_inventory r h₁
      obtain ⟨hcounts₂, hadds₂⟩ := Expr.resolve_inventory l h₂
      rw [if_pos rfl, if_pos rfl]
      refine ⟨fun start => ?_, hadds₁.trans hadds₂⟩
      rw [Term.counts_binary, hcounts₁, hcounts₂]
    · obtain ⟨t₁, w₁, h₁, t₂, h₂, rfl⟩ := (Expr.resolve_binary hop).mp h
      obtain ⟨hcounts₁, hadds₁⟩ := Expr.resolve_inventory l h₁
      obtain ⟨hcounts₂, hadds₂⟩ := Expr.resolve_inventory r h₂
      rw [if_neg hop, if_neg hop]
      refine ⟨fun start => ?_, hadds₁.trans hadds₂⟩
      rw [Term.counts_binary, hcounts₁, hcounts₂]
  | cond _ condition consequence alternative =>
    cases alternative with
    | none =>
      obtain ⟨t, w₁, ht, yes, hyes, rfl⟩ := Expr.resolve_cond_none.mp h
      obtain ⟨hcounts₁, hadds₁⟩ := Expr.resolve_inventory condition ht
      obtain ⟨hcounts₂, hadds₂⟩ := Block.resolve_inventory consequence hyes
      refine ⟨fun start => ?_, hadds₁.trans (hadds₂.trans (.refl w'))⟩
      rw [Term.counts_cond hcounts₁ hcounts₂ (fun start => rfl), Expr.counts]
    | some block =>
      obtain ⟨t, w₁, ht, yes, w₂, hyes, no, hno, rfl⟩ := Expr.resolve_cond_some.mp h
      obtain ⟨hcounts₁, hadds₁⟩ := Expr.resolve_inventory condition ht
      obtain ⟨hcounts₂, hadds₂⟩ := Block.resolve_inventory consequence hyes
      obtain ⟨hcounts₃, hadds₃⟩ := Block.resolve_inventory block hno
      refine ⟨fun start => ?_, hadds₁.trans (hadds₂.trans hadds₃)⟩
      rw [Term.counts_cond hcounts₁ hcounts₂ hcounts₃, Expr.counts]
  | function _ parameters body =>
    exact function_adds (fun h' => Block.resolve_inventory body h') h
  | call _ callee arguments =>
    obtain ⟨f, w₁, hf, ts, hts, rfl⟩ := Expr.resolve_call.mp h
    obtain ⟨hcounts₁, hadds₁⟩ := Expr.resolve_inventory callee hf
    obtain ⟨hcounts₂, hadds₂⟩ := Expr.resolveAll_inventory arguments hts
    refine ⟨fun start => ?_, hadds₁.trans hadds₂⟩
    rw [Term.pieces, counts_append, counts_append, hcounts₁, hcounts₂, counts_call,
      Expr.length_resolveAll hts, Expr.counts]
  | array _ elements =>
    obtain ⟨ts, hts, rfl⟩ := Expr.resolve_array.mp h
    obtain ⟨hcounts, hadds⟩ := Expr.resolveAll_inventory elements hts
    refine ⟨fun start => ?_, hadds⟩
    rw [Term.pieces, counts_append, hcounts, counts_array, Expr.length_resolveAll hts, Expr.counts]
  | hash _ pairs =>
    obtain ⟨ts, hts, rfl⟩ := Expr.resolve_hash.mp h
    obtain ⟨hcounts, hadds⟩ := Expr.resolvePairs_inventory pairs hts
    refine ⟨fun start => ?_, hadds⟩
    rw [Term.pieces, counts_append, hcounts, counts_hash, Expr.length_resolvePairs hts, Expr.counts]
  | index _ collection key =>
    obtain ⟨t₁, w₁, h₁, t₂, h₂, rfl⟩ := Expr.resolve_index.mp h
    obtain ⟨hcounts₁, hadds₁⟩ := Expr.resolve_inventory collection h₁
    obtain ⟨hcounts₂, hadds₂⟩ := Expr.resolve_inventory key h₂
    refine ⟨fun start => ?_, hadds₁.trans hadds₂⟩
    rw [Term.pieces, counts_append, counts_append, hcounts₁, hcounts₂, counts_op (by decide),
      List.append_nil, Expr.counts]
termination_by structural e

theorem Expr.resolveAll_inventory (es : List Expr) {w w' : Walk} {ts : List Term}
    (h : Expr.resolveAll es w = some (ts, w')) :
    (∀ start, counts start (Term.piecesAll ts) = Expr.countsAll es) ∧
      w.Adds w' (Expr.functionsAll es) := by
  cases es with
  | nil =>
    obtain ⟨rfl, rfl⟩ := Expr.resolveAll_nil.mp h
    exact ⟨fun start => rfl, .refl w⟩
  | cons e es =>
    obtain ⟨t, w₁, ht, ts, hts, rfl⟩ := Expr.resolveAll_cons.mp h
    obtain ⟨hcounts₁, hadds₁⟩ := Expr.resolve_inventory e ht
    obtain ⟨hcounts₂, hadds₂⟩ := Expr.resolveAll_inventory es hts
    refine ⟨fun start => ?_, hadds₁.trans hadds₂⟩
    rw [Term.piecesAll, counts_append, hcounts₁, hcounts₂, Expr.countsAll]
termination_by structural es

theorem Expr.resolvePairs_inventory (ps : List (Expr × Expr)) {w w' : Walk} {ts : List Term}
    (h : Expr.resolvePairs ps w = some (ts, w')) :
    (∀ start, counts start (Term.piecesAll ts) = Expr.countsPairs ps) ∧
      w.Adds w' (Expr.functionsPairs ps) := by
  cases ps with
  | nil =>
    obtain ⟨rfl, rfl⟩ := Expr.resolvePairs_nil.mp h
    exact ⟨fun start => rfl, .refl w⟩
  | cons p ps =>
    cases p with
    | mk key value =>
    obtain ⟨k, w₁, hk, v, w₂, hv, ts, hts, rfl⟩ := Expr.resolvePairs_cons.mp h
    obtain ⟨hcounts₁, hadds₁⟩ := Expr.resolve_inventory key hk
    obtain ⟨hcounts₂, hadds₂⟩ := Expr.resolve_inventory value hv
    obtain ⟨hcounts₃, hadds₃⟩ := Expr.resolvePairs_inventory ps hts
    refine ⟨fun start => ?_, hadds₁.trans (hadds₂.trans hadds₃)⟩
    rw [Term.piecesAll, Term.piecesAll, counts_append, counts_append, hcounts₁, hcounts₂, hcounts₃,
      Expr.countsPairs]
termination_by structural ps

theorem Block.resolve_inventory (b : Block) {w w' : Walk} {cs : List Command}
    (h : b.resolve w = some (cs, w')) :
    (∀ start, counts start (Command.piecesAll cs) = b.counts) ∧ w.Adds w' b.functions := by
  cases b with
  | mk _ statements => exact Stmt.resolveAll_inventory statements h
termination_by structural b

theorem Stmt.resolve_inventory (s : Stmt) {w w' : Walk} {cs : List Command}
    (h : s.resolve w = some (cs, w')) :
    (∀ start, counts start (Command.piecesAll cs) = s.counts) ∧ w.Adds w' s.functions := by
  cases s with
  | bind _ id value =>
    cases value with
    | function _ parameters body =>
      refine store_inventory (fun h => ?_) h
      exact function_adds (fun h => Block.resolve_inventory body h) h
    | _ => exact store_inventory (fun h => Expr.resolve_inventory _ h) h
  | ret _ value =>
    obtain ⟨t, ht, rfl⟩ := Stmt.resolve_ret.mp h
    obtain ⟨hcounts, hadds⟩ := Expr.resolve_inventory value ht
    refine ⟨fun start => ?_, hadds⟩
    rw [Command.piecesAll, List.flatMap_singleton, Command.pieces, counts_append, hcounts,
      counts_op (by decide), List.append_nil, Stmt.counts]
  | expr _ value =>
    obtain ⟨t, ht, rfl⟩ := Stmt.resolve_expr.mp h
    obtain ⟨hcounts, hadds⟩ := Expr.resolve_inventory value ht
    refine ⟨fun start => ?_, hadds⟩
    rw [Command.piecesAll, List.flatMap_singleton, Command.pieces, counts_append, hcounts,
      counts_op (by decide), List.append_nil, Stmt.counts]
  | block body => exact Block.resolve_inventory body h
termination_by structural s

/-- **What statements contain** is found again in the resolved ones. -/
theorem Stmt.resolveAll_inventory (ss : List Stmt) {w w' : Walk} {cs : List Command}
    (h : Stmt.resolveAll ss w = some (cs, w')) :
    (∀ start, counts start (Command.piecesAll cs) = Stmt.countsAll ss) ∧
      w.Adds w' (Stmt.functionsAll ss) := by
  cases ss with
  | nil =>
    obtain ⟨rfl, rfl⟩ := Stmt.resolveAll_nil.mp h
    exact ⟨fun start => rfl, .refl w⟩
  | cons s ss =>
    obtain ⟨cs₁, w₁, h₁, cs₂, h₂, rfl⟩ := Stmt.resolveAll_cons.mp h
    obtain ⟨hcounts₁, hadds₁⟩ := Stmt.resolve_inventory s h₁
    obtain ⟨hcounts₂, hadds₂⟩ := Stmt.resolveAll_inventory ss h₂
    refine ⟨fun start => ?_, hadds₁.trans hadds₂⟩
    rw [Command.piecesAll_append, counts_append, hcounts₁, hcounts₂, Stmt.countsAll]
termination_by structural ss

end

end Monkey
