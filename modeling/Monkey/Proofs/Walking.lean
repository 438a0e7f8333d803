import Monkey.Proofs.Resolution

/-!
# What a walk consists of

A walk that succeeds consists of the walks through the parts of a tree, one after the other. For every
kind of tree a lemma says which they are, where each of them starts, and what is made of their results
(`Expr.resolve_unary`, `Expr.resolve_binary` and so on). Proofs about walks read off these lemmas what
there is to prove, and never open the walk itself.
-/

namespace Monkey

variable {w w' : Walk}

/-! ### Steps -/

namespace Resolving

theorem bind_eq_some {α β : Type} {x : Resolving α} {f : α → Resolving β} {w w' : Walk} {b : β} :
    (x >>= f) w = some (b, w') ↔ ∃ a w₁, x w = some (a, w₁) ∧ f a w₁ = some (b, w') := by
  change (x w).bind _ = _ ↔ _
  simp only [Option.bind_eq_some_iff, Prod.exists]

theorem pure_eq_some {α : Type} {a b : α} {w w' : Walk} :
    (pure a : Resolving α) w = some (b, w') ↔ a = b ∧ w = w' := by
  change some (a, w) = _ ↔ _
  simp

/-- A last step whose result is only wrapped up. -/
theorem bind_pure_eq_some {α β : Type} {x : Resolving α} {f : α → β} {b : β} :
    (x >>= fun a => pure (f a)) w = some (b, w') ↔ ∃ a, x w = some (a, w') ∧ b = f a := by
  simp only [bind_eq_some, pure_eq_some]
  constructor
  · rintro ⟨a, w₁, ha, rfl, rfl⟩
    exact ⟨a, ha, rfl⟩
  · rintro ⟨a, ha, rfl⟩
    exact ⟨a, w', ha, rfl, rfl⟩

/-- Two steps whose results are only put together. -/
theorem bind_bind_pure_eq_some {α β γ : Type} {x : Resolving α} {y : α → Resolving β}
    {f : α → β → γ} {d : γ} :
    (x >>= fun a => y a >>= fun b => pure (f a b)) w = some (d, w') ↔
      ∃ a w₁, x w = some (a, w₁) ∧ ∃ b, y a w₁ = some (b, w') ∧ d = f a b := by
  rw [bind_eq_some]
  simp only [bind_pure_eq_some]

/-- Three steps whose results are only put together. -/
theorem bind_bind_bind_pure_eq_some {α β γ δ : Type} {x : Resolving α} {y : α → Resolving β}
    {z : α → β → Resolving γ} {f : α → β → γ → δ} {d : δ} :
    (x >>= fun a => y a >>= fun b => z a b >>= fun c => pure (f a b c)) w = some (d, w') ↔
      ∃ a w₁, x w = some (a, w₁) ∧ ∃ b w₂, y a w₁ = some (b, w₂) ∧
        ∃ c, z a b w₂ = some (c, w') ∧ d = f a b c := by
  rw [bind_eq_some]
  simp only [bind_bind_pure_eq_some]

theorem define_eq_some {x : String} {s : Symbol} :
    define x w = some (s, w') ↔
      (w.scope.define x).find? x = some s ∧ { w with scope := w.scope.define x } = w' := by
  rw [define, Option.map_eq_some_iff]
  constructor
  · rintro ⟨a, ha, heq⟩
    obtain ⟨rfl, rfl⟩ := Prod.mk.inj heq
    exact ⟨ha, rfl⟩
  · rintro ⟨hs, rfl⟩
    exact ⟨s, hs, rfl⟩

theorem symbol_eq_some {x : String} {s : Symbol} :
    symbol x w = some (s, w') ↔ w.scope.resolve x = some s ∧ w = w' := by
  rw [symbol, Option.map_eq_some_iff]
  constructor
  · rintro ⟨a, ha, heq⟩
    obtain ⟨rfl, rfl⟩ := Prod.mk.inj heq
    exact ⟨ha, rfl⟩
  · rintro ⟨hs, rfl⟩
    exact ⟨s, hs, rfl⟩

theorem get_eq_some {w w' w'' : Walk} :
    (get : Resolving Walk) w = some (w', w'') ↔ w = w' ∧ w = w'' := by
  change some (w, w) = _ ↔ _
  simp

theorem modify_eq_some {f : Walk → Walk} {w w' : Walk} {u : Unit} :
    (modify f : Resolving Unit) w = some (u, w') ↔ f w = w' := by
  change some ((), f w) = _ ↔ _
  simp

theorem number_eq_some {l : Literal} {w w' : Walk} {i : Nat} :
    number l w = some (i, w') ↔
      w.literals.size = i ∧ { w with literals := w.literals.push l } = w' := by
  simp [number]

/-- What the walk through a function literal consists of. -/
theorem function_eq_some {name : Option String} {parameters : List String}
    {body : Resolving (List Command)} {w w' : Walk} {t : Term} :
    function name parameters body w = some (t, w') ↔
      ∃ w₁ cs w₂, defineAll parameters { w with scope := w.scope.enclose } = some ((), w₁) ∧
        body w₁ = some (cs, w₂) ∧ t = .function w₂.literals.size parameters.length name ∧
        w' = ⟨w.scope, w₂.literals.push (.function name parameters w₂.scope.names cs)⟩ := by
  simp only [function, bind_eq_some, pure_eq_some, get_eq_some, modify_eq_some, number_eq_some]
  constructor
  · rintro ⟨_, _, ⟨rfl, rfl⟩, _, _, rfl, _, w₁, h₁, cs, w₂, h₂, _, _, ⟨rfl, rfl⟩, _, _, rfl, _, _,
      ⟨rfl, rfl⟩, rfl, rfl⟩
    exact ⟨w₁, cs, w₂, h₁, h₂, rfl, rfl⟩
  · rintro ⟨w₁, cs, w₂, h₁, h₂, rfl, rfl⟩
    exact ⟨_, _, ⟨rfl, rfl⟩, (), _, rfl, (), w₁, h₁, cs, w₂, h₂, _, _, ⟨rfl, rfl⟩, (), _, rfl, _, _,
      ⟨rfl, rfl⟩, rfl, rfl⟩

/-- What the walk through a binding consists of. -/
theorem store_eq_some {x : String} {value : Resolving Term} {cs : List Command} :
    (do let s ← define x; return [Command.store s (← value)]) w = some (cs, w') ↔
      ∃ s w₁, define x w = some (s, w₁) ∧
        ∃ t, value w₁ = some (t, w') ∧ cs = [.store s t] :=
  bind_bind_pure_eq_some

end Resolving

open Resolving

/-! ### Trees -/

namespace Expr

variable {token : Token} {t : Term}

theorem resolve_name {id : Ident} :
    (name id).resolve w = some (t, w') ↔
      ∃ s, w.scope.resolve id.name = some s ∧ w = w' ∧ t = .load s := by
  refine bind_pure_eq_some.trans ?_
  simp only [symbol_eq_some, and_assoc]

theorem resolve_integer {n : Int64} :
    (integer token n).resolve w = some (t, w') ↔
      { w with literals := w.literals.push (.integer n) } = w' ∧
        t = .integer w.literals.size n := by
  refine bind_pure_eq_some.trans ?_
  simp only [number_eq_some, and_assoc, exists_eq_left']

theorem resolve_string {s : String} :
    (string token s).resolve w = some (t, w') ↔
      { w with literals := w.literals.push (.string s) } = w' ∧
        t = .string w.literals.size s := by
  refine bind_pure_eq_some.trans ?_
  simp only [number_eq_some, and_assoc, exists_eq_left']

theorem resolve_boolean {b : Bool} :
    (boolean token b).resolve w = some (t, w') ↔ .boolean b = t ∧ w = w' :=
  pure_eq_some

theorem resolve_unary {op : UnaryOp} {e : Expr} :
    (unary token op e).resolve w = some (t, w') ↔
      ∃ t₁, e.resolve w = some (t₁, w') ∧ t = .unary op t₁ :=
  bind_pure_eq_some

/-- The operands of `<` are walked through from right to left. -/
theorem resolve_lt {l r : Expr} :
    (binary token .lt l r).resolve w = some (t, w') ↔
      ∃ t₁ w₁, r.resolve w = some (t₁, w₁) ∧
        ∃ t₂, l.resolve w₁ = some (t₂, w') ∧ t = .binary .greater t₁ t₂ := by
  rw [resolve, if_pos rfl, bind_bind_pure_eq_some]

theorem resolve_binary {op : BinaryOp} (hop : op ≠ .lt) {l r : Expr} :
    (binary token op l r).resolve w = some (t, w') ↔
      ∃ t₁ w₁, l.resolve w = some (t₁, w₁) ∧
        ∃ t₂, r.resolve w₁ = some (t₂, w') ∧ t = .binary op.operation t₁ t₂ := by
  rw [resolve, if_neg hop, bind_bind_pure_eq_some]

theorem resolve_cond_none {condition : Expr} {consequence : Block} :
    (cond token condition consequence none).resolve w = some (t, w') ↔
      ∃ c w₁, condition.resolve w = some (c, w₁) ∧
        ∃ yes, consequence.resolve w₁ = some (yes, w') ∧ t = .cond c yes [] :=
  bind_bind_pure_eq_some

theorem resolve_cond_some {condition : Expr} {consequence alternative : Block} :
    (cond token condition consequence (some alternative)).resolve w = some (t, w') ↔
      ∃ c w₁, condition.resolve w = some (c, w₁) ∧
        ∃ yes w₂, consequence.resolve w₁ = some (yes, w₂) ∧
          ∃ no, alternative.resolve w₂ = some (no, w') ∧ t = .cond c yes no :=
  bind_bind_bind_pure_eq_some

theorem resolve_call {callee : Expr} {arguments : List Expr} :
    (call token callee arguments).resolve w = some (t, w') ↔
      ∃ f w₁, callee.resolve w = some (f, w₁) ∧
        ∃ ts, resolveAll arguments w₁ = some (ts, w') ∧ t = .call f ts :=
  bind_bind_pure_eq_some

theorem resolve_array {elements : List Expr} :
    (array token elements).resolve w = some (t, w') ↔
      ∃ ts, resolveAll elements w = some (ts, w') ∧ t = .array ts :=
  bind_pure_eq_some

theorem resolve_hash {pairs : List (Expr × Expr)} :
    (hash token pairs).resolve w = some (t, w') ↔
      ∃ ts, resolvePairs pairs w = some (ts, w') ∧ t = .hash ts :=
  bind_pure_eq_some

theorem resolve_index {collection key : Expr} :
    (index token collection key).resolve w = some (t, w') ↔
      ∃ t₁ w₁, collection.resolve w = some (t₁, w₁) ∧
        ∃ t₂, key.resolve w₁ = some (t₂, w') ∧ t = .index t₁ t₂ :=
  bind_bind_pure_eq_some

theorem resolveAll_nil {ts : List Term} :
    resolveAll [] w = some (ts, w') ↔ [] = ts ∧ w = w' :=
  pure_eq_some

theorem resolveAll_cons {e : Expr} {es : List Expr} {ts : List Term} :
    resolveAll (e :: es) w = some (ts, w') ↔
      ∃ t w₁, e.resolve w = some (t, w₁) ∧
        ∃ us, resolveAll es w₁ = some (us, w') ∧ ts = t :: us :=
  bind_bind_pure_eq_some

theorem resolvePairs_nil {ts : List Term} :
    resolvePairs [] w = some (ts, w') ↔ [] = ts ∧ w = w' :=
  pure_eq_some

theorem resolvePairs_cons {key value : Expr} {ps : List (Expr × Expr)} {ts : List Term} :
    resolvePairs ((key, value) :: ps) w = some (ts, w') ↔
      ∃ k w₁, key.resolve w = some (k, w₁) ∧
        ∃ v w₂, value.resolve w₁ = some (v, w₂) ∧
          ∃ us, resolvePairs ps w₂ = some (us, w') ∧ ts = k :: v :: us :=
  bind_bind_bind_pure_eq_some

theorem length_resolveAll {es : List Expr} {ts : List Term}
    (h : resolveAll es w = some (ts, w')) : ts.length = es.length := by
  induction es generalizing w ts with
  | nil =>
    obtain ⟨rfl, -⟩ := resolveAll_nil.mp h
    rfl
  | cons e es ih =>
    obtain ⟨t, w₁, -, ts, hts, rfl⟩ := resolveAll_cons.mp h
    rw [List.length_cons, List.length_cons, ih hts]

/-- A pair resolves to two terms. -/
theorem length_resolvePairs {ps : List (Expr × Expr)} {ts : List Term}
    (h : resolvePairs ps w = some (ts, w')) : ts.length = 2 * ps.length := by
  induction ps generalizing w ts with
  | nil =>
    obtain ⟨rfl, -⟩ := resolvePairs_nil.mp h
    rfl
  | cons p ps ih =>
    obtain ⟨k, w₁, -, v, w₂, -, ts, hts, rfl⟩ := resolvePairs_cons.mp h
    rw [List.length_cons, List.length_cons, List.length_cons, ih hts]
    omega

end Expr

namespace Stmt

variable {token : Token} {cs : List Command}

theorem resolve_ret {value : Expr} :
    (ret token value).resolve w = some (cs, w') ↔
      ∃ t, value.resolve w = some (t, w') ∧ cs = [.ret t] :=
  bind_pure_eq_some

theorem resolve_expr {value : Expr} :
    (expr token value).resolve w = some (cs, w') ↔
      ∃ t, value.resolve w = some (t, w') ∧ cs = [.drop t] :=
  bind_pure_eq_some

theorem resolveAll_nil : resolveAll [] w = some (cs, w') ↔ [] = cs ∧ w = w' :=
  pure_eq_some

theorem resolveAll_cons {s : Stmt} {ss : List Stmt} :
    resolveAll (s :: ss) w = some (cs, w') ↔
      ∃ cs₁ w₁, s.resolve w = some (cs₁, w₁) ∧
        ∃ cs₂, resolveAll ss w₁ = some (cs₂, w') ∧ cs = cs₁ ++ cs₂ :=
  bind_bind_pure_eq_some

/-- Statements behind others are walked through from where those lead to. -/
theorem resolveAll_append {ss ts : List Stmt} :
    resolveAll (ss ++ ts) w = some (cs, w') ↔
      ∃ cs₁ w₁, resolveAll ss w = some (cs₁, w₁) ∧
        ∃ cs₂, resolveAll ts w₁ = some (cs₂, w') ∧ cs = cs₁ ++ cs₂ := by
  induction ss generalizing w cs with
  | nil =>
    simp only [List.nil_append, resolveAll_nil]
    constructor
    · exact fun h => ⟨[], w, ⟨rfl, rfl⟩, cs, h, rfl⟩
    · rintro ⟨_, _, ⟨rfl, rfl⟩, _, h, rfl⟩
      exact h
  | cons s ss ih =>
    simp only [List.cons_append, resolveAll_cons, ih]
    constructor
    · rintro ⟨cs₁, w₁, h₁, _, ⟨cs₂, w₂, h₂, cs₃, h₃, rfl⟩, rfl⟩
      exact ⟨_, w₂, ⟨cs₁, w₁, h₁, cs₂, h₂, rfl⟩, cs₃, h₃, (List.append_assoc ..).symm⟩
    · rintro ⟨_, w₂, ⟨cs₁, w₁, h₁, cs₂, h₂, rfl⟩, cs₃, h₃, rfl⟩
      exact ⟨cs₁, w₁, h₁, _, ⟨cs₂, w₂, h₂, cs₃, h₃, rfl⟩, List.append_assoc ..⟩

end Stmt

end Monkey
