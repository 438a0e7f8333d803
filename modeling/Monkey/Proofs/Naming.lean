import Monkey.Proofs.Labels
import Monkey.Proofs.Walking

/-!
# The names of functions

A function has the name that a `let` statement binds it to, if it is the whole value there, and no other
function has one. The parser takes such a name from a token, so it is made of letters, digits and
underscores (`Stmt.keep_named`).
-/

namespace Monkey

open Resolving

/-! ### Names of functions -/

/-- A function literal that has a name got it from a binding. -/
def Literal.Named : Literal → Prop
  | .function (some x) _ _ _ => IsName x
  | _ => True

/-- The functions that the walk has met are named by bindings, if at all. -/
def Walk.Named (w : Walk) : Prop := ∀ l ∈ w.literals, l.Named

namespace Walk.Named

variable {w w' : Walk}

theorem push (h : w.Named) {l : Literal} (hl : l.Named) (s : Scope) :
    Walk.Named ⟨s, w.literals.push l⟩ := by
  intro l' hl'
  rcases Array.mem_push.mp hl' with hl' | rfl
  · exact h l' hl'
  · exact hl

theorem define (h : w.Named) {x : String} {s : Symbol} (hx : Resolving.define x w = some (s, w')) :
    w'.Named := by
  obtain ⟨-, rfl⟩ := Resolving.define_eq_some.mp hx
  exact h

theorem defineAll {xs : List String} (h : w.Named)
    (hxs : Resolving.defineAll xs w = some ((), w')) : w'.Named := by
  induction xs generalizing w with
  | nil =>
    obtain ⟨-, rfl⟩ := pure_eq_some.mp hxs
    exact h
  | cons x xs ih =>
    obtain ⟨s, w₁, hx, hxs⟩ := bind_eq_some.mp hxs
    exact ih (h.define hx) hxs

/-- A function whose name is one, and whose body keeps names. -/
theorem function (h : w.Named) {name : Option String} {parameters : List String}
    {body : Resolving (List Command)} {t : Term}
    (hbody : ∀ {w w' cs}, body w = some (cs, w') → w.Named → w'.Named)
    (hname : ∀ x, name = some x → IsName x)
    (hfunction : Resolving.function name parameters body w = some (t, w')) : w'.Named := by
  obtain ⟨w₁, cs, w₂, hparameters, hcs, rfl, rfl⟩ := function_eq_some.mp hfunction
  have hinside : Walk.Named { w with scope := w.scope.enclose } := h
  have hw₂ := hbody hcs (hinside.defineAll hparameters)
  refine hw₂.push ?_ w.scope
  cases name with
  | none => trivial
  | some x => exact hname x rfl

/-- A binding whose value keeps names. -/
theorem store (h : w.Named) {x : String} {value : Resolving Term} {cs : List Command}
    (hvalue : ∀ {w w' t}, value w = some (t, w') → w.Named → w'.Named)
    (hstore : (do let s ← Resolving.define x; return [Command.store s (← value)]) w =
      some (cs, w')) : w'.Named := by
  obtain ⟨s, w₁, hs, t, ht, rfl⟩ := store_eq_some.mp hstore
  exact hvalue ht (h.define hs)

end Walk.Named

mutual

theorem Expr.keeps_named (e : Expr) (he : e.Labelled) {w w' : Walk} {t : Term}
    (h : e.resolve w = some (t, w')) (hw : w.Named) : w'.Named := by
  cases e with
  | name id =>
    obtain ⟨s, -, rfl, -⟩ := Expr.resolve_name.mp h
    exact hw
  | integer _ n =>
    obtain ⟨rfl, -⟩ := Expr.resolve_integer.mp h
    exact hw.push (l := .integer n) trivial w.scope
  | string _ s =>
    obtain ⟨rfl, -⟩ := Expr.resolve_string.mp h
    exact hw.push (l := .string s) trivial w.scope
  | boolean _ b =>
    obtain ⟨-, rfl⟩ := Expr.resolve_boolean.mp h
    exact hw
  | unary _ op e =>
    obtain ⟨t₁, h₁, -⟩ := Expr.resolve_unary.mp h
    exact Expr.keeps_named e he.2 h₁ hw
  | binary _ op l r =>
    by_cases hop : op = .lt
    · subst hop
      obtain ⟨t₁, w₁, h₁, t₂, h₂, -⟩ := Expr.resolve_lt.mp h
      exact Expr.keeps_named l he.2.1 h₂ (Expr.keeps_named r he.2.2 h₁ hw)
    · obtain ⟨t₁, w₁, h₁, t₂, h₂, -⟩ := (Expr.resolve_binary hop).mp h
      exact Expr.keeps_named r he.2.2 h₂ (Expr.keeps_named l he.2.1 h₁ hw)
  | cond _ condition consequence alternative =>
    cases alternative with
    | none =>
      obtain ⟨-, hcondition, hconsequence⟩ := he
      obtain ⟨c, w₁, hc, yes, hyes, -⟩ := Expr.resolve_cond_none.mp h
      have hw₁ := Expr.keeps_named condition hcondition hc hw
      exact Block.keeps_named consequence hconsequence hyes hw₁
    | some block =>
      obtain ⟨-, hcondition, hconsequence, hblock⟩ := he
      obtain ⟨c, w₁, hc, yes, w₂, hyes, no, hno, -⟩ := Expr.resolve_cond_some.mp h
      have hw₁ := Expr.keeps_named condition hcondition hc hw
      have hw₂ := Block.keeps_named consequence hconsequence hyes hw₁
      exact Block.keeps_named block hblock hno hw₂
  | function _ parameters body =>
    -- only a binding names a function
    have hname : ∀ x, none = some x → IsName x := fun _ hx => by cases hx
    exact hw.function (fun hcs => Block.keeps_named body he.2.2 hcs) hname h
  | call _ callee arguments =>
    obtain ⟨f, w₁, hf, ts, hts, -⟩ := Expr.resolve_call.mp h
    exact Expr.keep_named arguments he.2.2 hts (Expr.keeps_named callee he.2.1 hf hw)
  | array _ elements =>
    obtain ⟨ts, hts, -⟩ := Expr.resolve_array.mp h
    exact Expr.keep_named elements he.2 hts hw
  | hash _ pairs =>
    obtain ⟨ts, hts, -⟩ := Expr.resolve_hash.mp h
    exact Expr.pairs_keep_named pairs he.2 hts hw
  | index _ collection key =>
    obtain ⟨t₁, w₁, h₁, t₂, h₂, -⟩ := Expr.resolve_index.mp h
    exact Expr.keeps_named key he.2.2 h₂ (Expr.keeps_named collection he.2.1 h₁ hw)
termination_by structural e

theorem Expr.keep_named (es : List Expr) (hes : Expr.LabelledAll es) {w w' : Walk} {ts : List Term}
    (h : Expr.resolveAll es w = some (ts, w')) (hw : w.Named) : w'.Named := by
  cases es with
  | nil =>
    obtain ⟨-, rfl⟩ := Expr.resolveAll_nil.mp h
    exact hw
  | cons e es =>
    obtain ⟨t, w₁, ht, ts, hts, -⟩ := Expr.resolveAll_cons.mp h
    exact Expr.keep_named es hes.2 hts (Expr.keeps_named e hes.1 ht hw)
termination_by structural es

theorem Expr.pairs_keep_named (ps : List (Expr × Expr)) (hps : Expr.LabelledPairs ps) {w w' : Walk}
    {ts : List Term} (h : Expr.resolvePairs ps w = some (ts, w')) (hw : w.Named) : w'.Named := by
  cases ps with
  | nil =>
    obtain ⟨-, rfl⟩ := Expr.resolvePairs_nil.mp h
    exact hw
  | cons p ps =>
    cases p with
    | mk key value =>
    obtain ⟨k, w₁, hk, v, w₂, hv, ts, hts, -⟩ := Expr.resolvePairs_cons.mp h
    have hw₂ := Expr.keeps_named value hps.2.1 hv (Expr.keeps_named key hps.1 hk hw)
    exact Expr.pairs_keep_named ps hps.2.2 hts hw₂
termination_by structural ps

theorem Block.keeps_named (b : Block) (hb : b.Labelled) {w w' : Walk} {cs : List Command}
    (h : b.resolve w = some (cs, w')) (hw : w.Named) : w'.Named := by
  cases b with
  | mk _ statements => exact Stmt.keep_named statements hb.2 h hw
termination_by structural b

theorem Stmt.keeps_named (s : Stmt) (hs : s.Labelled) {w w' : Walk} {cs : List Command}
    (h : s.resolve w = some (cs, w')) (hw : w.Named) : w'.Named := by
  cases s with
  | bind _ id value =>
    obtain ⟨-, hid, hvalue⟩ := hs
    cases value with
    | function _ parameters body =>
      have hname : ∀ x, some id.name = some x → IsName x := by
        rintro x ⟨⟩
        exact hid.1
      refine hw.store (fun ht hw₁ => ?_) h
      exact hw₁.function (fun hcs => Block.keeps_named body hvalue.2.2 hcs) hname ht
    | _ => exact hw.store (fun ht => Expr.keeps_named _ hvalue ht) h
  | ret _ value =>
    obtain ⟨t, ht, -⟩ := Stmt.resolve_ret.mp h
    exact Expr.keeps_named value hs.2 ht hw
  | expr _ value =>
    obtain ⟨t, ht, -⟩ := Stmt.resolve_expr.mp h
    exact Expr.keeps_named value hs ht hw
  | block body => exact Block.keeps_named body hs h hw
termination_by structural s

/-- **Functions are named by bindings.** -/
theorem Stmt.keep_named (ss : List Stmt) (hss : Stmt.LabelledAll ss) {w w' : Walk}
    {cs : List Command} (h : Stmt.resolveAll ss w = some (cs, w')) (hw : w.Named) : w'.Named := by
  cases ss with
  | nil =>
    obtain ⟨-, rfl⟩ := Stmt.resolveAll_nil.mp h
    exact hw
  | cons s ss =>
    obtain ⟨cs₁, w₁, h₁, cs₂, h₂, -⟩ := Stmt.resolveAll_cons.mp h
    exact Stmt.keep_named ss hss.2 h₂ (Stmt.keeps_named s hss.1 h₁ hw)
termination_by structural ss

end

end Monkey
