import Monkey.Proofs.Scope
import Monkey.Proofs.Walking

/-!
# Resolved trees are well scoped

Every symbol in a resolved tree stands for its name in the final numbering of the names that it can
see, and every number for the literal that it was given to (`Term.Scoped`). The same holds of the
bodies of all literals (`Walk.Sound`).

The walk only ever adds names and literals (`Walk.To`), and what is scoped stays scoped when more
becomes visible (`Term.Scoped.mono`). So the parts of a tree, which are resolved one after the other,
are all scoped in what is visible at its end (`Expr.resolve_spec`).
-/

namespace Monkey

/-! ### What is visible -/

/-- The names and the literals that a tree can refer to. -/
structure Visible where
  globals : Numbering String
  locals? : Option (Numbering String)
  literals : Array Literal

/-- `v'` shows what `v` shows, and perhaps more. -/
structure Visible.Extends (v v' : Visible) : Prop where
  globals : v.globals.Extends v'.globals
  locals? : LocalsExtend v.locals? v'.locals?
  literals : ∀ (i : Nat) l, v.literals[i]? = some l → v'.literals[i]? = some l

/-- The names are numbered without gaps. -/
structure Visible.Dense (v : Visible) : Prop where
  globals : v.globals.Dense
  locals? : ∀ ns, v.locals? = some ns → ns.Dense

theorem Visible.Dense.outermost {v : Visible} (hglobals : v.globals.Dense)
    (hlocals : v.locals? = none) : v.Dense :=
  ⟨hglobals, fun ns hns => by rw [hlocals] at hns; cases hns⟩

theorem Visible.Dense.function {globals names : Numbering String} (hglobals : globals.Dense)
    (hnames : names.Dense) (literals : Array Literal) :
    Visible.Dense ⟨globals, some names, literals⟩ :=
  ⟨hglobals, fun _ hns => Option.some.inj hns ▸ hnames⟩

mutual

/-- The symbols and the numbers of a term are those of what is visible. -/
def Term.Scoped (v : Visible) : Term → Prop
  | .load s => s.In v.globals v.locals?
  | .boolean _ => True
  | .integer i n => v.literals[i]? = some (.integer n)
  | .string i s => v.literals[i]? = some (.string s)
  | .function i k name => ∃ parameters names body,
      v.literals[i]? = some (.function name parameters names body) ∧ parameters.length = k
  | .unary _ t => t.Scoped v
  | .binary _ t u => t.Scoped v ∧ u.Scoped v
  | .cond t yes no => t.Scoped v ∧ Command.ScopedAll v yes ∧ Command.ScopedAll v no
  | .call t ts => t.Scoped v ∧ Term.ScopedAll v ts
  | .array ts => Term.ScopedAll v ts
  | .hash ts => Term.ScopedAll v ts
  | .index t u => t.Scoped v ∧ u.Scoped v
termination_by structural t => t

/-- All of several terms are scoped. -/
def Term.ScopedAll (v : Visible) : List Term → Prop
  | [] => True
  | t :: ts => t.Scoped v ∧ Term.ScopedAll v ts
termination_by structural ts => ts

/-- The symbols and the numbers of a command are those of what is visible, and it stores in global
slots exactly when it stands outside functions. -/
def Command.Scoped (v : Visible) : Command → Prop
  | .store s t => s.In v.globals v.locals? ∧ (s.storage = .global ↔ v.locals? = none) ∧ t.Scoped v
  | .ret t => t.Scoped v
  | .drop t => t.Scoped v
termination_by structural c => c

/-- All of several commands are scoped. -/
def Command.ScopedAll (v : Visible) : List Command → Prop
  | [] => True
  | c :: cs => c.Scoped v ∧ Command.ScopedAll v cs
termination_by structural cs => cs

end

/-- The body of a function is scoped among its own names and what is visible around it. Parameters
without a repetition take the first slots. -/
def Literal.Scoped (globals : Numbering String) (literals : Array Literal) : Literal → Prop
  | .integer _ => True
  | .string _ => True
  | .function _ parameters names body =>
    names.Dense ∧ Command.ScopedAll ⟨globals, some names, literals⟩ body ∧
      (parameters.Nodup → ∀ i x, parameters[i]? = some x → names.find? x = some i)

theorem Command.scopedAll_append {v : Visible} {cs ds : List Command} :
    Command.ScopedAll v (cs ++ ds) ↔ Command.ScopedAll v cs ∧ Command.ScopedAll v ds := by
  induction cs with
  | nil => simp [Command.ScopedAll]
  | cons c cs ih => simp [Command.ScopedAll, ih, and_assoc]

/-! ### More becomes visible -/

mutual

theorem Term.Scoped.mono {v v' : Visible} (hv : v.Extends v') (t : Term) (h : t.Scoped v) :
    t.Scoped v' := by
  cases t with
  | load s => exact Symbol.In.mono h hv.globals hv.locals?
  | boolean b => exact h
  | integer i n => exact hv.literals _ _ h
  | string i s => exact hv.literals _ _ h
  | function i k name =>
    obtain ⟨parameters, names, body, hi, hk⟩ := h
    exact ⟨parameters, names, body, hv.literals _ _ hi, hk⟩
  | unary op t => exact Term.Scoped.mono hv t h
  | binary op t u => exact ⟨Term.Scoped.mono hv t h.1, Term.Scoped.mono hv u h.2⟩
  | cond t yes no =>
    exact ⟨Term.Scoped.mono hv t h.1, Command.ScopedAll.mono hv yes h.2.1,
      Command.ScopedAll.mono hv no h.2.2⟩
  | call t ts => exact ⟨Term.Scoped.mono hv t h.1, Term.ScopedAll.mono hv ts h.2⟩
  | array ts => exact Term.ScopedAll.mono hv ts h
  | hash ts => exact Term.ScopedAll.mono hv ts h
  | index t u => exact ⟨Term.Scoped.mono hv t h.1, Term.Scoped.mono hv u h.2⟩
termination_by structural t

theorem Term.ScopedAll.mono {v v' : Visible} (hv : v.Extends v') (ts : List Term)
    (h : Term.ScopedAll v ts) : Term.ScopedAll v' ts := by
  cases ts with
  | nil => trivial
  | cons t ts => exact ⟨Term.Scoped.mono hv t h.1, Term.ScopedAll.mono hv ts h.2⟩
termination_by structural ts

theorem Command.Scoped.mono {v v' : Visible} (hv : v.Extends v') (c : Command) (h : c.Scoped v) :
    c.Scoped v' := by
  cases c with
  | store s t =>
    refine ⟨h.1.mono hv.globals hv.locals?, h.2.1.trans ?_, Term.Scoped.mono hv t h.2.2⟩
    rw [← Option.isNone_iff_eq_none, ← Option.isNone_iff_eq_none, ← Option.not_isSome,
      ← Option.not_isSome, hv.locals?.isSome_eq]
  | ret t => exact Term.Scoped.mono hv t h
  | drop t => exact Term.Scoped.mono hv t h
termination_by structural c

theorem Command.ScopedAll.mono {v v' : Visible} (hv : v.Extends v') (cs : List Command)
    (h : Command.ScopedAll v cs) : Command.ScopedAll v' cs := by
  cases cs with
  | nil => trivial
  | cons c cs => exact ⟨Command.Scoped.mono hv c h.1, Command.ScopedAll.mono hv cs h.2⟩
termination_by structural cs

end

/-! ### Walks -/

namespace Walk

/-- What a tree can refer to that is resolved at this point. -/
def visible (w : Walk) : Visible := ⟨w.scope.globals, w.scope.locals?, w.literals⟩

/-- The scopes are numbered without gaps, and the literals so far are well scoped. -/
structure Sound (w : Walk) : Prop where
  dense : w.scope.Dense
  literals : ∀ (i : Nat) l, w.literals[i]? = some l → l.Scoped w.scope.globals w.literals

/-- The walk leads on from `w` to `w'`. -/
structure To (w w' : Walk) : Prop where
  sound : w'.Sound
  grows : w.scope.Grows w'.scope
  literals : ∀ (i : Nat) l, w.literals[i]? = some l → w'.literals[i]? = some l

theorem To.visible {w w' : Walk} (h : w.To w') : w.visible.Extends w'.visible :=
  ⟨h.grows.globals, h.grows.locals?, h.literals⟩

theorem Sound.to (w : Walk) (h : w.Sound) : w.To w := ⟨h, .refl _, fun _ _ hi => hi⟩

theorem To.trans {w₁ w₂ w₃ : Walk} (h : w₁.To w₂) (h' : w₂.To w₃) : w₁.To w₃ :=
  ⟨h'.sound, h.grows.trans h'.grows, fun i l hi => h'.literals i l (h.literals i l hi)⟩

end Walk

theorem Literal.Scoped.mono {gs gs' : Numbering String} {ls ls' : Array Literal} {l : Literal}
    (h : l.Scoped gs ls) (hg : gs.Extends gs')
    (hl : ∀ (i : Nat) l, ls[i]? = some l → ls'[i]? = some l) : l.Scoped gs' ls' := by
  cases l with
  | integer n => trivial
  | string s => trivial
  | function name parameters names body =>
    have hv : Visible.Extends ⟨gs, some names, ls⟩ ⟨gs', some names, ls'⟩ := ⟨hg, .refl _, hl⟩
    exact ⟨h.1, Command.ScopedAll.mono hv body h.2.1, h.2.2⟩

namespace Resolving

/-- Binding a name always succeeds. -/
theorem define_spec {x : String} {w w' : Walk} {s : Symbol} (hw : w.Sound)
    (h : define x w = some (s, w')) :
    w.To w' ∧ w' = { w with scope := w.scope.define x } ∧ s.In w'.scope.globals w'.scope.locals? ∧
      s.storage = w.scope.storage := by
  obtain ⟨hfound, rfl⟩ := define_eq_some.mp h
  have hgrows := w.scope.grows_define x
  refine ⟨⟨⟨hw.dense.define x, fun i l hi => ?_⟩, hgrows, fun i l hi => hi⟩, rfl,
    (Scope.find?_in hfound).1, ?_⟩
  · exact (hw.literals i l hi).mono hgrows.globals fun _ _ hi => hi
  · rw [(Scope.find?_in hfound).2.2, Scope.storage_define]

theorem defineAll_spec {xs : List String} {w w' : Walk} (hw : w.Sound)
    (h : defineAll xs w = some ((), w')) :
    w.To w' ∧ w' = { w with scope := xs.foldl (fun s x => s.define x) w.scope } := by
  induction xs generalizing w with
  | nil =>
    obtain ⟨-, rfl⟩ := pure_eq_some.mp h
    exact ⟨hw.to, rfl⟩
  | cons x xs ih =>
    obtain ⟨s, w₁, hx, hxs⟩ := bind_eq_some.mp h
    obtain ⟨hto, rfl, -⟩ := define_spec hw hx
    obtain ⟨hto', rfl⟩ := ih hto.sound hxs
    exact ⟨hto.trans hto', rfl⟩

theorem number_spec {l : Literal} {w w' : Walk} {i : Nat} (hw : w.Sound)
    (hl : l.Scoped w.scope.globals w.literals) (h : number l w = some (i, w')) :
    w.To w' ∧ w'.literals[i]? = some l := by
  obtain ⟨rfl, rfl⟩ := Prod.mk.inj (Option.some.inj h)
  have hpush : ∀ (i : Nat) l', w.literals[i]? = some l' → (w.literals.push l)[i]? = some l' := by
    intro i l' hi
    obtain ⟨hlt, -⟩ := Array.getElem?_eq_some_iff.mp hi
    rw [Array.getElem?_push, if_neg (by omega), hi]
  refine ⟨⟨⟨hw.dense, fun i l' hi => ?_⟩, .refl _, hpush⟩, Array.getElem?_push_size⟩
  rw [Array.getElem?_push] at hi
  split at hi
  · obtain rfl := Option.some.inj hi
    exact hl.mono (.refl _) hpush
  · exact (hw.literals i l' hi).mono (.refl _) hpush

/-- Names bound one after the other in the scope of a function. -/
theorem foldl_define_nested (xs : List String) (ns : Numbering String) (s : Scope) :
    xs.foldl (fun s x => s.define x) (Scope.nested ns s) =
      Scope.nested (xs.foldl Numbering.add ns) s := by
  induction xs generalizing ns with
  | nil => rfl
  | cons x xs ih => exact ih (ns.add x)

/-- A function literal is scoped when its body is, wherever the walk through the body starts. -/
theorem function_spec {name : Option String} {parameters : List String}
    {body : Resolving (List Command)} {w w' : Walk} {t : Term} (hw : w.Sound)
    (hbody : ∀ {w w' cs}, w.Sound → body w = some (cs, w') →
      w.To w' ∧ Command.ScopedAll w'.visible cs)
    (h : function name parameters body w = some (t, w')) :
    w.To w' ∧ t.Scoped w'.visible := by
  obtain ⟨w₁, cs, w₂, hparameters, hcs, rfl, rfl⟩ := function_eq_some.mp h
  have henter : Walk.Sound { w with scope := w.scope.enclose } := ⟨hw.dense.enclose, hw.literals⟩
  obtain ⟨hto₁, rfl⟩ := defineAll_spec henter hparameters
  obtain ⟨hto₂, hscoped⟩ := hbody hto₁.sound hcs
  -- inside, only the level of the function grows
  have hscope : ∃ ns, w₂.scope = .nested ns w.scope ∧
      (parameters.foldl Numbering.add Numbering.empty).Extends ns := by
    have hgrows := hto₂.grows
    simp only [Scope.enclose, foldl_define_nested] at hgrows
    cases hs : w₂.scope with
    | outermost ns =>
      rw [hs] at hgrows
      exact hgrows.elim
    | nested ns s =>
      rw [hs] at hgrows
      exact ⟨ns, by rw [← hgrows.2], hgrows.1⟩
  obtain ⟨ns, hns, hfirst⟩ := hscope
  have hliteral : (Literal.function name parameters w₂.scope.names cs).Scoped w.scope.globals
      w₂.literals := by
    have hdense := hto₂.sound.dense
    rw [hns] at hdense ⊢
    refine ⟨hdense.1, ?_, fun hnodup i x hi => hfirst _ _ ?_⟩
    · simpa [Walk.visible, hns, Scope.globals, Scope.locals?, Scope.names] using hscoped
    · simpa using Numbering.find?_foldl_add hnodup Numbering.dense_empty (by simp) hi
  have houtside : Walk.Sound ⟨w.scope, w₂.literals⟩ := by
    refine ⟨hw.dense, fun i l hi => ?_⟩
    simpa [hns, Scope.globals] using hto₂.sound.literals i l hi
  obtain ⟨hto, hnumber⟩ := number_spec houtside hliteral rfl
  refine ⟨⟨hto.sound, .refl _, fun i l hi => hto.literals i l ?_⟩, _, _, _, hnumber, rfl⟩
  exact hto₂.literals i l (hto₁.literals i l hi)

/-- A binding is scoped when its value is, once the name is bound. -/
theorem store_spec {x : String} {value : Resolving Term} {w w' : Walk} {cs : List Command}
    (hw : w.Sound)
    (hvalue : ∀ {w w' t}, w.Sound → value w = some (t, w') → w.To w' ∧ t.Scoped w'.visible)
    (h : (do let s ← define x; return [Command.store s (← value)]) w = some (cs, w')) :
    w.To w' ∧ Command.ScopedAll w'.visible cs := by
  obtain ⟨s, w₁, hs, t, ht, rfl⟩ := store_eq_some.mp h
  obtain ⟨hto₁, rfl, hin, hstorage⟩ := define_spec hw hs
  obtain ⟨hto₂, hscoped⟩ := hvalue hto₁.sound ht
  refine ⟨hto₁.trans hto₂, ⟨hin.mono hto₂.grows.globals hto₂.grows.locals?, ?_, hscoped⟩, trivial⟩
  rw [hstorage, ← (hto₁.trans hto₂).grows.storage]
  exact Scope.storage_eq_global_iff _

end Resolving

open Resolving

mutual

/-- **A resolved expression is well scoped** in what is visible at the end of its walk. -/
theorem Expr.resolve_spec (e : Expr) {w w' : Walk} {t : Term} (hw : w.Sound)
    (h : e.resolve w = some (t, w')) : w.To w' ∧ t.Scoped w'.visible := by
  cases e with
  | name id =>
    obtain ⟨s, hfound, rfl, rfl⟩ := Expr.resolve_name.mp h
    exact ⟨hw.to, (Scope.resolve_in hfound).1⟩
  | integer _ n =>
    obtain ⟨rfl, rfl⟩ := Expr.resolve_integer.mp h
    exact number_spec hw trivial rfl
  | string _ s =>
    obtain ⟨rfl, rfl⟩ := Expr.resolve_string.mp h
    exact number_spec hw trivial rfl
  | boolean _ b =>
    obtain ⟨rfl, rfl⟩ := Expr.resolve_boolean.mp h
    exact ⟨hw.to, trivial⟩
  | unary _ op e =>
    obtain ⟨t₁, h₁, rfl⟩ := Expr.resolve_unary.mp h
    obtain ⟨hto, hs⟩ := Expr.resolve_spec e hw h₁
    exact ⟨hto, hs⟩
  | binary _ op l r =>
    by_cases hop : op = .lt
    · -- the right operand is resolved first
      subst hop
      obtain ⟨t₁, w₁, h₁, t₂, h₂, rfl⟩ := Expr.resolve_lt.mp h
      obtain ⟨hto₁, hs₁⟩ := Expr.resolve_spec r hw h₁
      obtain ⟨hto₂, hs₂⟩ := Expr.resolve_spec l hto₁.sound h₂
      exact ⟨hto₁.trans hto₂, Term.Scoped.mono hto₂.visible _ hs₁, hs₂⟩
    · obtain ⟨t₁, w₁, h₁, t₂, h₂, rfl⟩ := (Expr.resolve_binary hop).mp h
      obtain ⟨hto₁, hs₁⟩ := Expr.resolve_spec l hw h₁
      obtain ⟨hto₂, hs₂⟩ := Expr.resolve_spec r hto₁.sound h₂
      exact ⟨hto₁.trans hto₂, Term.Scoped.mono hto₂.visible _ hs₁, hs₂⟩
  | cond _ condition consequence alternative =>
    cases alternative with
    | none =>
      obtain ⟨c, w₁, hc, yes, hyes, rfl⟩ := Expr.resolve_cond_none.mp h
      obtain ⟨hto₁, hs₁⟩ := Expr.resolve_spec condition hw hc
      obtain ⟨hto₂, hs₂⟩ := Block.resolve_spec consequence hto₁.sound hyes
      exact ⟨hto₁.trans hto₂, Term.Scoped.mono hto₂.visible _ hs₁, hs₂, trivial⟩
    | some block =>
      obtain ⟨c, w₁, hc, yes, w₂, hyes, no, hno, rfl⟩ := Expr.resolve_cond_some.mp h
      obtain ⟨hto₁, hs₁⟩ := Expr.resolve_spec condition hw hc
      obtain ⟨hto₂, hs₂⟩ := Block.resolve_spec consequence hto₁.sound hyes
      obtain ⟨hto₃, hs₃⟩ := Block.resolve_spec block hto₂.sound hno
      have hto₂₃ := hto₂.trans hto₃
      exact ⟨hto₁.trans hto₂₃, Term.Scoped.mono hto₂₃.visible _ hs₁,
        Command.ScopedAll.mono hto₃.visible _ hs₂, hs₃⟩
  | function _ parameters body =>
    exact function_spec hw (fun hw' h' => Block.resolve_spec body hw' h') h
  | call _ callee arguments =>
    obtain ⟨f, w₁, hf, ts, hts, rfl⟩ := Expr.resolve_call.mp h
    obtain ⟨hto₁, hs₁⟩ := Expr.resolve_spec callee hw hf
    obtain ⟨hto₂, hs₂⟩ := Expr.resolveAll_spec arguments hto₁.sound hts
    exact ⟨hto₁.trans hto₂, Term.Scoped.mono hto₂.visible _ hs₁, hs₂⟩
  | array _ elements =>
    obtain ⟨ts, hts, rfl⟩ := Expr.resolve_array.mp h
    obtain ⟨hto, hs⟩ := Expr.resolveAll_spec elements hw hts
    exact ⟨hto, hs⟩
  | hash _ pairs =>
    obtain ⟨ts, hts, rfl⟩ := Expr.resolve_hash.mp h
    obtain ⟨hto, hs⟩ := Expr.resolvePairs_spec pairs hw hts
    exact ⟨hto, hs⟩
  | index _ collection key =>
    obtain ⟨t₁, w₁, h₁, t₂, h₂, rfl⟩ := Expr.resolve_index.mp h
    obtain ⟨hto₁, hs₁⟩ := Expr.resolve_spec collection hw h₁
    obtain ⟨hto₂, hs₂⟩ := Expr.resolve_spec key hto₁.sound h₂
    exact ⟨hto₁.trans hto₂, Term.Scoped.mono hto₂.visible _ hs₁, hs₂⟩
termination_by structural e

theorem Expr.resolveAll_spec (es : List Expr) {w w' : Walk} {ts : List Term} (hw : w.Sound)
    (h : Expr.resolveAll es w = some (ts, w')) : w.To w' ∧ Term.ScopedAll w'.visible ts := by
  cases es with
  | nil =>
    obtain ⟨rfl, rfl⟩ := Expr.resolveAll_nil.mp h
    exact ⟨hw.to, trivial⟩
  | cons e es =>
    obtain ⟨t, w₁, ht, ts, hts, rfl⟩ := Expr.resolveAll_cons.mp h
    obtain ⟨hto₁, hs₁⟩ := Expr.resolve_spec e hw ht
    obtain ⟨hto₂, hs₂⟩ := Expr.resolveAll_spec es hto₁.sound hts
    exact ⟨hto₁.trans hto₂, Term.Scoped.mono hto₂.visible _ hs₁, hs₂⟩
termination_by structural es

theorem Expr.resolvePairs_spec (ps : List (Expr × Expr)) {w w' : Walk} {ts : List Term}
    (hw : w.Sound) (h : Expr.resolvePairs ps w = some (ts, w')) :
    w.To w' ∧ Term.ScopedAll w'.visible ts := by
  cases ps with
  | nil =>
    obtain ⟨rfl, rfl⟩ := Expr.resolvePairs_nil.mp h
    exact ⟨hw.to, trivial⟩
  | cons p ps =>
    cases p with
    | mk key value =>
    obtain ⟨k, w₁, hk, v, w₂, hv, ts, hts, rfl⟩ := Expr.resolvePairs_cons.mp h
    obtain ⟨hto₁, hs₁⟩ := Expr.resolve_spec key hw hk
    obtain ⟨hto₂, hs₂⟩ := Expr.resolve_spec value hto₁.sound hv
    obtain ⟨hto₃, hs₃⟩ := Expr.resolvePairs_spec ps hto₂.sound hts
    have hto₂₃ := hto₂.trans hto₃
    exact ⟨hto₁.trans hto₂₃, Term.Scoped.mono hto₂₃.visible _ hs₁,
      Term.Scoped.mono hto₃.visible _ hs₂, hs₃⟩
termination_by structural ps

theorem Block.resolve_spec (b : Block) {w w' : Walk} {cs : List Command} (hw : w.Sound)
    (h : b.resolve w = some (cs, w')) : w.To w' ∧ Command.ScopedAll w'.visible cs := by
  cases b with
  | mk _ statements => exact Stmt.resolveAll_spec statements hw h
termination_by structural b

theorem Stmt.resolve_spec (s : Stmt) {w w' : Walk} {cs : List Command} (hw : w.Sound)
    (h : s.resolve w = some (cs, w')) : w.To w' ∧ Command.ScopedAll w'.visible cs := by
  cases s with
  | bind _ id value =>
    -- only a function literal takes the name that it is bound to
    cases value with
    | function _ parameters body =>
      refine store_spec hw (fun hw₁ ht => ?_) h
      exact function_spec hw₁ (fun hw' h' => Block.resolve_spec body hw' h') ht
    | _ => exact store_spec hw (fun hw₁ ht => Expr.resolve_spec _ hw₁ ht) h
  | ret _ value =>
    obtain ⟨t, ht, rfl⟩ := Stmt.resolve_ret.mp h
    obtain ⟨hto, hs⟩ := Expr.resolve_spec value hw ht
    exact ⟨hto, hs, trivial⟩
  | expr _ value =>
    obtain ⟨t, ht, rfl⟩ := Stmt.resolve_expr.mp h
    obtain ⟨hto, hs⟩ := Expr.resolve_spec value hw ht
    exact ⟨hto, hs, trivial⟩
  | block body => exact Block.resolve_spec body hw h
termination_by structural s

theorem Stmt.resolveAll_spec (ss : List Stmt) {w w' : Walk} {cs : List Command} (hw : w.Sound)
    (h : Stmt.resolveAll ss w = some (cs, w')) :
    w.To w' ∧ Command.ScopedAll w'.visible cs := by
  cases ss with
  | nil =>
    obtain ⟨rfl, rfl⟩ := Stmt.resolveAll_nil.mp h
    exact ⟨hw.to, trivial⟩
  | cons s ss =>
    obtain ⟨cs₁, w₁, h₁, cs₂, h₂, rfl⟩ := Stmt.resolveAll_cons.mp h
    obtain ⟨hto₁, hs₁⟩ := Stmt.resolve_spec s hw h₁
    obtain ⟨hto₂, hs₂⟩ := Stmt.resolveAll_spec ss hto₁.sound h₂
    refine ⟨hto₁.trans hto₂, Command.scopedAll_append.mpr ⟨?_, hs₂⟩⟩
    exact Command.ScopedAll.mono hto₂.visible _ hs₁
termination_by structural ss

end

end Monkey
