import Monkey.Proofs.Numbering
import Monkey.Scope

/-!
# What scopes see

From inside a scope two numberings can be seen: that of the global names and, inside a function,
that of its own names. `Symbol.In` says that a symbol stands for its name in one of them, and
`Scope.resolve_in` that every symbol a name resolves to does. Binding a name changes the innermost
level only, and that one only grows (`Scope.Grows`).
-/

namespace Monkey

/-! ### Symbols -/

/-- The symbol is that of its name, among the global names or among those of the function. -/
def Symbol.In (globals : Numbering String) (locals : Option (Numbering String)) (s : Symbol) :
    Prop :=
  match s.storage with
  | .global => globals.find? s.name = some s.slot
  | .frame => ∃ ns, locals = some ns ∧ ns.find? s.name = some s.slot

/-- `ls'` are the names of the same function as `ls`, or a few more. -/
def LocalsExtend : Option (Numbering String) → Option (Numbering String) → Prop
  | none, none => True
  | some ns, some ns' => ns.Extends ns'
  | _, _ => False

theorem LocalsExtend.refl : ∀ ls, LocalsExtend ls ls
  | none => trivial
  | some ns => Numbering.Extends.refl ns

theorem LocalsExtend.isSome_eq : ∀ {ls ls'}, LocalsExtend ls ls' → ls.isSome = ls'.isSome
  | none, none, _ => rfl
  | some _, some _, _ => rfl

theorem Symbol.In.mono {gs gs' : Numbering String} {ls ls' : Option (Numbering String)} {s : Symbol}
    (h : s.In gs ls) (hg : gs.Extends gs') (hl : LocalsExtend ls ls') : s.In gs' ls' := by
  unfold Symbol.In at h ⊢
  cases hs : s.storage with
  | global =>
    rw [hs] at h
    exact hg _ _ h
  | frame =>
    rw [hs] at h
    obtain ⟨ns, rfl, hn⟩ := h
    cases ls' with
    | none => exact hl.elim
    | some ns' => exact ⟨ns', rfl, hl _ _ hn⟩

namespace Scope

/-! ### Levels -/

/-- The global names. -/
def globals : Scope → Numbering String
  | outermost ns => ns
  | nested _ s => s.globals

/-- The names of the function, inside one. -/
def locals? : Scope → Option (Numbering String)
  | outermost _ => none
  | nested ns _ => some ns

/-- Outside functions the innermost names are the global ones. -/
theorem names_of_outermost {s : Scope} (h : s.locals? = none) : s.names = s.globals := by
  cases s with
  | outermost ns => rfl
  | nested ns s => cases h

/-- Outside functions a name stands for the global one. -/
theorem resolve_of_outermost {s : Scope} (h : s.locals? = none) (x : String) :
    s.resolve x = (s.globals.find? x).map fun i => ⟨x, .global, i⟩ := by
  cases s with
  | outermost ns => rfl
  | nested ns s => cases h

/-- Every level is numbered without a gap. -/
def Dense : Scope → Prop
  | outermost ns => ns.Dense
  | nested ns s => ns.Dense ∧ s.Dense

theorem dense_empty : Scope.empty.Dense := Numbering.dense_empty

theorem Dense.enclose {s : Scope} (h : s.Dense) : s.enclose.Dense := ⟨Numbering.dense_empty, h⟩

theorem Dense.define {s : Scope} (h : s.Dense) (x : String) : (s.define x).Dense := by
  cases s with
  | outermost ns => exact Numbering.Dense.add h x
  | nested ns s => exact ⟨h.1.add x, h.2⟩

theorem Dense.names {s : Scope} (h : s.Dense) : s.names.Dense := by
  cases s with
  | outermost ns => exact h
  | nested ns s => exact h.1

theorem Dense.outer? {s outer : Scope} (h : s.Dense) (houter : s.outer? = some outer) :
    outer.Dense := by
  cases s with
  | outermost ns => cases houter
  | nested ns s =>
    obtain rfl := Option.some.inj houter
    exact h.2

theorem Dense.globals {s : Scope} (h : s.Dense) : s.globals.Dense := by
  induction s with
  | outermost ns => exact h
  | nested ns s ih => exact ih h.2

/-! ### Growth -/

/-- `s'` is `s` with a few more names in its innermost level. -/
def Grows : Scope → Scope → Prop
  | outermost ns, outermost ns' => ns.Extends ns'
  | nested ns s, nested ns' s' => ns.Extends ns' ∧ s = s'
  | _, _ => False

theorem Grows.refl (s : Scope) : s.Grows s := by
  cases s with
  | outermost ns => exact Numbering.Extends.refl ns
  | nested ns s => exact ⟨Numbering.Extends.refl ns, rfl⟩

theorem Grows.trans : ∀ {s₁ s₂ s₃ : Scope}, s₁.Grows s₂ → s₂.Grows s₃ → s₁.Grows s₃
  | outermost _, outermost _, outermost _, h, h' => Numbering.Extends.trans h h'
  | nested _ _, nested _ _, nested _ _, h, h' => ⟨h.1.trans h'.1, h.2.trans h'.2⟩

theorem grows_define (s : Scope) (x : String) : s.Grows (s.define x) := by
  cases s with
  | outermost ns => exact Numbering.extends_add ns x
  | nested ns s => exact ⟨Numbering.extends_add ns x, rfl⟩

theorem Grows.globals : ∀ {s s' : Scope}, s.Grows s' → s.globals.Extends s'.globals
  | outermost _, outermost _, h => h
  | nested _ _, nested _ _, h => by rw [Scope.globals, Scope.globals, h.2]; exact Numbering.Extends.refl _

theorem Grows.locals? : ∀ {s s' : Scope}, s.Grows s' → LocalsExtend s.locals? s'.locals?
  | outermost _, outermost _, _ => trivial
  | nested _ _, nested _ _, h => h.1

theorem Grows.outer? : ∀ {s s' : Scope}, s.Grows s' → s'.outer? = s.outer?
  | outermost _, outermost _, _ => rfl
  | nested _ _, nested _ _, h => by rw [Scope.outer?, Scope.outer?, h.2]

theorem storage_eq_global_iff (s : Scope) : s.storage = .global ↔ s.locals? = none := by
  cases s <;> simp [storage, locals?]

theorem Grows.storage : ∀ {s s' : Scope}, s.Grows s' → s'.storage = s.storage
  | outermost _, outermost _, _ => rfl
  | nested _ _, nested _ _, _ => rfl

@[simp] theorem storage_define (s : Scope) (x : String) : (s.define x).storage = s.storage :=
  (s.grows_define x).storage

@[simp] theorem outer?_define (s : Scope) (x : String) : (s.define x).outer? = s.outer? :=
  (s.grows_define x).outer?

theorem names_define (s : Scope) (x : String) : (s.define x).names = s.names.add x := by
  cases s <;> rfl

/-! ### Looking up -/

theorem find?_eq_some_iff {s : Scope} {x : String} {symbol : Symbol} :
    s.find? x = some symbol ↔ ∃ i, s.names.find? x = some i ∧ symbol = ⟨x, s.storage, i⟩ := by
  unfold find?
  rw [Option.map_eq_some_iff]
  exact exists_congr fun i => and_congr_right fun _ => eq_comm

theorem find?_in {s : Scope} {x : String} {symbol : Symbol} (h : s.find? x = some symbol) :
    symbol.In s.globals s.locals? ∧ symbol.name = x ∧ symbol.storage = s.storage := by
  obtain ⟨slot, hslot, rfl⟩ := find?_eq_some_iff.mp h
  refine ⟨?_, rfl, rfl⟩
  cases s with
  | outermost ns => exact hslot
  | nested ns s => exact ⟨ns, rfl, hslot⟩

/-- A name that was just bound has a symbol. -/
theorem isSome_find?_define (s : Scope) (x : String) : ((s.define x).find? x).isSome := by
  unfold find?
  rw [Option.isSome_map]
  cases s with
  | outermost ns => exact Numbering.isSome_find?_add ns x
  | nested ns s => exact Numbering.isSome_find?_add ns x

/-- **Resolution is sound**: the symbol of a name is that of the function or the global one. -/
theorem resolve_in {s : Scope} {x : String} {symbol : Symbol} (h : s.resolve x = some symbol) :
    symbol.In s.globals s.locals? ∧ symbol.name = x := by
  induction s generalizing symbol with
  | outermost ns => exact ⟨(find?_in h).1, (find?_in h).2.1⟩
  | nested ns s ih =>
    rw [resolve] at h
    split at h
    · next symbol' hfound =>
      obtain rfl := Option.some.inj h
      exact ⟨(find?_in hfound).1, (find?_in hfound).2.1⟩
    · obtain ⟨hs, hglobal⟩ := Option.filter_eq_some_iff.mp h
      obtain ⟨hin, hname⟩ := ih hs
      refine ⟨?_, hname⟩
      simp only [decide_eq_true_eq] at hglobal
      unfold Symbol.In at hin ⊢
      rw [hglobal] at hin ⊢
      exact hin

end Scope

end Monkey
