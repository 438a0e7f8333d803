import Mathlib.Logic.ExistsUnique
import Monkey.Proofs.Scope

/-!
# Levels of scopes

While a program is compiled, names are bound and looked up, and functions are entered and left. These are
the actions on a scope, and `Scope.after` says what any of them, in any order, lead to.

A scope has a level for every function that is open (`Scope.functions`) and an outermost one
(`Scope.root`). Whatever the actions were, the following holds of them.

* In each level the names and the slots below its size belong to each other one by one
  (`Scope.Dense.functions`, `Scope.Dense.root`): a name that is bound again keeps its slot
  (`Scope.define_of_find?`), and a new one takes the next (`Scope.find?_define`).
* What stands around a level stays as it is while the level is open (`Scope.around_after`).
* A name stands for a symbol of the innermost level or of the outermost one, and for no other
  (`Scope.resolve_eq`).

`Scope.after_levels` puts them together.
-/

namespace Monkey.Scope

variable {s t : Scope} {x : String} {symbol : Symbol}

/-! ### Actions -/

/-- What can be done with a scope. -/
inductive Action where
  | define (name : String)
  | resolve (name : String)
  | enclose
  | leave
deriving Repr, DecidableEq

/-- The scope after an action. There is nothing around an outermost scope, so to leave it is to start
with an empty one. -/
def act (s : Scope) : Action → Scope
  | .define x => s.define x
  | .resolve _ => s
  | .enclose => s.enclose
  | .leave => s.outer?.getD empty

/-- The scope after some actions. -/
def after (s : Scope) (actions : List Action) : Scope := actions.foldl act s

theorem Dense.act (h : s.Dense) (a : Action) : (s.act a).Dense := by
  cases a with
  | define x => exact h.define x
  | resolve _ => exact h
  | enclose => exact h.enclose
  | leave =>
    unfold Scope.act
    cases houter : s.outer? with
    | none => exact dense_empty
    | some outer => exact h.outer? houter

theorem Dense.after (h : s.Dense) (actions : List Action) : (s.after actions).Dense := by
  induction actions generalizing s with
  | nil => exact h
  | cons a actions ih => exact ih (h.act a)

/-! ### Levels -/

/-- The functions that are open, the innermost first, each with what stands around it. -/
def functions : Scope → List Scope
  | outermost _ => []
  | nested ns s => nested ns s :: s.functions

/-- The outermost level. -/
def root : Scope → Scope
  | outermost ns => outermost ns
  | nested _ s => s.root

@[simp] theorem storage_root (s : Scope) : s.root.storage = .global := by
  induction s with
  | outermost ns => rfl
  | nested ns s ih => exact ih

/-- The names of the innermost level and the slots below its size belong to each other one by one, and
all of them are slots of the given storage. -/
structure Numbered (s : Scope) (storage : Storage) : Prop where
  exists_slot {x : String} {symbol : Symbol} (h : s.find? x = some symbol) :
    ∃ i < s.size, symbol = ⟨x, storage, i⟩
  existsUnique_name {i : Nat} (h : i < s.size) : ∃! x, s.find? x = some ⟨x, storage, i⟩

theorem Dense.numbered (h : s.Dense) : s.Numbered s.storage where
  exists_slot hfound := by
    obtain ⟨i, hi, rfl⟩ := find?_eq_some_iff.mp hfound
    exact ⟨i, h.names.lt_size hi, rfl⟩
  existsUnique_name {i} hi := by
    obtain ⟨x, hx⟩ := h.names.exists_find?_eq hi
    refine ⟨x, find?_eq_some_iff.mpr ⟨i, hx, rfl⟩, fun y hy => ?_⟩
    obtain ⟨j, hj, heq⟩ := find?_eq_some_iff.mp hy
    obtain rfl : i = j := congrArg Symbol.slot heq
    exact h.names.injective hj hx

theorem Dense.functions (h : s.Dense) : ∀ f ∈ s.functions, f.Numbered .frame := by
  induction s with
  | outermost ns => exact List.forall_mem_nil _
  | nested ns s ih => exact List.forall_mem_cons.mpr ⟨h.numbered, ih h.2⟩

theorem Dense.root (h : s.Dense) : s.root.Numbered .global := by
  induction s with
  | outermost ns => exact h.numbered
  | nested ns s ih => exact ih h.2

/-! ### Binding -/

/-- A name that is bound in the innermost level is not bound again. -/
theorem define_of_find? (h : s.find? x = some symbol) : s.define x = s := by
  obtain ⟨i, hi, -⟩ := find?_eq_some_iff.mp h
  cases s with
  | outermost ns => exact congrArg outermost (Numbering.add_of_find? hi)
  | nested ns s => exact congrArg (nested · s) (Numbering.add_of_find? hi)

/-- A name that is new in the innermost level takes the next slot, and no other name is touched. -/
theorem find?_define (h : s.find? x = none) (y : String) :
    (s.define x).find? y = if y = x then some ⟨x, s.storage, s.size⟩ else s.find? y := by
  have hnew : s.names.find? x = none := by simpa [find?] using h
  unfold find?
  rw [names_define, storage_define, Numbering.find?_add, hnew]
  by_cases hy : y = x
  · subst hy
    simp [size]
  · simp [hy, Ne.symm hy]

theorem size_define (h : s.find? x = none) : (s.define x).size = s.size + 1 := by
  have hnew : s.names.find? x = none := by simpa [find?] using h
  rw [size, names_define, Numbering.size_add, hnew]
  rfl

/-! ### Entering and leaving -/

/-- The scope that stands around the `n` innermost levels. -/
def around : Nat → Scope → Option Scope
  | 0, s => some s
  | _ + 1, outermost _ => none
  | n + 1, nested _ s => s.around n

/-- How many levels are open after some actions, if `n` were open before and no level but these and
the ones entered since is left. -/
def opened : List Action → Nat → Option Nat
  | [], n => some n
  | .define _ :: actions, n => opened actions n
  | .resolve _ :: actions, n => opened actions n
  | .enclose :: actions, n => opened actions (n + 1)
  | .leave :: _, 0 => none
  | .leave :: actions, n + 1 => opened actions n

/-- The actions leave every level that they enter, and no other one. -/
def Balanced (actions : List Action) : Prop := opened actions 0 = some 0

instance (actions : List Action) : Decidable (Balanced actions) :=
  inferInstanceAs (Decidable (opened actions 0 = some 0))

/-- **What stands around an open level stays as it is.** -/
theorem around_after {actions : List Action} {n m : Nat} (h : t.around (n + 1) = some s)
    (hopened : opened actions n = some m) : (t.after actions).around (m + 1) = some s := by
  induction actions generalizing t n with
  | nil =>
    obtain rfl := Option.some.inj hopened
    exact h
  | cons a actions ih =>
    cases a with
    | define x =>
      have hdefine : (t.define x).around (n + 1) = t.around (n + 1) := by cases t <;> rfl
      exact ih (hdefine.trans h) hopened
    | resolve x => exact ih h hopened
    | enclose => exact ih (n := n + 1) h hopened
    | leave =>
      cases n with
      | zero => cases hopened
      | succ n =>
        -- the innermost level is one of those that were entered, so there is something around it
        cases t with
        | outermost ns => cases h
        | nested ns t => exact ih (t := t) h hopened

theorem outer?_eq_around (s : Scope) : s.outer? = s.around 1 := by
  cases s <;> rfl

/-- **Leaving a level gives back the scope that it was entered from.** -/
theorem outer?_after {actions : List Action} (h : Balanced actions) :
    (s.enclose.after actions).outer? = some s := by
  rw [outer?_eq_around]
  exact around_after (n := 0) rfl h

/-! ### Looking up -/

/-- Only a symbol of the outermost level is seen through the functions, and only if none of them binds
its name. -/
theorem filter_resolve (s : Scope) (x : String) :
    (s.resolve x).filter (fun symbol => symbol.storage = .global) =
      if ∀ f ∈ s.functions, f.find? x = none then s.root.find? x else none := by
  induction s with
  | outermost ns =>
    rw [resolve, functions, root, if_pos (List.forall_mem_nil _)]
    cases hfound : find? (outermost ns) x with
    | none => rfl
    | some symbol =>
      obtain ⟨i, -, rfl⟩ := find?_eq_some_iff.mp hfound
      rfl
  | nested ns s ih =>
    rw [resolve, functions, root]
    cases hfound : find? (nested ns s) x with
    | some symbol =>
      obtain ⟨i, -, rfl⟩ := find?_eq_some_iff.mp hfound
      rw [if_neg (by simp [hfound])]
      rfl
    | none =>
      simp only [List.forall_mem_cons, hfound, true_and, ← ih, Option.filter_filter, Bool.and_self]

/-- **A name stands for its symbol in the innermost level, or else for that in the outermost one, if no
function in between binds the name.** -/
theorem resolve_eq (s : Scope) (x : String) :
    s.resolve x = (s.find? x).or
      (if ∀ f ∈ s.functions.tail, f.find? x = none then s.root.find? x else none) := by
  cases s with
  | outermost ns =>
    rw [resolve, functions, root, List.tail_nil, if_pos (List.forall_mem_nil _), Option.or_self]
  | nested ns s =>
    rw [resolve, functions, root, List.tail_cons, ← filter_resolve]
    cases find? (nested ns s) x <;> rfl

/-- A symbol of a function is one of the innermost function. -/
theorem find?_of_resolve_frame (h : s.resolve x = some symbol) (hframe : symbol.storage = .frame) :
    s.find? x = some symbol := by
  rw [resolve_eq, Option.or_eq_some_iff] at h
  rcases h with h | ⟨-, h⟩
  · exact h
  · obtain ⟨-, hroot⟩ := Option.ite_none_right_eq_some.mp h
    obtain ⟨i, -, rfl⟩ := find?_eq_some_iff.mp hroot
    simp at hframe

/-- **The levels of a scope are dense, stable and apart.** Take the scope after any actions. In every
level the names have the slots below the size of the level, one each, and they are global slots in the
outermost level and slots of a call in all others. Binding a name that the innermost level has changes
nothing, so the name keeps its slot, and a new name takes the next one. A level that is entered and left
again, whatever is done in between, leaves the scope as it was. A name stands for its symbol in the
innermost level, or else for that in the outermost one if no function in between binds it, and otherwise
for nothing; so it never stands for a slot of a function around the innermost one. -/
theorem after_levels (actions : List Action) :
    let s := empty.after actions
    (∀ f ∈ s.functions, f.Numbered .frame) ∧ s.root.Numbered .global ∧
      (∀ x symbol, s.find? x = some symbol → s.define x = s) ∧
      (∀ x, s.find? x = none →
        (s.define x).outer? = s.outer? ∧ (s.define x).size = s.size + 1 ∧
          ∀ y, (s.define x).find? y =
            if y = x then some ⟨x, s.storage, s.size⟩ else s.find? y) ∧
      (∀ inner, Balanced inner → (s.enclose.after inner).outer? = some s) ∧
      (∀ x, s.resolve x = (s.find? x).or
        (if ∀ f ∈ s.functions.tail, f.find? x = none then s.root.find? x else none)) ∧
      ∀ x symbol, s.resolve x = some symbol → symbol.storage = .frame →
        s.find? x = some symbol := by
  intro s
  have hdense : s.Dense := dense_empty.after actions
  exact ⟨hdense.functions, hdense.root, fun _ _ => define_of_find?,
    fun x h => ⟨outer?_define s x, size_define h, find?_define h⟩, fun _ => outer?_after,
    resolve_eq s, fun _ _ => find?_of_resolve_frame⟩

/-- Inside two functions, the outer one of which binds a global name again, the name is out of reach. -/
example : (empty.after [.define "a", .enclose, .define "a", .enclose]).resolve "a" = none := by cbv

end Monkey.Scope
