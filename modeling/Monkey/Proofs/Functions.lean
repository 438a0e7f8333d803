import Monkey.Machine.Operator

/-!
# Functions inside values

Functions are passed around inside arrays and hashes. `Value.All P` says that all functions in a
value, however deep, have the property `P`. No operator makes a function that is in none of its
operands, so the result of an operator has the property when its operands have it.
-/

namespace Monkey

mutual

/-- All functions in a value have a property. -/
def Value.All (P : Function → Prop) : Value → Prop
  | .integer _ | .boolean _ | .string _ | .null => True
  | .array vs => Value.AllIn P vs
  | .hash es => Value.AllUnder P es
  | .function f => P f
termination_by structural v => v

/-- All functions in a list of values have a property. -/
def Value.AllIn (P : Function → Prop) : List Value → Prop
  | [] => True
  | v :: vs => v.All P ∧ Value.AllIn P vs
termination_by structural vs => vs

/-- All functions in the entries of a hash have a property. -/
def Value.AllUnder (P : Function → Prop) : List (Key × Value) → Prop
  | [] => True
  | (_, v) :: es => v.All P ∧ Value.AllUnder P es
termination_by structural es => es

end

namespace Value

variable {P Q : Function → Prop}

theorem allIn_iff {vs : List Value} : AllIn P vs ↔ ∀ v ∈ vs, v.All P := by
  induction vs with
  | nil => simp [AllIn]
  | cons v vs ih => simp [AllIn, ih]

theorem allUnder_iff {es : List (Key × Value)} : AllUnder P es ↔ ∀ e ∈ es, e.2.All P := by
  induction es with
  | nil => simp [AllUnder]
  | cons e es ih => simp [AllUnder, ih]

mutual

theorem All.mono (h : ∀ f, P f → Q f) (v : Value) (hv : v.All P) : v.All Q := by
  cases v with
  | integer n => trivial
  | boolean b => trivial
  | string s => trivial
  | array vs => exact AllIn.mono h vs hv
  | hash es => exact AllUnder.mono h es hv
  | function f => exact h f hv
  | null => trivial
termination_by structural v

theorem AllIn.mono (h : ∀ f, P f → Q f) (vs : List Value) (hvs : AllIn P vs) : AllIn Q vs := by
  cases vs with
  | nil => trivial
  | cons v vs => exact ⟨All.mono h v hvs.1, AllIn.mono h vs hvs.2⟩
termination_by structural vs

theorem AllUnder.mono (h : ∀ f, P f → Q f) (es : List (Key × Value)) (hes : AllUnder P es) :
    AllUnder Q es := by
  cases es with
  | nil => trivial
  | cons e es =>
    cases e with
    | mk k v => exact ⟨All.mono h v hes.1, AllUnder.mono h es hes.2⟩
termination_by structural es

end

theorem All.getD_list {vs : List Value} (h : AllIn P vs) (i : Nat) : (vs.getD i null).All P := by
  rw [List.getD_eq_getElem?_getD]
  cases hi : vs[i]? with
  | none => trivial
  | some v => exact allIn_iff.mp h v (List.mem_of_getElem? hi)

theorem All.lookup_list {es : List (Key × Value)} (h : AllUnder P es) (k : Key) :
    ((es.lookup k).getD null).All P := by
  induction es with
  | nil => trivial
  | cons e es ih =>
    rw [List.lookup_cons]
    split
    · exact h.1
    · exact ih h.2

end Value

/-! ### Results of operators -/

/-- Whether a fault is one that operators raise, for the values that they are given. -/
def Fault.isOperator : Fault → Bool
  | unsupportedBinary _ _ _ | unsupportedNegation _ | divisionByZero => true
  | unusableKey _ | indexNotSupported _ _ => true
  | _ => false

/-- The result of an operator has no functions but those with the property, or it is a fault of
operators. -/
def Operated (P : Function → Prop) : Except Fault Value → Prop
  | .ok v => v.All P
  | .error e => e.isOperator

variable {P : Function → Prop}

theorem ArithOp.operated_apply (op : ArithOp) (v w : Value) : Operated P (op.apply v w) := by
  unfold apply
  split
  · next a b =>
    cases op with
    | add => trivial
    | sub => trivial
    | mul => trivial
    | div =>
      rw [onIntegers]
      split
      · exact rfl
      · trivial
  · trivial
  · exact rfl

theorem Value.operated_greater (v w : Value) : Operated P (Value.greater v w) := by
  unfold greater
  split
  · trivial
  · exact rfl

theorem Value.operated_negate (v : Value) : Operated P v.negate := by
  unfold negate
  split
  · trivial
  · exact rfl

theorem Value.operated_lookup {v : Value} (hv : v.All P) (w : Value) : Operated P (v.lookup w) := by
  unfold lookup
  split
  · next vs i =>
    change Value.All P (if i < 0 then null else vs.getD i.toInt.toNat null)
    split
    · trivial
    · exact All.getD_list hv _
  · next es w =>
    split
    · exact All.lookup_list hv _
    · exact rfl
  · exact rfl

theorem Entries.insert_all {es : Entries} (h : ∀ e ∈ es.pairs, e.2.All P) (k : Key) {v : Value}
    (hv : v.All P) : ∀ e ∈ (es.insert k v).pairs, e.2.All P := by
  intro e he
  unfold insert at he
  split at he
  · rcases Array.mem_or_eq_of_mem_setIfInBounds he with he | rfl
    · exact h e he
    · exact hv
  · rcases Array.mem_push.mp he with he | rfl
    · exact h e he
    · exact hv

theorem Entries.ofValues?_all {vs : List Value} (hvs : Value.AllIn P vs) {es es' : Entries}
    (hes : ∀ e ∈ es.pairs, e.2.All P) (h : es.ofValues? vs = .ok es') :
    ∀ e ∈ es'.pairs, e.2.All P := by
  fun_induction ofValues? es vs with
  | case1 es k v rest key hkey ih => exact ih hvs.2.2 (insert_all hes key hvs.2.1) h
  | case2 es k v rest hkey => cases h
  | case3 es vs hvs' =>
    obtain rfl := Except.ok.inj h
    exact hes

theorem Value.operated_hashOf {vs : List Value} (h : Value.AllIn P vs) :
    Operated P (Value.hashOf vs) := by
  unfold hashOf
  split
  · next es hes =>
    refine Value.allUnder_iff.mpr fun e he => ?_
    exact Entries.ofValues?_all h (by simp [Entries.empty]) hes e (by simpa using he)
  · exact rfl

end Monkey
