import Monkey.Machine.Operator
import Monkey.Proofs.Functions

/-!
# Forgetting code

`Value.erase` forgets how the functions in a value are run, and keeps which literals they come from. No
operator looks at the code of functions, so operators can be applied before or after forgetting it
(`Commutes`).
-/

namespace Monkey

/-- The function without its code. -/
def Function.erase (f : Function) : Function := { f with code := #[], locals := 0 }

mutual

/-- The value without the code of its functions. -/
def Value.erase : Value → Value
  | .integer n => .integer n
  | .boolean b => .boolean b
  | .string s => .string s
  | .array vs => .array (Value.eraseAll vs)
  | .hash es => .hash (Value.eraseUnder es)
  | .function f => .function f.erase
  | .null => .null
termination_by structural v => v

/-- Several values without the code of their functions. -/
def Value.eraseAll : List Value → List Value
  | [] => []
  | v :: vs => v.erase :: Value.eraseAll vs
termination_by structural vs => vs

/-- The entries of a hash without the code of their functions. -/
def Value.eraseUnder : List (Key × Value) → List (Key × Value)
  | [] => []
  | (k, v) :: es => (k, v.erase) :: Value.eraseUnder es
termination_by structural es => es

end

namespace Value

theorem eraseAll_eq (vs : List Value) : eraseAll vs = vs.map erase := by
  induction vs with
  | nil => rfl
  | cons v vs ih => rw [eraseAll, ih, List.map_cons]

theorem eraseUnder_eq (es : List (Key × Value)) :
    eraseUnder es = es.map fun e => (e.1, e.2.erase) := by
  induction es with
  | nil => rfl
  | cons e es ih => rw [eraseUnder, ih, List.map_cons]

@[simp] theorem length_eraseUnder (es : List (Key × Value)) :
    (eraseUnder es).length = es.length := by
  induction es with
  | nil => rfl
  | cons e es ih => rw [eraseUnder, List.length_cons, List.length_cons, ih]

theorem lookup_eraseUnder (es : List (Key × Value)) (k : Key) :
    (eraseUnder es).lookup k = (es.lookup k).map erase := by
  induction es with
  | nil => rfl
  | cons e es ih =>
    rw [eraseUnder, List.lookup_cons, List.lookup_cons, ih]
    split <;> rfl

@[simp] theorem type_erase (v : Value) : v.erase.type = v.type := by
  cases v <;> rfl

@[simp] theorem isTruthy_erase (v : Value) : v.erase.isTruthy = v.isTruthy := by
  cases v <;> rfl

@[simp] theorem key?_erase (v : Value) : v.erase.key? = v.key? := by
  cases v <;> rfl

mutual

/-- Functions are compared by the literals that they come from. -/
theorem equal_erase (v w : Value) : v.erase.equal w.erase = v.equal w := by
  cases v with
  | array vs =>
    cases w with
    | array ws => exact equalLists_erase vs ws
    | _ => rfl
  | hash ps =>
    cases w with
    | hash qs =>
      have hlength : ((eraseUnder ps).length == (eraseUnder qs).length) =
          (ps.length == qs.length) := by
        rw [length_eraseUnder, length_eraseUnder]
      rw [erase, erase, equal, equal, hlength, allFound_erase ps qs]
    | _ => rfl
  | _ => cases w <;> rfl
termination_by structural v

theorem equalLists_erase (vs ws : List Value) :
    equalLists (eraseAll vs) (eraseAll ws) = equalLists vs ws := by
  cases vs with
  | nil => cases ws <;> rfl
  | cons v vs =>
    cases ws with
    | nil => rfl
    | cons w ws =>
      rw [eraseAll, eraseAll, equalLists, equalLists, equal_erase v w, equalLists_erase vs ws]
termination_by structural vs

theorem allFound_erase (ps qs : List (Key × Value)) :
    allFound (eraseUnder ps) (eraseUnder qs) = allFound ps qs := by
  cases ps with
  | nil => rfl
  | cons p ps =>
    cases p with
    | mk k v =>
      rw [eraseUnder, allFound, allFound, lookup_eraseUnder, allFound_erase ps qs]
      cases qs.lookup k with
      | none => rfl
      | some w =>
        dsimp only [Option.map_some]
        rw [equal_erase v w]
termination_by structural ps

end

end Value

/-! ### Operators -/

open Value

/-- The operator gives the same without the code of functions. -/
def Commutes (f : Value → Value → Except Fault Value) : Prop :=
  ∀ v w, f v.erase w.erase = (f v w).map erase

theorem ArithOp.commutes_apply (op : ArithOp) : Commutes op.apply := by
  intro v w
  cases v <;> cases w <;> cases op <;> try rfl
  -- only a division looks at its operands
  rename_i a b
  change Value.integer <$> (onIntegers div a b) = Except.map erase (Value.integer <$> onIntegers div a b)
  unfold onIntegers
  dsimp only
  split <;> rfl

theorem Value.commutes_equal : Commutes fun v w => .ok (.boolean (v == w)) := by
  intro v w
  have h : (v.erase == w.erase) = (v == w) := equal_erase v w
  change Except.ok (boolean (v.erase == w.erase)) = _
  rw [h]
  rfl

theorem Value.commutes_notEqual : Commutes fun v w => .ok (.boolean (v != w)) := by
  intro v w
  have h : (v.erase == w.erase) = (v == w) := equal_erase v w
  change Except.ok (boolean !(v.erase == w.erase)) = _
  rw [h]
  rfl

theorem Value.commutes_greater : Commutes Value.greater := by
  intro v w
  cases v <;> cases w <;> rfl

theorem Value.negate_erase (v : Value) : v.erase.negate = v.negate.map erase := by
  cases v <;> rfl

theorem Value.commutes_lookup : Commutes Value.lookup := by
  intro v w
  cases v with
  | array vs =>
    cases w with
    | integer i =>
      have hget : (eraseAll vs).getD i.toInt.toNat null = (vs.getD i.toInt.toNat null).erase := by
        rw [eraseAll_eq, List.getD_eq_getElem?_getD, List.getD_eq_getElem?_getD, List.getElem?_map]
        cases vs[i.toInt.toNat]? <;> rfl
      change Except.ok (if i < 0 then null else (eraseAll vs).getD i.toInt.toNat null) =
        Except.ok (if i < 0 then null else vs.getD i.toInt.toNat null).erase
      rw [hget]
      split <;> rfl
    | _ => rfl
  | hash es =>
    have hlookup (k : Key) : ((eraseUnder es).lookup k).getD null =
        ((es.lookup k).getD null).erase := by
      rw [lookup_eraseUnder]
      cases es.lookup k <;> rfl
    have hkey := w.key?_erase
    rw [erase, lookup, lookup, hkey]
    cases w.key? with
    | none => simp [Except.map]
    | some k => simp [Except.map, hlookup]
  | _ => cases w <;> rfl

/-- Entries without the code of functions. -/
def Entries.erase (es : Entries) : Entries :=
  { es with pairs := es.pairs.map fun e => (e.1, e.2.erase) }

theorem Entries.insert_erase (es : Entries) (k : Key) (v : Value) :
    es.erase.insert k v.erase = (es.insert k v).erase := by
  unfold insert erase
  dsimp only
  cases es.places.find? k with
  | none => simp
  | some i => simp [Array.map_setIfInBounds]

theorem Entries.ofValues?_erase (es : Entries) (vs : List Value) :
    es.erase.ofValues? (eraseAll vs) =
      match es.ofValues? vs with
      | .ok es => .ok es.erase
      | .error v => .error v.erase := by
  fun_induction ofValues? es vs with
  | case1 es k v rest key hkey ih =>
    rw [eraseAll, eraseAll, ofValues?, key?_erase, hkey]
    dsimp only
    rw [insert_erase, ih]
  | case2 es k v rest hkey =>
    rw [eraseAll, eraseAll, ofValues?, key?_erase, hkey]
  | case3 vs es hvs =>
    -- at most one value is left
    match vs with
    | [] => rfl
    | [_] => rfl
    | k :: v :: rest => exact (hvs k v rest rfl).elim

theorem Value.hashOf_erase (vs : List Value) : hashOf (eraseAll vs) = (hashOf vs).map erase := by
  have hempty : Entries.empty.erase = Entries.empty := by
    simp [Entries.erase, Entries.empty]
  have h := Entries.ofValues?_erase .empty vs
  rw [hempty] at h
  unfold hashOf
  rw [h]
  cases Entries.empty.ofValues? vs with
  | ok es =>
    have hpairs : eraseUnder es.pairs.toList = es.pairs.toList.map fun e => (e.1, e.2.erase) :=
      eraseUnder_eq _
    simp [Except.map, Entries.toValue, erase, Entries.erase, hpairs]
  | error v => simp [Except.map]

end Monkey
