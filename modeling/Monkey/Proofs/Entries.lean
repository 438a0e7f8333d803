import Mathlib.Data.List.Induction
import Mathlib.Data.List.Nodup
import Monkey.Machine.Operator
import Monkey.Proofs.Numbering

/-!
# Hashes are maps in which the last value wins

`Entries.put` gives a key a value in a plain list of entries: at the place of the key, or behind all
entries if the key is new. `Entries.insert` does the same with the help of its numbering
(`Entries.toList_insert`), as long as the numbering says where each key stands (`Entries.Ordered`). So the
hash of a list of pairs has one entry for each key, in the order in which the keys first come, and the
value of an entry is the last that its key is given (`Entries.ofPairs`).
-/

namespace Monkey

/-! ### Keys -/

/-- A value that can be a key. -/
def Value.Usable (v : Value) : Prop :=
  v.type = .integer ∨ v.type = .boolean ∨ v.type = .string

instance (v : Value) : Decidable v.Usable := by
  unfold Value.Usable
  infer_instance

namespace Value

/-- A key is one value only, so integers, booleans and strings are never the same key. -/
theorem key?_eq_some_iff {v : Value} {k : Key} : v.key? = some k ↔ v = k.toValue := by
  constructor
  · intro h
    cases v <;> cases h <;> rfl
  · rintro rfl
    exact k.key?_toValue

theorem usable_toValue (k : Key) : k.toValue.Usable := by
  cases k <;> simp [Usable, Key.toValue, type]

theorem Usable.exists_key {v : Value} (h : v.Usable) : ∃ k : Key, v = k.toValue := by
  cases v with
  | integer n => exact ⟨.integer n, rfl⟩
  | boolean b => exact ⟨.boolean b, rfl⟩
  | string s => exact ⟨.string s, rfl⟩
  | _ => simp [Usable, type] at h

theorem key?_eq_none_iff {v : Value} : v.key? = none ↔ ¬v.Usable := by
  cases v <;> simp [key?, Usable, type]

end Value

theorem Key.toValue_injective {k k' : Key} (h : k.toValue = k'.toValue) : k = k' := by
  have hkey : k.toValue.key? = k'.toValue.key? := by rw [h]
  simpa using hkey

/-! ### Lists of entries -/

/-- The keys of entries. -/
def keysOf (es : List (Key × Value)) : List Key := es.map Prod.fst

@[simp] theorem keysOf_nil : keysOf [] = [] := rfl

@[simp] theorem keysOf_cons (k : Key) (v : Value) (es : List (Key × Value)) :
    keysOf ((k, v) :: es) = k :: keysOf es := rfl

@[simp] theorem keysOf_append (es es' : List (Key × Value)) :
    keysOf (es ++ es') = keysOf es ++ keysOf es' := List.map_append

@[simp] theorem length_keysOf (es : List (Key × Value)) : (keysOf es).length = es.length :=
  List.length_map _

theorem mem_keysOf {es : List (Key × Value)} {k : Key} : k ∈ keysOf es ↔ ∃ v, (k, v) ∈ es := by
  simp [keysOf]

/-- A key that is put behind others stands at the next place. -/
theorem getElem?_concat_iff {ks : List Key} {k k' : Key} {i : Nat} :
    (ks ++ [k])[i]? = some k' ↔ ks[i]? = some k' ∨ ks.length = i ∧ k = k' := by
  rw [List.getElem?_append]
  split
  · next hi => simp [Nat.ne_of_gt hi]
  · next hi =>
    have hplace : i - ks.length = 0 ↔ ks.length = i := by omega
    rw [List.getElem?_eq_none (Nat.le_of_not_lt hi), List.getElem?_singleton]
    simp [hplace]

theorem lookup_cons_eq_ite (k k' : Key) (v : Value) (es : List (Key × Value)) :
    ((k', v) :: es).lookup k = if k = k' then some v else es.lookup k := by
  rw [List.lookup_cons]
  by_cases h : k = k'
  · rw [if_pos h, beq_iff_eq.mpr h]
  · rw [if_neg h, beq_eq_false_iff_ne.mpr h]

theorem mem_of_lookup_eq_some {es : List (Key × Value)} {k : Key} {v : Value}
    (h : es.lookup k = some v) : (k, v) ∈ es := by
  obtain ⟨front, back, rfl, -⟩ := List.lookup_eq_some_iff.mp h
  simp

/-- With every key there once, the value of a key is that of the entry that has it. -/
theorem lookup_eq_some_iff_mem {es : List (Key × Value)} (h : (keysOf es).Nodup) {k : Key} {v : Value} :
    es.lookup k = some v ↔ (k, v) ∈ es := by
  induction es with
  | nil => simp
  | cons e es ih =>
    obtain ⟨k', v'⟩ := e
    obtain ⟨hnew, hnodup⟩ := List.nodup_cons.mp h
    rw [lookup_cons_eq_ite, List.mem_cons, Prod.mk.injEq]
    by_cases hk : k = k'
    · subst hk
      have habsent : (k, v) ∉ es := fun hmem => hnew (mem_keysOf.mpr ⟨v, hmem⟩)
      simp [habsent, eq_comm]
    · simp [hk, ih hnodup]

namespace Entries

/-- Gives a key a value in a list of entries. -/
def put (k : Key) (v : Value) : List (Key × Value) → List (Key × Value)
  | [] => [(k, v)]
  | (k', v') :: es => if k' = k then (k, v) :: es else (k', v') :: put k v es

/-- A key keeps its place. -/
theorem keysOf_put (k : Key) (v : Value) (es : List (Key × Value)) :
    keysOf (put k v es) = if k ∈ keysOf es then keysOf es else keysOf es ++ [k] := by
  induction es with
  | nil => rfl
  | cons e es ih =>
    obtain ⟨k', v'⟩ := e
    rw [put]
    by_cases hk : k' = k
    · simp [hk]
    · rw [if_neg hk, keysOf_cons, ih]
      simp only [keysOf_cons, List.mem_cons, Ne.symm hk, false_or]
      split <;> rfl

/-- A key has the value that it was given last. -/
theorem lookup_put (k k' : Key) (v : Value) (es : List (Key × Value)) :
    (put k v es).lookup k' = if k' = k then some v else es.lookup k' := by
  induction es with
  | nil => rw [put, lookup_cons_eq_ite]
  | cons e es ih =>
    obtain ⟨l, w⟩ := e
    rw [put]
    by_cases hl : l = k
    · rw [if_pos hl, lookup_cons_eq_ite, lookup_cons_eq_ite, hl]
      split <;> rfl
    · rw [if_neg hl, lookup_cons_eq_ite, lookup_cons_eq_ite, ih]
      by_cases h : k' = l
      · rw [if_pos h, if_pos h, if_neg (h ▸ hl)]
      · rw [if_neg h, if_neg h]

theorem mem_put {k k' : Key} {v w : Value} {es : List (Key × Value)}
    (h : (k', w) ∈ put k v es) : (k', w) = (k, v) ∨ (k', w) ∈ es := by
  induction es with
  | nil => exact .inl (List.mem_singleton.mp h)
  | cons e es ih =>
    rw [put] at h
    split at h
    · exact (List.mem_cons.mp h).imp id (List.mem_cons_of_mem _)
    · rcases List.mem_cons.mp h with heq | hmem
      · exact .inr (heq ▸ List.mem_cons_self)
      · exact (ih hmem).imp id (List.mem_cons_of_mem _)

theorem put_of_not_mem {k : Key} {es : List (Key × Value)} (h : k ∉ keysOf es) (v : Value) :
    put k v es = es ++ [(k, v)] := by
  induction es with
  | nil => rfl
  | cons e es ih =>
    obtain ⟨hne, hnew⟩ := List.ne_and_not_mem_of_not_mem_cons h
    rw [put, if_neg (Ne.symm hne), ih hnew, List.cons_append]

theorem put_of_getElem? {k : Key} {es : List (Key × Value)} (hnodup : (keysOf es).Nodup) {i : Nat}
    (h : (keysOf es)[i]? = some k) (v : Value) : put k v es = es.set i (k, v) := by
  induction es generalizing i with
  | nil => simp at h
  | cons e es ih =>
    obtain ⟨k', v'⟩ := e
    obtain ⟨hnew, hnodup⟩ := List.nodup_cons.mp hnodup
    rw [put]
    cases i with
    | zero =>
      obtain rfl : k' = k := by simpa using h
      rw [if_pos rfl, List.set_cons_zero]
    | succ i =>
      have hi : (keysOf es)[i]? = some k := by simpa using h
      have hne : k' ≠ k := by
        rintro rfl
        exact hnew (List.mem_of_getElem? hi)
      rw [if_neg hne, List.set_cons_succ, ih hnodup hi]

/-! ### Lists of pairs -/

/-- The entries that pairs make, the first of them first. -/
def ofPairs (pairs : List (Key × Value)) : List (Key × Value) :=
  pairs.foldl (fun es e => put e.1 e.2 es) []

theorem ofPairs_concat (pairs : List (Key × Value)) (k : Key) (v : Value) :
    ofPairs (pairs ++ [(k, v)]) = put k v (ofPairs pairs) := by
  rw [ofPairs, List.foldl_append]
  rfl

/-- The keys come in the order of their first appearance. -/
theorem keysOf_ofPairs (pairs : List (Key × Value)) :
    keysOf (ofPairs pairs) = (keysOf pairs).eraseDups := by
  induction pairs using List.reverseRecOn with
  | nil => rfl
  | append_singleton pairs e ih =>
    obtain ⟨k, v⟩ := e
    rw [ofPairs_concat, keysOf_put, ih, keysOf_append, List.eraseDups_append]
    -- the last pair adds its key if no pair before it has it
    by_cases h : k ∈ keysOf pairs
    · rw [if_pos (List.mem_eraseDups.mpr h)]
      simp [List.removeAll, h]
    · rw [if_neg (mt List.mem_eraseDups.mp h)]
      simp [List.removeAll, h, List.eraseDups_cons]

theorem nodup_keysOf_put {es : List (Key × Value)} (h : (keysOf es).Nodup) (k : Key) (v : Value) :
    (keysOf (put k v es)).Nodup := by
  rw [keysOf_put]
  split
  · exact h
  · next hk => simpa [List.nodup_append, h] using fun a ha => ne_of_mem_of_not_mem ha hk

/-- There is one entry for every key. -/
theorem nodup_keysOf_ofPairs (pairs : List (Key × Value)) : (keysOf (ofPairs pairs)).Nodup := by
  induction pairs using List.reverseRecOn with
  | nil => exact List.nodup_nil
  | append_singleton pairs e ih =>
    rw [ofPairs_concat]
    exact nodup_keysOf_put ih e.1 e.2

/-- The last value of a key wins. -/
theorem lookup_ofPairs (pairs : List (Key × Value)) (k : Key) :
    (ofPairs pairs).lookup k = pairs.reverse.lookup k := by
  induction pairs using List.reverseRecOn with
  | nil => rfl
  | append_singleton pairs e ih =>
    obtain ⟨k', v⟩ := e
    rw [ofPairs_concat, lookup_put, ih, List.reverse_append, List.reverse_singleton,
      List.singleton_append, lookup_cons_eq_ite]

/-! ### The numbering -/

/-- The numbering says of each key where it stands. -/
structure Ordered (es : Entries) : Prop where
  size : es.places.size = es.pairs.size
  places {k : Key} {i : Nat} : es.places.find? k = some i ↔ (keysOf es.pairs.toList)[i]? = some k

theorem ordered_empty : Entries.empty.Ordered where
  size := Numbering.size_empty
  places {k i} := by simp [empty]

/-- A numbering gives every key one number, so every key is there once. -/
theorem Ordered.nodup {es : Entries} (h : es.Ordered) : (keysOf es.pairs.toList).Nodup := by
  rw [List.nodup_iff_getElem?_ne_getElem?]
  intro i j hij hj heq
  have hk := List.getElem?_eq_getElem hj
  have hi := h.places.mpr (heq.trans hk)
  rw [h.places.mpr hk] at hi
  exact absurd (Option.some.inj hi) (Nat.ne_of_gt hij)

theorem Ordered.mem_iff {es : Entries} (h : es.Ordered) {k : Key} :
    k ∈ keysOf es.pairs.toList ↔ (es.places.find? k).isSome := by
  rw [List.mem_iff_getElem?, Option.isSome_iff_exists]
  exact exists_congr fun i => h.places.symm

/-- **Insertion** with a numbering is insertion into a list. -/
theorem toList_insert {es : Entries} (h : es.Ordered) (k : Key) (v : Value) :
    (es.insert k v).pairs.toList = put k v es.pairs.toList := by
  unfold insert
  cases hi : es.places.find? k with
  | some i =>
    rw [Array.toList_setIfInBounds]
    exact (put_of_getElem? h.nodup (h.places.mp hi) v).symm
  | none =>
    have hnew : k ∉ keysOf es.pairs.toList := by simp [h.mem_iff, hi]
    rw [Array.toList_push, put_of_not_mem hnew]

theorem places_insert (es : Entries) (k : Key) (v : Value) :
    (es.insert k v).places = es.places.add k := by
  unfold insert Numbering.add
  cases es.places.find? k <;> rfl

theorem Ordered.insert {es : Entries} (h : es.Ordered) (k : Key) (v : Value) :
    (es.insert k v).Ordered where
  size := by
    have hlength : (es.insert k v).pairs.size = (keysOf (put k v es.pairs.toList)).length := by
      rw [← toList_insert h, length_keysOf, Array.length_toList]
    rw [places_insert, Numbering.size_add, h.size, hlength, keysOf_put]
    simp only [h.mem_iff]
    split <;> simp
  places {k' i} := by
    rw [places_insert, toList_insert h, keysOf_put, Numbering.find?_add, h.size]
    cases hj : es.places.find? k with
    | some j =>
      have hmem : k ∈ keysOf es.pairs.toList := by simp [h.mem_iff, hj]
      rw [if_pos hmem]
      simpa using h.places
    | none =>
      have hnew : k ∉ keysOf es.pairs.toList := by simp [h.mem_iff, hj]
      rw [if_neg hnew, getElem?_concat_iff, ← h.places, length_keysOf, Array.length_toList]
      by_cases hk : k = k'
      · subst hk
        simp [hj]
      · simp [hk]

/-- Inserting pairs one after the other. -/
theorem Ordered.foldl_insert {es : Entries} (h : es.Ordered) (pairs : List (Key × Value)) :
    (pairs.foldl (fun es e => es.insert e.1 e.2) es).pairs.toList =
      pairs.foldl (fun es e => put e.1 e.2 es) es.pairs.toList := by
  induction pairs generalizing es with
  | nil => rfl
  | cons e pairs ih =>
    obtain ⟨k, v⟩ := e
    rw [List.foldl_cons, List.foldl_cons, ih (h.insert k v), toList_insert h]

end Entries

/-! ### Hashes -/

/-- The keys and values of pairs in turn, as they lie on the stack. -/
def inTurn : List (Value × Value) → List Value
  | [] => []
  | (k, v) :: pairs => k :: v :: inTurn pairs

theorem length_inTurn (pairs : List (Value × Value)) :
    (inTurn pairs).length = 2 * pairs.length := by
  induction pairs with
  | nil => rfl
  | cons e pairs ih =>
    rw [inTurn, List.length_cons, List.length_cons, ih, List.length_cons]
    omega

/-- Pairs whose keys are usable. -/
def asValues (pairs : List (Key × Value)) : List (Value × Value) :=
  pairs.map fun e => (e.1.toValue, e.2)

/-- Pairs up to the first whose key is not usable, if there is one. -/
theorem usable_cases (pairs : List (Value × Value)) :
    (∃ keyed, pairs = asValues keyed) ∨
      ∃ keyed v w rest, pairs = asValues keyed ++ (v, w) :: rest ∧ ¬v.Usable := by
  induction pairs with
  | nil => exact .inl ⟨[], rfl⟩
  | cons e pairs ih =>
    obtain ⟨v, w⟩ := e
    by_cases hv : v.Usable
    · obtain ⟨k, rfl⟩ := hv.exists_key
      rcases ih with ⟨keyed, rfl⟩ | ⟨keyed, v', w', rest, rfl, hv'⟩
      · exact .inl ⟨(k, w) :: keyed, rfl⟩
      · exact .inr ⟨(k, w) :: keyed, v', w', rest, rfl, hv'⟩
    · exact .inr ⟨[], v, w, pairs, rfl, hv⟩

theorem exists_asValues {pairs : List (Value × Value)} (h : ∀ e ∈ pairs, e.1.Usable) :
    ∃ keyed, pairs = asValues keyed := by
  rcases usable_cases pairs with hkeyed | ⟨keyed, v, w, rest, rfl, hv⟩
  · exact hkeyed
  · exact absurd (h (v, w) (by simp)) hv

theorem usable_asValues {keyed : List (Key × Value)} : ∀ e ∈ asValues keyed, e.1.Usable := by
  intro e he
  obtain ⟨e, -, rfl⟩ := List.mem_map.mp he
  exact Value.usable_toValue e.1

namespace Entries

theorem ofValues?_asValues (es : Entries) (keyed : List (Key × Value))
    (rest : List (Value × Value)) :
    es.ofValues? (inTurn (asValues keyed ++ rest)) =
      (keyed.foldl (fun es e => es.insert e.1 e.2) es).ofValues? (inTurn rest) := by
  induction keyed generalizing es with
  | nil => rfl
  | cons e keyed ih =>
    rw [asValues, List.map_cons, List.cons_append, inTurn, ofValues?, Key.key?_toValue]
    exact ih (es.insert e.1 e.2)

/-- The entries of pairs: there is one for every key, in the order in which the keys first come, and
its value is the last that the key is given. -/
structure LastWins (pairs : List (Value × Value)) (es : List (Key × Value)) : Prop where
  keys : keysOf es = (pairs.filterMap fun e => e.1.key?).eraseDups
  distinct : (keysOf es).Nodup
  last : ∀ k v, (k, v) ∈ es → ∃ front back, pairs = front ++ (k.toValue, v) :: back ∧
    ∀ e ∈ back, e.1 ≠ k.toValue

theorem filterMap_key?_asValues (keyed : List (Key × Value)) :
    ((asValues keyed).filterMap fun e => e.1.key?) = keysOf keyed := by
  induction keyed with
  | nil => rfl
  | cons e keyed ih =>
    rw [asValues, List.map_cons, List.filterMap_cons, Key.key?_toValue]
    exact congrArg (e.1 :: ·) ih

theorem lastWins_ofPairs (keyed : List (Key × Value)) :
    LastWins (asValues keyed) (ofPairs keyed) where
  keys := by rw [keysOf_ofPairs, filterMap_key?_asValues]
  distinct := nodup_keysOf_ofPairs keyed
  last k v hmem := by
    have hlookup := (lookup_eq_some_iff_mem (nodup_keysOf_ofPairs keyed)).mpr hmem
    rw [lookup_ofPairs] at hlookup
    -- seen from the back, the pair is the first with its key
    obtain ⟨back, front, hreverse, hback⟩ := List.lookup_eq_some_iff.mp hlookup
    refine ⟨asValues front.reverse, asValues back.reverse, ?_, ?_⟩
    · rw [← List.reverse_reverse keyed, hreverse]
      simp [asValues]
    · intro e he heq
      obtain ⟨e', he', rfl⟩ := List.mem_map.mp he
      have hne := hback e' (List.mem_reverse.mp he')
      simp [Key.toValue_injective heq] at hne

/-- A key that no pair has is not found. -/
theorem lookup_ofPairs_of_absent {keyed : List (Key × Value)} {k : Key}
    (h : ∀ e ∈ asValues keyed, e.1 ≠ k.toValue) : (ofPairs keyed).lookup k = none := by
  rw [lookup_ofPairs]
  refine List.lookup_eq_none_iff.mpr fun e he => ?_
  have hne := h _ (List.mem_map_of_mem (List.mem_reverse.mp he))
  simpa using fun heq : k = e.1 => hne (congrArg Key.toValue heq.symm)

/-- The last value of a key is found. -/
theorem lookup_ofPairs_of_last {keyed : List (Key × Value)} {k : Key} {w : Value}
    {front back : List (Value × Value)} (h : asValues keyed = front ++ (k.toValue, w) :: back)
    (hback : ∀ e ∈ back, e.1 ≠ k.toValue) : (ofPairs keyed).lookup k = some w := by
  obtain ⟨keyed₁, keyed₂, rfl, -, h⟩ := List.map_eq_append_iff.mp h
  obtain ⟨⟨k', w'⟩, keyed₂, rfl, he, rfl⟩ := List.map_eq_cons_iff.mp h
  obtain ⟨hk, rfl⟩ := Prod.mk.inj he
  obtain rfl := Key.toValue_injective hk
  have habsent : keyed₂.reverse.lookup k' = none :=
    (lookup_ofPairs keyed₂ k').symm.trans (lookup_ofPairs_of_absent hback)
  rw [lookup_ofPairs, List.reverse_append, List.reverse_cons, List.append_assoc, List.lookup_append,
    habsent, Option.none_or, List.singleton_append, lookup_cons_eq_ite, if_pos rfl]

end Entries

namespace Value

/-- Pairs with usable keys make a hash. -/
theorem hashOf_asValues (keyed : List (Key × Value)) :
    hashOf (inTurn (asValues keyed)) = .ok (.hash (Entries.ofPairs keyed)) := by
  have h := Entries.ofValues?_asValues .empty keyed []
  rw [List.append_nil] at h
  have hlist := Entries.ordered_empty.foldl_insert keyed
  rw [hashOf, h]
  exact congrArg (fun es => Except.ok (hash es)) hlist

/-- The first value that cannot be a key is at fault. -/
theorem hashOf_unusable (keyed : List (Key × Value)) {v : Value} (hv : ¬v.Usable) (w : Value)
    (rest : List (Value × Value)) :
    hashOf (inTurn (asValues keyed ++ (v, w) :: rest)) = .error (.unusableKey v.type) := by
  rw [hashOf, Entries.ofValues?_asValues, inTurn, Entries.ofValues?, key?_eq_none_iff.mpr hv]

end Value

end Monkey
