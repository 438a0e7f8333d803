import Mathlib.Data.List.Forall2
import Mathlib.Data.List.Perm.Subperm
import Monkey.Proofs.Proper

/-!
# Equality is an equivalence

Hashes are compared as maps: the keys of one are looked up in the other. As a hash has each of its keys
once, two hashes of one size have the same keys when the second has those of the first, so hashes are
equal if and only if they have the same keys, with equal values (`Value.hash_beq_iff`). On proper values,
which are all that a session computes, equality is an equivalence, and on keys it is the equality of keys
(`Value.equal_spec`).
-/

namespace Monkey

namespace Value

/-! ### What equality compares -/

/-- Equal values have the same type. -/
theorem type_eq_of_beq {v w : Value} (h : v == w) : v.type = w.type := by
  cases v <;> cases w <;> first | rfl | cases h

theorem exists_array_of_beq {vs : List Value} {w : Value} (h : Value.array vs == w) :
    ∃ ws, w = .array ws := by
  cases w with
  | array ws => exact ⟨ws, rfl⟩
  | _ => cases h

theorem exists_hash_of_beq {ps : List (Key × Value)} {w : Value} (h : Value.hash ps == w) :
    ∃ qs, w = .hash qs := by
  cases w with
  | hash qs => exact ⟨qs, rfl⟩
  | _ => cases h

theorem exists_function_of_beq {f : Function} {w : Value} (h : Value.function f == w) :
    ∃ g, w = .function g := by
  cases w with
  | function g => exact ⟨g, rfl⟩
  | _ => cases h

/-- Equality of keys is equality. -/
theorem toValue_beq_iff (k : Key) {w : Value} : k.toValue == w ↔ w = k.toValue := by
  cases k with
  | integer m =>
    cases w with
    | integer n =>
      change (m == n) = true ↔ Value.integer n = .integer m
      rw [beq_iff_eq, Value.integer.injEq, eq_comm]
    | _ => exact ⟨fun h => (by cases h), fun h => (by cases h)⟩
  | boolean a =>
    cases w with
    | boolean b =>
      change (a == b) = true ↔ Value.boolean b = .boolean a
      rw [beq_iff_eq, Value.boolean.injEq, eq_comm]
    | _ => exact ⟨fun h => (by cases h), fun h => (by cases h)⟩
  | string s =>
    cases w with
    | string t =>
      change (s == t) = true ↔ Value.string t = .string s
      rw [beq_iff_eq, Value.string.injEq, eq_comm]
    | _ => exact ⟨fun h => (by cases h), fun h => (by cases h)⟩

theorem null_beq_iff {w : Value} : Value.null == w ↔ w = .null := by
  cases w with
  | null => exact ⟨fun _ => rfl, fun _ => rfl⟩
  | _ => exact ⟨fun h => (by cases h), fun h => (by cases h)⟩

theorem function_beq_iff {f g : Function} : Value.function f == Value.function g ↔ f.id = g.id := by
  change (f.id == g.id) = true ↔ _
  exact beq_iff_eq

theorem equalLists_iff {vs ws : List Value} :
    equalLists vs ws ↔ List.Forall₂ (fun v w => v == w) vs ws := by
  induction vs generalizing ws with
  | nil => cases ws <;> simp [equalLists]
  | cons v vs ih =>
    cases ws with
    | nil => simp [equalLists]
    | cons w ws =>
      rw [equalLists, Bool.and_eq_true, ih, List.forall₂_cons]
      exact Iff.rfl

theorem allFound_iff {ps qs : List (Key × Value)} :
    allFound ps qs ↔ ∀ k v, (k, v) ∈ ps → ∃ w, qs.lookup k = some w ∧ v == w := by
  induction ps with
  | nil => simp [allFound]
  | cons p ps ih =>
    obtain ⟨k, v⟩ := p
    have hfirst : allFound ((k, v) :: ps) qs ↔
        (∃ w, qs.lookup k = some w ∧ v == w) ∧ allFound ps qs := by
      rw [allFound, Bool.and_eq_true]
      cases qs.lookup k with
      | none => simp
      | some w =>
        simp only [Option.some.injEq, exists_eq_left']
        exact Iff.rfl
    rw [hfirst, ih]
    simp only [List.mem_cons, Prod.mk.injEq]
    constructor
    · rintro ⟨hk, hps⟩ k' v' (⟨rfl, rfl⟩ | hmem)
      · exact hk
      · exact hps k' v' hmem
    · exact fun h => ⟨h k v (.inl ⟨rfl, rfl⟩), fun k' v' hmem => h k' v' (.inr hmem)⟩

/-- Arrays are equal element by element. -/
theorem array_beq_iff {vs ws : List Value} :
    Value.array vs == Value.array ws ↔ List.Forall₂ (fun v w => v == w) vs ws :=
  equalLists_iff

/-- Hashes are equal as maps. -/
theorem hash_beq_iff {ps qs : List (Key × Value)} (hps : (keysOf ps).Nodup) :
    Value.hash ps == Value.hash qs ↔ (keysOf qs).Nodup ∧ (∀ k, k ∈ keysOf ps ↔ k ∈ keysOf qs) ∧
      ∀ k v w, (k, v) ∈ ps → (k, w) ∈ qs → v == w := by
  have hfound : Value.hash ps == Value.hash qs ↔ ps.length = qs.length ∧
      ∀ k v, (k, v) ∈ ps → ∃ w, qs.lookup k = some w ∧ v == w := by
    rw [← allFound_iff]
    change (ps.length == qs.length && allFound ps qs) = true ↔ _
    rw [Bool.and_eq_true, beq_iff_eq]
  rw [hfound]
  constructor
  · rintro ⟨hlength, hps'⟩
    have hsubset : keysOf ps ⊆ keysOf qs := by
      intro k hk
      obtain ⟨v, hv⟩ := mem_keysOf.mp hk
      obtain ⟨w, hw, -⟩ := hps' k v hv
      exact mem_keysOf.mpr ⟨w, mem_of_lookup_eq_some hw⟩
    -- the keys on the left are as many as those on the right
    have hperm : (keysOf ps).Perm (keysOf qs) :=
      (List.subperm_of_subset hps hsubset).perm_of_length_le (by simp [hlength])
    have hqs := hperm.nodup_iff.mp hps
    refine ⟨hqs, fun k => hperm.mem_iff, fun k v w hv hw => ?_⟩
    obtain ⟨w', hw', heq⟩ := hps' k v hv
    rw [(lookup_eq_some_iff_mem hqs).mpr hw] at hw'
    exact Option.some.inj hw' ▸ heq
  · rintro ⟨hqs, hkeys, hvalues⟩
    have hperm : (keysOf ps).Perm (keysOf qs) := (List.perm_ext_iff_of_nodup hps hqs).mpr hkeys
    refine ⟨by simpa using hperm.length_eq, fun k v hv => ?_⟩
    obtain ⟨w, hw⟩ := mem_keysOf.mp ((hkeys k).mp (mem_keysOf.mpr ⟨v, hv⟩))
    exact ⟨w, (lookup_eq_some_iff_mem hqs).mpr hw, hvalues k v w hv hw⟩

/-! ### The laws of an equivalence -/

theorem Proper.refl {v : Value} (h : v.Proper) : v == v := by
  induction h with
  | integer n => exact (toValue_beq_iff (.integer n)).mpr rfl
  | boolean b => exact (toValue_beq_iff (.boolean b)).mpr rfl
  | string s => exact (toValue_beq_iff (.string s)).mpr rfl
  | array _ ih => exact array_beq_iff.mpr (List.forall₂_same.mpr ih)
  | hash hnodup _ ih =>
    refine (hash_beq_iff hnodup).mpr ⟨hnodup, fun _ => Iff.rfl, fun k v w hv hw => ?_⟩
    have hlookup := (lookup_eq_some_iff_mem hnodup).mpr hv
    rw [(lookup_eq_some_iff_mem hnodup).mpr hw] at hlookup
    exact Option.some.inj hlookup ▸ ih k w hw
  | function f => exact function_beq_iff.mpr rfl
  | null => exact null_beq_iff.mpr rfl

theorem Proper.symm {v : Value} (h : v.Proper) {w : Value} (heq : v == w) : w == v := by
  induction h generalizing w with
  | integer n =>
    obtain rfl := (toValue_beq_iff (.integer n)).mp heq
    exact heq
  | boolean b =>
    obtain rfl := (toValue_beq_iff (.boolean b)).mp heq
    exact heq
  | string s =>
    obtain rfl := (toValue_beq_iff (.string s)).mp heq
    exact heq
  | array _ ih =>
    obtain ⟨ws, rfl⟩ := exists_array_of_beq heq
    have hall := (List.forall₂_and_left _ _).mpr ⟨ih, array_beq_iff.mp heq⟩
    exact array_beq_iff.mpr (hall.imp fun v w hvw => hvw.1 hvw.2).flip
  | hash hnodup _ ih =>
    obtain ⟨qs, rfl⟩ := exists_hash_of_beq heq
    obtain ⟨hqs, hkeys, hvalues⟩ := (hash_beq_iff hnodup).mp heq
    refine (hash_beq_iff hqs).mpr ⟨hnodup, fun k => (hkeys k).symm, fun k w v hw hv => ?_⟩
    exact ih k v hv (hvalues k v w hv hw)
  | function f =>
    obtain ⟨g, rfl⟩ := exists_function_of_beq heq
    exact function_beq_iff.mpr (function_beq_iff.mp heq).symm
  | null =>
    obtain rfl := null_beq_iff.mp heq
    exact heq

theorem forall₂_beq_trans {us vs ws : List Value}
    (h : ∀ u ∈ us, ∀ {v w : Value}, u == v → v == w → u == w)
    (huv : List.Forall₂ (fun u v => u == v) us vs) (hvw : List.Forall₂ (fun v w => v == w) vs ws) :
    List.Forall₂ (fun u w => u == w) us ws := by
  induction huv generalizing ws with
  | nil => exact hvw
  | cons hu _ ih =>
    cases hvw with
    | cons hv hvw =>
      exact .cons (h _ List.mem_cons_self hu hv) (ih (fun u hu => h u (List.mem_cons_of_mem _ hu)) hvw)

theorem Proper.trans {u : Value} (h : u.Proper) {v w : Value} (huv : u == v) (hvw : v == w) :
    u == w := by
  induction h generalizing v w with
  | integer n =>
    obtain rfl := (toValue_beq_iff (.integer n)).mp huv
    exact hvw
  | boolean b =>
    obtain rfl := (toValue_beq_iff (.boolean b)).mp huv
    exact hvw
  | string s =>
    obtain rfl := (toValue_beq_iff (.string s)).mp huv
    exact hvw
  | @array us _ ih =>
    obtain ⟨vs, rfl⟩ := exists_array_of_beq huv
    obtain ⟨ws, rfl⟩ := exists_array_of_beq hvw
    have hus := array_beq_iff.mp huv
    have hvs := array_beq_iff.mp hvw
    exact array_beq_iff.mpr (forall₂_beq_trans ih hus hvs)
  | @hash ps hnodup _ ih =>
    obtain ⟨qs, rfl⟩ := exists_hash_of_beq huv
    obtain ⟨rs, rfl⟩ := exists_hash_of_beq hvw
    obtain ⟨hqs, hkeys, hvalues⟩ := (hash_beq_iff hnodup).mp huv
    obtain ⟨hrs, hkeys', hvalues'⟩ := (hash_beq_iff hqs).mp hvw
    refine (hash_beq_iff hnodup).mpr
      ⟨hrs, fun k => (hkeys k).trans (hkeys' k), fun k u w hu hw => ?_⟩
    -- the hash in the middle has a value under the key, too
    obtain ⟨v, hv⟩ := mem_keysOf.mp ((hkeys k).mp (mem_keysOf.mpr ⟨u, hu⟩))
    exact ih k u hu (hvalues k u v hu hv) (hvalues' k v w hv hw)
  | function f =>
    obtain ⟨g, rfl⟩ := exists_function_of_beq huv
    obtain ⟨g', rfl⟩ := exists_function_of_beq hvw
    exact function_beq_iff.mpr ((function_beq_iff.mp huv).trans (function_beq_iff.mp hvw))
  | null =>
    obtain rfl := null_beq_iff.mp huv
    exact hvw

/-! ### Keys and functions -/

theorem key?_eq_key?_iff {v w : Value} (hv : v.Usable) (hw : w.Usable) : v.key? = w.key? ↔ v == w := by
  obtain ⟨k, rfl⟩ := hv.exists_key
  obtain ⟨k', rfl⟩ := hw.exists_key
  rw [toValue_beq_iff, Key.key?_toValue, Key.key?_toValue, Option.some.injEq]
  exact ⟨fun h => (congrArg Key.toValue h).symm, fun h => (Key.toValue_injective h).symm⟩

end Value

/-- Among the functions of a chain of compilations, a function is told from the others by its number. -/
theorem Carried.function_eq {s : Scope} {k : Array Value} (h : Carried s k) {f g : Function}
    (hf : Value.function f ∈ k) (hg : Value.function g ∈ k) (hid : f.id = g.id) : f = g := by
  obtain ⟨w, hw, -⟩ := h.follows
  obtain ⟨i, name, parameters, names, body, hi, rfl⟩ := hw.function_mem hf
  obtain ⟨j, name', parameters', names', body', hj, rfl⟩ := hw.function_mem hg
  obtain rfl : i = j := hid
  obtain ⟨rfl, rfl, rfl, rfl⟩ :
      name = name' ∧ parameters = parameters' ∧ names = names' ∧ body = body' := by
    simpa using hi.symm.trans hj
  rfl

/-- **Equality.** All values of programs are proper, and on proper values equality is an equivalence.
Hashes are equal if and only if they have the same keys and equal values under every key. Functions are
equal if and only if they have the same number, which in a session means that they are the same function.
Values of different types are never equal. Values that can be keys are equal if and only if they are the
same key. -/
theorem Value.equal_spec :
    (∀ limits steps actions source v,
      ((Session.after limits steps actions).eval source).1 = .ok v → v.Proper) ∧
    Equivalence (fun v w : { v : Value // v.Proper } => v.1 == w.1) ∧
    (∀ ps qs : List (Key × Value), (Value.hash ps).Proper → (Value.hash qs).Proper →
      (Value.hash ps == Value.hash qs ↔ (∀ k, k ∈ keysOf ps ↔ k ∈ keysOf qs) ∧
        ∀ k v w, (k, v) ∈ ps → (k, w) ∈ qs → v == w)) ∧
    (∀ f g : Function, Value.function f == Value.function g ↔ f.id = g.id) ∧
    (∀ (s : Scope) (k : Array Value), Carried s k → ∀ f g : Function, Value.function f ∈ k →
      Value.function g ∈ k → (Value.function f == Value.function g ↔ f = g)) ∧
    (∀ v w : Value, v.type ≠ w.type → (v == w) = false) ∧
    ∀ v w : Value, v.Usable → w.Usable → (v.key? = w.key? ↔ v == w) := by
  refine ⟨fun limits steps actions source v => Session.proper_of_eval limits steps actions source,
    ⟨?_, ?_, ?_⟩, ?_, ?_, ?_, ?_, ?_⟩
  · exact fun v => v.2.refl
  · exact fun {v w} h => v.2.symm h
  · exact fun {u v w} h h' => u.2.trans h h'
  · intro ps qs hps hqs
    rw [hash_beq_iff hps.nodup, and_iff_right hqs.nodup]
  · exact fun f g => function_beq_iff
  · intro s k hk f g hf hg
    rw [function_beq_iff]
    exact ⟨hk.function_eq hf hg, fun h => congrArg Function.id h⟩
  · intro v w htype
    exact Bool.eq_false_iff.mpr fun h => htype (type_eq_of_beq h)
  · exact fun v w hv hw => key?_eq_key?_iff hv hw

/-- The order of entries is no matter, and a hash is equal to itself. -/
theorem Value.equal_spec_reordered :
    let ps : List (Key × Value) := [(.string "a", .integer 1), (.boolean true, .array [.null])]
    let qs : List (Key × Value) := [(.boolean true, .array [.null]), (.string "a", .integer 1)]
    (Value.hash ps).Proper ∧ (Value.hash qs).Proper ∧ Value.hash ps == Value.hash qs ∧
      Value.hash qs == Value.hash ps := by
  intro ps qs
  have harray : (Value.array [.null]).Proper := .array (by simpa using .null)
  have hps : (Value.hash ps).Proper := by
    refine .hash (by decide) fun k v hv => ?_
    rcases List.mem_pair.mp hv with h | h
    · exact (Prod.mk.inj h).2 ▸ .integer 1
    · exact (Prod.mk.inj h).2 ▸ harray
  have hqs : (Value.hash qs).Proper := by
    refine .hash (by decide) fun k v hv => ?_
    rcases List.mem_pair.mp hv with h | h
    · exact (Prod.mk.inj h).2 ▸ harray
    · exact (Prod.mk.inj h).2 ▸ .integer 1
  obtain ⟨-, hequivalence, hhashes, -⟩ := equal_spec
  have hequal : Value.hash ps == Value.hash qs := by
    refine (hhashes ps qs hps hqs).mpr ⟨fun k => by simp [ps, qs, keysOf, or_comm], ?_⟩
    intro k v w hv hw
    simp only [ps, qs, List.mem_cons, Prod.mk.injEq, List.not_mem_nil, or_false] at hv hw
    rcases hv with ⟨rfl, rfl⟩ | ⟨rfl, rfl⟩ <;> rcases hw with ⟨hk, rfl⟩ | ⟨hk, rfl⟩
    · cases hk
    · rfl
    · rfl
    · cases hk
  have hback : Value.hash qs == Value.hash ps :=
    @hequivalence.symm ⟨_, hps⟩ ⟨_, hqs⟩ hequal
  exact ⟨hps, hqs, hequal, hback⟩

end Monkey
