import Monkey.Proofs.Entries
import Monkey.Proofs.Execution
import Monkey.Proofs.Stack

/-!
# Making hashes and looking into them

The instruction that makes a hash takes pairs of keys and values off the stack, and fails on the first
key that is no integer, boolean or string. Otherwise it leaves a hash with one entry for every key, in the
order in which the keys first come, and looking a key up in it gives the last value that the key was
given, or null (`Executing.hash_spec`). The result takes the place of the pairs, so it needs a free slot
only when there are none.
-/

namespace Monkey.Executing

variable {m : Machine} {below vs : List Value}

/-! ### Operands and results -/

/-- A result is pushed when there is a free slot. -/
theorem run_push (m : Machine) (v : Value) :
    (push v).run.run m =
      if m.sp < m.stack.size then
        (.ok (), { m with stack := m.stack.setIfInBounds m.sp v, sp := m.sp + 1 })
      else (.error .stackOverflow, m) := by
  rw [push, run_bind]
  change (if m.sp < m.stack.size then _ else _ : Executing Unit).run.run m = _
  split <;> rfl

theorem exists_run_push (h : StackHas m.stack m.sp below) (hroom : m.sp < m.stack.size) (v : Value) :
    ∃ m', (push v).run.run m = (.ok (), m') ∧ StackHas m'.stack m'.sp (below ++ [v]) := by
  rw [run_push, if_pos hroom]
  exact ⟨_, rfl, h.push hroom v⟩

theorem run_pop {v : Value} (h : StackHas m.stack m.sp (below ++ [v])) :
    pop.run.run m = (.ok v, { m with sp := m.sp - 1 }) := by
  obtain ⟨hsp, hv⟩ := h.getD_below
  rw [pop, run_bind]
  change (if m.sp = 0 then _ else _ : Executing Value).run.run m = _
  rw [if_neg (Nat.ne_zero_of_lt hsp)]
  exact congrArg (fun w => (Except.ok w, _)) hv

/-- Operands are taken off in the order in which they were pushed. -/
theorem run_popMany (h : StackHas m.stack m.sp (below ++ vs)) :
    (popMany vs.length).run.run m = (.ok vs, { m with sp := m.sp - vs.length }) := by
  have hlength := h.length
  rw [List.length_append] at hlength
  rw [popMany, run_bind]
  change (if m.sp < vs.length then _ else _ : Executing (List Value)).run.run m = _
  rw [if_neg (by omega), h.extract]
  rfl

theorem run_hash (h : StackHas m.stack m.sp (below ++ vs)) :
    (execute .hash vs.length).run.run m =
      (give (Value.hashOf vs)).run.run { m with sp := m.sp - vs.length } := by
  rw [execute, run_bind, run_popMany h]
  rfl

theorem run_index {v w : Value} (h : StackHas m.stack m.sp (below ++ [v, w])) (operand : Nat) :
    (execute .index operand).run.run m = (give (v.lookup w)).run.run { m with sp := m.sp - 2 } := by
  have hright : StackHas m.stack m.sp (below ++ [v] ++ [w]) := by simpa using h
  have hleft : StackHas m.stack (m.sp - 1) (below ++ [v]) := hright.pop
  rw [execute, binary, run_bind, run_pop hright]
  dsimp only
  rw [run_bind, run_pop hleft]
  rfl

/-! ### Making a hash -/

theorem stackHas_pairs {pairs : List (Value × Value)}
    (h : StackHas m.stack m.sp (below ++ inTurn pairs)) :
    StackHas m.stack (m.sp - 2 * pairs.length) below := by
  rw [← length_inTurn]
  exact h.pop

theorem run_hash_pairs {pairs : List (Value × Value)}
    (h : StackHas m.stack m.sp (below ++ inTurn pairs)) :
    (execute .hash (2 * pairs.length)).run.run m =
      (give (Value.hashOf (inTurn pairs))).run.run { m with sp := m.sp - 2 * pairs.length } := by
  rw [← length_inTurn]
  exact run_hash h

/-- There is room for the hash of pairs, unless it is empty and all slots are in use. -/
theorem room_for_hash {pairs : List (Value × Value)}
    (h : StackHas m.stack m.sp (below ++ inTurn pairs)) :
    m.sp - 2 * pairs.length < m.stack.size ↔ (pairs = [] → m.sp < m.stack.size) := by
  have hlength := h.length
  have hroom := h.room
  rw [List.length_append, length_inTurn] at hlength
  cases pairs with
  | nil => simp
  | cons e pairs =>
    simp only [List.length_cons] at hlength ⊢
    simp only [reduceCtorEq, false_implies, iff_true]
    omega

/-- The first key that is not usable is at fault. -/
theorem run_hash_unusable {keyed : List (Key × Value)} {v w : Value} {rest : List (Value × Value)}
    (hv : ¬v.Usable)
    (h : StackHas m.stack m.sp (below ++ inTurn (asValues keyed ++ (v, w) :: rest))) :
    ((execute .hash (2 * (asValues keyed ++ (v, w) :: rest).length)).run.run m).1 =
      .error (.unusableKey v.type) := by
  rw [run_hash_pairs h, Value.hashOf_unusable keyed hv]
  rfl

/-- Pairs with usable keys leave their hash. -/
theorem run_hash_usable {keyed : List (Key × Value)}
    (h : StackHas m.stack m.sp (below ++ inTurn (asValues keyed))) :
    (execute .hash (2 * (asValues keyed).length)).run.run m =
      (push (.hash (Entries.ofPairs keyed))).run.run
        { m with sp := m.sp - 2 * (asValues keyed).length } := by
  rw [run_hash_pairs h, Value.hashOf_asValues]
  rfl

theorem exists_run_hash {keyed : List (Key × Value)}
    (h : StackHas m.stack m.sp (below ++ inTurn (asValues keyed)))
    (hroom : m.sp - 2 * (asValues keyed).length < m.stack.size) :
    ∃ m', (execute .hash (2 * (asValues keyed).length)).run.run m = (.ok (), m') ∧
      StackHas m'.stack m'.sp (below ++ [.hash (Entries.ofPairs keyed)]) := by
  rw [run_hash_usable h]
  exact exists_run_push (m := { m with sp := m.sp - 2 * (asValues keyed).length })
    (stackHas_pairs h) hroom _

/-- Without room for the hash the stack overflows. -/
theorem run_hash_full {keyed : List (Key × Value)}
    (h : StackHas m.stack m.sp (below ++ inTurn (asValues keyed)))
    (hfull : ¬m.sp - 2 * (asValues keyed).length < m.stack.size) :
    ((execute .hash (2 * (asValues keyed).length)).run.run m).1 = .error .stackOverflow := by
  rw [run_hash_usable h, run_push]
  dsimp only
  rw [if_neg hfull]

/-! ### Looking into a hash -/

/-- Looking up a key always gives a value, as there is room for it. -/
theorem run_lookup {es : List (Key × Value)} {k : Key}
    (h : StackHas m.stack m.sp (below ++ [.hash es, k.toValue])) (operand : Nat) :
    ∃ m', (execute .index operand).run.run m = (.ok (), m') ∧
      StackHas m'.stack m'.sp (below ++ [(es.lookup k).getD .null]) := by
  have hlength := h.length
  have hroom := h.room
  have hbelow : StackHas m.stack (m.sp - 2) below := h.pop
  rw [List.length_append, List.length_cons, List.length_singleton] at hlength
  rw [run_index h, Value.lookup, Key.key?_toValue]
  exact exists_run_push (m := { m with sp := m.sp - 2 }) hbelow (by dsimp only; omega) _

/-! ### Pairs of any kind -/

/-- A hash is made of pairs with usable keys, if there is room for it. -/
theorem hash_eq_ok_iff {pairs : List (Value × Value)}
    (h : StackHas m.stack m.sp (below ++ inTurn pairs)) :
    ((execute .hash (2 * pairs.length)).run.run m).1 = .ok () ↔
      (∀ e ∈ pairs, e.1.Usable) ∧ (pairs = [] → m.sp < m.stack.size) := by
  rw [← room_for_hash h]
  rcases usable_cases pairs with ⟨keyed, rfl⟩ | ⟨keyed, v, w, rest, rfl, hv⟩
  · by_cases hroom : m.sp - 2 * (asValues keyed).length < m.stack.size
    · obtain ⟨m', hrun, -⟩ := exists_run_hash h hroom
      simp only [hrun, hroom, and_true, true_iff]
      exact usable_asValues
    · simp [run_hash_full h hroom, hroom]
  · have hnot : ¬∀ e ∈ asValues keyed ++ (v, w) :: rest, e.1.Usable := fun husable =>
      hv (husable (v, w) (by simp))
    simp only [run_hash_unusable hv h, hnot, false_and, reduceCtorEq]

/-- **Making a hash.** On pairs of keys and values, the instruction succeeds if and only if all keys are
usable and the hash finds a free slot, which only an empty one can lack. It fails on the first key that is
not usable. The hash of the pairs has one entry for every key, in the order in which the keys first come,
with the last value of the key. Looking a key up in it gives this value, or null when no pair has the key.
Different values are never the same key. -/
theorem hash_spec {pairs : List (Value × Value)}
    (h : StackHas m.stack m.sp (below ++ inTurn pairs)) :
    let r := (execute .hash (2 * pairs.length)).run.run m
    (r.1 = .ok () ↔ (∀ e ∈ pairs, e.1.Usable) ∧ (pairs = [] → m.sp < m.stack.size)) ∧
    (pairs = [] → m.stack.size ≤ m.sp → r.1 = .error .stackOverflow) ∧
    (∀ front e back, pairs = front ++ e :: back → (∀ e ∈ front, e.1.Usable) → ¬e.1.Usable →
      r.1 = .error (.unusableKey e.1.type)) ∧
    (r.1 = .ok () → ∃ es, StackHas r.2.stack r.2.sp (below ++ [.hash es]) ∧
      Entries.LastWins pairs es ∧
      ∀ (m' : Machine) (below' : List Value) (key : Value) (operand : Nat), key.Usable →
        StackHas m'.stack m'.sp (below' ++ [.hash es, key]) →
        let r' := (execute .index operand).run.run m'
        r'.1 = .ok () ∧ ∃ v, StackHas r'.2.stack r'.2.sp (below' ++ [v]) ∧
          (∀ front w back, pairs = front ++ (key, w) :: back → (∀ e ∈ back, e.1 ≠ key) → v = w) ∧
          ((∀ e ∈ pairs, e.1 ≠ key) → v = .null)) ∧
    ∀ v w : Value, v.Usable → v.key? = w.key? → v = w := by
  intro r
  refine ⟨hash_eq_ok_iff h, ?_, ?_, fun hok => ?_, ?_⟩
  · intro hempty hfull
    -- only the empty hash needs a slot that was not in use
    have husable : ∀ e ∈ pairs, e.1.Usable := by simp [hempty]
    obtain ⟨keyed, rfl⟩ := exists_asValues husable
    refine run_hash_full h fun hroom => ?_
    exact absurd ((room_for_hash h).mp hroom hempty) (Nat.not_lt.mpr hfull)
  · rintro front ⟨v, w⟩ back rfl hfront hv
    -- with usable keys before it, this key is the first at fault
    obtain ⟨keyed, rfl⟩ := exists_asValues hfront
    exact run_hash_unusable hv h
  · obtain ⟨husable, hroom⟩ := (hash_eq_ok_iff h).mp hok
    obtain ⟨keyed, rfl⟩ := exists_asValues husable
    obtain ⟨m₁, hrun, hm₁⟩ := exists_run_hash h ((room_for_hash h).mpr hroom)
    have hr : r = (.ok (), m₁) := hrun
    rw [hr]
    refine ⟨_, hm₁, Entries.lastWins_ofPairs keyed, ?_⟩
    intro m' below' key operand hkey hm' r'
    obtain ⟨k, rfl⟩ := hkey.exists_key
    obtain ⟨m'', hrun, hm''⟩ := run_lookup hm' operand
    have hr' : r' = (.ok (), m'') := hrun
    rw [hr']
    refine ⟨rfl, _, hm'', fun front w back heq hback => ?_, fun habsent => ?_⟩
    · rw [Entries.lookup_ofPairs_of_last heq hback, Option.getD_some]
    · rw [Entries.lookup_ofPairs_of_absent habsent, Option.getD_none]
  · intro v w hv hkey
    obtain ⟨k, rfl⟩ := hv.exists_key
    rw [Key.key?_toValue] at hkey
    exact (Value.key?_eq_some_iff.mp hkey.symm).symm

/-- The second value of a key replaces the first, in the first place. -/
theorem hash_spec_repeatedKey :
    let pairs : List (Value × Value) :=
      [(.string "a", .integer 1), (.boolean true, .null), (.string "a", .integer 3)]
    let m : Machine := ⟨#[], (inTurn pairs).toArray, 6, #[], #[], 0⟩
    StackHas m.stack m.sp ([] ++ inTurn pairs) ∧ ∃ es,
      StackHas ((execute .hash 6).run.run m).2.stack ((execute .hash 6).run.run m).2.sp
        [.hash es] ∧
      keysOf es = [.string "a", .boolean true] ∧
      let m' : Machine := ⟨#[], #[.hash es, .string "a"], 2, #[], #[], 0⟩
      StackHas ((execute .index 0).run.run m').2.stack ((execute .index 0).run.run m').2.sp
        [.integer 3] := by
  intro pairs m
  have hstack : StackHas m.stack m.sp ([] ++ inTurn pairs) := ⟨by decide, rfl⟩
  obtain ⟨hok, -, -, hmade, -⟩ := hash_spec hstack
  obtain ⟨es, hes, hlast, hget⟩ := hmade (hok.mpr ⟨by decide, by simp [pairs]⟩)
  refine ⟨hstack, es, hes, hlast.keys.trans (by decide), ?_⟩
  intro m'
  have htop : StackHas m'.stack m'.sp ([] ++ [.hash es, .string "a"]) := ⟨by simp [m'], rfl⟩
  obtain ⟨-, v, hv, hvalue, -⟩ := hget m' [] (.string "a") 0 (by decide) htop
  obtain rfl : v = .integer 3 := hvalue (pairs.take 2) (.integer 3) [] rfl (by simp)
  exact hv

/-- On a full stack there is no room for an empty hash, although it has no key that is not usable. -/
theorem hash_spec_fullStack :
    let m : Machine := ⟨#[], #[.null], 1, #[], #[], 0⟩
    StackHas m.stack m.sp ([.null] ++ inTurn []) ∧ (∀ e ∈ ([] : List (Value × Value)), e.1.Usable) ∧
      ((execute .hash (2 * 0)).run.run m).1 = .error .stackOverflow := by
  intro m
  exact ⟨⟨by decide, rfl⟩, by simp, rfl⟩

end Monkey.Executing
