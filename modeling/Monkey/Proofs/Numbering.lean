import Mathlib.Data.List.Nodup
import Mathlib.Data.List.Perm.Subperm
import Monkey.Numbering

/-!
# Numberings are dense and stable

The numbers of a `Numbering` are those below its size, each given to one thing (`Dense`), and none of
them is left out (`Dense.exists_find?_eq`). Adding a thing takes no number away from another one
(`Extends`). `find?_add` says everything about `add`; the rest is derived from it.
-/

namespace Monkey.Numbering

variable {α : Type} [BEq α] [Hashable α]

/-- The numbers given out are those below the size, each to one thing. -/
structure Dense (ns : Numbering α) : Prop where
  lt_size {a : α} {i : Nat} : ns.find? a = some i → i < ns.size
  injective {a b : α} {i : Nat} : ns.find? a = some i → ns.find? b = some i → a = b

theorem dense_empty : (empty : Numbering α).Dense :=
  ⟨fun h => by simp at h, fun h => by simp at h⟩

/-- `ns'` gives the things of `ns` the numbers that they have there. -/
def Extends (ns ns' : Numbering α) : Prop := ∀ a i, ns.find? a = some i → ns'.find? a = some i

theorem Extends.refl (ns : Numbering α) : ns.Extends ns := fun _ _ h => h

theorem Extends.trans {ns₁ ns₂ ns₃ : Numbering α} (h : ns₁.Extends ns₂) (h' : ns₂.Extends ns₃) :
    ns₁.Extends ns₃ := fun a i hi => h' a i (h a i hi)

/-- A thing that has a number is not added again. -/
theorem add_of_find? {ns : Numbering α} {a : α} {i : Nat} (h : ns.find? a = some i) :
    ns.add a = ns := by
  rw [add, h]

variable [LawfulBEq α] [LawfulHashable α]

/-- **No number below the size is left out.** -/
theorem Dense.exists_find?_eq {ns : Numbering α} (h : ns.Dense) {i : Nat} (hi : i < ns.size) :
    ∃ a, ns.find? a = some i := by
  have hpair : ∀ p ∈ ns.table.toList, ns.find? p.1 = some p.2 := fun p hp =>
    Std.HashMap.mem_toList_iff_getElem?_eq_some.mp hp
  have hkeys : (ns.table.toList.map Prod.fst).Nodup := by
    rw [Std.HashMap.map_fst_toList_eq_keys]
    exact Std.HashMap.nodup_keys
  have hnodup : (ns.table.toList.map Prod.snd).Nodup := by
    refine List.Nodup.map_on (fun p hp q hq heq => ?_) hkeys.of_map
    exact Prod.ext (h.injective (hpair p hp) (heq ▸ hpair q hq)) heq
  have hbelow : ns.table.toList.map Prod.snd ⊆ List.range ns.size := by
    intro j hj
    obtain ⟨p, hp, rfl⟩ := List.mem_map.mp hj
    exact List.mem_range.mpr (h.lt_size (hpair p hp))
  -- as many numbers are given out as there are below the size
  have hlength : (List.range ns.size).length = (ns.table.toList.map Prod.snd).length := by
    rw [List.length_range, List.length_map, Std.HashMap.length_toList, size]
  have hperm := (List.subperm_of_subset hnodup hbelow).perm_of_length_le (Nat.le_of_eq hlength)
  obtain ⟨p, hp, rfl⟩ := List.mem_map.mp (hperm.mem_iff.mpr (List.mem_range.mpr hi))
  exact ⟨p.1, hpair p hp⟩

/-! ### Adding -/

theorem size_add (ns : Numbering α) (a : α) :
    (ns.add a).size = if (ns.find? a).isSome then ns.size else ns.size + 1 := by
  unfold add
  cases h : ns.find? a with
  | some i => simp
  | none =>
    have hmem : a ∉ ns.table := by simpa [find?] using h
    simp [size, Std.HashMap.size_insert, hmem]

theorem find?_add (ns : Numbering α) (a b : α) :
    (ns.add a).find? b = if a == b && (ns.find? a).isNone then some ns.size else ns.find? b := by
  unfold add
  cases h : ns.find? a with
  | some i => simp
  | none =>
    by_cases hab : a = b
    · subst hab
      simp [find?]
    · simp [find?, Std.HashMap.getElem?_insert, hab]

/-- What is added first has the number 0. -/
theorem find?_add_empty (a : α) : (add empty a).find? a = some 0 := by simp [find?_add]

/-- A thing that was added has a number. -/
theorem isSome_find?_add (ns : Numbering α) (a : α) : ((ns.add a).find? a).isSome := by
  rw [find?_add]
  cases h : ns.find? a <;> simp

theorem Dense.add {ns : Numbering α} (h : ns.Dense) (a : α) : (ns.add a).Dense where
  lt_size {b i} hb := by
    rw [find?_add] at hb
    rw [size_add]
    split at hb
    · next hab =>
      obtain rfl := Option.some.inj hb
      have hnone : ns.find? a = none := by simpa using (Bool.and_eq_true_iff.mp hab).2
      simp [hnone]
    · have := h.lt_size hb
      split <;> omega
  injective {b c i} hb hc := by
    rw [find?_add] at hb hc
    split at hb <;> split at hc
    · next h₁ h₂ =>
      simp only [Bool.and_eq_true, beq_iff_eq] at h₁ h₂
      exact h₁.1.symm.trans h₂.1
    · obtain rfl := Option.some.inj hb
      exact absurd (h.lt_size hc) (Nat.lt_irrefl _)
    · obtain rfl := Option.some.inj hc
      exact absurd (h.lt_size hb) (Nat.lt_irrefl _)
    · exact h.injective hb hc

theorem extends_add (ns : Numbering α) (a : α) : ns.Extends (ns.add a) := by
  intro b i hb
  rw [find?_add]
  split
  · next h =>
    simp only [Bool.and_eq_true, beq_iff_eq, Option.isNone_iff_eq_none] at h
    rw [← h.1, h.2] at hb
    cases hb
  · exact hb

theorem extends_foldl_add (ns : Numbering α) (as : List α) : ns.Extends (as.foldl add ns) := by
  induction as generalizing ns with
  | nil => exact .refl ns
  | cons a as ih => exact (ns.extends_add a).trans (ih (ns.add a))

/-- Things that are added one after the other, none of them twice, get consecutive numbers. -/
theorem find?_foldl_add {as : List α} (hnodup : as.Nodup) {ns : Numbering α} (hns : ns.Dense)
    (hnew : ∀ a ∈ as, ns.find? a = none) {i : Nat} {a : α} (hi : as[i]? = some a) :
    (as.foldl add ns).find? a = some (ns.size + i) := by
  induction as generalizing ns i with
  | nil => simp at hi
  | cons b as ih =>
    obtain ⟨hb, hnodup⟩ := List.nodup_cons.mp hnodup
    have hbnew : ns.find? b = none := hnew b List.mem_cons_self
    have hsize : (ns.add b).size = ns.size + 1 := by simp [size_add, hbnew]
    have hrest : ∀ c ∈ as, (ns.add b).find? c = none := by
      intro c hc
      have hbc : b ≠ c := fun h => hb (h ▸ hc)
      rw [find?_add, if_neg (by simp [hbc])]
      exact hnew c (List.mem_cons_of_mem _ hc)
    rw [List.foldl_cons]
    cases i with
    | zero =>
      obtain rfl := Option.some.inj hi
      have hnum : (ns.add b).find? b = some ns.size := by simp [find?_add, hbnew]
      exact extends_foldl_add (ns.add b) as _ _ hnum
    | succ i =>
      rw [ih hnodup (hns.add b) hrest (by simpa using hi), hsize]
      congr 1
      omega

end Monkey.Numbering
