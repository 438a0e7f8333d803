import Std.Data.HashMap

/-!
# Numbers in order of first appearance

A `Numbering` gives out the numbers 0, 1, 2, … to things in the order in which they are first added.
Adding a thing again changes nothing. Names get their slots from one, and the entries of a hash
their positions.
-/

namespace Monkey

/-- Numbers for things of a type, counted from zero without a gap. -/
structure Numbering (α : Type) [BEq α] [Hashable α] where
  table : Std.HashMap α Nat

namespace Numbering

variable {α : Type} [BEq α] [Hashable α]

/-- No numbers given out. -/
def empty : Numbering α := ⟨∅⟩

instance : Inhabited (Numbering α) := ⟨empty⟩

/-- How many numbers are given out; the next number to give. -/
def size (ns : Numbering α) : Nat := ns.table.size

/-- The number of a thing. -/
def find? (ns : Numbering α) (a : α) : Option Nat := ns.table[a]?

/-- Gives a thing the next number, unless it has one. -/
def add (ns : Numbering α) (a : α) : Numbering α :=
  match ns.find? a with
  | some _ => ns
  | none => ⟨ns.table.insert a ns.size⟩

@[simp] theorem size_empty : (empty : Numbering α).size = 0 := by
  simp [size, empty]

@[simp] theorem find?_empty (a : α) : (empty : Numbering α).find? a = none := by
  simp [find?, empty]

end Numbering

end Monkey
