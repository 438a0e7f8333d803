import Monkey.Value

/-!
# Equality of values

`Value.equal` is the equality that programs see. Arrays are compared element by element, hashes as
maps, whatever the order of their entries, and functions by identity. Values of different types are
never equal.
-/

namespace Monkey

mutual

/-- Whether two values are equal. -/
def Value.equal : Value → Value → Bool
  | .integer m, .integer n => m == n
  | .boolean a, .boolean b => a == b
  | .string s, .string t => s == t
  | .array xs, .array ys => Value.equalLists xs ys
  | .hash ps, .hash qs => ps.length == qs.length && Value.allFound ps qs
  | .function f, .function g => f.id == g.id
  | .null, .null => true
  | _, _ => false
termination_by structural v => v

/-- Whether two lists are equal element by element. -/
def Value.equalLists : List Value → List Value → Bool
  | [], [] => true
  | v :: vs, w :: ws => v.equal w && Value.equalLists vs ws
  | _, _ => false
termination_by structural vs => vs

/-- Whether all entries on the left are found on the right, under the same key with an equal
value. -/
def Value.allFound : List (Key × Value) → List (Key × Value) → Bool
  | [], _ => true
  | (k, v) :: ps, qs =>
    (match qs.lookup k with
      | some w => v.equal w
      | none => false) && Value.allFound ps qs
termination_by structural ps => ps

end

instance : BEq Value := ⟨Value.equal⟩

end Monkey
