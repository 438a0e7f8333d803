import Monkey.Value

/-!
# The text of values

`Value.text` is what a program's result is printed as. Strings are printed raw, also inside arrays
and hashes, and a function only shows its number of parameters.
-/

namespace Monkey

/-- The text of a truth value. -/
def boolText (b : Bool) : String := if b then "true" else "false"

/-- The text of a key. -/
def Key.text : Key → String
  | integer n => toString n
  | boolean b => boolText b
  | string s => s

mutual

/-- The text of a value. -/
def Value.text : Value → String
  | .integer n => toString n
  | .boolean b => boolText b
  | .string s => s
  | .array vs => "[" ++ ", ".intercalate (Value.texts #[] vs).toList ++ "]"
  | .hash ps => "\x7b" ++ ", ".intercalate (Value.entryTexts #[] ps).toList ++ "\x7d"
  | .function f => s!"<fn/{f.parameters}>"
  | .null => "null"
termination_by structural v => v

/-- The texts of a list of values, behind those of `done`. -/
def Value.texts (done : Array String) : List Value → Array String
  | [] => done
  | v :: vs => Value.texts (done.push v.text) vs
termination_by structural vs => vs

/-- The texts of the entries of a hash, behind those of `done`. -/
def Value.entryTexts (done : Array String) : List (Key × Value) → Array String
  | [] => done
  | (k, v) :: ps => Value.entryTexts (done.push (k.text ++ ": " ++ v.text)) ps
termination_by structural ps => ps

end

theorem Value.texts_eq (done : Array String) (vs : List Value) :
    Value.texts done vs = done ++ (vs.map Value.text).toArray := by
  induction vs generalizing done with
  | nil => simp [Value.texts]
  | cons v vs ih => simp [Value.texts, ih]

end Monkey
