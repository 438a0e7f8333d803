/-!
# Values

What programs compute. Integers are 64-bit words that wrap around, arrays and hashes hold values of
every type, and a hash keeps its entries in the order in which their keys were first given.

A function is the code of a function literal. It knows which literal it came from (`Function.id`),
and two function values are the same function when that agrees.
-/

namespace Monkey

/-- A stream of instruction bytes. -/
abbrev Code := Array UInt8

/-- A function literal, compiled. -/
structure Function where
  /-- Tells the function from every other one. -/
  id : Nat
  code : Code
  /-- How many slots a call reserves for parameters and local names together. -/
  locals : Nat
  parameters : Nat
  /-- The name that the literal is bound to, if it is bound to one directly. -/
  name : Option String
deriving Repr, DecidableEq, Inhabited

/-- The values that entries of a hash are found by. -/
inductive Key where
  | integer (n : Int64)
  | boolean (b : Bool)
  | string (s : String)
deriving Repr, DecidableEq, Hashable, Inhabited

/-- A value. -/
inductive Value where
  | integer (n : Int64)
  | boolean (b : Bool)
  | string (s : String)
  | array (elements : List Value)
  | hash (entries : List (Key × Value))
  | function (f : Function)
  | null

instance : Inhabited Value := ⟨.null⟩

/-- The types of values. -/
inductive ValueType where
  | integer | boolean | string | array | hash | function | null
deriving Repr, DecidableEq, Inhabited

/-- The name of a type. -/
def ValueType.name : ValueType → String
  | integer => "INTEGER"
  | boolean => "BOOLEAN"
  | string => "STRING"
  | array => "ARRAY"
  | hash => "HASH"
  | function => "FUNCTION"
  | null => "NULL"

namespace Value

/-- The type of a value. -/
def type : Value → ValueType
  | integer _ => .integer
  | boolean _ => .boolean
  | string _ => .string
  | array _ => .array
  | hash _ => .hash
  | function _ => .function
  | null => .null

/-- Whether a value holds as a condition: all values do but `false` and `null`. -/
def isTruthy : Value → Bool
  | boolean b => b
  | null => false
  | _ => true

/-- Whether a value is `null`. -/
def isNull : Value → Bool
  | null => true
  | _ => false

/-- The key that a value is, if it can be one. -/
def key? : Value → Option Key
  | integer n => some (.integer n)
  | boolean b => some (.boolean b)
  | string s => some (.string s)
  | _ => none

end Value

/-- A key as a value. -/
def Key.toValue : Key → Value
  | integer n => .integer n
  | boolean b => .boolean b
  | string s => .string s

/-- A key is read back from its value. -/
@[simp] theorem Key.key?_toValue (k : Key) : k.toValue.key? = some k := by
  cases k <;> rfl

end Monkey
