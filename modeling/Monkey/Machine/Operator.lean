import Monkey.Machine.Fault
import Monkey.Value.Entries
import Monkey.Value.Equality

/-!
# Operators on values

The operators of the language on values that are already computed. Integers wrap around at 64 bits,
and division drops the fraction. Looking up what is not there gives null: an index outside an array,
or a key that a hash does not have.
-/

namespace Monkey

/-- The operators of arithmetic. -/
inductive ArithOp where
  | add | sub | mul | div
deriving Repr, DecidableEq, Inhabited

namespace ArithOp

/-- The spelling of an operator. -/
def symbol : ArithOp → String
  | add => "+"
  | sub => "-"
  | mul => "*"
  | div => "/"

/-- An operator on integers. -/
def onIntegers (op : ArithOp) (a b : Int64) : Except Fault Int64 :=
  match op with
  | add => .ok (a + b)
  | sub => .ok (a - b)
  | mul => .ok (a * b)
  | div => if b = 0 then .error .divisionByZero else .ok (a / b)

/-- An operator on values: two integers, or two strings that are joined. -/
def apply (op : ArithOp) (left right : Value) : Except Fault Value :=
  match op, left, right with
  | _, .integer a, .integer b => .integer <$> op.onIntegers a b
  | add, .string s, .string t => .ok (.string (s ++ t))
  | _, _, _ => .error (.unsupportedBinary left.type op.symbol right.type)

end ArithOp

namespace Value

/-- Whether an integer is greater than another one. -/
def greater (left right : Value) : Except Fault Value :=
  match left, right with
  | integer a, integer b => .ok (boolean (b < a))
  | _, _ => .error (.unsupportedBinary left.type ">" right.type)

/-- The opposite of an integer. -/
def negate : Value → Except Fault Value
  | integer n => .ok (integer (-n))
  | v => .error (.unsupportedNegation v.type)

/-- The value of an array at an index, or of a hash under a key. -/
def lookup (collection key : Value) : Except Fault Value :=
  match collection, key with
  | array vs, integer i =>
    .ok (if i < 0 then null else vs.getD i.toInt.toNat null)
  | hash ps, _ =>
    match key.key? with
    | some k => .ok ((ps.lookup k).getD null)
    | none => .error (.unusableKey key.type)
  | _, _ => .error (.indexNotSupported collection.type key.type)

/-- The hash that a list of keys and values in turn makes. -/
def hashOf (vs : List Value) : Except Fault Value :=
  match Entries.empty.ofValues? vs with
  | .ok es => .ok es.toValue
  | .error k => .error (.unusableKey k.type)

end Value

end Monkey
