import Monkey.Numbering
import Monkey.Value

/-!
# The entries of a hash

`Entries` builds a hash from pairs of a key and a value that come one after the other. A key keeps
the place where it first came and takes the value that came last. The numbering says at which
place the entry of a key stands, so that one insertion takes the same time whatever the size.
-/

namespace Monkey

/-- Entries of a hash in the order in which their keys first came. -/
structure Entries where
  places : Numbering Key
  pairs : Array (Key × Value)
deriving Inhabited

namespace Entries

/-- No entries. -/
def empty : Entries := ⟨.empty, #[]⟩

/-- Gives a key a value. -/
def insert (es : Entries) (k : Key) (v : Value) : Entries :=
  match es.places.find? k with
  | some i => { es with pairs := es.pairs.setIfInBounds i (k, v) }
  | none => ⟨es.places.add k, es.pairs.push (k, v)⟩

/-- The hash with these entries. -/
def toValue (es : Entries) : Value := .hash es.pairs.toList

/-- The entries that a list of keys and values in turn makes: every other value is a key, and the
first that cannot be one is given back as the fault. A key without a value behind it is left out. -/
def ofValues? (es : Entries) : List Value → Except Value Entries
  | k :: v :: rest =>
    match k.key? with
    | some key => ofValues? (es.insert key v) rest
    | none => .error k
  | _ => .ok es

end Entries

end Monkey
