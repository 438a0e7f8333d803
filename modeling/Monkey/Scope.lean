import Monkey.Numbering

/-!
# Scopes

Which names are bound where, while a program is being compiled. The outermost scope holds the global
names; the body of a function opens a scope of its own for its parameters and local names. The names
of one scope take the slots 0, 1, 2, … in the order of their first binding.

From inside a function only its own names and the global ones can be seen (`Scope.resolve`): a
name of an enclosing function hides a global name, and is itself out of reach.
-/

namespace Monkey

/-- Where the value of a name is kept. -/
inductive Storage where
  /-- Among the global slots. -/
  | global
  /-- Among the slots of the call that is running. -/
  | frame
deriving Repr, DecidableEq, Inhabited

/-- A name with its slot. -/
structure Symbol where
  name : String
  storage : Storage
  slot : Nat
deriving Repr, DecidableEq, Inhabited

/-- The names that are bound at some point of a program. -/
inductive Scope where
  /-- The global names. -/
  | outermost (names : Numbering String)
  /-- The names of a function, within the scope that it stands in. -/
  | nested (names : Numbering String) (outer : Scope)
deriving Inhabited

namespace Scope

/-- No names at all. -/
def empty : Scope := outermost .empty

/-- The scope of a function that stands in the scope `s`. -/
def enclose (s : Scope) : Scope := nested .empty s

/-- The names of the innermost level. -/
def names : Scope → Numbering String
  | outermost ns | nested ns _ => ns

/-- Where the names of the innermost level are kept. -/
def storage : Scope → Storage
  | outermost _ => .global
  | nested _ _ => .frame

/-- The scope around the innermost level. -/
def outer? : Scope → Option Scope
  | outermost _ => none
  | nested _ s => some s

/-- The number of names of the innermost level. -/
def size (s : Scope) : Nat := s.names.size

/-- Whether the scope is an outermost one. -/
def isOutermost (s : Scope) : Bool := s.outer?.isNone

/-- Binds a name in the innermost level. A name that is bound there keeps its slot. -/
def define (name : String) : Scope → Scope
  | outermost ns => outermost (ns.add name)
  | nested ns s => nested (ns.add name) s

/-- The symbol of a name in the innermost level. -/
def find? (s : Scope) (name : String) : Option Symbol :=
  (s.names.find? name).map fun slot => ⟨name, s.storage, slot⟩

/-- The symbol that a name stands for: that of the innermost level, or else a global one that no
level in between hides. -/
def resolve (name : String) : Scope → Option Symbol
  | outermost ns => find? (outermost ns) name
  | nested ns s =>
    match find? (nested ns s) name with
    | some symbol => some symbol
    | none => (resolve name s).filter fun symbol => symbol.storage = .global

end Scope

end Monkey
