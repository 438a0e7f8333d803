import Monkey.Compilation
import Monkey.Machine.Operator

/-!
# Resolved programs

Which binding a use of a name means does not depend on how a program runs: it is settled by walking
the program once, in the order in which its parts are compiled. `Program.resolve` makes this walk.
The trees it gives (`Term`, `Command`) say the same as the program, with

* every name replaced by its symbol: inside a function, a use that comes before the function's own
  binding of the name means the global one;
* every integer, string and function numbered in the order in which the walk meets their ends;
* the bodies of functions moved out of the trees into the list of literals;
* `l < r` turned into `r > l`, nested blocks dissolved into the statements around them, and the
  missing branch of a conditional into an empty one.

The walk fails where a name is used that is out of sight, and nowhere else.
-/

namespace Monkey

/-! ### Trees -/

/-- Operations on two values, in the order in which the values are computed. -/
inductive Operation where
  | arith (op : ArithOp)
  | equal | notEqual | greater
deriving Repr, DecidableEq

mutual

/-- A resolved expression. -/
inductive Term where
  | load (symbol : Symbol)
  | boolean (b : Bool)
  | integer (number : Nat) (n : Int64)
  | string (number : Nat) (s : String)
  | function (number : Nat) (parameters : Nat) (name : Option String)
  | unary (op : UnaryOp) (operand : Term)
  | binary (op : Operation) (first second : Term)
  | cond (condition : Term) (consequence alternative : List Command)
  | call (callee : Term) (arguments : List Term)
  | array (elements : List Term)
  /-- Keys and values in turn. -/
  | hash (entries : List Term)
  | index (collection key : Term)

/-- A resolved statement. -/
inductive Command where
  | store (symbol : Symbol) (value : Term)
  | ret (value : Term)
  | drop (value : Term)

end

/-- What a number stands for. -/
inductive Literal where
  | integer (n : Int64)
  | string (s : String)
  /-- A function with its parameters, all its local names, and its body. -/
  | function (name : Option String) (parameters : List String) (names : Numbering String)
      (body : List Command)

/-- A program whose names are resolved. -/
structure Resolved where
  commands : List Command
  literals : Array Literal
  /-- The global names. -/
  names : Numbering String

/-! ### The walk -/

/-- What is known at a point of the walk: the names in scope, and the literals met so far. -/
structure Walk where
  scope : Scope
  literals : Array Literal

/-- A part of the walk. -/
abbrev Resolving := StateT Walk Option

namespace Resolving

/-- Binds a name in the innermost scope. -/
def define (x : String) : Resolving Symbol := fun s =>
  ((s.scope.define x).find? x).map fun symbol => (symbol, { s with scope := s.scope.define x })

/-- Binds the names of a parameter list. -/
def defineAll : List String → Resolving Unit
  | [] => return
  | x :: xs => do
    let _ ← define x
    defineAll xs

/-- What a name stands for at this point. -/
def symbol (x : String) : Resolving Symbol := fun s =>
  (s.scope.resolve x).map fun symbol => (symbol, s)

/-- Gives a literal its number. -/
def number (l : Literal) : Resolving Nat := fun s =>
  some (s.literals.size, { s with literals := s.literals.push l })

/-- Walks through a function literal, whose names are gone behind it. -/
def function (name : Option String) (parameters : List String) (body : Resolving (List Command)) :
    Resolving Term := do
  let outside := (← get).scope
  modify fun s => { s with scope := s.scope.enclose }
  defineAll parameters
  let commands ← body
  let names := (← get).scope.names
  modify fun s => { s with scope := outside }
  return .function (← number (.function name parameters names commands)) parameters.length name

end Resolving

open Resolving

/-- The operation of an operator whose left operand is computed first. -/
def BinaryOp.operation : BinaryOp → Operation
  | plus => .arith .add
  | minus => .arith .sub
  | times => .arith .mul
  | divide => .arith .div
  | lt | gt => .greater
  | eq => .equal
  | notEq => .notEqual

mutual

/-- Resolves an expression. -/
def Expr.resolve : Expr → Resolving Term
  | .name id => return .load (← symbol id.name)
  | .integer _ n => return .integer (← number (.integer n)) n
  | .string _ s => return .string (← number (.string s)) s
  | .boolean _ b => return .boolean b
  | .unary _ op e => return .unary op (← e.resolve)
  | .binary _ op l r => do
    if op = .lt then
      let first ← r.resolve
      return .binary .greater first (← l.resolve)
    else
      let first ← l.resolve
      return .binary op.operation first (← r.resolve)
  | .cond _ condition consequence alternative => do
    let c ← condition.resolve
    let yes ← consequence.resolve
    match alternative with
    | some block => return .cond c yes (← block.resolve)
    | none => return .cond c yes []
  | .function _ parameters body => function none (parameters.map Ident.name) body.resolve
  | .call _ callee arguments => do
    let f ← callee.resolve
    return .call f (← Expr.resolveAll arguments)
  | .array _ elements => return .array (← Expr.resolveAll elements)
  | .hash _ pairs => return .hash (← Expr.resolvePairs pairs)
  | .index _ collection key => do
    let c ← collection.resolve
    return .index c (← key.resolve)
termination_by structural e => e

/-- Resolves expressions in order. -/
def Expr.resolveAll : List Expr → Resolving (List Term)
  | [] => return []
  | e :: es => do
    let t ← e.resolve
    return t :: (← Expr.resolveAll es)
termination_by structural es => es

/-- Resolves keys and values in turn. -/
def Expr.resolvePairs : List (Expr × Expr) → Resolving (List Term)
  | [] => return []
  | (key, value) :: pairs => do
    let k ← key.resolve
    let v ← value.resolve
    return k :: v :: (← Expr.resolvePairs pairs)
termination_by structural pairs => pairs

/-- Resolves the statements of a block. -/
def Block.resolve : Block → Resolving (List Command)
  | .mk _ statements => Stmt.resolveAll statements
termination_by structural b => b

/-- Resolves a statement. A name is bound before its value is resolved. -/
def Stmt.resolve : Stmt → Resolving (List Command)
  | .bind _ id (.function _ parameters body) => do
    let symbol ← define id.name
    return [.store symbol (← function (some id.name) (parameters.map Ident.name) body.resolve)]
  | .bind _ id value => do
    let symbol ← define id.name
    return [.store symbol (← value.resolve)]
  | .ret _ value => return [.ret (← value.resolve)]
  | .expr _ value => return [.drop (← value.resolve)]
  | .block body => body.resolve
termination_by structural s => s

/-- Resolves statements in order. -/
def Stmt.resolveAll : List Stmt → Resolving (List Command)
  | [] => return []
  | s :: ss => do
    let cs ← s.resolve
    return cs ++ (← Stmt.resolveAll ss)
termination_by structural ss => ss

end

/-- Resolves a program. -/
def Program.resolve (p : Program) : Option Resolved :=
  match (Stmt.resolveAll p.statements).run ⟨.empty, #[]⟩ with
  | some (commands, s) => some ⟨commands, s.literals, s.scope.names⟩
  | none => none

end Monkey
