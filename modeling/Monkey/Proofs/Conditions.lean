import Monkey.Compilation
import Monkey.Proofs.Marks

/-!
# The conditions on a program

What a program has to meet in order to compile, in the order in which that is found out. A tree is
passed over once: a `Place` is how far the pass has come, and a `Pass` lists the conditions that it
meets on its way and tells where it ends. No code is made. Only the lengths of the instructions are
added up, since the targets of jumps are limited, too.

`Program.conditions` are the conditions on a whole program, and `Program.firstFault` is the error that
belongs to the first one that does not hold.
-/

namespace Monkey

/-! ### Conditions -/

/-- Something that has to hold at a point of a program. -/
inductive Condition where
  /-- The name has a meaning in the scope. -/
  | bound (scope : Scope) (id : Ident)
  /-- So many literals are constants of the program, up to this one. -/
  | literals (count : Nat)
  /-- So many names are bound in the innermost scope, up to the one at the span. -/
  | names (storage : Storage) (count : Nat) (span : Span)
  | arguments (count : Nat) (span : Span)
  /-- A literal is made of so many values. -/
  | elements (count : Nat) (span : Span)
  /-- There is a jump to the offset. -/
  | target (offset : Nat)

namespace Condition

/-- Whether the condition is met. -/
def holds : Condition → Bool
  | bound s id => (s.resolve id.name).isSome
  | literals n => n ≤ maxConstants
  | names storage n _ => n ≤ storage.limit
  | arguments n _ => n ≤ maxArguments
  | elements n _ => n ≤ maxElements
  | target n => n ≤ maxTarget

/-- The error that belongs to the condition. -/
def error : Condition → CompileError
  | bound _ id => .undefinedVariable id.name id.token.span
  | literals _ => .tooManyConstants
  | names .global _ s => .tooManyGlobals s
  | names .frame _ s => .tooManyLocals s
  | arguments _ s => .tooManyArguments s
  | elements _ s => .tooManyElements s
  | target n => .jumpOutOfRange n

end Condition

/-- The error that belongs to the first of the conditions that is not met. -/
def firstFault (ks : List Condition) : Option CompileError :=
  (ks.find? fun k => !k.holds).map Condition.error

/-! ### Passes -/

/-- How far a pass over a program has come. -/
structure Place where
  /-- The names that are bound so far. -/
  scope : Scope
  /-- The number of literals so far that are constants. -/
  literals : Nat
  /-- The offset of the next instruction in its stream. -/
  offset : Nat

/-- The conditions on a part of a program that starts at a place, and the place where it ends. -/
abbrev Pass := Place → List Condition × Place

namespace Pass

/-- Nothing at all. -/
def nothing : Pass := fun p => ([], p)

/-- One part behind the other. -/
instance : Append Pass where
  append P Q := fun p => ((P p).1 ++ (Q (P p).2).1, (Q (P p).2).2)

/-- One condition. -/
def condition (k : Place → Condition) : Pass := fun p => ([k p], p)

/-- An instruction. -/
def instruction (op : Opcode) : Pass := fun p =>
  ([], { p with offset := p.offset + (1 + op.layout.operandLength) })

/-- A literal that is a constant. -/
def literal : Pass :=
  condition (fun p => .literals (p.literals + 1)) ++
    fun p => instruction .constant { p with literals := p.literals + 1 }

/-- The binding of a name. A name that is bound again counts once. -/
def define (id : Ident) : Pass := fun p =>
  let scope := p.scope.define id.name
  ([.names scope.storage scope.size id.token.span], { p with scope })

/-- The bindings of a parameter list. -/
def defineAll : List Ident → Pass
  | [] => nothing
  | id :: ids => define id ++ defineAll ids

/-- The use of a name. -/
def load (id : Ident) : Pass :=
  condition (fun p => .bound p.scope id) ++ fun p =>
    instruction ((p.scope.resolve id.name).elim .getGlobal fun s => s.storage.loadOpcode) p

/-- The assignment to a name of the innermost scope. -/
def store : Pass := fun p => instruction p.scope.storage.storeOpcode p

/-- A jump to this place from somewhere before it. -/
def target : Pass := condition fun p => .target p.offset

/-- The end of a block that stands for a value: the instruction that drops the value of a final
expression is taken back, and otherwise null is pushed. -/
def finishBlock (endsInValue : Bool) : Pass := fun p =>
  if endsInValue then ([], { p with offset := p.offset - 1 }) else instruction .null p

/-- A function literal. Its body has a scope and a stream of its own, and its literals are constants
of the program before it is one itself. -/
def function (parameters : List Ident) (body : Pass) : Pass := fun p =>
  let (ks, q) := (defineAll parameters ++ body) ⟨p.scope.enclose, p.literals, 0⟩
  let (ls, r) := literal { p with literals := q.literals }
  (ks ++ ls, r)

end Pass

/-! ### The ends of blocks -/

mutual

/-- Whether statements end in an expression behind the block, when they do in front of it if
`before`. A block without statements ends in nothing of its own. -/
def Block.endsInValue (before : Bool) : Block → Bool
  | .mk _ statements => Stmt.endInValue before statements
termination_by structural b => b

/-- Whether statements end in an expression behind the statement. -/
def Stmt.endsInValue (before : Bool) : Stmt → Bool
  | .bind _ _ _ | .ret _ _ => false
  | .expr _ _ => true
  | .block body => body.endsInValue before
termination_by structural s => s

/-- Whether statements end in an expression behind some more. -/
def Stmt.endInValue (before : Bool) : List Stmt → Bool
  | [] => before
  | s :: ss => Stmt.endInValue (s.endsInValue before) ss
termination_by structural ss => ss

end

/-! ### Trees -/

mutual

/-- The pass over an expression. -/
def Expr.pass : Expr → Pass
  | .name id => .load id
  | .integer _ _ | .string _ _ => .literal
  | .boolean _ true => .instruction .true
  | .boolean _ false => .instruction .false
  | .unary _ op e => e.pass ++ .instruction op.opcode
  | .binary _ op l r =>
    (if op = .lt then r.pass ++ l.pass else l.pass ++ r.pass) ++ .instruction op.opcode
  | .cond _ condition consequence alternative =>
    condition.pass ++ .instruction .jumpNotTruthy ++
      consequence.pass ++ .finishBlock (consequence.endsInValue false) ++
      .instruction .jump ++ .target ++
      (match alternative with
        | some block => block.pass ++ .finishBlock (block.endsInValue false)
        | none => .instruction .null) ++ .target
  | .function _ parameters body => .function parameters body.pass
  | .call t callee arguments =>
    .condition (fun _ => .arguments arguments.length t.span) ++
      callee.pass ++ Expr.passAll arguments ++ .instruction .call
  | .array t elements =>
    .condition (fun _ => .elements elements.length t.span) ++
      Expr.passAll elements ++ .instruction .array
  | .hash t pairs =>
    .condition (fun _ => .elements (2 * pairs.length) t.span) ++
      Expr.passPairs pairs ++ .instruction .hash
  | .index _ collection key => collection.pass ++ key.pass ++ .instruction .index
termination_by structural e => e

/-- The pass over several expressions. -/
def Expr.passAll : List Expr → Pass
  | [] => .nothing
  | e :: es => e.pass ++ Expr.passAll es
termination_by structural es => es

/-- The pass over keys and values in turn. -/
def Expr.passPairs : List (Expr × Expr) → Pass
  | [] => .nothing
  | (key, value) :: pairs => key.pass ++ value.pass ++ Expr.passPairs pairs
termination_by structural pairs => pairs

/-- The pass over a block. -/
def Block.pass : Block → Pass
  | .mk _ statements => Stmt.passAll statements
termination_by structural b => b

/-- The pass over a statement. A name is bound before its value. -/
def Stmt.pass : Stmt → Pass
  | .bind _ id value => .define id ++ value.pass ++ .store
  | .ret _ value => value.pass ++ .instruction .returnValue
  | .expr _ value => value.pass ++ .instruction .pop
  | .block body => body.pass
termination_by structural s => s

/-- The pass over several statements. -/
def Stmt.passAll : List Stmt → Pass
  | [] => .nothing
  | s :: ss => s.pass ++ Stmt.passAll ss
termination_by structural ss => ss

end

namespace Program

/-- The conditions on a program, in the order in which they are found out. -/
def conditions (p : Program) : List Condition := (Stmt.passAll p.statements ⟨.empty, 0, 0⟩).1

/-- The error that belongs to the first condition on the program that is not met. -/
def firstFault (p : Program) : Option CompileError := Monkey.firstFault p.conditions

end Program

end Monkey
