import Monkey.Bytecode.Buffer
import Monkey.Bytecode.Chunk
import Monkey.Program
import Monkey.Scope

/-!
# Compiling programs

A `Compilation` is a program on its way to code: the constants so far, the names in scope, and the
code of the function that is being compiled, with that of the functions around it. The steps
`Expr.compile`, `Block.compile` and `Stmt.compile` walk a tree once and append code. A step that
fails keeps the code and the constants that it made up to then, and it leaves no function open.

The code of an expression pushes its value. The operands of `<` are compiled from right to left,
since `a < b` is run as `b > a`. A jump is written before its target is known and patched
afterwards.
-/

namespace Monkey

/-! ### Errors -/

/-- Why a program does not compile. -/
inductive CompileError where
  /-- A name that nothing binds, or that only an enclosing function does. -/
  | undefinedVariable (name : String) (span : Span)
  | tooManyConstants
  | tooManyGlobals (span : Span)
  | tooManyLocals (span : Span)
  | tooManyArguments (span : Span)
  | tooManyElements (span : Span)
  | jumpOutOfRange (target : Nat)
  | instruction (e : InstructionError)
deriving Repr, DecidableEq, Inhabited

/-! The limits are those of the operands: two bytes for constants, global slots, lengths and
offsets, one byte for local slots and argument counts. -/

/-- The most constants of a program. -/
def maxConstants : Nat := UInt16.size

/-- The most global names of a program. -/
def maxGlobals : Nat := UInt16.size

/-- The most parameters and local names of a function, taken together. -/
def maxLocals : Nat := UInt8.size

/-- The most arguments of a call. -/
def maxArguments : Nat := UInt8.size - 1

/-- The most values that one literal is made of. -/
def maxElements : Nat := UInt16.size - 1

/-- The last offset that can be jumped to. -/
def maxTarget : Nat := UInt16.size - 1

namespace CompileError

/-- Where the fault is, when it has a place. -/
def span? : CompileError → Option Span
  | undefinedVariable _ s | tooManyGlobals s | tooManyLocals s => some s
  | tooManyArguments s | tooManyElements s => some s
  | tooManyConstants | jumpOutOfRange _ | instruction _ => none

/-- The wording of a compile error. -/
def message : CompileError → String
  | undefinedVariable name _ => s!"undefined variable {name}"
  | tooManyConstants => s!"too many constants (limit {maxConstants})"
  | tooManyGlobals _ => s!"too many globals (limit {maxGlobals})"
  | tooManyLocals _ => s!"too many locals (limit {maxLocals})"
  | tooManyArguments _ => s!"too many arguments (limit {maxArguments})"
  | tooManyElements _ => s!"too many elements in literal (limit {maxElements})"
  | jumpOutOfRange target => s!"jump target {target} out of range"
  | instruction e => s!"invalid instruction: {e.message}"

end CompileError

/-! ### Compilations -/

/-- A program that is being compiled. -/
structure Compilation where
  constants : Array Value
  scope : Scope
  /-- The code of the innermost function, or of the top level. -/
  buffer : Buffer
  /-- The code around it, the nearest first. -/
  outer : List Buffer
deriving Inhabited

namespace Compilation

/-- A compilation that starts with names and constants from an earlier one. -/
def resume (scope : Scope) (constants : Array Value) : Compilation :=
  ⟨constants, scope, .empty, []⟩

/-- A compilation that starts with nothing. -/
def empty : Compilation := resume .empty #[]

/-- The code of the top level so far, and the constants. -/
def chunk (c : Compilation) : Chunk := ⟨c.buffer.code, c.constants⟩

/-- Opens a function: its code and its names are kept apart from those around it. -/
def enter (c : Compilation) : Compilation :=
  { c with scope := c.scope.enclose, buffer := .empty, outer := c.buffer :: c.outer }

/-- Closes the innermost function, and drops its code and its names. -/
def leave (c : Compilation) : Compilation :=
  { c with
    scope := c.scope.outer?.getD .empty
    buffer := c.outer.headD .empty
    outer := c.outer.tail }

/-- The innermost function as it stands, with its name and its number of parameters, and what is
left when it is closed. -/
def close (name : Option String) (parameters : Nat) (c : Compilation) : Function × Compilation :=
  (⟨c.constants.size, c.buffer.code, c.scope.size, parameters, name⟩, c.leave)

end Compilation

/-- A step of compiling: it succeeds or fails, and changes the compilation in both cases. -/
abbrev Compiling := ExceptT CompileError (StateM Compilation)

namespace Compiling

/-- Changes the code of the innermost function. -/
@[inline] def modifyBuffer (f : Buffer → Buffer) : Compiling Unit :=
  modify fun c => { c with buffer := f c.buffer }

/-- The offset of the next instruction. -/
def offset : Compiling Nat := return (← get).buffer.size

/-- Appends an instruction. -/
def emit (op : Opcode) (operands : List Nat) : Compiling Unit :=
  match op.encode operands with
  | .ok bytes => modifyBuffer (·.append op bytes)
  | .error e => throw (.instruction e)

/-- Appends a jump without its target, and gives its offset. -/
def emitJump (op : Opcode) : Compiling Nat := do
  let position ← offset
  emit op [0xFFFF]
  return position

/-- Makes the jump at `position` go to the next instruction. Which jump that is, is read off the
code. -/
def patchJump (position : Nat) : Compiling Unit := do
  let target ← offset
  if target ≤ maxTarget then
    match Opcode.lookup ((← get).buffer.code.getD position 0) with
    | .ok op =>
      match op.encode [target] with
      | .ok bytes => modifyBuffer (·.overwrite position bytes)
      | .error e => throw (.instruction e)
    | .error e => throw (.instruction e)
  else
    throw (.jumpOutOfRange target)

/-- Adds a constant and appends the instruction that pushes it. -/
def emitConstant (v : Value) : Compiling Unit := do
  let index := (← get).constants.size
  if index < maxConstants then
    modify fun c => { c with constants := c.constants.push v }
    emit .constant [index]
  else
    throw .tooManyConstants

/-- Binds a name in the innermost scope, and gives its symbol. -/
def define (id : Ident) : Compiling Symbol := do
  modify fun c => { c with scope := c.scope.define id.name }
  let scope := (← get).scope
  let symbol := (scope.find? id.name).getD ⟨id.name, scope.storage, 0⟩
  match symbol.storage with
  | .global =>
    if symbol.slot < maxGlobals then return symbol
    else throw (.tooManyGlobals id.token.span)
  | .frame =>
    if symbol.slot < maxLocals then return symbol
    else throw (.tooManyLocals id.token.span)

/-- Binds the names of a parameter list. -/
def defineAll : List Ident → Compiling Unit
  | [] => return
  | id :: ids => do
    let _ ← define id
    defineAll ids

/-- Pushes the value of a name. -/
def load (id : Ident) : Compiling Unit := do
  match (← get).scope.resolve id.name with
  | some ⟨_, .global, slot⟩ => emit .getGlobal [slot]
  | some ⟨_, .frame, slot⟩ => emit .getLocal [slot]
  | none => throw (.undefinedVariable id.name id.token.span)

/-- Pops a value into the slot of a symbol. -/
def store (symbol : Symbol) : Compiling Unit :=
  match symbol.storage with
  | .global => emit .setGlobal [symbol.slot]
  | .frame => emit .setLocal [symbol.slot]

/-- Compiles a function whose body is compiled by `body`, and pushes it. The function is closed
again also when its body fails. -/
@[inline] def function (name : Option String) (parameters : List Ident) (body : Compiling Unit) :
    Compiling Unit := do
  modify Compilation.enter
  let outcome ← ExceptT.lift (ExceptT.run do
    defineAll parameters
    body)
  let f ← modifyGet (Compilation.close name parameters.length)
  match outcome with
  | .error e => throw e
  | .ok () => emitConstant (.function f)

/-- Ends the body of a function: the value of a final expression is returned, and otherwise null is,
unless the last statement is a return. -/
def finishBody : Compiling Unit := do
  if (← get).buffer.endsWith .pop then
    modifyBuffer (·.replaceLast .returnValue)
  unless (← get).buffer.endsWith .returnValue do
    emit .ret []

/-- Ends a block that stands for a value: the value of a final expression stays on the stack, and
otherwise null is pushed. -/
def finishBlock : Compiling Unit := do
  if (← get).buffer.endsWith .pop then
    modifyBuffer Buffer.dropLast
  else
    emit .null []

/-- Refuses literals of too many values. -/
def checkLength (length : Nat) (span : Span) : Compiling Unit :=
  if length ≤ maxElements then return
  else throw (.tooManyElements span)

end Compiling

open Compiling

/-! ### Operators -/

/-- The instruction of a unary operator. -/
def UnaryOp.opcode : UnaryOp → Opcode
  | minus => .minus
  | bang => .bang

/-- The instruction of a binary operator; that of `<` takes its operands the other way round. -/
def BinaryOp.opcode : BinaryOp → Opcode
  | plus => .add
  | minus => .sub
  | times => .mul
  | divide => .div
  | lt | gt => .greaterThan
  | eq => .equal
  | notEq => .notEqual

/-! ### Trees -/

mutual

/-- Appends code that pushes the value of an expression. -/
def Expr.compile : Expr → Compiling Unit
  | .name id => load id
  | .integer _ n => emitConstant (.integer n)
  | .string _ s => emitConstant (.string s)
  | .boolean _ true => emit .true []
  | .boolean _ false => emit .false []
  | .unary _ op e => do
    e.compile
    emit op.opcode []
  | .binary _ op l r => do
    if op = .lt then
      r.compile
      l.compile
    else
      l.compile
      r.compile
    emit op.opcode []
  | .cond _ condition consequence alternative => do
    condition.compile
    let toAlternative ← emitJump .jumpNotTruthy
    consequence.compile
    finishBlock
    let toEnd ← emitJump .jump
    patchJump toAlternative
    match alternative with
    | some block => do
      block.compile
      finishBlock
    | none => emit .null []
    patchJump toEnd
  | .function _ parameters body =>
    function none parameters do
      body.compile
      finishBody
  | .call t callee arguments => do
    if maxArguments < arguments.length then
      throw (.tooManyArguments t.span)
    callee.compile
    Expr.compileAll arguments
    emit .call [arguments.length]
  | .array t elements => do
    checkLength elements.length t.span
    Expr.compileAll elements
    emit .array [elements.length]
  | .hash t pairs => do
    checkLength (2 * pairs.length) t.span
    Expr.compilePairs pairs
    emit .hash [2 * pairs.length]
  | .index _ collection key => do
    collection.compile
    key.compile
    emit .index []
termination_by structural e => e

/-- Appends code that pushes the values of expressions in order. -/
def Expr.compileAll : List Expr → Compiling Unit
  | [] => return
  | e :: es => do
    e.compile
    Expr.compileAll es
termination_by structural es => es

/-- Appends code that pushes keys and values in turn. -/
def Expr.compilePairs : List (Expr × Expr) → Compiling Unit
  | [] => return
  | (key, value) :: pairs => do
    key.compile
    value.compile
    Expr.compilePairs pairs
termination_by structural pairs => pairs

/-- Appends code that runs the statements of a block. -/
def Block.compile : Block → Compiling Unit
  | .mk _ statements => Stmt.compileAll statements
termination_by structural b => b

/-- Appends code that runs a statement. A name is bound before its value is compiled, so that a
function can call itself. -/
def Stmt.compile : Stmt → Compiling Unit
  | .bind _ id (.function _ parameters body) => do
    let symbol ← define id
    function (some id.name) parameters do
      body.compile
      finishBody
    store symbol
  | .bind _ id value => do
    let symbol ← define id
    value.compile
    store symbol
  | .ret _ value => do
    value.compile
    emit .returnValue []
  | .expr _ value => do
    value.compile
    emit .pop []
  | .block body => body.compile
termination_by structural s => s

/-- Appends code that runs statements in order. -/
def Stmt.compileAll : List Stmt → Compiling Unit
  | [] => return
  | s :: ss => do
    s.compile
    Stmt.compileAll ss
termination_by structural ss => ss

end

namespace Compilation

/-- Appends the code of a program. When it fails, the code up to the fault stays. -/
def add (c : Compilation) (p : Program) : Except CompileError Unit × Compilation :=
  ((Stmt.compileAll p.statements).run).run c

end Compilation

/-- The code of a program. -/
def Program.compile (p : Program) : Except CompileError Chunk :=
  match Compilation.empty.add p with
  | (.ok (), c) => .ok c.chunk
  | (.error e, _) => .error e

end Monkey
