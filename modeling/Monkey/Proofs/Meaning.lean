import Monkey.Proofs.Resolution
import Monkey.Proofs.Steps

/-!
# What programs mean

A reference for what a program does, stated on its resolved tree without code, stacks or slots. The
global names have values in one environment, the local names of a call in another one, and there are
no closures. A function value tells which literal it comes from, and nothing else about how it is run.

Evaluation stops early at a fault and at a `return` (`Stop`). It follows the tree; only the body of a
function that is called stands somewhere else, and so the number of calls within each other is bounded
by a depth.
-/

namespace Monkey

/-! ### Environments -/

/-- The values of names. -/
structure Env where
  /-- The values of the global names; a name has none before it is bound. -/
  globals : String → Option Value
  /-- The values of the local names of the running call; a name is null before it is bound. -/
  locals : String → Value

/-- Why an evaluation ends early. -/
inductive Stop where
  | fault (e : Fault)
  /-- A `return` with its value. -/
  | ret (v : Value)
  /-- More calls within each other than the depth allows. -/
  | tooDeep

/-- A part of an evaluation. -/
abbrev Evaluating := ExceptT Stop (StateM Env)

namespace Evaluating

/-- The result of an operator. -/
def give (r : Except Fault Value) : Evaluating Value :=
  match r with
  | .ok v => return v
  | .error e => throw (.fault e)

/-- The value of a name. -/
def load (s : Symbol) : Evaluating Value := do
  let env ← get
  match s.storage with
  | .global =>
    match env.globals s.name with
    | some v => return v
    | none => throw (.fault (.unresolvedGlobal s.slot))
  | .frame => return env.locals s.name

/-- Binds a name to a value. -/
def store (s : Symbol) (v : Value) : Evaluating Unit :=
  match s.storage with
  | .global => modify fun env =>
    { env with globals := fun x => if x = s.name then some v else env.globals x }
  | .frame => modify fun env =>
    { env with locals := fun x => if x = s.name then v else env.locals x }

/-- What the body of a call gives to its caller, who has the given local names. -/
def back (locals : String → Value) (result : Except Stop Value × Env) : Except Stop Value × Env :=
  match result with
  | (.ok v, env) => (.ok v, { env with locals })
  | (.error (.ret v), env) => (.ok v, { env with locals })
  | (.error stop, env) => (.error stop, env)

/-- Evaluates the body of a call with local names of its own. A `return` gives the value of the
call. -/
def inside (locals : String → Value) (body : Evaluating Value) : Evaluating Value :=
  ExceptT.mk fun env => back env.locals (body.run.run { env with locals })

end Evaluating

/-- The local names of a call: its parameters have the values of the arguments. -/
def argumentsOf (parameters : List String) (arguments : List Value) (x : String) : Value :=
  ((parameters.zip arguments).lookup x).getD .null

/-! ### Operators -/

/-- What a unary operator gives. -/
def UnaryOp.apply (op : UnaryOp) (v : Value) : Except Fault Value :=
  match op with
  | minus => v.negate
  | bang => .ok (.boolean !v.isTruthy)

/-- What an operation gives, for the value that is computed first and the one that is computed
second. -/
def Operation.apply (op : Operation) (v w : Value) : Except Fault Value :=
  match op with
  | arith op => op.apply v w
  | equal => .ok (.boolean (v == w))
  | notEqual => .ok (.boolean (v != w))
  | greater => v.greater w

/-! ### Trees -/

open Evaluating

section

variable (call : Function → List Value → Evaluating Value)

mutual

/-- The value of a term, where `call` is what calls do. -/
def Term.eval : Term → Evaluating Value
  | .load s => load s
  | .boolean b => return .boolean b
  | .integer _ n => return .integer n
  | .string _ s => return .string s
  | .function i parameters name => return .function ⟨i, #[], 0, parameters, name⟩
  | .unary op t => do give (op.apply (← t.eval))
  | .binary op t u => do
    let v ← t.eval
    give (op.apply v (← u.eval))
  | .cond t yes no => do
    if (← t.eval).isTruthy then Command.value yes else Command.value no
  | .call t ts => do
    let f ← t.eval
    let vs ← Term.evalAll ts
    match f with
    | .function f => call f vs
    | v => throw (.fault (.notCallable v.type))
  | .array ts => return .array (← Term.evalAll ts)
  | .hash ts => do give (Value.hashOf (← Term.evalAll ts))
  | .index t u => do
    let v ← t.eval
    give (v.lookup (← u.eval))
termination_by structural t => t

/-- The values of several terms, in order. -/
def Term.evalAll : List Term → Evaluating (List Value)
  | [] => return []
  | t :: ts => do
    let v ← t.eval
    return v :: (← Term.evalAll ts)
termination_by structural ts => ts

/-- Runs a command, and gives the value that it binds or drops. -/
def Command.run : Command → Evaluating Value
  | .store s t => do
    let v ← t.eval
    store s v
    return v
  | .ret t => do throw (.ret (← t.eval))
  | .drop t => t.eval
termination_by structural c => c

/-- The value of a block: that of a final expression, and null otherwise. -/
def Command.value : List Command → Evaluating Value
  | [] => return .null
  | [.drop t] => t.eval
  | c :: cs => do
    let _ ← c.run
    Command.value cs
termination_by structural cs => cs

end

/-- The value of a program: that of the last command that was run, and `last` if there is none. -/
def Command.last (last : Value) : List Command → Evaluating Value
  | [] => return last
  | c :: cs => do
    let v ← c.run call
    Command.last v cs

end

/-! ### Calls and programs -/

/-- What the call of a function does. Every function value comes from a literal. -/
def Evaluating.call (literals : Array Literal) (depth : Nat) (f : Function) (vs : List Value) :
    Evaluating Value :=
  match literals[f.id]? with
  | some (.function _ parameters _ body) =>
    if vs.length ≠ parameters.length then
      throw (.fault (.wrongArity parameters.length vs.length))
    else
      match depth with
      | 0 => throw .tooDeep
      | depth + 1 => inside (argumentsOf parameters vs) (Command.value (call literals depth) body)
  | _ => throw (.fault (.notCallable .function))
termination_by structural depth

/-- The value of a program with at most `depth` calls within each other, or why it has none, and the
values of its global names in the end. -/
def Resolved.eval (r : Resolved) (depth : Nat) : Except Stop Value × Env :=
  (inside (fun _ => .null) (Command.last (call r.literals depth) .null r.commands)).run.run
    ⟨fun _ => none, fun _ => .null⟩

/-! ### Arguments -/

theorem lookup_zip_of_getElem? {xs : List String} {vs : List Value} (hnodup : xs.Nodup)
    (hlength : vs.length = xs.length) {i : Nat} {x : String} (hi : xs[i]? = some x) :
    (xs.zip vs).lookup x = vs[i]? := by
  induction xs generalizing vs i with
  | nil => simp at hi
  | cons y xs ih =>
    obtain ⟨hy, hnodup⟩ := List.nodup_cons.mp hnodup
    obtain ⟨v, vs, rfl⟩ := List.exists_cons_of_length_eq_add_one hlength
    rw [List.zip_cons_cons, List.lookup_cons]
    cases i with
    | zero =>
      obtain rfl := Option.some.inj hi
      simp
    | succ i =>
      have hmem : x ∈ xs := List.mem_of_getElem? hi
      have hne : x ≠ y := by
        rintro rfl
        exact hy hmem
      rw [beq_false_of_ne hne]
      exact ih hnodup (Nat.succ.inj hlength) hi

/-- A parameter has the value of its argument. -/
theorem argumentsOf_of_getElem? {parameters : List String} {arguments : List Value}
    (hnodup : parameters.Nodup) (hlength : arguments.length = parameters.length) {i : Nat}
    {x : String} (hi : parameters[i]? = some x) :
    argumentsOf parameters arguments x = arguments.getD i .null := by
  rw [argumentsOf, lookup_zip_of_getElem? hnodup hlength hi, List.getD_eq_getElem?_getD]

/-- Every other name is null. -/
theorem argumentsOf_of_notMem {parameters : List String} {arguments : List Value} {x : String}
    (hx : x ∉ parameters) : argumentsOf parameters arguments x = .null := by
  have hlookup : (parameters.zip arguments).lookup x = none := by
    rw [List.lookup_eq_none_iff]
    intro p hp
    have hmem := (List.of_mem_zip hp).1
    rw [bne_iff_ne]
    rintro rfl
    exact hx hmem
  rw [argumentsOf, hlookup]
  rfl

/-! ### Running evaluations -/

namespace Evaluating

theorem run_inside (locals : String → Value) (body : Evaluating Value) (env : Env) :
    (inside locals body).run.run env = back env.locals (body.run.run { env with locals }) := rfl

/-- What the call of a function does that comes from a literal. -/
theorem call_of_literal {literals : Array Literal} {depth : Nat} {f : Function} {vs : List Value}
    {name : Option String} {parameters : List String} {names : Numbering String}
    {body : List Command} (h : literals[f.id]? = some (.function name parameters names body)) :
    call literals depth f vs =
      if vs.length ≠ parameters.length then
        throw (.fault (.wrongArity parameters.length vs.length))
      else
        match depth with
        | 0 => throw .tooDeep
        | depth + 1 =>
          inside (argumentsOf parameters vs) (Command.value (call literals depth) body) := by
  cases depth <;> simp only [call, h]

theorem call_of_no_literal {literals : Array Literal} {depth : Nat} {f : Function} {vs : List Value}
    (h : ¬∃ name parameters names body,
      literals[f.id]? = some (.function name parameters names body)) :
    call literals depth f vs = throw (.fault (.notCallable .function)) := by
  cases depth
  all_goals
    rw [call]
    split
    · next hf => exact absurd ⟨_, _, _, _, hf⟩ h
    · rfl

theorem run_load_global {s : Symbol} (h : s.storage = .global) (env : Env) :
    (load s).run.run env = (match env.globals s.name with
      | some v => .ok v
      | none => .error (.fault (.unresolvedGlobal s.slot)), env) := by
  simp only [load, run_bind, h]
  change (match env.globals s.name with
    | some v => _
    | none => _ : Evaluating Value).run.run env = _
  cases env.globals s.name <;> rfl

theorem run_load_frame {s : Symbol} (h : s.storage = .frame) (env : Env) :
    (load s).run.run env = (.ok (env.locals s.name), env) := by
  simp only [load, run_bind, h]
  rfl

theorem run_store_global {s : Symbol} (h : s.storage = .global) (v : Value) (env : Env) :
    (store s v).run.run env =
      (.ok (), { env with globals := fun x => if x = s.name then some v else env.globals x }) := by
  simp only [store, h]
  rfl

theorem run_store_frame {s : Symbol} (h : s.storage = .frame) (v : Value) (env : Env) :
    (store s v).run.run env =
      (.ok (), { env with locals := fun x => if x = s.name then v else env.locals x }) := by
  simp only [store, h]
  rfl

end Evaluating

end Monkey
