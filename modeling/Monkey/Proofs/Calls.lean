import Monkey.Proofs.Running

/-!
# Code does what trees mean

A machine that runs the code of a term comes to push the value of the term, or to the fault that its
evaluation ends with (`Term.simulates`), and likewise for commands, blocks and the bodies of functions.
That calls do what they should is a hypothesis on the frames above (`Calls`). It holds for as many
calls within each other as the machine has frames (`Setting.Sound.calls`), by induction on how many
of them are left.
-/

namespace Monkey

open Executing

variable {S : Setting} {A : Activation} {call : Function → List Value → Evaluating Value}
  {operands : List Value} {ps : List Piece} {env : Env} {m : Machine}

/-- A call has come back: its result stands above the values `us`, where the function stood. -/
structure Called (S : Setting) (frames : Array Frame) (us : List Value) (v : Value) (env : Env)
    (m : Machine) : Prop where
  represents : m.Represents S env
  frames : m.frames = frames
  stack : ∃ value, value.erase = v ∧ StackHas m.stack m.sp (us ++ [value])

/-- Calls in the frame above `n` others do what `call` says, and leave the local names as they are. -/
def Calls (S : Setting) (call : Function → List Value → Evaluating Value) (n : Nat) : Prop :=
  ∀ (m : Machine) (env : Env) (us args : List Value) (f : Function), m.Represents S env →
    m.frames.size = n + 1 → StackHas m.stack m.sp (us ++ .function f :: args) →
    (Executing.call args.length).Follows S m
      ((call f.erase (args.map Value.erase)).run.run env)
      (fun v env' m' => env'.locals = env.locals ∧ Called S m.frames us v env' m')
      (fun _ _ _ => False)

/-- **A call** of the value below the arguments, which may be no function. -/
theorem Running.callValue {a : Value} {args : List Value}
    (h : Running S A (operands ++ [a] ++ args) (.op .call [args.length] :: ps) env m)
    (hcalls : Calls S call A.frames.size) :
    Simulates S m ((match a.erase with
        | .function f => call f (args.map Value.erase)
        | v => throw (.fault (.notCallable v.type)) : Evaluating Value).run.run env)
      (Pushed S A operands ps) (Returned S A) := by
  refine h.instruction fun m' hrun => ?_
  obtain ⟨ip, hframes, hcode⟩ := hrun.code
  obtain ⟨locals, hstack, hlocals⟩ := hrun.stack
  rw [List.append_assoc, ← List.append_assoc, ← List.append_assoc, List.singleton_append] at hstack
  change (Executing.call args.length).Follows S m' _ _ _
  cases a with
  | function f =>
    have hsize : m'.frames.size = A.frames.size + 1 := by rw [hframes, Array.size_push]
    have hcall := hcalls m' env _ args f hrun.represents hsize hstack
    refine hcall.onward ?_ fun _ _ _ h => h.elim
    rintro v env' m'' ⟨henv, hcalled⟩
    obtain ⟨value, rfl, hstack'⟩ := hcalled.stack
    rw [List.append_assoc, List.append_assoc, ← List.append_assoc] at hstack'
    refine .ok ⟨value, rfl, hcalled.represents, ⟨ip, hcalled.frames.trans hframes, hcode⟩, locals,
      ?_, hlocals.congr henv⟩
    simpa using hstack'
  | _ =>
    obtain ⟨hsp, hcallee⟩ := hstack.getD_below
    rw [Executing.Follows, ensures_call, if_neg (Nat.not_le.mpr hsp), hcallee]
    exact fun _ => .inr ⟨rfl, hrun.represents⟩

/-! ### Trees -/

mutual

/-- **The code of a term pushes its value.** -/
theorem Term.simulates (hA : A.Sound S) (hcalls : Calls S call A.frames.size) (t : Term)
    (ht : t.Scoped (A.visible S)) {operands : List Value}
    {ps : List Piece} {env : Env} {m : Machine} (h : Running S A operands (t.pieces ++ ps) env m) :
    Simulates S m ((t.eval call).run.run env) (Pushed S A operands ps) (Returned S A) := by
  cases t with
  | load s => exact h.load hA ht
  | boolean b =>
    cases b with
    | true => exact h.instruction fun _ hrun => hrun.follows_push (.boolean true)
    | false => exact h.instruction fun _ hrun => hrun.follows_push (.boolean false)
  | integer i n => exact h.literal ht
  | string i s => exact h.literal ht
  | function i k name =>
    obtain ⟨parameters, names, body, hi, rfl⟩ := ht
    exact h.literal hi
  | unary op t =>
    rw [Term.pieces, List.append_assoc] at h
    rw [Term.eval]
    refine (Term.simulates hA hcalls t ht h).bind ?_
    rintro _ env' m' ⟨a, rfl, hrun⟩
    exact hrun.unaryOp
  | binary op t u =>
    rw [Term.pieces, List.append_assoc, List.append_assoc] at h
    rw [Term.eval]
    refine (Term.simulates hA hcalls t ht.1 h).bind ?_
    rintro _ env₁ m₁ ⟨a, rfl, hrun⟩
    refine (Term.simulates hA hcalls u ht.2 hrun).bind ?_
    rintro _ env₂ m₂ ⟨b, rfl, hrun⟩
    exact hrun.operation
  | cond t yes no =>
    rw [Term.pieces, List.append_assoc] at h
    rw [Term.eval]
    refine (Term.simulates hA hcalls t ht.1 h).bind ?_
    rintro _ env' m' ⟨a, rfl, hrun⟩
    rw [Value.isTruthy_erase]
    refine hrun.branch (fun htruthy m₁ hrun => ?_) fun htruthy m₁ hrun => ?_
    · rw [if_pos htruthy]
      -- behind the left side stands the jump over the right one
      refine (Command.simulatesValue hA hcalls yes ht.2.1 hrun).onward ?_ fun _ _ _ h => .now h
      rintro _ env₂ m₂ ⟨b, rfl, hrun⟩
      exact hrun.skip fun m₃ hrun => .ok ⟨b, rfl, hrun⟩
    · rw [if_neg htruthy]
      exact Command.simulatesValue hA hcalls no ht.2.2 hrun
  | call t ts =>
    rw [Term.pieces, List.append_assoc, List.append_assoc] at h
    rw [Term.eval]
    refine (Term.simulates hA hcalls t ht.1 h).bind ?_
    rintro _ env₁ m₁ ⟨a, rfl, hrun⟩
    refine (Term.simulatesAll hA hcalls ts ht.2 hrun).bind ?_
    rintro _ env₂ m₂ ⟨args, hlength, rfl, hrun⟩
    rw [← hlength] at hrun
    exact hrun.callValue hcalls
  | array ts =>
    rw [Term.pieces, List.append_assoc] at h
    rw [Term.eval]
    refine (Term.simulatesAll hA hcalls ts ht h).bind ?_
    rintro _ env' m' ⟨vs, hlength, rfl, hrun⟩
    rw [← hlength] at hrun
    exact hrun.array
  | hash ts =>
    rw [Term.pieces, List.append_assoc] at h
    rw [Term.eval]
    refine (Term.simulatesAll hA hcalls ts ht h).bind ?_
    rintro _ env' m' ⟨vs, hlength, rfl, hrun⟩
    rw [← hlength] at hrun
    exact hrun.hash
  | index t u =>
    rw [Term.pieces, List.append_assoc, List.append_assoc] at h
    rw [Term.eval]
    refine (Term.simulates hA hcalls t ht.1 h).bind ?_
    rintro _ env₁ m₁ ⟨a, rfl, hrun⟩
    refine (Term.simulates hA hcalls u ht.2 hrun).bind ?_
    rintro _ env₂ m₂ ⟨b, rfl, hrun⟩
    exact hrun.instruction fun _ hrun => hrun.follows_binary Value.commutes_lookup
termination_by structural t

/-- The code of several terms pushes their values. -/
theorem Term.simulatesAll (hA : A.Sound S) (hcalls : Calls S call A.frames.size) (ts : List Term)
    (hts : Term.ScopedAll (A.visible S) ts)
    {operands : List Value} {ps : List Piece} {env : Env} {m : Machine}
    (h : Running S A operands (Term.piecesAll ts ++ ps) env m) :
    Simulates S m ((Term.evalAll call ts).run.run env) (PushedAll S A operands ps ts.length)
      (Returned S A) := by
  cases ts with
  | nil =>
    refine .ok ⟨[], rfl, rfl, ?_⟩
    rw [List.append_nil]
    exact h
  | cons t ts =>
    rw [Term.piecesAll, List.append_assoc] at h
    rw [Term.evalAll]
    refine (Term.simulates hA hcalls t hts.1 h).bind ?_
    rintro _ env₁ m₁ ⟨a, rfl, hrun⟩
    refine (Term.simulatesAll hA hcalls ts hts.2 hrun).bind ?_
    rintro _ env₂ m₂ ⟨vs, hlength, rfl, hrun⟩
    rw [List.append_assoc] at hrun
    exact .ok ⟨a :: vs, congrArg (· + 1) hlength, rfl, hrun⟩
termination_by structural ts

/-- The code of a command takes the value off that the command gives. -/
theorem Command.simulates (hA : A.Sound S) (hcalls : Calls S call A.frames.size) (c : Command)
    (hc : c.Scoped (A.visible S)) {operands : List Value}
    {ps : List Piece} {env : Env} {m : Machine} (h : Running S A operands (c.pieces ++ ps) env m) :
    Simulates S m ((c.run call).run.run env) (Popped S A operands ps) (Returned S A) := by
  cases c with
  | store s t =>
    rw [Command.pieces, List.append_assoc] at h
    rw [Command.run]
    refine (Term.simulates hA hcalls t hc.2.2 h).bind ?_
    rintro _ env₁ m₁ ⟨a, rfl, hrun⟩
    refine (hrun.store hA hc.1).bind ?_
    intro _ env₂ m₂ hpopped
    exact .ok hpopped
  | ret t =>
    rw [Command.pieces, List.append_assoc] at h
    rw [Command.run]
    refine (Term.simulates hA hcalls t hc h).bind ?_
    rintro _ env' m' ⟨a, rfl, hrun⟩
    exact hrun.returnValue fun _ hreturned => .now hreturned
  | drop t =>
    rw [Command.pieces, List.append_assoc] at h
    rw [Command.run]
    refine (Term.simulates hA hcalls t hc h).onward ?_ fun _ _ _ h => .now h
    rintro _ env' m' ⟨a, rfl, hrun⟩
    exact hrun.drop fun _ hpopped => .ok hpopped
termination_by structural c

/-- The code of a block pushes its value. -/
theorem Command.simulatesValue (hA : A.Sound S) (hcalls : Calls S call A.frames.size) (cs : List Command)
    (hcs : Command.ScopedAll (A.visible S) cs)
    {operands : List Value} {ps : List Piece} {env : Env} {m : Machine}
    (h : Running S A operands (Command.valuePieces cs ++ ps) env m) :
    Simulates S m ((Command.value call cs).run.run env) (Pushed S A operands ps)
      (Returned S A) := by
  -- the cases of `valuePieces`: nothing, a final expression, and a command before others
  cases cs with
  | nil => exact h.instruction fun _ hrun => hrun.follows_push .null
  | cons c cs =>
    have hsequence (h : Running S A operands (c.pieces ++ (Command.valuePieces cs ++ ps)) env m) :
        Simulates S m ((c.run call >>= fun _ => Command.value call cs).run.run env)
          (Pushed S A operands ps) (Returned S A) := by
      refine (Command.simulates hA hcalls c hcs.1 h).bind ?_
      intro _ env' m' hpopped
      exact Command.simulatesValue hA hcalls cs hcs.2 hpopped.running
    rw [← List.append_assoc] at hsequence
    cases c with
    | drop t =>
      cases cs with
      | nil => exact Term.simulates hA hcalls t hcs.1 h
      | cons d ds => exact hsequence h
    | store s t => exact hsequence h
    | ret t => exact hsequence h
termination_by structural cs

end

/-- **The code of a body** returns its value. -/
theorem Command.simulatesBody (hA : A.Sound S) (hcalls : Calls S call A.frames.size)
    (hframes : A.frames.size ≠ 0) (cs : List Command) (hcs : Command.ScopedAll (A.visible S) cs)
    (h : Running S A operands (Command.bodyPieces cs) env m) :
    Simulates S m ((Command.value call cs).run.run env) (Returned S A) (Returned S A) := by
  induction cs generalizing env m with
  | nil => exact h.ret hframes fun _ hreturned => .ok hreturned
  | cons c cs ih =>
    -- a command with others behind it leaves no value for the caller
    have hsequence (h : Running S A operands (c.pieces ++ Command.bodyPieces cs) env m) :
        Simulates S m ((c.run call >>= fun _ => Command.value call cs).run.run env)
          (Returned S A) (Returned S A) := by
      refine (Command.simulates hA hcalls c hcs.1 h).bind ?_
      intro _ env' m' hpopped
      exact ih hcs.2 hpopped.running
    cases c with
    | drop t =>
      cases cs with
      | nil =>
        refine (Term.simulates hA hcalls t hcs.1 h).onward ?_ fun _ _ _ h => .now h
        rintro _ env' m' ⟨a, rfl, hrun⟩
        exact hrun.returnValue fun _ hreturned => .ok hreturned
      | cons d ds => exact hsequence h
    | store s t => exact hsequence h
    | ret t =>
      cases cs with
      | nil =>
        have hret : Simulates S m (((Command.ret t).run call).run.run env) (fun _ _ _ => False)
            (Returned S A) := by
          rw [Command.run]
          refine (Term.simulates hA hcalls t hcs.1 h).bind ?_
          rintro _ env' m' ⟨a, rfl, hrun⟩
          exact hrun.returnValue fun _ hreturned => .now hreturned
        exact hret.bind fun _ _ _ h => h.elim
      | cons d ds => exact hsequence h

/-- The code of a program takes off the values of its commands, one after the other. -/
theorem Command.simulatesLast (hA : A.Sound S) (hcalls : Calls S call A.frames.size)
    (cs : List Command) (hcs : Command.ScopedAll (A.visible S) cs) {last : Value}
    (h : Popped S A operands (Command.piecesAll cs ++ ps) last env m) :
    Simulates S m ((Command.last call last cs).run.run env) (Popped S A operands ps)
      (Returned S A) := by
  induction cs generalizing last env m with
  | nil => exact .ok h
  | cons c cs ih =>
    have hrun := h.running
    rw [Command.piecesAll, List.flatMap_cons, List.append_assoc] at hrun
    refine (Command.simulates hA hcalls c hcs.1 hrun).bind ?_
    intro v env' m' hpopped
    exact ih hcs.2 hpopped

/-! ### Calls -/

/-- The call of the function `f`, the local names of which are `names`, above the values `us`. -/
def Activation.called (frames : Array Frame) (us : List Value) (f : Function)
    (names : Numbering String) : Activation where
  frames := frames
  function := f
  locals? := some names
  below := us ++ [.function f]

/-- The slots of a call start out with the arguments, and with null behind them. -/
theorem Env.Locals.start {parameters : List String} {names : Numbering String} {args : List Value}
    {env : Env} (hA : A.Sound S) (hnames : A.locals? = some names)
    (hparameters : A.function.parameters = parameters.length) (hnodup : parameters.Nodup)
    (hslots : ∀ i x, parameters[i]? = some x → names.find? x = some i)
    (hlength : args.length = parameters.length) :
    Env.Locals { env with locals := argumentsOf parameters (args.map Value.erase) } A
      (args ++ List.replicate (max A.function.locals args.length - args.length) .null) where
  length := by
    rw [List.length_append, List.length_replicate, hparameters, hlength]
    omega
  agrees ns hns x i hx := by
    obtain rfl : names = ns := Option.some.inj (hnames.symm.trans hns)
    dsimp only
    rw [List.getD_eq_getElem?_getD]
    by_cases hi : i < parameters.length
    · have hparameter : parameters[i]? = some x := by
        rw [List.getElem?_eq_getElem hi]
        congr 1
        exact (hA.dense.locals? names hnames).injective
          (hslots i _ (List.getElem?_eq_getElem hi)) hx
      have hlength' : (args.map Value.erase).length = parameters.length := by
        rw [List.length_map, hlength]
      rw [argumentsOf_of_getElem? hnodup hlength' hparameter, List.getElem?_append_left (by omega),
        List.getD_eq_getElem?_getD, List.getElem?_map]
      cases args[i]? <;> rfl
    · have hx' : x ∉ parameters := by
        intro hmem
        obtain ⟨j, hj⟩ := List.getElem?_of_mem hmem
        obtain rfl : j = i := Option.some.inj ((hslots j x hj).symm.trans hx)
        exact hi (List.getElem?_eq_some_iff.mp hj).1
      rw [argumentsOf_of_notMem hx', List.getElem?_append_right (by omega), List.getElem?_replicate]
      split <;> rfl

/-- A call that was just opened has its code left to run. -/
theorem Running.enter {us args : List Value} {f : Function} {names : Numbering String} {env' : Env}
    (hm : m.Represents S env)
    (hstack : StackHas m.stack m.sp (us ++ .function f :: args))
    (hroom : ¬m.stack.size < m.sp - args.length + max f.locals args.length)
    (hcode : Code.Remaining f.code 0 ps)
    (hlocals : env'.Locals (.called m.frames us f names)
      (args ++ List.replicate (max f.locals args.length - args.length) .null))
    (henv : env'.globals = env.globals)
    (hready : Machine.Ready S { m with
      stack := clearSlots m.stack m.sp (m.sp - args.length + max f.locals args.length - m.sp)
      sp := m.sp - args.length + max f.locals args.length
      frames := m.frames.push ⟨f, 0, m.sp - args.length⟩ }) :
    Running S (.called m.frames us f names) [] ps env' { m with
      stack := clearSlots m.stack m.sp (m.sp - args.length + max f.locals args.length - m.sp)
      sp := m.sp - args.length + max f.locals args.length
      frames := m.frames.push ⟨f, 0, m.sp - args.length⟩ } := by
  have hlength := hstack.length
  rw [List.length_append, List.length_cons] at hlength
  have hbase : m.sp - args.length = (us ++ [Value.function f]).length := by
    rw [List.length_append, List.length_singleton]
    omega
  have hcount : m.sp - args.length + max f.locals args.length - m.sp =
      max f.locals args.length - args.length := by omega
  have htop : m.sp - args.length + max f.locals args.length =
      m.sp + (max f.locals args.length - args.length) := by omega
  have hclear := hstack.clear (show m.sp + (max f.locals args.length - args.length) ≤ _ by omega)
  refine ⟨⟨hready, fun x i hx => ?_⟩, ⟨0, ?_, hcode⟩, _, ?_, hlocals⟩
  · rw [henv]
    exact hm.globals x i hx
  · rw [hbase]
    rfl
  · dsimp only
    rw [hcount, htop, List.append_nil]
    rwa [List.append_cons, List.append_assoc] at hclear

/-- A call is correct when the calls inside it are. -/
theorem Setting.Sound.calls_of_inner (hS : S.Sound) {d n : Nat} (hd : S.maxFrames ≤ n + 1 + d)
    (hinner : ∀ d', d = d' + 1 → Calls S (Evaluating.call S.literals d') (n + 1)) :
    Calls S (Evaluating.call S.literals d) n := by
  intro m env us args f hm hsize hstack
  obtain ⟨hsp, hcallee⟩ := hstack.getD_below
  have hmem : Value.function f ∈ Literal.values S.literals := by
    have hall := hm.ready.holds.stack_getD (m.sp - 1 - args.length)
    rwa [hcallee] at hall
  obtain ⟨i, name, parameters, names, body, hi, hf⟩ := Literal.function_mem_values hmem
  have hid : S.literals[f.erase.id]? = some (.function name parameters names body) := by
    rw [hf]
    exact hi
  have hparameters : f.parameters = parameters.length := by rw [hf]
  rw [Executing.Follows, ensures_call, if_neg (Nat.not_le.mpr hsp), hcallee]
  dsimp only
  rw [Evaluating.call_of_literal hid, List.length_map, hparameters]
  split
  · exact fun _ => .inr ⟨rfl, hm⟩
  next harity =>
  split
  · exact fun _ => .inl rfl
  next hframes =>
  split
  · exact fun _ => .inl rfl
  next hroom =>
  intro hready
  have hlength : args.length = parameters.length := not_not.mp harity
  obtain ⟨hnames, hbody, hslots⟩ := hS.inScope i _ hi
  have hnodup := hS.distinct i _ _ _ _ hi
  have hsound : (Activation.called m.frames us f names).Sound S := by
    refine ⟨.function hS.dense hnames _, fun ns hns => ?_⟩
    obtain rfl := Option.some.inj hns
    exact congrArg Function.locals hf
  have hcode : Code.Remaining f.code 0 (Command.bodyPieces body) := by
    rw [hf]
    exact ⟨rfl, hS.fits i _ _ _ _ hi⟩
  have hlocals : Env.Locals { env with locals := argumentsOf parameters (args.map Value.erase) }
      (.called m.frames us f names) _ :=
    .start hsound rfl hparameters hnodup (hslots hnodup) hlength
  have hrun := Running.enter hm hstack hroom hcode hlocals rfl hready
  -- there is a depth left, for there is a frame left
  cases d with
  | zero =>
    rw [hm.ready.maxFrames] at hframes
    omega
  | succ d =>
    have hcalls := hinner d rfl
    rw [← hsize] at hcalls
    have hbodySimulates := Command.simulatesBody hsound hcalls (by
      change m.frames.size ≠ 0
      omega) body hbody hrun
    refine Simulates.inside hbodySimulates fun v env' m' hreturned => ⟨rfl, ?_⟩
    have hresult := hreturned.stack
    rw [if_neg (by change ¬m.frames.size = 0; omega)] at hresult
    refine ⟨hreturned.represents.congr rfl, hreturned.frames, ?_⟩
    simpa [Activation.called] using hresult

/-- **Calls of functions are correct**, as deep as the frames of the machine allow. -/
theorem Setting.Sound.calls (hS : S.Sound) (d : Nat) {n : Nat} (hd : S.maxFrames ≤ n + 1 + d) :
    Calls S (Evaluating.call S.literals d) n := by
  induction d generalizing n with
  | zero => exact hS.calls_of_inner hd fun d' h => by cases h
  | succ d ih =>
    refine hS.calls_of_inner hd fun d' h => ?_
    obtain rfl := Nat.succ.inj h
    exact ih (by omega)

end Monkey
