import Monkey.Proofs.Simulation
import Monkey.Proofs.Stack

/-!
# Machines between instructions

`Running` is the state of a machine between two instructions of a call. From the bottom up, the stack
holds what was there before the call, then the values of the parameters and local names, then the
operands that are not used up yet; and a list of pieces is what the call has left to run.

For every kind of piece a lemma takes a simulation past it: `Running.instruction` past an instruction,
`Running.branch` and `Running.skip` past the jumps. The lemmas after them say what the instructions do
that a program is made of.
-/

namespace Monkey

open Executing

/-! ### Operators -/

theorem Operation.execute_opcode (op : Operation) (operand : Nat) :
    execute op.opcode operand = binary op.apply := by
  cases op with
  | arith op => cases op <;> rfl
  | equal => rfl
  | notEqual => rfl
  | greater => rfl

theorem Operation.commutes_apply (op : Operation) : Commutes op.apply := by
  cases op with
  | arith op => exact op.commutes_apply
  | equal => exact Value.commutes_equal
  | notEqual => exact Value.commutes_notEqual
  | greater => exact Value.commutes_greater

theorem UnaryOp.execute_opcode (op : UnaryOp) (operand : Nat) :
    execute op.opcode operand = unary op.apply := by
  cases op <;> rfl

theorem UnaryOp.apply_erase (op : UnaryOp) (v : Value) :
    op.apply v.erase = (op.apply v).map Value.erase := by
  cases op with
  | minus => exact v.negate_erase
  | bang =>
    rw [apply, Value.isTruthy_erase]
    rfl

/-! ### Calls -/

/-- A call that runs: the frames below its own, its function with the names of its slots, and the values
below its parameters. The top level of a program has no local names. -/
structure Activation where
  frames : Array Frame
  function : Function
  locals? : Option (Numbering String)
  below : List Value

namespace Activation

/-- The frame of the call, when it goes on at the offset `ip`. -/
def frame (A : Activation) (ip : Nat) : Frame := ⟨A.function, ip, A.below.length⟩

/-- What the code of the call can refer to. -/
def visible (A : Activation) (S : Setting) : Visible := ⟨S.names, A.locals?, S.literals⟩

/-- The local slots are those of the local names. -/
structure Sound (A : Activation) (S : Setting) : Prop where
  dense : (A.visible S).Dense
  locals : ∀ ns, A.locals? = some ns → A.function.locals = ns.size

theorem Sound.slot_lt {A : Activation} {S : Setting} {names : Numbering String} {x : String}
    {slot : Nat} (h : A.Sound S) (hnames : A.locals? = some names)
    (hslot : names.find? x = some slot) : slot < A.function.locals := by
  rw [h.locals names hnames]
  exact (h.dense.locals? names hnames).lt_size hslot

end Activation

/-- The slots of a call hold the values of its local names. -/
structure Env.Locals (env : Env) (A : Activation) (locals : List Value) : Prop where
  length : locals.length = max A.function.locals A.function.parameters
  agrees : ∀ ns, A.locals? = some ns → ∀ x i, ns.find? x = some i →
    (locals.getD i .null).erase = env.locals x

theorem Env.Locals.congr {env env' : Env} {A : Activation} {locals : List Value}
    (h : env.Locals A locals) (heq : env'.locals = env.locals) : env'.Locals A locals :=
  ⟨h.length, by rw [heq]; exact h.agrees⟩

/-- Binding a local name. -/
theorem Env.Locals.store {env : Env} {A : Activation} {S : Setting} {locals : List Value}
    {names : Numbering String} {x : String} {slot : Nat} (h : env.Locals A locals) (hA : A.Sound S)
    (hnames : A.locals? = some names) (hslot : names.find? x = some slot) (v : Value) :
    Env.Locals { env with locals := fun y => if y = x then v.erase else env.locals y } A
      (locals.set slot v) where
  length := by rw [List.length_set, h.length]
  agrees ns hns y i hy := by
    obtain rfl : names = ns := Option.some.inj (hnames.symm.trans hns)
    rw [List.getD_eq_getElem?_getD]
    dsimp only
    by_cases hname : y = x
    · subst hname
      obtain rfl : slot = i := Option.some.inj (hslot.symm.trans hy)
      have hlt : slot < locals.length := by
        rw [h.length]
        exact lt_of_lt_of_le (hA.slot_lt hnames hslot) (le_max_left _ _)
      rw [if_pos rfl, List.getElem?_set_self hlt]
      rfl
    · have hne : slot ≠ i := by
        rintro rfl
        exact hname ((hA.dense.locals? names hnames).injective hy hslot)
      rw [if_neg hname, ← h.agrees names hnames y i hy, List.getElem?_set_ne hne,
        List.getD_eq_getElem?_getD]

/-- The call `A` has the pieces `ps` left to run, with the given operands on top of the stack. -/
structure Running (S : Setting) (A : Activation) (operands : List Value) (ps : List Piece) (env : Env)
    (m : Machine) : Prop where
  represents : m.Represents S env
  code : ∃ ip, m.frames = A.frames.push (A.frame ip) ∧ Code.Remaining A.function.code ip ps
  stack : ∃ locals, StackHas m.stack m.sp (A.below ++ (locals ++ operands)) ∧ env.Locals A locals

/-- The value `v` is on top of the operands. -/
def Pushed (S : Setting) (A : Activation) (operands : List Value) (ps : List Piece) (v : Value)
    (env : Env) (m : Machine) : Prop :=
  ∃ value, value.erase = v ∧ Running S A (operands ++ [value]) ps env m

/-- The values `vs`, as many as `count`, are on top of the operands. -/
def PushedAll (S : Setting) (A : Activation) (operands : List Value) (ps : List Piece) (count : Nat)
    (vs : List Value) (env : Env) (m : Machine) : Prop :=
  ∃ values, values.length = count ∧ values.map Value.erase = vs ∧
    Running S A (operands ++ values) ps env m

/-- The value `v` was just taken off. -/
structure Popped (S : Setting) (A : Activation) (operands : List Value) (ps : List Piece) (v : Value)
    (env : Env) (m : Machine) : Prop where
  running : Running S A operands ps env m
  lastPopped : m.lastPopped.erase = v

/-- The call `A` has ended with the value `v`. It stands where the function stood, or is the one that
was popped last when the program has ended. -/
structure Returned (S : Setting) (A : Activation) (v : Value) (env : Env) (m : Machine) : Prop where
  represents : m.Represents S env
  frames : m.frames = A.frames
  stack : if A.frames.size = 0 then m.lastPopped.erase = v
    else ∃ value, value.erase = v ∧ StackHas m.stack m.sp (A.below.dropLast ++ [value])

namespace Running

variable {S : Setting} {A : Activation} {operands : List Value} {ps : List Piece} {env : Env}
  {m : Machine} {a b : Value} {α : Type} {r : Except Stop α × Env}
  {Q : α → Env → Machine → Prop} {R : Value → Env → Machine → Prop}

/-! ### The stack -/

/-- Operands that are taken off together. -/
theorem popMany {vs : List Value} (h : Running S A (operands ++ vs) ps env m) :
    vs.length ≤ m.sp ∧ (m.stack.extract (m.sp - vs.length) m.sp).toList = vs ∧
      Running S A operands ps env { m with sp := m.sp - vs.length } := by
  obtain ⟨locals, hstack, hlocals⟩ := h.stack
  rw [← List.append_assoc, ← List.append_assoc] at hstack
  have hlength := hstack.length
  rw [List.length_append] at hlength
  refine ⟨by omega, hstack.extract, h.represents.move _ _, h.code, locals, ?_, hlocals⟩
  have hpop := hstack.pop
  rwa [List.append_assoc] at hpop

/-- An operand that is taken off. -/
theorem pop (h : Running S A (operands ++ [a]) ps env m) :
    m.sp ≠ 0 ∧ m.stack.getD (m.sp - 1) .null = a ∧
      Running S A operands ps env { m with sp := m.sp - 1 } := by
  obtain ⟨hsp, -, hrun⟩ := h.popMany
  obtain ⟨locals, hstack, -⟩ := h.stack
  rw [← List.append_assoc, ← List.append_assoc] at hstack
  exact ⟨Nat.ne_of_gt hsp, hstack.getD_below.2, hrun⟩

/-- Where the frame goes on is all that a jump changes. -/
theorem goto {ip : Nat} {ps' : List Piece} (h : Running S A operands ps env m)
    (hcode : Code.Remaining A.function.code ip ps') :
    Running S A operands ps' env { m with frames := A.frames.push (A.frame ip) } where
  represents := h.represents.move _ _
  code := ⟨ip, rfl, hcode⟩
  stack := h.stack

/-- The call goes on at another offset. -/
theorem jump {ip target : Nat} {ps' : List Piece} (h : Running S A operands ps env m)
    (hframes : m.frames = A.frames.push (A.frame ip))
    (hcode : Code.Remaining A.function.code target ps')
    (hnext : ∀ m', Running S A operands ps' env m' → Simulates S m' r Q R) :
    (Executing.jump target).Follows S m r Q R := by
  rw [Follows, ensures_jump, hframes, modify_last_ip]
  intro _
  exact hnext _ (h.goto hcode)

/-! ### Pieces -/

/-- Past the instruction that the frame stands at. -/
theorem fetched {op : Opcode} {operand ip next : Nat} (h : Running S A operands ps env m)
    (hframes : m.frames = A.frames.push (A.frame ip)) (hlt : ip < A.function.code.size)
    (hfetch : Code.fetch A.function.code ip = .ok (op, operand, next))
    (hexec : (execute op operand).Follows S { m with frames := A.frames.push (A.frame next) } r Q R) :
    Simulates S m r Q R := by
  have hready : Machine.Ready S { m with frames := A.frames.push (A.frame next) } :=
    (h.represents.move _ _).ready
  have hspec := execute_spec hready.holds (f := A.frame next) rfl op operand
  refine Machine.leads_of_steps ?_
  rw [Machine.steps_instruction hframes hlt hfetch]
  refine (hexec.and hspec).mono ?_ ?_
  · rintro _ m' ⟨hm', hholds, hkept, -⟩
    exact hm' (hready.kept hholds hkept)
  · rintro e m' ⟨hm', hholds, hkept, -⟩
    exact hm' (hready.kept hholds hkept)

/-- **Past an instruction.** -/
theorem instruction {op : Opcode} {ns : List Nat}
    (h : Running S A operands (.op op ns :: ps) env m)
    (hexec : ∀ m', Running S A operands ps env m' →
      (execute op (ns.headD 0)).Follows S m' r Q R) : Simulates S m r Q R := by
  obtain ⟨ip, hframes, hcode⟩ := h.code
  obtain ⟨hlt, hfetch, hrest⟩ := hcode.op
  exact h.fetched hframes hlt hfetch (hexec _ (h.goto hrest))

/-- **Past the jump at the start of a branch**, which takes the condition off. -/
theorem branch {yes no : List Piece}
    (h : Running S A (operands ++ [a]) (.branch yes no :: ps) env m)
    (hyes : a.isTruthy → ∀ m', Running S A operands (yes ++ .skip no :: ps) env m' →
      Simulates S m' r Q R)
    (hno : ¬a.isTruthy → ∀ m', Running S A operands (no ++ ps) env m' → Simulates S m' r Q R) :
    Simulates S m r Q R := by
  obtain ⟨ip, hframes, hcode⟩ := h.code
  obtain ⟨hlt, hfetch, hcodeYes, hcodeNo⟩ := hcode.branch
  refine h.fetched hframes hlt hfetch ?_
  obtain ⟨hsp, hvalue, hrun⟩ := (h.goto hcodeYes).pop
  rw [execute, Follows, ensures_bind, ensures_pop, if_neg hsp, hvalue]
  cases htruthy : a.isTruthy with
  | true =>
    exact fun _ => hyes htruthy _ hrun
  | false => exact hrun.jump rfl hcodeNo (hno (by simp [htruthy]))

/-- **Past the jump at the end of the first side of a branch.** -/
theorem skip {no : List Piece} (h : Running S A operands (.skip no :: ps) env m)
    (hnext : ∀ m', Running S A operands ps env m' → Simulates S m' r Q R) : Simulates S m r Q R := by
  obtain ⟨ip, hframes, hcode⟩ := h.code
  obtain ⟨hlt, hfetch, hend, hno⟩ := hcode.skip
  refine h.fetched hframes hlt hfetch ?_
  exact (h.goto hno).jump rfl hend hnext

/-! ### Results -/

theorem follows_push (h : Running S A operands ps env m) (v : Value) :
    (Executing.push v).Follows S m (.ok v.erase, env) (Pushed S A operands ps) R := by
  rw [Follows, ensures_push]
  split
  · next hroom =>
    intro hready
    obtain ⟨locals, hstack, hlocals⟩ := h.stack
    have hpush := hstack.push hroom v
    rw [List.append_assoc, List.append_assoc] at hpush
    exact .ok ⟨v, rfl, ⟨hready, h.represents.globals⟩, h.code, locals, hpush, hlocals⟩
  · exact fun _ => .inl rfl

/-- What an operator gives is pushed, or it is the fault that the evaluation ends with. -/
theorem follows_give (h : Running S A operands ps env m) (result : Except Fault Value) :
    (Executing.give result).Follows S m ((Evaluating.give (result.map Value.erase)).run.run env)
      (Pushed S A operands ps) R := by
  cases result with
  | ok v => exact h.follows_push v
  | error e => exact fun hready => .inr ⟨rfl, hready, h.represents.globals⟩

theorem follows_binary {f : Value → Value → Except Fault Value} (hf : Commutes f)
    (h : Running S A (operands ++ [a] ++ [b]) ps env m) :
    (binary f).Follows S m ((Evaluating.give (f a.erase b.erase)).run.run env)
      (Pushed S A operands ps) R := by
  obtain ⟨hsp, hb, hrun⟩ := h.pop
  obtain ⟨hsp', ha, hrun'⟩ := hrun.pop
  dsimp only at hsp' ha hrun'
  rw [Nat.sub_sub] at ha hrun'
  rw [Follows, ensures_binary, if_neg (by omega), ha, hb, hf a b]
  exact hrun'.follows_give _

theorem follows_unary {f : Value → Except Fault Value} (hf : ∀ v : Value, f v.erase = (f v).map Value.erase)
    (h : Running S A (operands ++ [a]) ps env m) :
    (unary f).Follows S m ((Evaluating.give (f a.erase)).run.run env) (Pushed S A operands ps) R := by
  obtain ⟨hsp, ha, hrun⟩ := h.pop
  rw [Follows, ensures_unary, if_neg hsp, ha, hf a]
  exact hrun.follows_give _

/-- Values that are taken off are put together to one. -/
theorem follows_collect {vs : List Value} (h : Running S A (operands ++ vs) ps env m)
    (f : List Value → Except Fault Value)
    (hf : f (vs.map Value.erase) = (f vs).map Value.erase) :
    (Executing.popMany vs.length >>= fun vs => Executing.give (f vs)).Follows S m
      ((Evaluating.give (f (vs.map Value.erase))).run.run env) (Pushed S A operands ps) R := by
  obtain ⟨hsp, hvs, hrun⟩ := h.popMany
  rw [Follows, ensures_bind, ensures_popMany, if_neg (Nat.not_lt.mpr hsp), hvs, hf]
  exact hrun.follows_give _

/-- **An array** of the values on top. -/
theorem array {vs : List Value} (h : Running S A (operands ++ vs) (.op .array [vs.length] :: ps) env m) :
    Simulates S m (.ok (.array (vs.map Value.erase)), env) (Pushed S A operands ps) R := by
  refine h.instruction fun _ hrun => hrun.follows_collect (fun vs => .ok (.array vs)) ?_
  rw [← Value.eraseAll_eq]
  rfl

/-- **A hash** of the keys and values on top. -/
theorem hash {vs : List Value} (h : Running S A (operands ++ vs) (.op .hash [vs.length] :: ps) env m) :
    Simulates S m ((Evaluating.give (Value.hashOf (vs.map Value.erase))).run.run env)
      (Pushed S A operands ps) R := by
  refine h.instruction fun _ hrun => hrun.follows_collect Value.hashOf ?_
  rw [← Value.eraseAll_eq]
  exact Value.hashOf_erase vs

/-- **A literal.** -/
theorem literal {i : Nat} {l : Literal} (h : Running S A operands (.op .constant [i] :: ps) env m)
    (hl : S.literals[i]? = some l) :
    Simulates S m (.ok (l.value i).erase, env) (Pushed S A operands ps) R := by
  refine h.instruction fun m' hrun => ?_
  have hget : m'.constants[i]? = some (l.value i) := by
    rw [hrun.represents.ready.constants, Literal.getElem?_values, hl]
    rfl
  rw [execute, Follows, ensures_bind, ensures_get, List.headD_cons, hget]
  exact hrun.follows_push _

/-- **An operation on two values.** -/
theorem operation {op : Operation}
    (h : Running S A (operands ++ [a] ++ [b]) (.op op.opcode [] :: ps) env m) :
    Simulates S m ((Evaluating.give (op.apply a.erase b.erase)).run.run env)
      (Pushed S A operands ps) R := by
  refine h.instruction fun m' hrun => ?_
  rw [op.execute_opcode]
  exact hrun.follows_binary op.commutes_apply

/-- **A unary operator.** -/
theorem unaryOp {op : UnaryOp} (h : Running S A (operands ++ [a]) (.op op.opcode [] :: ps) env m) :
    Simulates S m ((Evaluating.give (op.apply a.erase)).run.run env) (Pushed S A operands ps) R := by
  refine h.instruction fun m' hrun => ?_
  rw [op.execute_opcode]
  exact hrun.follows_unary op.apply_erase

/-! ### Names -/

/-- The operand of an instruction that is left to run is a global slot of the machine. -/
theorem operand_lt {op : Opcode} {ns : List Nat} (h : Running S A operands (.op op ns :: ps) env m) :
    ns.headD 0 < 65536 := by
  obtain ⟨_, -, hcode⟩ := h.code
  obtain ⟨bytes, hbytes⟩ := hcode.fits.1
  exact Opcode.lt_of_encode hbytes

/-- The slot of a local name is one of the running call. -/
theorem ensures_slot {slot : Nat} {names : Numbering String} {x : String} {Q : Nat → Machine → Prop}
    {E : Fault → Machine → Prop} (h : Running S A operands ps env m) (hA : A.Sound S)
    (hnames : A.locals? = some names) (hslot : names.find? x = some slot) :
    (localSlot slot).Ensures m Q E ↔ Q (A.below.length + slot) m := by
  obtain ⟨ip, hframes, -⟩ := h.code
  rw [ensures_localSlot, hframes, Array.back?_push]
  exact Iff.of_eq (if_pos (hA.slot_lt hnames hslot))

/-- The value of a global name, bound or not. -/
theorem load_global {s : Symbol} (h : Running S A operands (.op .getGlobal [s.slot] :: ps) env m)
    (hstorage : s.storage = .global) (hs : S.names.find? s.name = some s.slot) :
    Simulates S m ((Evaluating.load s).run.run env) (Pushed S A operands ps) R := by
  have hoperand := h.operand_lt
  refine h.instruction fun m' hrun => ?_
  have hagrees := hrun.represents.globals s.name s.slot hs
  have hlt : s.slot < m'.globals.size := by
    rw [hrun.represents.ready.globalsSize]
    exact hoperand
  rw [Array.getD_eq_getD_getElem?, Array.getElem?_eq_getElem hlt] at hagrees
  rw [Evaluating.run_load_global hstorage, ← hagrees, execute, Follows, ensures_bind, ensures_get]
  dsimp only [List.headD_cons, Option.getD_some]
  rw [Array.getElem?_eq_getElem hlt]
  cases m'.globals[s.slot] with
  | some v => exact hrun.follows_push v
  | none => exact fun _ => .inr ⟨rfl, hrun.represents⟩

/-- The value of a local name, which is null when it is not bound yet. -/
theorem load_local {s : Symbol} {names : Numbering String}
    (h : Running S A operands (.op .getLocal [s.slot] :: ps) env m) (hA : A.Sound S)
    (hstorage : s.storage = .frame) (hnames : A.locals? = some names)
    (hs : names.find? s.name = some s.slot) :
    Simulates S m ((Evaluating.load s).run.run env) (Pushed S A operands ps) R := by
  refine h.instruction fun m' hrun => ?_
  obtain ⟨locals, hstack, hlocals⟩ := hrun.stack
  have hlt : s.slot < locals.length := by
    rw [hlocals.length]
    exact lt_of_lt_of_le (hA.slot_lt hnames hs) (le_max_left _ _)
  have hvalue := hlocals.agrees names hnames s.name s.slot hs
  rw [← hstack.getD_between hlt] at hvalue
  rw [Evaluating.run_load_frame hstorage, ← hvalue, execute, Follows, ensures_bind]
  exact (hrun.ensures_slot hA hnames hs).mpr (hrun.follows_push _)

/-- **The value of a name.** -/
theorem load {s : Symbol} (h : Running S A operands (s.loadPiece :: ps) env m) (hA : A.Sound S)
    (hs : s.In S.names A.locals?) :
    Simulates S m ((Evaluating.load s).run.run env) (Pushed S A operands ps) R := by
  unfold Symbol.In at hs
  unfold Symbol.loadPiece at h
  cases hstorage : s.storage with
  | global =>
    rw [hstorage] at h hs
    exact h.load_global hstorage hs
  | frame =>
    rw [hstorage] at h hs
    obtain ⟨names, hnames, hslot⟩ := hs
    exact h.load_local hA hstorage hnames hslot

/-- Binding a global name. -/
theorem store_global {s : Symbol}
    (h : Running S A (operands ++ [a]) (.op .setGlobal [s.slot] :: ps) env m) (hS : S.names.Dense)
    (hstorage : s.storage = .global) (hs : S.names.find? s.name = some s.slot) :
    Simulates S m ((Evaluating.store s a.erase).run.run env)
      (fun _ => Popped S A operands ps a.erase) R := by
  have hoperand := h.operand_lt
  refine h.instruction fun m' hrun => ?_
  obtain ⟨hsp, ha, hpopped⟩ := hrun.pop
  have hlt : s.slot < m'.globals.size := by
    rw [hrun.represents.ready.globalsSize]
    exact hoperand
  rw [Evaluating.run_store_global hstorage, execute, Follows, ensures_bind, ensures_pop, if_neg hsp,
    ha, ensures_bind, ensures_get]
  split
  · rw [ensures_modify]
    intro hready
    have hagrees := hrun.represents.globals.store hS hs hlt a
    obtain ⟨locals, hstack, hlocals⟩ := hpopped.stack
    exact .ok ⟨⟨⟨hready, hagrees⟩, hpopped.code, locals, hstack, hlocals.congr rfl⟩,
      congrArg Value.erase ha⟩
  · next hge => exact absurd hlt hge

/-- Binding a local name. -/
theorem store_local {s : Symbol} {names : Numbering String}
    (h : Running S A (operands ++ [a]) (.op .setLocal [s.slot] :: ps) env m) (hA : A.Sound S)
    (hstorage : s.storage = .frame) (hnames : A.locals? = some names)
    (hs : names.find? s.name = some s.slot) :
    Simulates S m ((Evaluating.store s a.erase).run.run env)
      (fun _ => Popped S A operands ps a.erase) R := by
  refine h.instruction fun m' hrun => ?_
  obtain ⟨hsp, ha, hpopped⟩ := hrun.pop
  obtain ⟨locals, hstack, hlocals⟩ := hpopped.stack
  have hlt : s.slot < locals.length := by
    rw [hlocals.length]
    exact lt_of_lt_of_le (hA.slot_lt hnames hs) (le_max_left _ _)
  have hlength := hstack.length
  rw [List.length_append, List.length_append] at hlength
  rw [Evaluating.run_store_frame hstorage, execute, Follows, ensures_bind, ensures_pop, if_neg hsp,
    ha, ensures_bind]
  refine (hpopped.ensures_slot hA hnames hs).mpr ?_
  rw [ensures_modify]
  intro hready
  have hstored := hlocals.store hA hnames hs a
  refine .ok ⟨⟨⟨hready, hrun.represents.globals⟩, hpopped.code, _, hstack.set_between hlt a,
    hstored⟩, ?_⟩
  -- the slot of the name is below the value that was taken off
  have hne : A.below.length + s.slot ≠ m'.sp - 1 := by
    dsimp only at hlength
    omega
  have hlast : (m'.stack.setIfInBounds (A.below.length + s.slot) a).getD (m'.sp - 1) .null = a := by
    rw [Array.getD_eq_getD_getElem?, Array.getElem?_setIfInBounds_ne hne,
      ← Array.getD_eq_getD_getElem?, ha]
  exact congrArg Value.erase hlast

/-- **Binding a name.** -/
theorem store {s : Symbol} (h : Running S A (operands ++ [a]) (s.storePiece :: ps) env m)
    (hA : A.Sound S) (hs : s.In S.names A.locals?) :
    Simulates S m ((Evaluating.store s a.erase).run.run env)
      (fun _ => Popped S A operands ps a.erase) R := by
  unfold Symbol.In at hs
  unfold Symbol.storePiece at h
  cases hstorage : s.storage with
  | global =>
    rw [hstorage] at h hs
    exact h.store_global hA.dense.globals hstorage hs
  | frame =>
    rw [hstorage] at h hs
    obtain ⟨names, hnames, hslot⟩ := hs
    exact h.store_local hA hstorage hnames hslot

/-! ### Ends -/

/-- **A value is dropped.** -/
theorem drop (h : Running S A (operands ++ [a]) (.op .pop [] :: ps) env m)
    (hnext : ∀ m', Popped S A operands ps a.erase env m' → Simulates S m' r Q R) :
    Simulates S m r Q R := by
  refine h.instruction fun m' hrun => ?_
  obtain ⟨hsp, ha, hpopped⟩ := hrun.pop
  rw [execute, Follows, ensures_bind, ensures_pop, if_neg hsp]
  intro _
  exact hnext _ ⟨hpopped, congrArg Value.erase ha⟩

/-- The call ends with a value. -/
theorem follows_leave {v : Value} (h : Running S A operands ps env m)
    (hroom : A.frames.size = 0 → 0 < m.stack.size)
    (hnext : ∀ m', Returned S A v.erase env m' → Simulates S m' r Q R) :
    (leave v).Follows S m r Q R := by
  obtain ⟨ip, hframes, -⟩ := h.code
  obtain ⟨locals, hstack, -⟩ := h.stack
  rw [Follows, ensures_leave hframes]
  split
  · next hmain =>
    intro hready
    refine hnext _ ⟨⟨hready, h.represents.globals⟩, rfl, ?_⟩
    have hlast : (m.stack.setIfInBounds 0 v).getD 0 .null = v := by
      rw [Array.getD_eq_getD_getElem?, Array.getElem?_setIfInBounds_self_of_lt (hroom hmain)]
      rfl
    rw [if_pos hmain]
    exact congrArg Value.erase hlast
  · next hcall =>
    have hlength := hstack.length
    rw [List.length_append] at hlength
    have hbelow : StackHas m.stack (A.below.length - 1) A.below.dropLast := by
      have htake := hstack.take (show A.below.length - 1 ≤ m.sp by omega)
      rwa [List.take_append_of_le_length (Nat.sub_le _ _), ← List.dropLast_eq_take] at htake
    rw [ensures_push]
    split
    · next hlt =>
      intro hready
      refine hnext _ ⟨⟨hready, h.represents.globals⟩, rfl, ?_⟩
      rw [if_neg hcall]
      exact ⟨v, rfl, hbelow.push hlt v⟩
    · exact fun _ => .inl rfl

/-- **A value is returned.** -/
theorem returnValue (h : Running S A (operands ++ [a]) (.op .returnValue [] :: ps) env m)
    (hnext : ∀ m', Returned S A a.erase env m' → Simulates S m' r Q R) : Simulates S m r Q R := by
  refine h.instruction fun m' hrun => ?_
  obtain ⟨hsp, ha, hpopped⟩ := hrun.pop
  obtain ⟨locals, hstack, -⟩ := hrun.stack
  rw [execute, Follows, ensures_bind, ensures_pop, if_neg hsp, ha]
  refine hpopped.follows_leave (fun _ => ?_) hnext
  exact lt_of_lt_of_le (Nat.pos_of_ne_zero hsp) hstack.room

/-- **A call ends without a value.** -/
theorem ret (h : Running S A operands (.op .ret [] :: ps) env m) (hcall : A.frames.size ≠ 0)
    (hnext : ∀ m', Returned S A .null env m' → Simulates S m' r Q R) : Simulates S m r Q R :=
  h.instruction fun _ hrun => hrun.follows_leave (fun hmain => absurd hmain hcall) hnext

end Running

end Monkey
