import Monkey.Proofs.Bounds

/-!
# A machine that checks its indexes

`Machine.step` takes a slot that there is not for null, and drops what is written to it.
`Machine.stepChecked` does the same as `step`, but it gives no result at all where an index lies outside
its array, or where a range is reversed or goes too far. It is also told the slot `low` below which the
stack must not be read.

A machine in bounds passes every check, so that its step is the same as the one that checks
(`Machine.stepChecked_eq`).
-/

namespace Monkey

/-- A step of running code that gives nothing at all when it breaks a check. -/
abbrev Checking := ExceptT Fault (StateT Machine Option)

namespace Checking

variable {α β : Type}

/-- Goes on with a value if there is one. -/
def demand (a? : Option α) : Checking α := fun m => a?.map fun a => (.ok a, m)

/-- A step in which there is nothing to check. -/
def free (x : Executing α) : Checking α := fun m => some (x.run.run m)

/-! ### Primitives -/

/-- The value in a slot of the stack. -/
def read (low slot : Nat) : Checking Value := do
  let m ← get
  demand (if low ≤ slot then m.stack[slot]? else none)

/-- The values in the slots from `start` on and before `stop`. -/
def readRange (low start stop : Nat) : Checking (List Value) := do
  let m ← get
  demand (if low ≤ start ∧ start ≤ stop ∧ stop ≤ m.stack.size then
    some (m.stack.extract start stop).toList else none)

/-- Puts a value into a slot of the stack. -/
def write (slot : Nat) (v : Value) : Checking Unit := do
  let m ← get
  let stack ← demand (if h : slot < m.stack.size then some (m.stack.set slot v h) else none)
  set { m with stack }

/-- Puts null into the slots from `start` on and before `stop`. -/
def clear (start stop : Nat) : Checking Unit := do
  let m ← get
  let stack ← demand (if start ≤ stop ∧ stop ≤ m.stack.size then
    some (Executing.clearSlots m.stack start (stop - start)) else none)
  set { m with stack }

/-- Takes a value off the stack. -/
def pop (low : Nat) : Checking Value := do
  let m ← get
  if m.sp = 0 then throw .stackUnderflow
  else
    let v ← read low (m.sp - 1)
    set { m with sp := m.sp - 1 }
    return v

/-- Takes `count` values off the stack, and gives them in the order in which they were pushed. -/
def popMany (low count : Nat) : Checking (List Value) := do
  let m ← get
  if m.sp < count then throw .stackUnderflow
  else
    let vs ← readRange low (m.sp - count) m.sp
    set { m with sp := m.sp - count }
    return vs

/-- The stack slot of a local slot of the running call. -/
def localSlot (slot : Nat) : Checking Nat := do
  let m ← get
  let frame ← demand m.frames.back?
  if slot < frame.function.locals then return frame.base + slot
  else throw (.localOutOfRange slot)

/-- Opens a call of the function below `count` arguments. -/
def call (low count : Nat) : Checking Unit := do
  let m ← get
  if m.sp ≤ count then throw .stackUnderflow
  else
    match ← read low (m.sp - 1 - count) with
    | .function f =>
      if count ≠ f.parameters then throw (.wrongArity f.parameters count)
      else if m.maxFrames ≤ m.frames.size then throw (.frameOverflow m.maxFrames)
      else
        let base := m.sp - count
        let top := base + max f.locals count
        if m.stack.size < top then throw .stackOverflow
        else
          clear (base + count) top
          modify fun m => { m with sp := top, frames := m.frames.push ⟨f, 0, base⟩ }
    | v => throw (.notCallable v.type)

/-! ### Instructions -/

/-- Takes two operands off the stack and pushes what `g` makes of them. -/
def binary (low : Nat) (g : Value → Value → Except Fault Value) : Checking Unit := do
  let right ← pop low
  let left ← pop low
  free (Executing.give (g left right))

/-- Takes an operand off the stack and pushes what `g` makes of it. -/
def unary (low : Nat) (g : Value → Except Fault Value) : Checking Unit := do
  let v ← pop low
  free (Executing.give (g v))

/-- Carries out an instruction with its operand. -/
def execute (low : Nat) (op : Opcode) (operand : Nat) : Checking Unit :=
  match op with
  | .pop => do
    let _ ← pop low
  | .add => binary low (ArithOp.apply .add)
  | .sub => binary low (ArithOp.apply .sub)
  | .mul => binary low (ArithOp.apply .mul)
  | .div => binary low (ArithOp.apply .div)
  | .equal => binary low fun v w => .ok (.boolean (v == w))
  | .notEqual => binary low fun v w => .ok (.boolean (v != w))
  | .greaterThan => binary low Value.greater
  | .minus => unary low Value.negate
  | .bang => unary low fun v => .ok (.boolean (!v.isTruthy))
  | .jumpNotTruthy => do
    let v ← pop low
    free (unless v.isTruthy do Executing.jump operand)
  | .setGlobal => do
    let v ← pop low
    let m ← get
    if operand < m.globals.size then
      modify fun m => { m with globals := m.globals.setIfInBounds operand (some v) }
    else
      throw (.globalOutOfRange operand)
  | .array => do
    let vs ← popMany low operand
    free (Executing.push (.array vs))
  | .hash => do
    let vs ← popMany low operand
    free (Executing.give (Value.hashOf vs))
  | .index => binary low Value.lookup
  | .call => call low operand
  | .returnValue => do
    let v ← pop low
    free (Executing.leave v)
  | .getLocal => do
    let slot ← localSlot operand
    let v ← read low slot
    free (Executing.push v)
  | .setLocal => do
    let v ← pop low
    let slot ← localSlot operand
    write slot v
  -- these use no index that could lie outside, or look up what may be missing
  | .constant | .true | .false | .null | .jump | .getGlobal | .ret =>
    free (Executing.execute op operand)

end Checking

/-- The instruction at an offset of a stream of code. -/
def Code.fetchChecked (code : Code) (ip : Nat) : Option (Except RuntimeError (Opcode × Nat × Nat)) := do
  let byte ← code[ip]?
  match Opcode.lookup byte with
  | .error e => return .error ⟨.instruction e, .undefined, ip⟩
  | .ok op =>
    let stop := ip + 1 + op.layout.operandLength
    if stop ≤ code.size then
      return .ok (op, readUInt (code.extract (ip + 1) stop).toList, stop)
    else
      return .error ⟨.instruction (.truncated op.name op.layout.operandLength (code.size - ip - 1)),
        .at op, ip⟩

namespace Machine

/-- Carries out a step whose faults belong to the instruction `site` at the offset `ip`. -/
def attemptChecked (m : Machine) (site : Site) (ip : Nat) (step : Checking Unit) :
    Option (Option Outcome × Machine) :=
  match step.run.run m with
  | none => none
  | some (.ok (), m) => some (none, m)
  | some (.error fault, m) => some (some (.failed ⟨fault, site, ip⟩), m)

/-- Carries out the next instruction if that breaks no check. -/
def stepChecked (low : Nat) (m : Machine) : Option (Option Outcome × Machine) :=
  match m.frames.back? with
  | none => some (some .finished, m)
  | some frame =>
    let ip := frame.ip
    if ip < frame.function.code.size then
      match Code.fetchChecked frame.function.code ip with
      | none => none
      | some (.ok (op, operand, next)) =>
        m.attemptChecked (.at op) ip do
          Checking.free (Executing.jump next)
          Checking.execute low op operand
      | some (.error e) => some (some (.failed e), m)
    else if m.frames.size = 1 then
      some (some .finished, { m with frames := #[] })
    else
      m.attemptChecked .codeEnd ip (Checking.free (Executing.leave .null))

end Machine

/-! ### Checks that are passed -/

namespace Checking

open Executing (clearSlots)

variable {α β : Type} {m : Machine} {low : Nat}

/-- On the machine `m` the step `x'` passes its checks and does the same as `x`. -/
def Passes (x' : Checking α) (x : Executing α) (m : Machine) : Prop :=
  x'.run.run m = some (x.run.run m)

theorem passes_free (x : Executing α) : Passes (free x) x m := rfl

theorem passes_pure (a : α) : Passes (pure a) (pure a) m := rfl

theorem passes_throw (e : Fault) : Passes (throw e : Checking α) (throw e) m := rfl

theorem passes_get : Passes get get m := rfl

theorem passes_set (m' : Machine) : Passes (set m') (set m') m := rfl

theorem passes_modify (g : Machine → Machine) : Passes (modify g) (modify g) m := rfl

/-- Checked steps one after the other. -/
theorem run_bind (x : Checking α) (g : α → Checking β) (m : Machine) :
    (x >>= g).run.run m = match x.run.run m with
      | none => none
      | some (.ok a, m') => (g a).run.run m'
      | some (.error e, m') => some (.error e, m') := by
  change (x m).bind (fun r => ExceptT.bindCont g r.1 r.2) = match x m with
    | none => none
    | some (.ok a, m') => g a m'
    | some (.error e, m') => some (.error e, m')
  cases x m with
  | none => rfl
  | some r =>
    obtain ⟨r, m'⟩ := r
    cases r <;> rfl

theorem passes_bind {x' : Checking α} {x : Executing α} {g' : α → Checking β} {g : α → Executing β}
    (hx : Passes x' x m) (hg : x.Ensures m (fun a m₁ => Passes (g' a) (g a) m₁) fun _ _ => True) :
    Passes (x' >>= g') (x >>= g) m := by
  unfold Passes at hx ⊢
  rw [run_bind, hx, Monkey.run_bind]
  unfold Executing.Ensures at hg
  revert hg
  cases x.run.run m with
  | mk r m' =>
    cases r with
    | ok a => exact id
    | error e => exact fun _ => rfl

/-- A checked step that only looks something up. -/
theorem passes_demand_bind {a? : Option α} {a : α} {g' : α → Checking β} {x : Executing β}
    (ha : a? = some a) (hg : Passes (g' a) x m) : Passes (demand a? >>= g') x m := by
  subst ha
  exact hg

theorem passes_read_bind {slot : Nat} {g' : Value → Checking β} {x : Executing β}
    (hlow : low ≤ slot) (hslot : slot < m.stack.size)
    (hg : Passes (g' (m.stack.getD slot .null)) x m) : Passes (read low slot >>= g') x m := by
  have hread : (if low ≤ slot then m.stack[slot]? else none) = some (m.stack.getD slot .null) := by
    rw [if_pos hlow, Array.getD_eq_getD_getElem?, Array.getElem?_eq_getElem hslot]
    rfl
  exact passes_demand_bind hread hg

theorem passes_write {slot : Nat} (hslot : slot < m.stack.size) (v : Value) :
    Passes (write slot v) (modify fun m => { m with stack := m.stack.setIfInBounds slot v }) m := by
  have hset : (if h : slot < m.stack.size then some (m.stack.set slot v h) else none) =
      some (m.stack.setIfInBounds slot v) := by
    rw [dif_pos hslot, Array.setIfInBounds, dif_pos hslot]
  exact passes_demand_bind hset (passes_set _)

/-- Clearing slots before the rest of the step. -/
theorem passes_clear_bind {start stop : Nat} {g' : Unit → Checking β} {x : Executing β}
    (hrange : start ≤ stop ∧ stop ≤ m.stack.size)
    (hg : (g' ()).run.run { m with stack := clearSlots m.stack start (stop - start) } =
      some (x.run.run m)) : Passes (clear start stop >>= g') x m := by
  have hclear : Passes (clear start stop)
      (modify fun m => { m with stack := clearSlots m.stack start (stop - start) }) m :=
    passes_demand_bind (if_pos hrange) (passes_set _)
  unfold Passes at hclear ⊢
  rw [run_bind, hclear]
  exact hg

theorem passes_pop (hlow : low ≤ m.sp - 1) (hsp : m.sp ≤ m.stack.size) :
    Passes (pop low) Executing.pop m := by
  refine passes_bind passes_get ?_
  rw [Executing.ensures_get]
  split
  · exact passes_throw _
  · exact passes_read_bind hlow (by omega) (passes_bind (passes_set _) (passes_pure _))

theorem passes_pop_bind {g' : Value → Checking Unit} {g : Value → Executing Unit}
    (hlow : low ≤ m.sp - 1) (hsp : m.sp ≤ m.stack.size)
    (hg : ∀ v, Passes (g' v) (g v) { m with sp := m.sp - 1 }) :
    Passes (pop low >>= g') (Executing.pop >>= g) m := by
  refine passes_bind (passes_pop hlow hsp) ?_
  rw [Executing.ensures_pop]
  split
  · trivial
  · exact hg _

theorem passes_popMany_bind {count : Nat} {g' : List Value → Checking Unit}
    {g : List Value → Executing Unit} (hlow : low ≤ m.sp - count) (hsp : m.sp ≤ m.stack.size)
    (hg : ∀ vs, Passes (g' vs) (g vs) { m with sp := m.sp - count }) :
    Passes (popMany low count >>= g') (Executing.popMany count >>= g) m := by
  have hpop : Passes (popMany low count) (Executing.popMany count) m := by
    refine passes_bind passes_get ?_
    rw [Executing.ensures_get]
    split
    · exact passes_throw _
    · have hrange : low ≤ m.sp - count ∧ m.sp - count ≤ m.sp ∧ m.sp ≤ m.stack.size :=
        ⟨hlow, Nat.sub_le _ _, hsp⟩
      exact passes_demand_bind (if_pos hrange) (passes_bind (passes_set _) (passes_pure _))
  refine passes_bind hpop ?_
  rw [Executing.ensures_popMany]
  split
  · trivial
  · exact hg _

theorem passes_binary (hlow : low ≤ m.sp - 2) (hsp : m.sp ≤ m.stack.size)
    (g : Value → Value → Except Fault Value) : Passes (binary low g) (Executing.binary g) m := by
  refine passes_pop_bind (by omega) hsp fun right => ?_
  refine passes_pop_bind (Nat.sub_sub m.sp 1 1 ▸ hlow) (by dsimp only; omega) fun left => ?_
  cases hg : g left right with
  | ok v => rfl
  | error e => rfl

theorem passes_unary (hlow : low ≤ m.sp - 1) (hsp : m.sp ≤ m.stack.size)
    (g : Value → Except Fault Value) : Passes (unary low g) (Executing.unary g) m := by
  refine passes_pop_bind hlow hsp fun v => ?_
  cases hg : g v with
  | ok w => rfl
  | error e => rfl

theorem passes_localSlot {fs : Array Frame} {f : Frame} (hframes : m.frames = fs.push f)
    (slot : Nat) : Passes (localSlot slot) (Executing.localSlot slot) m := by
  have hback : m.frames.back? = some f := by rw [hframes, Array.back?_push]
  refine passes_bind passes_get (passes_demand_bind hback ?_)
  rw [show m.frames.back?.getD default = f by rw [hback]; rfl]
  dsimp only
  split
  · exact passes_pure _
  · exact passes_throw _

theorem passes_call {count : Nat} (hlow : low ≤ m.sp - (count + 1)) (hsp : m.sp ≤ m.stack.size) :
    Passes (call low count) (Executing.call count) m := by
  refine passes_bind passes_get ?_
  rw [Executing.ensures_get]
  split
  · exact passes_throw _
  next hcount =>
  refine passes_read_bind (by omega) (by omega) ?_
  cases m.stack.getD (m.sp - 1 - count) .null with
  | function f =>
    dsimp only
    split
    · exact passes_throw _
    split
    · exact passes_throw _
    split
    · exact passes_throw _
    next htop =>
    have hbase : m.sp - count + count = m.sp := Nat.sub_add_cancel (by omega)
    have hrange : m.sp - count + count ≤ m.sp - count + max f.locals count ∧
        m.sp - count + max f.locals count ≤ m.stack.size := ⟨by omega, by omega⟩
    refine passes_clear_bind hrange ?_
    rw [hbase]
    rfl
  | integer n => exact passes_throw _
  | boolean b => exact passes_throw _
  | string s => exact passes_throw _
  | array vs => exact passes_throw _
  | hash es => exact passes_throw _
  | null => exact passes_throw _

/-- **Every instruction passes the checks** of a machine in bounds. It reads no slot below `low`, when
its operands and its parameters lie from there on. -/
theorem execute_passes {fs : Array Frame} {f : Frame} (h : m.InBounds)
    (hframes : m.frames = fs.push f) {op : Opcode} {operand : Nat}
    (hlow : low ≤ m.sp - op.pops operand) (hbase : low ≤ f.base) :
    Passes (execute low op operand) (Executing.execute op operand) m := by
  have hsp : m.sp ≤ m.stack.size := h.sp_le
  -- a frame has room for its local slots within the stack
  have hlocals : f.base + f.function.locals ≤ m.stack.size := h.base_add_locals_le hframes
  have hback : m.frames.back?.getD default = f := by rw [hframes, Array.back?_push]; rfl
  cases op with
  | constant | true | false | null | jump | getGlobal | ret => exact passes_free _
  | pop => exact passes_pop_bind hlow hsp fun v => passes_pure _
  | add | sub | mul | div | greaterThan | index => exact passes_binary hlow hsp _
  | equal | notEqual =>
    rw [Executing.execute]
    exact passes_binary hlow hsp _
  | minus => exact passes_unary hlow hsp _
  | bang =>
    rw [Executing.execute]
    exact passes_unary hlow hsp _
  | jumpNotTruthy => exact passes_pop_bind hlow hsp fun v => passes_free _
  | setGlobal =>
    refine passes_pop_bind hlow hsp fun v => passes_bind passes_get ?_
    rw [Executing.ensures_get]
    split
    · exact passes_modify _
    · exact passes_throw _
  | array => exact passes_popMany_bind hlow hsp fun vs => passes_free _
  | hash =>
    refine passes_popMany_bind hlow hsp fun vs => ?_
    cases hvs : Value.hashOf vs with
    | ok v => rfl
    | error e => rfl
  | call => exact passes_call hlow hsp
  | returnValue => exact passes_pop_bind hlow hsp fun v => passes_free _
  | getLocal =>
    refine passes_bind (passes_localSlot hframes operand) ?_
    rw [Executing.ensures_localSlot, hback]
    split
    · exact passes_read_bind (by omega) (by omega) (passes_free _)
    · trivial
  | setLocal =>
    refine passes_pop_bind hlow hsp fun v => ?_
    refine passes_bind (passes_localSlot (by exact hframes) operand) ?_
    rw [Executing.ensures_localSlot, hback]
    split
    · exact passes_write (by dsimp only; omega) v
    · trivial

end Checking

/-- Inside a stream of code the checks of an instruction are passed. -/
theorem Code.fetchChecked_eq {code : Code} {ip : Nat} (hip : ip < code.size) :
    Code.fetchChecked code ip = some (Code.fetch code ip) := by
  have hbyte : code[ip]? = some (code.getD ip 0) := by
    rw [Array.getD_eq_getD_getElem?, Array.getElem?_eq_getElem hip]
    rfl
  simp only [Code.fetchChecked, hbyte, Option.bind_eq_bind, Option.bind_some, Code.fetch]
  cases Opcode.lookup (code.getD ip 0) with
  | error e => rfl
  | ok op =>
    have hlength : (code.extract (ip + 1) (ip + 1 + op.layout.operandLength)).toList.length =
        min (ip + 1 + op.layout.operandLength) code.size - (ip + 1) := by
      rw [Array.length_toList, Array.size_extract]
    dsimp only
    by_cases hstop : ip + 1 + op.layout.operandLength ≤ code.size
    · rw [if_pos hstop, if_pos (by omega)]
      rfl
    · rw [if_neg hstop, if_neg (by omega), hlength, Nat.sub_sub, Nat.min_eq_right (by omega)]
      rfl

namespace Machine

variable {low : Nat} {m : Machine}

theorem attemptChecked_eq {x' : Checking Unit} {x : Executing Unit} (h : Checking.Passes x' x m)
    (site : Site) (ip : Nat) : m.attemptChecked site ip x' = some (m.attempt site ip x) := by
  unfold Checking.Passes at h
  rw [attemptChecked, attempt, h]
  cases x.run.run m with
  | mk r m' => cases r <;> rfl

/-- **A machine in bounds passes all checks**, and its step reads no slot below `low` when everything
that it uses lies from there on. -/
theorem stepChecked_eq (h : m.InBounds) (habove : m.Above low) :
    m.stepChecked low = some m.step := by
  cases m.next with
  | done hframes => simp [stepChecked, step, hframes]
  | malformed fs f e hframes hlt hfetch =>
    rw [step_malformed hframes hlt hfetch]
    simp only [stepChecked, hframes, Array.back?_push, Code.fetchChecked_eq hlt, hfetch, if_pos hlt]
  | instruction fs f op operand next hframes hlt hfetch =>
    obtain ⟨hbase, hpops⟩ := habove fs f hframes
    have hpasses : Checking.Passes
        (Checking.free (Executing.jump next) >>= fun _ => Checking.execute low op operand)
        (Executing.jump next >>= fun _ => Executing.execute op operand) m := by
      refine Checking.passes_bind (Checking.passes_free _) ?_
      rw [Executing.ensures_jump, hframes, modify_last_ip]
      exact Checking.execute_passes (h.goto hframes next) rfl (hpops op operand next hlt hfetch) hbase
    simp only [stepChecked, step, hframes, Array.back?_push, Code.fetchChecked_eq hlt, hfetch,
      if_pos hlt]
    exact attemptChecked_eq hpasses _ _
  | ended fs f hframes hge =>
    simp only [stepChecked, step, hframes, Array.back?_push, if_neg (Nat.not_lt.mpr hge)]
    split
    · rfl
    · exact attemptChecked_eq (Checking.passes_free _) _ _

end Machine

end Monkey
