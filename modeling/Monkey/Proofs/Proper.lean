import Monkey.Proofs.Entries
import Monkey.Proofs.Sessions

/-!
# Hashes have each key once

`Value.Proper` says of a value that wherever there is a hash in it, the hash has each of its keys once.
Operators make proper values of proper values. A step yields what it should (`Executing.Yields`) when it
makes no value that is not proper, on a machine that has none. All instructions do
(`Executing.yields_execute`), so all values that a session computes are proper
(`Session.proper_of_eval`).
-/

namespace Monkey

namespace Value

/-- A value in which every hash has each of its keys once. -/
inductive Proper : Value → Prop
  | integer (n : Int64) : Proper (.integer n)
  | boolean (b : Bool) : Proper (.boolean b)
  | string (s : String) : Proper (.string s)
  | array {vs : List Value} : (∀ v ∈ vs, Proper v) → Proper (.array vs)
  | hash {es : List (Key × Value)} :
      (keysOf es).Nodup → (∀ k v, (k, v) ∈ es → Proper v) → Proper (.hash es)
  | function (f : Function) : Proper (.function f)
  | null : Proper .null

namespace Proper

theorem of_mem {vs : List Value} (h : (Value.array vs).Proper) {v : Value} (hv : v ∈ vs) :
    v.Proper := by
  cases h with
  | array hvs => exact hvs v hv

theorem nodup {es : List (Key × Value)} (h : (Value.hash es).Proper) : (keysOf es).Nodup := by
  cases h with
  | hash hnodup _ => exact hnodup

theorem of_mem_hash {es : List (Key × Value)} (h : (Value.hash es).Proper) {k : Key} {v : Value}
    (hv : (k, v) ∈ es) : v.Proper := by
  cases h with
  | hash _ hvs => exact hvs k v hv

end Proper

/-! ### Operators -/

/-- The result of an operator is proper, if there is one. -/
def Gives (r : Except Fault Value) : Prop := ∀ v, r = .ok v → v.Proper

theorem gives_ok {v : Value} (hv : v.Proper) : Gives (.ok v) := by
  rintro w ⟨⟩
  exact hv

theorem gives_error (e : Fault) : Gives (.error e) := by
  rintro w ⟨⟩

theorem gives_apply (op : ArithOp) (v w : Value) : Gives (op.apply v w) := by
  unfold ArithOp.apply
  split
  · next a b =>
    rintro u hu
    cases hn : op.onIntegers a b <;> rw [hn] at hu <;> cases hu
    exact .integer _
  · exact gives_ok (.string _)
  · exact gives_error _

theorem gives_greater (v w : Value) : Gives (Value.greater v w) := by
  unfold greater
  split
  · exact gives_ok (.boolean _)
  · exact gives_error _

theorem gives_negate (v : Value) : Gives v.negate := by
  unfold negate
  split
  · exact gives_ok (.integer _)
  · exact gives_error _

theorem gives_lookup {v : Value} (hv : v.Proper) (w : Value) : Gives (v.lookup w) := by
  unfold lookup
  split
  · next vs i =>
    refine gives_ok ?_
    split
    · exact .null
    · rw [List.getD_eq_getElem?_getD]
      cases hi : vs[i.toInt.toNat]? with
      | none => exact .null
      | some v => exact hv.of_mem (List.mem_of_getElem? hi)
  · next es =>
    split
    · next k hk =>
      refine gives_ok ?_
      cases hlookup : List.lookup k es with
      | none => exact .null
      | some v => exact hv.of_mem_hash (mem_of_lookup_eq_some hlookup)
    · exact gives_error _
  · exact gives_error _

end Value

/-- Entries with a correct numbering and proper values stay so. -/
theorem Entries.ofValues?_proper {es es' : Entries} {vs : List Value} (hes : es.Ordered)
    (hpairs : ∀ k v, (k, v) ∈ es.pairs.toList → v.Proper) (hvs : ∀ v ∈ vs, v.Proper)
    (h : es.ofValues? vs = .ok es') :
    es'.Ordered ∧ ∀ k v, (k, v) ∈ es'.pairs.toList → v.Proper := by
  fun_induction ofValues? es vs with
  | case1 es k v rest key hkey ih =>
    simp only [List.mem_cons, forall_eq_or_imp] at hvs
    refine ih (hes.insert key v) (fun k' w hw => ?_) hvs.2.2 h
    rw [toList_insert hes] at hw
    rcases mem_put hw with heq | hmem
    · obtain ⟨-, rfl⟩ := Prod.mk.inj heq
      exact hvs.2.1
    · exact hpairs k' w hmem
  | case2 es k v rest hkey => cases h
  | case3 es vs hvs' =>
    obtain rfl := Except.ok.inj h
    exact ⟨hes, hpairs⟩

theorem Value.gives_hashOf {vs : List Value} (h : ∀ v ∈ vs, v.Proper) : Gives (hashOf vs) := by
  unfold hashOf
  split
  · next es hes =>
    have hempty : ∀ k v, (k, v) ∈ Entries.empty.pairs.toList → v.Proper := by simp [Entries.empty]
    obtain ⟨hordered, hvalues⟩ := Entries.ofValues?_proper Entries.ordered_empty hempty h hes
    exact gives_ok (.hash hordered.nodup hvalues)
  · exact gives_error _

/-! ### Machines -/

/-- All values of a machine are proper. -/
structure Machine.Proper (m : Machine) : Prop where
  constants : ∀ v ∈ m.constants, v.Proper
  stack : ∀ v ∈ m.stack, v.Proper
  globals : ∀ v, some v ∈ m.globals → v.Proper

namespace Machine.Proper

variable {m : Machine}

theorem getD (h : m.Proper) (i : Nat) : (m.stack.getD i .null).Proper := by
  rw [Array.getD_eq_getD_getElem?]
  cases hi : m.stack[i]? with
  | none => exact .null
  | some v => exact h.stack v (Array.mem_of_getElem? hi)

theorem move (h : m.Proper) (sp : Nat) (frames : Array Frame) :
    Machine.Proper { m with sp, frames } := ⟨h.constants, h.stack, h.globals⟩

theorem write (h : m.Proper) {v : Value} (hv : v.Proper) (i sp : Nat) (frames : Array Frame) :
    Machine.Proper { m with stack := m.stack.setIfInBounds i v, sp, frames } where
  constants := h.constants
  globals := h.globals
  stack w hw := by
    rcases Array.mem_or_eq_of_mem_setIfInBounds hw with hw | rfl
    · exact h.stack w hw
    · exact hv

end Machine.Proper

namespace Executing

variable {α β : Type} {R : α → Prop} {S : β → Prop}

/-- The step makes no value that is not proper, and gives a result with the property `R`. -/
def Yields (R : α → Prop) (x : Executing α) : Prop :=
  ∀ m : Machine, m.Proper → x.Ensures m (fun a m' => R a ∧ m'.Proper) (fun _ m' => m'.Proper)

theorem Yields.bind {x : Executing α} {f : α → Executing β} (hx : Yields R x)
    (hf : ∀ a, R a → Yields S (f a)) : Yields S (x >>= f) := by
  intro m hm
  rw [ensures_bind]
  exact (hx m hm).mono (fun a m' h => hf a h.1 m' h.2) fun _ _ h => h

theorem yields_pure {a : α} (ha : R a) : Yields R (pure a) := fun _ hm => ⟨ha, hm⟩

theorem yields_throw (e : Fault) : Yields R (throw e) := fun _ hm => hm

theorem yields_get : Yields Machine.Proper get := fun _ hm => ⟨hm, hm⟩

theorem yields_set {m : Machine} (hm : m.Proper) : Yields (fun _ => True) (set m : Executing PUnit) :=
  fun _ _ => ⟨trivial, hm⟩

theorem yields_modify {f : Machine → Machine} (hf : ∀ m, m.Proper → (f m).Proper) :
    Yields (fun _ => True) (modify f : Executing PUnit) :=
  fun m hm => ⟨trivial, hf m hm⟩

theorem yields_push {v : Value} (hv : v.Proper) : Yields (fun _ => True) (push v) := by
  intro m hm
  rw [ensures_push]
  split
  · exact ⟨trivial, hm.write hv _ _ _⟩
  · exact hm

theorem yields_give {r : Except Fault Value} (hr : Value.Gives r) : Yields (fun _ => True) (give r) := by
  cases r with
  | ok v => exact yields_push (hr v rfl)
  | error e => exact yields_throw e

theorem yields_pop : Yields Value.Proper pop := by
  intro m hm
  rw [ensures_pop]
  split
  · exact hm
  · exact ⟨hm.getD _, hm.move _ _⟩

theorem yields_popMany (count : Nat) : Yields (fun vs => ∀ v ∈ vs, v.Proper) (popMany count) := by
  intro m hm
  rw [ensures_popMany]
  split
  · exact hm
  · refine ⟨fun v hv => hm.stack v ?_, hm.move _ _⟩
    rw [Array.toList_extract, List.extract_eq_take_drop] at hv
    exact Array.mem_toList_iff.mp (List.mem_of_mem_drop (List.mem_of_mem_take hv))

theorem yields_binary {f : Value → Value → Except Fault Value}
    (hf : ∀ v w, v.Proper → w.Proper → Value.Gives (f v w)) : Yields (fun _ => True) (binary f) :=
  yields_pop.bind fun w hw => yields_pop.bind fun v hv => yields_give (hf v w hv hw)

theorem yields_unary {f : Value → Except Fault Value} (hf : ∀ v, Value.Gives (f v)) :
    Yields (fun _ => True) (unary f) :=
  yields_pop.bind fun v _ => yields_give (hf v)

theorem yields_jump (target : Nat) : Yields (fun _ => True) (jump target) :=
  yields_modify fun _ hm => hm.move _ _

theorem yields_localSlot (slot : Nat) : Yields (fun _ => True) (localSlot slot) := by
  intro m hm
  rw [ensures_localSlot]
  split
  · exact ⟨trivial, hm⟩
  · exact hm

theorem yields_leave {v : Value} (hv : v.Proper) : Yields (fun _ => True) (leave v) := by
  refine yields_get.bind fun m hm => ?_
  split
  · exact yields_throw _
  · split
    · exact yields_set (hm.write hv _ _ _)
    · exact (yields_set (hm.move _ _)).bind fun _ _ => yields_push hv

theorem yields_call (count : Nat) : Yields (fun _ => True) (call count) := by
  refine yields_get.bind fun m hm => ?_
  split
  · exact yields_throw _
  split
  · split
    · exact yields_throw _
    split
    · exact yields_throw _
    dsimp only
    split
    · exact yields_throw _
    · -- the slots of local names are filled with null
      refine yields_set ⟨hm.constants, fun v hv => ?_, hm.globals⟩
      rcases mem_clearSlots hv with hv | rfl
      · exact hm.stack v hv
      · exact .null
  · exact yields_throw _

/-- **No instruction makes a value that is not proper.** -/
theorem yields_execute (op : Opcode) (operand : Nat) : Yields (fun _ => True) (execute op operand) := by
  cases op with
  | constant =>
    refine yields_get.bind fun m hm => ?_
    split
    · next v hv => exact yields_push (hm.constants v (Array.mem_of_getElem? hv))
    · exact yields_throw _
  | pop => exact yields_pop.bind fun _ _ => yields_pure trivial
  | add | sub | mul | div => exact yields_binary fun v w _ _ => Value.gives_apply _ v w
  | true | false => exact yields_push (.boolean _)
  | null => exact yields_push .null
  | equal =>
    rw [execute]
    exact yields_binary fun v w _ _ => Value.gives_ok (.boolean (v == w))
  | notEqual =>
    rw [execute]
    exact yields_binary fun v w _ _ => Value.gives_ok (.boolean (v != w))
  | greaterThan => exact yields_binary fun v w _ _ => Value.gives_greater v w
  | minus => exact yields_unary Value.gives_negate
  | bang => exact yields_unary fun _ => Value.gives_ok (.boolean _)
  | jumpNotTruthy =>
    refine yields_pop.bind fun v _ => ?_
    split
    · exact yields_pure trivial
    · exact yields_jump operand
  | jump => exact yields_jump operand
  | getGlobal =>
    refine yields_get.bind fun m hm => ?_
    split
    · next v hv => exact yields_push (hm.globals v (Array.mem_of_getElem? hv))
    · exact yields_throw _
    · exact yields_throw _
  | setGlobal =>
    refine yields_pop.bind fun v hv => yields_get.bind fun m _ => ?_
    split
    · refine yields_modify fun m hm => ⟨hm.constants, hm.stack, fun w hw => ?_⟩
      -- a global slot holds what it held before, or the value that was popped
      rcases Array.mem_or_eq_of_mem_setIfInBounds hw with hw | hw
      · exact hm.globals w hw
      · obtain rfl := Option.some.inj hw
        exact hv
    · exact yields_throw _
  | array => exact (yields_popMany operand).bind fun vs hvs => yields_push (.array hvs)
  | hash => exact (yields_popMany operand).bind fun vs hvs => yields_give (Value.gives_hashOf hvs)
  | index => exact yields_binary fun v w hv _ => Value.gives_lookup hv w
  | call => exact yields_call operand
  | returnValue => exact yields_pop.bind fun v hv => yields_leave hv
  | ret => exact yields_leave .null
  | getLocal =>
    exact (yields_localSlot operand).bind fun slot _ => yields_get.bind fun m hm =>
      yields_push (hm.getD slot)
  | setLocal =>
    exact yields_pop.bind fun v hv => (yields_localSlot operand).bind fun slot _ =>
      yields_modify fun m hm => hm.write hv slot m.sp m.frames

end Executing

namespace Machine

variable {m : Machine}

/-- **A step makes no value that is not proper.** -/
theorem Proper.steps (h : m.Proper) : m.Steps Proper (fun _ m' => m'.Proper) Proper := by
  cases m.next with
  | done hframes =>
    rw [steps_done hframes]
    exact h
  | malformed fs f e hframes hlt hfetch =>
    rw [Steps, step_malformed hframes hlt hfetch]
    exact h
  | instruction fs f op operand next hframes hlt hfetch =>
    rw [steps_instruction hframes hlt hfetch]
    exact (Executing.yields_execute op operand _ (h.move m.sp _)).mono (fun _ _ h => h.2) fun _ _ h => h
  | ended fs f hframes hge =>
    rw [steps_end hframes hge]
    split
    · exact h.move m.sp #[]
    · exact (Executing.yields_leave .null m h).mono (fun _ _ h => h.2) fun _ _ h => h

/-- Neither does a run. -/
theorem Proper.run (h : m.Proper) (n : Nat) : (m.run n).2.Proper :=
  run_spec (R := fun _ m' => m'.Proper)
    (fun _ hm => hm.steps.mono (fun _ h => h) (fun _ _ h _ _ => h) fun _ h => h) (fun _ hm => hm) h n

theorem proper_start {chunk : Chunk} {globals : Array (Option Value)}
    (hconstants : ∀ v ∈ chunk.constants, v.Proper) (hglobals : ∀ v, some v ∈ globals → v.Proper)
    (limits : Limits) : (start chunk globals limits).Proper where
  constants := hconstants
  stack v hv := by
    obtain ⟨-, rfl⟩ := Array.mem_replicate.mp hv
    exact .null
  globals v hv := by
    rcases Array.mem_append.mp hv with hv | hv
    · exact hglobals v hv
    · obtain ⟨-, hv⟩ := Array.mem_replicate.mp hv
      cases hv

end Machine

/-! ### Sessions -/

/-- The constants of compiled programs are proper. -/
theorem Carried.proper {s : Scope} {k : Array Value} (h : Carried s k) : ∀ v ∈ k, v.Proper := by
  obtain ⟨w, hw, -⟩ := h.follows
  intro v hv
  have hk : k = Literal.values w.literals := hw.constants
  rw [hk, Literal.values] at hv
  obtain ⟨i, hi, rfl⟩ := Array.mem_mapIdx.mp hv
  cases w.literals[i] with
  | integer n => exact .integer n
  | string s => exact .string s
  | function name parameters names body => exact .function _

/-- A value that a run gives was among those of the machine. -/
theorem Outcome.result_proper {outcome : Outcome} {m : Machine} (hm : m.Proper) {v : Value}
    (h : outcome.result m = .ok v) : v.Proper := by
  cases outcome with
  | finished =>
    obtain rfl := Except.ok.inj h
    exact hm.getD m.sp
  | failed e => cases h
  | unfinished => cases h

namespace Session

/-- All values that are known in a session are proper. -/
structure Proper (s : Session) : Prop where
  sound : s.Sound
  globals : ∀ v, some v ∈ s.globals → v.Proper

theorem proper_start (limits : Limits) (steps : Nat) : (start limits steps).Proper :=
  ⟨sound_start limits steps, fun v hv => by simp [start] at hv⟩

/-- Evaluating a text gives a proper value, if any, and keeps the others proper. -/
theorem Proper.eval {s : Session} (h : s.Proper) (source : String) :
    (s.eval source).2.Proper ∧ ∀ v, (s.eval source).1 = .ok v → v.Proper := by
  have hsound := h.sound.eval source
  cases haccepts : s.accepts? source with
  | none =>
    obtain ⟨hsame, hresult⟩ := eval_of_rejected haccepts
    rw [hsame]
    refine ⟨h, fun v hv => ?_⟩
    rcases hresult with ⟨ds, hds⟩ | ⟨e, he⟩
    · cases hds.symm.trans hv
    · cases he.symm.trans hv
  | some accepted =>
    obtain ⟨p, c⟩ := accepted
    have hcarried := Carried.more h.sound.carried (accepts?_eq_some.mp haccepts).2
    have hstart : (Machine.start c.chunk s.globals s.limits).Proper :=
      Machine.proper_start hcarried.proper h.globals s.limits
    have hm := hstart.run s.steps
    rw [eval_of_accepted haccepts] at hsound ⊢
    exact ⟨⟨hsound, hm.globals⟩, fun v hv => Outcome.result_proper hm hv⟩

theorem Proper.act {s : Session} (h : s.Proper) (a : Action) : (s.act a).Proper := by
  cases a with
  | eval source => exact (h.eval source).1
  | reset => exact proper_start _ _

/-- **The values of programs are proper**, whatever their session has gone through. -/
theorem proper_of_eval (limits : Limits) (steps : Nat) (actions : List Action) (source : String)
    {v : Value} (h : ((after limits steps actions).eval source).1 = .ok v) : v.Proper :=
  ((after_of_act (proper_start limits steps) (fun _ a hs => hs.act a) actions).eval source).2 v h

end Session

end Monkey
