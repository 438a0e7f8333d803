import Monkey.Proofs.Robust
import Monkey.Proofs.Termination

/-!
# The room that compiled code needs

How many slots of the stack the run of a compiled program uses depends on how many calls are open:
there is a number of slots that is enough for each of them (`Carried.run_slots`). So a machine with
enough slots does not run out of room as long as the number of its calls is bounded.

Forward code carries out each of its instructions at most once, and an instruction puts at most one
value on the stack. So the values of a call, beside its local slots, are no more than the bytes of
code that are behind it. The invariant `Climbs` says so of all open calls, from the lowest one up.
-/

namespace Monkey

/-! ### Slots of a function -/

/-- The slots that a call of the function takes at once. -/
def Function.slots (f : Function) : Nat := max f.locals f.parameters

/-- The slots that a call of the function never gets beyond. -/
def Function.room (f : Function) : Nat := f.slots + f.code.size

/-- Forward code that `n` slots are enough for. -/
def Function.FitsIn (n : Nat) (f : Function) : Prop := f.Forward ∧ f.room ≤ n

theorem Function.FitsIn.mono {f : Function} {n m : Nat} (h : f.FitsIn n) (hle : n ≤ m) : f.FitsIn m :=
  ⟨h.1, Nat.le_trans h.2 hle⟩

namespace Value

mutual

theorem All.exists_fitsIn (v : Value) (h : v.All Function.Forward) :
    ∃ n, v.All (Function.FitsIn n) := by
  cases v with
  | integer n => exact ⟨0, trivial⟩
  | boolean b => exact ⟨0, trivial⟩
  | string s => exact ⟨0, trivial⟩
  | array vs => exact AllIn.exists_fitsIn vs h
  | hash es => exact AllUnder.exists_fitsIn es h
  | function f => exact ⟨f.room, h, Nat.le_refl _⟩
  | null => exact ⟨0, trivial⟩
termination_by structural v

/-- There is a number of slots that is enough for all functions among some values. -/
theorem AllIn.exists_fitsIn (vs : List Value) (h : AllIn Function.Forward vs) :
    ∃ n, AllIn (Function.FitsIn n) vs := by
  cases vs with
  | nil => exact ⟨0, trivial⟩
  | cons v vs =>
    obtain ⟨n, hn⟩ := All.exists_fitsIn v h.1
    obtain ⟨m, hm⟩ := AllIn.exists_fitsIn vs h.2
    exact ⟨max n m, All.mono (fun _ hf => hf.mono (Nat.le_max_left n m)) v hn,
      AllIn.mono (fun _ hf => hf.mono (Nat.le_max_right n m)) vs hm⟩
termination_by structural vs

theorem AllUnder.exists_fitsIn (es : List (Key × Value)) (h : AllUnder Function.Forward es) :
    ∃ n, AllUnder (Function.FitsIn n) es := by
  cases es with
  | nil => exact ⟨0, trivial⟩
  | cons e es =>
    cases e with
    | mk k v =>
      obtain ⟨n, hn⟩ := All.exists_fitsIn v h.1
      obtain ⟨m, hm⟩ := AllUnder.exists_fitsIn es h.2
      exact ⟨max n m, All.mono (fun _ hf => hf.mono (Nat.le_max_left n m)) v hn,
        AllUnder.mono (fun _ hf => hf.mono (Nat.le_max_right n m)) es hm⟩
termination_by structural es

end

end Value

/-! ### Slots of open calls -/

/-- The slot of the stack that the call has not got beyond up to its next instruction. -/
def Frame.reach (f : Frame) : Nat := f.base + f.function.slots + min f.ip f.function.code.size

/-- The calls stand on top of each other, and none of them has got beyond its reach. The stack is in use
up to `sp`. -/
inductive Climbs (n : Nat) : Array Frame → Nat → Prop
  | done : Climbs n #[] 0
  | call {fs : Array Frame} {f : Frame} {sp : Nat} : Climbs n fs f.base →
      (fs.size ≠ 0 → 1 ≤ f.base) → f.function.room ≤ n → f.function.code.ForwardFrom f.ip →
      sp ≤ f.reach → Climbs n (fs.push f) sp

namespace Climbs

variable {n sp : Nat} {fs : Array Frame} {f : Frame}

theorem cases {frames : Array Frame} (h : Climbs n frames sp) :
    frames = #[] ∧ sp = 0 ∨ ∃ fs f, frames = fs.push f ∧ Climbs n fs f.base ∧
      (fs.size ≠ 0 → 1 ≤ f.base) ∧ f.function.room ≤ n ∧ f.function.code.ForwardFrom f.ip ∧
      sp ≤ f.reach := by
  cases h with
  | done => exact .inl ⟨rfl, rfl⟩
  | call hbelow hbase hroom hforward hsp =>
    exact .inr ⟨_, _, rfl, hbelow, hbase, hroom, hforward, hsp⟩

/-- With so many calls, only so many slots are in use. -/
theorem sp_le {frames : Array Frame} (h : Climbs n frames sp) : sp ≤ frames.size * n := by
  induction h with
  | done => exact Nat.zero_le _
  | @call fs f sp _ _ hroom _ hsp ih =>
    rw [Frame.reach] at hsp
    rw [Function.room] at hroom
    rw [Array.size_push, Nat.succ_mul]
    have hle := Nat.min_le_right f.ip f.function.code.size
    omega

/-- The call on top goes on in its code. -/
theorem goto (hbelow : Climbs n fs f.base) (hbase : fs.size ≠ 0 → 1 ≤ f.base)
    (hroom : f.function.room ≤ n) {ip : Nat} (hforward : f.function.code.ForwardFrom ip)
    (hip : f.ip < ip) (hlt : f.ip < f.function.code.size) (hsp : sp ≤ f.reach + 1) :
    Climbs n (fs.push { f with ip }) sp := by
  refine .call hbelow hbase hroom hforward ?_
  -- the next instruction stands further on, and there was one at the last place
  unfold Frame.reach at hsp ⊢
  dsimp only
  omega

end Climbs

namespace Machine

variable {n : Nat} {m : Machine}

/-- A step runs out of room when the stack is smaller than its calls and one more need, or when all
frames are in use. -/
def Cramped (n : Nat) (m : Machine) : Prop :=
  m.stack.size ≤ (m.frames.size + 1) * n ∨ m.maxFrames ≤ m.frames.size

/-- A fault for want of room comes from a machine that is cramped. -/
theorem cramped_of_possible {e : Fault} {f : Frame} {op : Opcode} {operand : Nat}
    (hm : m.Holds (Function.FitsIn n)) (hsp : m.sp ≤ m.frames.size * n)
    (hbase : f.base ≤ m.frames.size * n) (h : e.Possible m f op operand) (he : e.isOverflow) :
    m.Cramped n := by
  rw [Cramped, Nat.succ_mul]
  cases e with
  | stackOverflow =>
    left
    rcases h with hfull | hfull | ⟨g, hg, hfull⟩
    · omega
    · omega
    · obtain ⟨-, hroom⟩ : g.FitsIn n := hm.stack _ hg
      rw [Function.room, Function.slots] at hroom
      omega
  | frameOverflow limit => exact .inr h
  | _ => cases he

/-- **Steps stay within the room of the calls**, and a step that runs out of room is cramped. -/
theorem climbs_steps (hm : m.Holds (Function.FitsIn n)) (h : Climbs n m.frames m.sp) :
    m.Steps (fun m' => m'.Holds (Function.FitsIn n) ∧ m.Kept m' ∧ Climbs n m'.frames m'.sp)
      (fun e _ => e.isOverflow → m.Cramped n) (fun _ => True) := by
  have hle := h.sp_le
  rcases h.cases with ⟨hframes, -⟩ | ⟨fs, f, hframes, hbelow, hbase, hroom, hforward, hsp⟩
  · exact (steps_done hframes).mpr trivial
  have hsize : m.frames.size = fs.size + 1 := by rw [hframes, Array.size_push]
  have hbaseLe : f.base ≤ m.frames.size * n := by
    have hbelowLe := hbelow.sp_le
    rw [hsize, Nat.succ_mul]
    omega
  rcases hforward.cases with hge | ⟨op, operand, next, hlt, hfetch, hnext, hnextForward, hjump⟩
  · refine (steps_ended hm hframes hge).mono ?_ ?_ fun _ _ => trivial
    · rintro m' ⟨hm', hkept, hfs, hframes', hsp'⟩
      rw [hframes', hsp', Nat.sub_add_cancel (hbase hfs)]
      exact ⟨hm', hkept, hbelow⟩
    · rintro e m' ⟨-, -, -, hfull⟩ -
      refine .inl ?_
      rw [Nat.succ_mul]
      omega
  · refine (steps_fetched hm hframes hlt hfetch).mono ?_ ?_ fun _ h => h.elim
    · rintro m' ⟨hm', hkept, hmoves⟩
      refine ⟨hm', hkept, ?_⟩
      cases hmoves with
      | next _ hframes' _ hsp' =>
        rw [hframes']
        refine hbelow.goto hbase hroom hnextForward hnext hlt ?_
        have hpushes : op.pushes ≤ 1 := by cases op <;> decide
        dsimp only at hsp'
        omega
      | jump hop hframes' _ hsp' =>
        obtain ⟨hip, htarget⟩ := hjump (by rcases hop with rfl | rfl <;> rfl)
        rw [hframes']
        refine hbelow.goto hbase hroom htarget hip hlt ?_
        dsimp only at hsp'
        omega
      | call g _ hg _ hoperands hframes' hsp' =>
        -- the caller is left behind at its next instruction, with the callee on top of it
        dsimp only at hoperands hframes' hsp'
        have hcaller : Climbs n (fs.push { f with ip := next }) (m.sp - operand) :=
          hbelow.goto hbase hroom hnextForward hnext hlt (by omega)
        rw [hframes', hsp']
        refine .call hcaller (fun _ => by dsimp only; omega) hg.2 hg.1 ?_
        exact Nat.le_add_right _ _
      | leave _ hframes' hsp' =>
        rw [hframes', hsp']
        split
        · next hfs =>
          obtain rfl : fs = #[] := Array.size_eq_zero_iff.mp hfs
          exact .done
        · next hfs =>
          rw [Nat.sub_add_cancel (hbase hfs)]
          exact hbelow
    · rintro e m' ⟨-, -, hpossible⟩ he
      exact cramped_of_possible hm hle hbaseLe hpossible he

end Machine

/-! ### Compiled programs -/

/-- There is a number of slots that is enough for all functions that a compiled program starts with. -/
theorem Carried.exists_fitsIn {s : Scope} {k : Array Value} {p : Program} {c : Compilation}
    (h : Carried s k) (hadd : (Compilation.resume s k).add p = (.ok (), c))
    {globals : Array (Option Value)} (hglobals : ∀ v, some v ∈ globals → v.All Function.Compiled) :
    ∃ n, (Machine.mainFrame c.chunk.code).function.FitsIn n ∧
      ∀ limits, (Machine.start c.chunk globals limits).Holds (Function.FitsIn n) := by
  let values := .function (Machine.mainFrame c.chunk.code).function ::
    (c.constants.toList ++ globals.toList.filterMap id)
  have hforward : Value.AllIn Function.Forward values := by
    refine Value.allIn_iff.mpr (List.forall_mem_cons.mpr ⟨h.code_forward hadd, fun v hv => ?_⟩)
    rcases List.mem_append.mp hv with hv | hv
    · exact (Carried.all_compiled (.more h hadd) v (Array.mem_toList_iff.mp hv)).forward
    · obtain ⟨v?, hv?, rfl⟩ := List.mem_filterMap.mp hv
      exact (hglobals v (Array.mem_toList_iff.mp hv?)).forward
  obtain ⟨n, hn⟩ := Value.AllIn.exists_fitsIn values hforward
  obtain ⟨hmain, hvalues⟩ := List.forall_mem_cons.mp (Value.allIn_iff.mp hn)
  refine ⟨n, hmain, fun limits => .start (fun v hv => hvalues v ?_) (fun v hv => hvalues v ?_) limits⟩
  · exact List.mem_append_left _ (Array.mem_toList_iff.mpr hv)
  · exact List.mem_append_right _ (List.mem_filterMap.mpr ⟨_, Array.mem_toList_iff.mpr hv, rfl⟩)

/-- **A compiled program needs only so many slots for each call**, whatever the limits are. As far as a run
gets, it uses no more than these for the calls that are open. It runs out of room only when the stack is
too small for these calls and one more, or when there is no frame for one more. -/
theorem Carried.run_slots {s : Scope} {k : Array Value} {p : Program} {c : Compilation}
    (h : Carried s k) (hadd : (Compilation.resume s k).add p = (.ok (), c))
    {globals : Array (Option Value)} (hglobals : ∀ v, some v ∈ globals → v.All Function.Compiled) :
    ∃ slots, ∀ limits n m, (Machine.start c.chunk globals limits).run n = (.unfinished, m) →
      m.sp ≤ m.frames.size * slots ∧
      ∀ e m', m.step = (some (.failed e), m') → e.fault.isOverflow →
        limits.stackSize ≤ (m.frames.size + 1) * slots ∨ limits.maxFrames ≤ m.frames.size := by
  obtain ⟨slots, hmain, hholds⟩ := h.exists_fitsIn hadd hglobals
  refine ⟨slots, fun limits n m hrun => ?_⟩
  let Q (m : Machine) : Prop := m.Holds (Function.FitsIn slots) ∧
    (Machine.start c.chunk globals limits).Kept m ∧ Climbs slots m.frames m.sp
  have hmainClimbs : Climbs slots (Array.push #[] (Machine.mainFrame c.chunk.code)) 0 :=
    .call .done (fun hne => absurd rfl hne) hmain.2 hmain.1 (Nat.zero_le _)
  have hstart : Q (Machine.start c.chunk globals limits) := ⟨hholds limits, .refl _, hmainClimbs⟩
  have hstep : ∀ m, Q m → m.Steps Q
      (fun e m' => ∀ site ip, Outcome.failed ⟨e, site, ip⟩ = .unfinished → Q m')
      (fun m' => Outcome.finished = .unfinished → Q m') := by
    rintro m ⟨hm, hkept, hclimbs⟩
    refine (Machine.climbs_steps hm hclimbs).mono ?_ (fun _ _ _ _ _ => nofun) fun _ _ => nofun
    rintro m' ⟨hm', hkept', hclimbs'⟩
    exact ⟨hm', hkept.trans hkept', hclimbs'⟩
  have hend := Machine.run_spec (R := fun outcome m => outcome = .unfinished → Q m) hstep
    (fun m hm _ => hm) hstart n
  rw [hrun] at hend
  obtain ⟨hm, hkept, hclimbs⟩ := hend rfl
  refine ⟨hclimbs.sp_le, fun e m' hfails he => ?_⟩
  have hcramped : m.Cramped slots := (Machine.climbs_steps hm hclimbs).of_fails hfails he
  rw [Machine.Cramped, hkept.stackSize, hkept.maxFrames] at hcramped
  simpa [Machine.start] using hcramped

end Monkey
