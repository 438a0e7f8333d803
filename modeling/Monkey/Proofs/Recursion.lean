import Monkey.Proofs.Correctness
import Monkey.Proofs.Depth
import Monkey.Proofs.Resources
import Monkey.Proofs.Room

/-!
# Recursion without an end

The runs of compiled programs end, also when their functions call each other without end: then they end
with too little room. There are only these two cases (`Carried.settles_or_bottomless`). Either a
program comes to one end under all limits with enough room (`Chunk.Settles`), or its calls go deeper
than any number, when they are given room (`Chunk.Bottomless`), and then it runs out of it under all
limits (`Machine.run_bottomless`). It cannot run out of slots in any other way, since it needs only so many
for each call.

On the side of what programs mean, the machine gives what a program means, if it has the room, and a
program that goes too deep at every depth runs out of room under all limits (`Program.compile_means`).
A function that only calls itself is such a program (`Program.bottomless_selfCalling`).
-/

namespace Monkey

/-! ### Runs under other limits -/

namespace Machine

variable {m : Machine}

/-- A run that has ended stays as it is with more steps. -/
theorem run_of_le {n n' : Nat} (h : (m.run n).1 ≠ .unfinished) (hle : n ≤ n') :
    m.run n' = m.run n := by
  induction n generalizing m n' with
  | zero => exact absurd rfl h
  | succ n ih =>
    cases n' with
    | zero => exact absurd hle (Nat.not_succ_le_zero n)
    | succ n' =>
      rw [run] at h ⊢
      rw [run]
      cases hstep : m.step with
      | mk outcome? m₁ =>
        rw [hstep] at h
        cases outcome? with
        | none => exact ih h (Nat.le_of_succ_le_succ hle)
        | some o => rfl

/-- Two runs of a machine that have ended are the same. -/
theorem run_eq_run {n n' : Nat} (h : (m.run n).1 ≠ .unfinished) (h' : (m.run n').1 ≠ .unfinished) :
    m.run n = m.run n' := by
  rcases Nat.le_total n n' with hle | hle
  · exact (run_of_le h hle).symm
  · exact run_of_le h' hle

/-- Code that gets to a machine which needs more room than there is under other limits runs out of it
there. -/
theorem run_overflows (chunk : Chunk) (globals : Array (Option Value)) {A B : Limits}
    (hA : A.check = .ok ()) (hB : B.check = .ok ()) (hglobals : B.globalsSize = A.globalsSize)
    {n : Nat} (hrun : (start chunk globals A).run n = (.unfinished, m))
    (hmore : B.stackSize < m.sp ∨ B.maxFrames < m.frames.size) :
    ∃ e m', (start chunk globals B).run n = (.failed e, m') ∧ e.fault.isOverflow := by
  have hgoes : ∀ e, Outcome.unfinished = .failed e → ¬e.fault.isOverflow := fun _ h => nomatch h
  rcases run_compare chunk globals hA hB hglobals hrun hgoes with ⟨hall, -⟩ | ⟨-, hfull⟩
  · have hmem := run_mem_visited n (start chunk globals A)
    rw [hrun] at hmem
    obtain ⟨hslots, hcalls⟩ := hall m hmem
    omega
  · exact hfull

end Machine

/-! ### One end, or none -/

/-- The code comes to one end, and to one value, under all limits with enough slots and calls. With fewer it
runs out of room. -/
def Chunk.Settles (chunk : Chunk) (globals : Array (Option Value)) (globalsSize : Nat) : Prop :=
  ∃ n outcome v slots calls, outcome ≠ .unfinished ∧
    (∀ e, outcome = .failed e → ¬e.fault.isOverflow) ∧
    ∀ limits, limits.check = .ok () → limits.globalsSize = globalsSize →
      ∃ outcome' m, (Machine.start chunk globals limits).run n = (outcome', m) ∧
        if slots ≤ limits.stackSize ∧ calls ≤ limits.maxFrames then
          outcome' = outcome ∧ m.lastPopped = v
        else ∃ e, outcome' = .failed e ∧ e.fault.isOverflow

/-- The calls of the code go deeper than any number, when they are given room. -/
def Chunk.Bottomless (chunk : Chunk) (globals : Array (Option Value)) (globalsSize : Nat) : Prop :=
  ∀ calls, ∃ limits n m, limits.check = .ok () ∧ limits.globalsSize = globalsSize ∧
    (Machine.start chunk globals limits).run n = (.unfinished, m) ∧ calls < m.frames.size

/-- **Calls without end run out of room**, under all limits. -/
theorem Machine.run_bottomless {chunk : Chunk} {globals : Array (Option Value)} {limits : Limits}
    (h : chunk.Bottomless globals limits.globalsSize) (hlimits : limits.check = .ok ()) :
    ∃ n e m, (start chunk globals limits).run n = (.failed e, m) ∧ e.fault.isOverflow := by
  obtain ⟨larger, n, m, hlarger, hglobals, hrun, hcalls⟩ := h limits.maxFrames
  obtain ⟨e, m', hfails, he⟩ :=
    run_overflows chunk globals hlarger hlimits hglobals.symm hrun (.inr hcalls)
  exact ⟨n, e, m', hfails, he⟩

theorem Limits.check_eq_ok {limits : Limits} (hstack : 0 < limits.stackSize)
    (hglobals : 0 < limits.globalsSize ∧ limits.globalsSize ≤ 65536) (hframes : 0 < limits.maxFrames) :
    limits.check = .ok () := by
  rw [check, if_neg (by omega), if_neg (by omega), if_neg (by omega), if_neg (by omega)]

/-- Code that settles never runs out of room under limits that allow for enough of it. -/
theorem Chunk.Settles.exists_limits {chunk : Chunk} {globals : Array (Option Value)} {globalsSize : Nat}
    (h : chunk.Settles globals globalsSize) (hsize : 0 < globalsSize ∧ globalsSize ≤ 65536) :
    ∃ limits, limits.check = .ok () ∧ limits.globalsSize = globalsSize ∧
      ∀ n e m, (Machine.start chunk globals limits).run n = (.failed e, m) → ¬e.fault.isOverflow := by
  obtain ⟨n, outcome, v, slots, calls, hend, hroom, hsettles⟩ := h
  have hlimits : Limits.check ⟨slots + 1, globalsSize, calls + 1⟩ = .ok () :=
    Limits.check_eq_ok (Nat.succ_pos slots) hsize (Nat.succ_pos calls)
  obtain ⟨outcome', m, hrun, hsame⟩ := hsettles _ hlimits rfl
  rw [if_pos ⟨Nat.le_succ slots, Nat.le_succ calls⟩] at hsame
  obtain ⟨rfl, -⟩ := hsame
  refine ⟨_, hlimits, rfl, fun n' e m' hfails => hroom e ?_⟩
  -- the run that has failed is the one that has ended
  have heq := Machine.run_eq_run (by rw [hrun]; exact hend) (by rw [hfails]; nofun)
  rw [hrun, hfails] at heq
  exact (Prod.mk.inj heq).1

/-- Code that settles is not bottomless. -/
theorem Chunk.Settles.not_bottomless {chunk : Chunk} {globals : Array (Option Value)} {globalsSize : Nat}
    (h : chunk.Settles globals globalsSize) (hsize : 0 < globalsSize ∧ globalsSize ≤ 65536) :
    ¬chunk.Bottomless globals globalsSize := by
  obtain ⟨limits, hlimits, rfl, hroom⟩ := h.exists_limits hsize
  intro hbottomless
  obtain ⟨n, e, m, hfails, he⟩ := Machine.run_bottomless hbottomless hlimits
  exact hroom n e m hfails he

/-- **A compiled program settles, or its calls have no end.** -/
theorem Carried.settles_or_bottomless {s : Scope} {k : Array Value} {p : Program} {c : Compilation}
    (h : Carried s k) (hadd : (Compilation.resume s k).add p = (.ok (), c))
    {globals : Array (Option Value)} (hglobals : ∀ v, some v ∈ globals → v.All Function.Compiled)
    {globalsSize : Nat} (hsize : 0 < globalsSize ∧ globalsSize ≤ 65536) :
    c.chunk.Settles globals globalsSize ∨ c.chunk.Bottomless globals globalsSize := by
  by_cases hbottomless : c.chunk.Bottomless globals globalsSize
  · exact .inr hbottomless
  left
  -- as many calls as it makes at most, and the slots for them, are enough room
  obtain ⟨calls, hcalls⟩ := not_forall.mp hbottomless
  obtain ⟨slots, hslots⟩ := h.run_slots hadd hglobals
  let limits : Limits := ⟨(calls + 1) * slots + 1, globalsSize, calls + 1⟩
  have hlimits : limits.check = .ok () :=
    Limits.check_eq_ok (Nat.succ_pos _) hsize (Nat.succ_pos calls)
  obtain ⟨n, hn⟩ := h.halts hadd limits hglobals
  rcases hrun : (Machine.start c.chunk globals limits).run n with ⟨outcome, m⟩
  rw [hrun] at hn
  have hroom : ∀ e, outcome = .failed e → ¬e.fault.isOverflow := by
    rintro e rfl he
    obtain ⟨j, hj, -, hstep⟩ :=
      Machine.run_failed_of_step (Q := fun _ => True) (fun _ _ _ _ => trivial) trivial hrun
    have hunfinished := Machine.run_eq_of_fst hj
    have hle : ((Machine.start c.chunk globals limits).run j).2.frames.size ≤ calls :=
      Nat.le_of_not_lt fun hlt => hcalls ⟨limits, j, _, hlimits, rfl, hunfinished, hlt⟩
    have hstack := Nat.mul_le_mul_right slots (Nat.succ_le_succ hle)
    rcases (hslots limits j _ hunfinished).2 e m hstep he with hfull | hfull
    · exact absurd (Nat.le_trans hfull hstack) (Nat.not_succ_le_self _)
    · exact absurd (Nat.le_trans hfull hle) (Nat.not_succ_le_self _)
  obtain ⟨usedSlots, usedCalls, huses⟩ :=
    Machine.exists_uses n (Machine.start c.chunk globals limits)
  refine ⟨n, outcome, m.lastPopped, usedSlots, usedCalls, hn, hroom, fun B hB hsizeB => ?_⟩
  rcases Machine.run_compare c.chunk globals hlimits hB hsizeB hrun hroom with
    ⟨hall, m', hrun', hlast, -⟩ | ⟨hnot, e, m', hrun', he⟩
  · refine ⟨outcome, m', hrun', ?_⟩
    rw [if_pos (huses.le_iff.mpr hall)]
    exact ⟨rfl, hlast⟩
  · refine ⟨.failed e, m', hrun', ?_⟩
    rw [if_neg fun hfits => hnot (huses.le_iff.mp hfits)]
    exact ⟨e, rfl, he⟩

/-! ### What programs mean -/

/-- A machine that agrees with an evaluation which goes too deep has not ended, or it has run out of room. -/
theorem Outcome.Agrees.of_tooDeep {names : Numbering String} {result : Except Stop Value × Env}
    {o : Outcome} {m : Machine} (h : o.Agrees names result m) (hdeep : result.1 = .error .tooDeep) :
    o = .unfinished ∨ ∃ e, o = .failed e ∧ e.fault.isOverflow := by
  cases o with
  | unfinished => exact .inl rfl
  | finished =>
    have hvalue := h.1
    rw [hdeep] at hvalue
    cases hvalue
  | failed e =>
    rcases h with he | ⟨hfault, -⟩
    · exact .inr ⟨e, rfl, he⟩
    · rw [hdeep] at hfault
      cases hfault

/-- **A machine gives what its program means.** The run of a compiled program ends. When the program has a
result, whatever depth it takes, the run agrees with it, or runs out of room. When no depth is enough for
it, the run runs out of room. -/
theorem Program.compile_means {p : Program} {chunk : Chunk} (hcompile : p.compile = .ok chunk)
    (hdistinct : ∀ f ∈ p.functions, (f.1.map Ident.name).Nodup) :
    ∃ r, p.resolve = some r ∧ ∀ limits, limits.globalsSize = 65536 →
      (Machine.start chunk #[] limits).Halts ∧
      (∀ result, r.Means result → ∀ n,
        ((Machine.start chunk #[] limits).run n).1.Agrees r.names result
          ((Machine.start chunk #[] limits).run n).2) ∧
      (r.Diverges → ∃ n e m,
        (Machine.start chunk #[] limits).run n = (.failed e, m) ∧ e.fault.isOverflow) := by
  obtain ⟨r, hresolve, hmachine⟩ := simulates_of_compile hcompile hdistinct
  refine ⟨r, hresolve, fun limits hlimits => ?_⟩
  obtain ⟨S, hnames, hsimulates⟩ := hmachine limits hlimits
  have hlarge : limits.maxFrames ≤ limits.maxFrames + 1 := Nat.le_succ _
  have hhalts : (Machine.start chunk #[] limits).Halts :=
    (hsimulates limits.maxFrames hlarge).halts fun _ => Evaluated.ends
  refine ⟨hhalts, fun result hmeans n => ?_, fun hdiverges => ?_⟩
  · -- a depth that is enough for the program and for the frames
    obtain ⟨depth, hdepth⟩ := hmeans.exists_eval_eq
    rw [← hnames, ← hdepth _ (Nat.le_max_left depth limits.maxFrames)]
    exact (hsimulates _ (Nat.le_succ_of_le (Nat.le_max_right depth _))).agrees n
  · obtain ⟨n, hn⟩ := hhalts
    have hagrees := (hsimulates limits.maxFrames hlarge).agrees n
    rcases hagrees.of_tooDeep (hdiverges _) with hunfinished | ⟨e, hfails, he⟩
    · exact absurd hunfinished hn
    · exact ⟨n, e, _, Machine.run_eq_of_fst hfails, he⟩

/-- A program that goes too deep at every depth has calls without end. -/
theorem Program.bottomless_of_diverges {p : Program} {chunk : Chunk} (hcompile : p.compile = .ok chunk)
    (hdistinct : ∀ f ∈ p.functions, (f.1.map Ident.name).Nodup) {r : Resolved}
    (hresolve : p.resolve = some r) (hdiverges : r.Diverges) : chunk.Bottomless #[] 65536 := by
  obtain ⟨r', hresolve', hmeans⟩ := compile_means hcompile hdistinct
  obtain rfl := Option.some.inj (hresolve.symm.trans hresolve')
  obtain ⟨c, hadd, rfl⟩ := Program.exists_of_compile hcompile
  have hnone : ∀ v, some v ∈ (#[] : Array (Option Value)) → v.All Function.Compiled := by simp
  refine (Carried.nothing.settles_or_bottomless hadd hnone (by decide)).resolve_left fun hsettles => ?_
  obtain ⟨limits, -, hglobals, hroom⟩ := hsettles.exists_limits (by decide)
  obtain ⟨n, e, m, hfails, he⟩ := (hmeans limits hglobals).2.2 hdiverges
  exact hroom n e m hfails he

/-! ### A function that only calls itself -/

/-- The statement `x()`. -/
def Stmt.callOf (id : Ident) : Stmt := .expr default (.call default (.name id) [])

/-- The program `let x = fn() { x() }; x()`. -/
def Program.selfCalling (id : Ident) : Program where
  statements := [.bind default id (.function default [] (.mk default [.callOf id])), .callOf id]

/-- The symbol of a name that is bound before all others. -/
def Ident.firstGlobal (id : Ident) : Symbol := ⟨id.name, .global, 0⟩

/-- The statement `x()`, resolved. -/
def Command.callOf (id : Ident) : Command := .drop (.call (.load id.firstGlobal) [])

/-- The program, resolved. -/
def Resolved.selfCalling (id : Ident) : Resolved where
  commands := [.store id.firstGlobal (.function 0 0 (some id.name)), .callOf id]
  literals := #[.function (some id.name) [] .empty [.callOf id]]
  names := .add .empty id.name

/-- The value of the name. -/
def Function.selfCalling (id : Ident) : Function := ⟨0, #[], 0, 0, some id.name⟩

theorem Scope.find?_define_empty (id : Ident) :
    (empty.define id.name).find? id.name = some id.firstGlobal := by
  rw [empty, define, find?, names, Numbering.find?_add_empty]
  rfl

theorem Scope.resolve_enclose_define_empty (id : Ident) :
    (empty.define id.name).enclose.resolve id.name = some id.firstGlobal := by
  have hinner : (empty.define id.name).enclose.find? id.name = none := by
    rw [enclose, find?, names, Numbering.find?_empty, Option.map_none]
  have houter : (empty.define id.name).resolve id.name = some id.firstGlobal :=
    find?_define_empty id
  rw [enclose] at hinner ⊢
  rw [resolve, hinner, houter]
  rfl

theorem Stmt.resolve_callOf {id : Ident} {w : Walk}
    (h : w.scope.resolve id.name = some id.firstGlobal) :
    (Stmt.callOf id).resolve w = some ([.callOf id], w) := by
  have hname : (Expr.name id).resolve w = some (.load id.firstGlobal, w) :=
    Expr.resolve_name.mpr ⟨_, h, rfl, rfl⟩
  have hcall : (Expr.call default (.name id) []).resolve w =
      some (.call (.load id.firstGlobal) [], w) :=
    Expr.resolve_call.mpr ⟨_, _, hname, _, Expr.resolveAll_nil.mpr ⟨rfl, rfl⟩, rfl⟩
  exact Stmt.resolve_expr.mpr ⟨_, hcall, rfl⟩

open Resolving

theorem Program.resolve_selfCalling (id : Ident) :
    (selfCalling id).resolve = some (.selfCalling id) := by
  have hbody : (Block.mk default [.callOf id]).resolve ⟨(Scope.empty.define id.name).enclose, #[]⟩ =
      some ([.callOf id], ⟨(Scope.empty.define id.name).enclose, #[]⟩) :=
    Stmt.resolveAll_cons.mpr ⟨_, _, Stmt.resolve_callOf (Scope.resolve_enclose_define_empty id), _,
      Stmt.resolveAll_nil.mpr ⟨rfl, rfl⟩, rfl⟩
  have hfunction : function (some id.name) [] (Block.mk default [.callOf id]).resolve
      ⟨Scope.empty.define id.name, #[]⟩ = some (.function 0 0 (some id.name),
        ⟨Scope.empty.define id.name, #[.function (some id.name) [] .empty [.callOf id]]⟩) :=
    function_eq_some.mpr ⟨_, _, _, rfl, hbody, rfl, rfl⟩
  have hdefine : define id.name ⟨.empty, #[]⟩ =
      some (id.firstGlobal, ⟨Scope.empty.define id.name, #[]⟩) :=
    define_eq_some.mpr ⟨Scope.find?_define_empty id, rfl⟩
  have hall : Stmt.resolveAll (selfCalling id).statements ⟨.empty, #[]⟩ =
      some ([.store id.firstGlobal (.function 0 0 (some id.name)), .callOf id],
        ⟨Scope.empty.define id.name, #[.function (some id.name) [] .empty [.callOf id]]⟩) :=
    Stmt.resolveAll_cons.mpr ⟨_, _, store_eq_some.mpr ⟨_, _, hdefine, _, hfunction, rfl⟩, _,
      Stmt.resolveAll_cons.mpr ⟨_, _, Stmt.resolve_callOf (Scope.find?_define_empty id), _,
        Stmt.resolveAll_nil.mpr ⟨rfl, rfl⟩, rfl⟩, rfl⟩
  rw [resolve, StateT.run, hall]
  rfl

open Evaluating

/-- The call of the name is that of the function. -/
theorem Command.run_callOf {id : Ident} {env : Env}
    {call : Function → List Value → Evaluating Value}
    (h : env.globals id.name = some (.function (.selfCalling id))) :
    ((Command.callOf id).run call).run.run env = (call (.selfCalling id) []).run.run env := by
  have hload : (load id.firstGlobal).run.run env = (.ok (.function (.selfCalling id)), env) := by
    rw [run_load_global rfl, show env.globals id.firstGlobal.name = _ from h]
  rw [Command.callOf, Command.run, Term.eval, run_bind, Term.eval, hload]
  rfl

/-- However deep the calls may go, the program goes deeper. -/
theorem Resolved.diverges_selfCalling (id : Ident) : (Resolved.selfCalling id).Diverges := by
  intro depth
  let call := call (Resolved.selfCalling id).literals
  have hcall : ∀ env : Env, env.globals id.name = some (.function (.selfCalling id)) →
      (((Command.callOf id).run (call depth)).run.run env).1 = .error .tooDeep := by
    induction depth with
    | zero =>
      intro env henv
      rw [Command.run_callOf henv]
      rfl
    | succ depth ih =>
      intro env henv
      rw [Command.run_callOf henv]
      -- the body of the function is the call
      exact back_of_tooDeep (ih { env with locals := argumentsOf [] [] } henv)
  let bound : Env :=
    ⟨fun x => if x = id.name then some (.function (.selfCalling id)) else none, fun _ => .null⟩
  have heval : (Resolved.selfCalling id).eval depth =
      back (fun _ => .null) ((do
        let v ← (Command.callOf id).run (call depth)
        Command.last (call depth) v []).run.run bound) := rfl
  rw [heval]
  exact back_of_tooDeep (bind_of_tooDeep (hcall bound (if_pos rfl)))

namespace Compiling

theorem gives_callOf {id : Ident} {c : Compilation}
    (h : c.scope.resolve id.name = some id.firstGlobal) :
    Gives (Stmt.callOf id).compile c () { c with
      buffer := ((c.buffer.append .getGlobal [16, 0, 0]).append .call [21, 0]).append .pop [2] } := by
  have hload : Gives (load id) c () { c with buffer := c.buffer.append .getGlobal [16, 0, 0] } :=
    gives_load.mpr ⟨_, h, show Gives (emit .getGlobal [0]) c () _ from rfl⟩
  have hcall : Gives (Expr.call default (.name id) []).compile c () { c with
      buffer := (c.buffer.append .getGlobal [16, 0, 0]).append .call [21, 0] } :=
    gives_bind.mpr ⟨(), _, hload, rfl⟩
  exact gives_bind.mpr ⟨(), _, hcall, rfl⟩

end Compiling

open Compiling

theorem Program.exists_compile_selfCalling (id : Ident) :
    ∃ chunk, (selfCalling id).compile = .ok chunk := by
  have hdefine : Gives (define id) .empty id.firstGlobal
      (.resume (Scope.empty.define id.name) #[]) :=
    gives_define.mpr ⟨Scope.find?_define_empty id, show 0 < maxGlobals by decide, rfl⟩
  have hbody : Gives (do
      (Block.mk default [.callOf id]).compile
      finishBody) (Compilation.resume (Scope.empty.define id.name) #[]).enter () _ :=
    gives_bind.mpr ⟨(), _, gives_bind.mpr ⟨(), _,
      gives_callOf (Scope.resolve_enclose_define_empty id), rfl⟩, rfl⟩
  have hfunction : Gives (function (some id.name) [] do
      (Block.mk default [.callOf id]).compile
      finishBody) (.resume (Scope.empty.define id.name) #[]) () _ :=
    gives_function.mpr ⟨_, _, rfl, hbody, rfl⟩
  have hall : Gives (Stmt.compileAll (selfCalling id).statements) .empty () _ :=
    gives_bind.mpr ⟨(), _, gives_bind.mpr ⟨_, _, hdefine, gives_bind.mpr ⟨(), _, hfunction, rfl⟩⟩,
      gives_bind.mpr ⟨(), _, gives_callOf (Scope.find?_define_empty id), rfl⟩⟩
  have hadd : Compilation.empty.add (selfCalling id) = _ := hall
  rw [compile, hadd]
  exact ⟨_, rfl⟩

/-- **A function that only calls itself** has calls without end. -/
theorem Program.bottomless_selfCalling (id : Ident) :
    ∃ chunk, (selfCalling id).compile = .ok chunk ∧ chunk.Bottomless #[] 65536 := by
  obtain ⟨chunk, hchunk⟩ := exists_compile_selfCalling id
  have hdistinct : ∀ f ∈ (selfCalling id).functions, (f.1.map Ident.name).Nodup :=
    List.forall_mem_singleton.mpr .nil
  exact ⟨chunk, hchunk, bottomless_of_diverges hchunk hdistinct (resolve_selfCalling id)
    (Resolved.diverges_selfCalling id)⟩

end Monkey
