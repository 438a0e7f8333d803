import Monkey.Proofs.Effects
import Monkey.Proofs.Erasure
import Monkey.Proofs.Generation
import Monkey.Proofs.Meaning
import Monkey.Proofs.Scoped

/-!
# A machine follows an evaluation

`Simulates` says that a machine does what an evaluation says: it comes to a state that represents the
result, or it raises the fault that the evaluation ends with. It may also run out of room, for that is
something the evaluation knows nothing of. A simulation of one evaluation after another is put
together from the two (`Simulates.bind`). What an instruction has to do with an evaluation is said by
`Executing.Follows`.
-/

namespace Monkey

open Executing

/-! ### Runs that lead somewhere -/

namespace Machine

/-- The machine comes to a state with `Q`, unless it stops with a fault before, and then `E` holds. -/
inductive Leads (Q : Machine → Prop) (E : Fault → Machine → Prop) : Machine → Prop
  | now {m : Machine} : Q m → Leads Q E m
  | step {m m' : Machine} : m.step = (none, m') → Leads Q E m' → Leads Q E m
  | fault {m m' : Machine} {e : RuntimeError} : m.step = (some (.failed e), m') → E e.fault m' →
      Leads Q E m

variable {Q Q' F : Machine → Prop} {E E' : Fault → Machine → Prop} {m : Machine}

theorem leads_of_steps (h : m.Steps (Leads Q E) E fun _ => False) : m.Leads Q E := by
  unfold Steps at h
  split at h
  · next hstep => exact .step hstep h
  · next hstep => exact .fault hstep h
  · exact h.elim
  · exact h.elim

theorem Leads.bind (h : m.Leads Q E) (hQ : ∀ m', Q m' → m'.Leads Q' E')
    (hE : ∀ e m', E e m' → E' e m') : m.Leads Q' E' := by
  induction h with
  | now h => exact hQ _ h
  | step hstep _ ih => exact .step hstep ih
  | fault hstep h => exact .fault hstep (hE _ _ h)

/-- A run that leads to the end of the program stops there, if its steps suffice. -/
theorem Leads.run (h : m.Leads Q E)
    (hQ : ∀ m', Q m' → ∃ m'', m'.step = (some .finished, m'') ∧ F m'') (n : Nat) :
    match m.run n with
    | (.unfinished, _) => True
    | (.finished, m') => F m'
    | (.failed e, m') => E e.fault m' := by
  induction h generalizing n with
  | now h =>
    obtain ⟨m'', hstep, hF⟩ := hQ _ h
    cases n with
    | zero => trivial
    | succ n =>
      rw [Machine.run, hstep]
      exact hF
  | step hstep _ ih =>
    cases n with
    | zero => trivial
    | succ n =>
      rw [Machine.run, hstep]
      exact ih n
  | fault hstep h =>
    cases n with
    | zero => trivial
    | succ n =>
      rw [Machine.run, hstep]
      exact h

/-- Some steps do suffice. -/
theorem Leads.halts (h : m.Leads Q E)
    (hQ : ∀ m', Q m' → ∃ m'', m'.step = (some .finished, m'') ∧ F m'') : m.Halts := by
  induction h with
  | now h =>
    obtain ⟨m'', hstep, -⟩ := hQ _ h
    exact ⟨1, by rw [Machine.run, hstep]; simp⟩
  | step hstep _ ih =>
    obtain ⟨n, hn⟩ := ih
    exact ⟨n + 1, by rwa [Machine.run, hstep]⟩
  | fault hstep _ => exact ⟨1, by rw [Machine.run, hstep]; simp⟩

end Machine

/-! ### Settings -/

/-- What stays the same while a program runs: its literals, its global names, and how many frames can
be open. -/
structure Setting where
  literals : Array Literal
  names : Numbering String
  maxFrames : Nat

/-- What the code of a program relies on. -/
structure Setting.Sound (S : Setting) : Prop where
  dense : S.names.Dense
  inScope : ∀ (i : Nat) l, S.literals[i]? = some l → l.Scoped S.names S.literals
  fits : ∀ (i : Nat) name parameters names body,
    S.literals[i]? = some (.function name parameters names body) →
      Piece.FitsAll 0 (Command.bodyPieces body)
  distinct : ∀ (i : Nat) name parameters names body,
    S.literals[i]? = some (.function name parameters names body) → parameters.Nodup

/-- The global slots hold the values of the global names. -/
def Env.Agrees (names : Numbering String) (env : Env) (globals : Array (Option Value)) : Prop :=
  ∀ x i, names.find? x = some i → (globals.getD i none).map Value.erase = env.globals x

/-- Binding a global name. -/
theorem Env.Agrees.store {names : Numbering String} {env : Env} {globals : Array (Option Value)}
    {x : String} {slot : Nat} (h : env.Agrees names globals) (hnames : names.Dense)
    (hslot : names.find? x = some slot) (hlt : slot < globals.size) (v : Value) :
    Env.Agrees names { env with globals := fun y => if y = x then some v.erase else env.globals y }
      (globals.setIfInBounds slot (some v)) := by
  intro y i hy
  rw [Array.getD_eq_getD_getElem?]
  dsimp only
  by_cases hname : y = x
  · subst hname
    obtain rfl : slot = i := Option.some.inj (hslot.symm.trans hy)
    rw [if_pos rfl, Array.getElem?_setIfInBounds_self_of_lt hlt]
    rfl
  · -- another name has another slot
    have hne : slot ≠ i := by
      rintro rfl
      exact hname (hnames.injective hy hslot)
    rw [if_neg hname, ← h y i hy, Array.getElem?_setIfInBounds_ne hne,
      Array.getD_eq_getD_getElem?]

namespace Machine

/-- A machine for the setting, whatever it is doing. -/
structure Ready (S : Setting) (m : Machine) : Prop where
  holds : m.Holds fun f => Value.function f ∈ Literal.values S.literals
  constants : m.constants = Literal.values S.literals
  globalsSize : m.globals.size = 65536
  maxFrames : m.maxFrames = S.maxFrames

/-- The global names have the same values in the machine and in the environment. -/
structure Represents (S : Setting) (env : Env) (m : Machine) : Prop where
  ready : m.Ready S
  globals : env.Agrees S.names m.globals

/-- Moving between frames, or taking operands off, does not change what is represented. -/
theorem Represents.move {S : Setting} {env : Env} {m : Machine} (h : m.Represents S env) (sp : Nat)
    (frames : Array Frame) : Machine.Represents S env { m with sp, frames } :=
  ⟨⟨h.ready.holds.move _ _, h.ready.constants, h.ready.globalsSize, h.ready.maxFrames⟩, h.globals⟩

/-- The local names are no matter. -/
theorem Represents.congr {S : Setting} {env env' : Env} {m : Machine} (h : m.Represents S env)
    (heq : env'.globals = env.globals) : m.Represents S env' :=
  ⟨h.ready, fun x i hx => by rw [heq]; exact h.globals x i hx⟩

theorem Ready.kept {S : Setting} {m m' : Machine} (h : m.Ready S)
    (hholds : m'.Holds fun f => Value.function f ∈ Literal.values S.literals) (hkept : m.Kept m') :
    m'.Ready S :=
  ⟨hholds, hkept.constants.trans h.constants, hkept.globalsSize.trans h.globalsSize,
    hkept.maxFrames.trans h.maxFrames⟩

end Machine

/-! ### Simulations -/

section

variable {S : Setting} {α β : Type}

/-- The machine represents the result of an evaluation: `Q` for a value, `R` for a `return`. -/
def Evaluated (r : Except Stop α × Env) (Q : α → Env → Machine → Prop)
    (R : Value → Env → Machine → Prop) (m : Machine) : Prop :=
  match r with
  | (.ok a, env) => Q a env m
  | (.error (.ret v), env) => R v env m
  | _ => False

/-- The machine has too little room, or the fault is that of the evaluation. -/
def Faulted (S : Setting) (r : Except Stop α × Env) (e : Fault) (m : Machine) : Prop :=
  e.isOverflow ∨ r.1 = .error (.fault e) ∧ m.Represents S r.2

/-- The machine does what the evaluation with the result `r` says. -/
def Simulates (S : Setting) (m : Machine) (r : Except Stop α × Env)
    (Q : α → Env → Machine → Prop) (R : Value → Env → Machine → Prop) : Prop :=
  m.Leads (Evaluated r Q R) (Faulted S r)

variable {m : Machine} {env : Env} {Q : α → Env → Machine → Prop}
  {R : Value → Env → Machine → Prop}

theorem Simulates.ok {a : α} (h : Q a env m) : Simulates S m (.ok a, env) Q R := .now h

/-- What a simulation of one result says about another result: the machine goes on from where it has
come to, and the faults are the same. -/
theorem Simulates.transfer {r : Except Stop α × Env} {r' : Except Stop β × Env}
    {Q' : β → Env → Machine → Prop} {R' : Value → Env → Machine → Prop} (h : Simulates S m r Q R)
    (hQ : ∀ a env', r = (.ok a, env') → ∀ m', Q a env' m' → Simulates S m' r' Q' R')
    (hR : ∀ v env', r = (.error (.ret v), env') → ∀ m', R v env' m' → Simulates S m' r' Q' R')
    (hE : ∀ e env', r = (.error (.fault e), env') →
      r'.1 = .error (.fault e) ∧ r'.2.globals = env'.globals) : Simulates S m r' Q' R' := by
  refine Machine.Leads.bind h (fun m' hm' => ?_) fun e m' he => ?_
  · obtain ⟨r, env'⟩ := r
    cases r with
    | ok a => exact hQ a env' rfl m' hm'
    | error stop =>
      cases stop with
      | ret v => exact hR v env' rfl m' hm'
      | fault e => exact hm'.elim
      | tooDeep => exact hm'.elim
  · rcases he with he | ⟨hfault, hm'⟩
    · exact .inl he
    · obtain ⟨hfault', hglobals⟩ := hE e r.2 (Prod.ext hfault rfl)
      exact .inr ⟨hfault', hm'.congr hglobals⟩

/-- The machine goes on to a state that represents the result as well. -/
theorem Simulates.onward {r : Except Stop α × Env} {Q' : α → Env → Machine → Prop}
    {R' : Value → Env → Machine → Prop} (h : Simulates S m r Q R)
    (hQ : ∀ a env' m', Q a env' m' → Simulates S m' (.ok a, env') Q' R')
    (hR : ∀ v env' m', R v env' m' → Simulates S m' (.error (.ret v), env') Q' R') :
    Simulates S m r Q' R' := by
  refine h.transfer ?_ ?_ fun e env' hr => by rw [hr]; exact ⟨rfl, rfl⟩
  · rintro a env' rfl m' hm'
    exact hQ a env' m' hm'
  · rintro v env' rfl m' hm'
    exact hR v env' m' hm'

/-- **One evaluation after another**: the second machine starts where the first one has come to. -/
theorem Simulates.bind {x : Evaluating α} {f : α → Evaluating β} {Q' : β → Env → Machine → Prop}
    (hx : Simulates S m (x.run.run env) Q R)
    (hf : ∀ a env' m', Q a env' m' → Simulates S m' ((f a).run.run env') Q' R) :
    Simulates S m ((x >>= f).run.run env) Q' R := by
  rw [run_bind]
  refine hx.transfer ?_ ?_ fun e env' hr => by rw [hr]; exact ⟨rfl, rfl⟩
  · intro a env' hr m' hm'
    rw [hr]
    exact hf a env' m' hm'
  · intro v env' hr m' hm'
    rw [hr]
    exact .now hm'

/-- **The body of a call** gives its value to the caller, who keeps its local names. -/
theorem Simulates.inside {locals : String → Value} {body : Evaluating Value}
    {Q Q' R' : Value → Env → Machine → Prop}
    (h : Simulates S m (body.run.run { env with locals }) Q Q)
    (hQ : ∀ v env' m', Q v env' m' → Q' v { env' with locals := env.locals } m') :
    Simulates S m ((Evaluating.inside locals body).run.run env) Q' R' := by
  rw [Evaluating.run_inside]
  refine h.transfer ?_ ?_ fun e env' hr => by rw [hr]; exact ⟨rfl, rfl⟩
  · intro v env' hr m' hm'
    rw [hr]
    exact .ok (hQ v env' m' hm')
  · intro v env' hr m' hm'
    rw [hr]
    exact .ok (hQ v env' m' hm')

/-- The step `x` of the machine does what the evaluation with the result `r` says, or what its first
part says. That the machine is one for the setting may be relied on. -/
def Executing.Follows (x : Executing Unit) (S : Setting) (m : Machine) (r : Except Stop α × Env)
    (Q : α → Env → Machine → Prop) (R : Value → Env → Machine → Prop) : Prop :=
  x.Ensures m (fun _ m' => m'.Ready S → Simulates S m' r Q R)
    (fun e m' => m'.Ready S → Faulted S r e m')

theorem Executing.Follows.onward {x : Executing Unit} {r : Except Stop α × Env}
    {Q' : α → Env → Machine → Prop} {R' : Value → Env → Machine → Prop} (h : x.Follows S m r Q R)
    (hQ : ∀ a env' m', Q a env' m' → Simulates S m' (.ok a, env') Q' R')
    (hR : ∀ v env' m', R v env' m' → Simulates S m' (.error (.ret v), env') Q' R') :
    x.Follows S m r Q' R' :=
  h.mono (fun _ _ hm' hready => (hm' hready).onward hQ hR) fun _ _ he => he

end

end Monkey
