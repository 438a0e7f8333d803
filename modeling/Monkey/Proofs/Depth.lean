import Monkey.Proofs.Meaning

/-!
# What programs mean does not depend on the depth

An evaluation that stays within its depth gives the same at every greater depth (`Resolved.eval_mono`).
So a program has one result, whatever depth it is evaluated at (`Resolved.Means`), unless no depth is
enough for it (`Resolved.Diverges`).

`Evaluating.Below` says of two evaluations that they give the same unless the first one goes too deep.
Every way of putting evaluations together keeps this, so it goes from calls to all trees.
-/

namespace Monkey

namespace Evaluating

variable {α β : Type}

theorem back_of_tooDeep {locals : String → Value} {result : Except Stop Value × Env}
    (h : result.1 = .error .tooDeep) : (back locals result).1 = .error .tooDeep := by
  obtain ⟨r, env⟩ := result
  obtain rfl : r = .error .tooDeep := h
  rfl

/-- What goes too deep does so whatever comes behind it. -/
theorem bind_of_tooDeep {x : Evaluating α} {f : α → Evaluating β} {env : Env}
    (h : (x.run.run env).1 = .error .tooDeep) : ((x >>= f).run.run env).1 = .error .tooDeep := by
  rw [run_bind]
  generalize x.run.run env = r at h
  obtain ⟨r, env'⟩ := r
  obtain rfl : r = .error .tooDeep := h
  rfl

/-- The evaluation `y` gives what `x` gives, unless `x` goes too deep. -/
def Below (x y : Evaluating α) : Prop :=
  ∀ env, (x.run.run env).1 = .error .tooDeep ∨ y.run.run env = x.run.run env

theorem Below.refl (x : Evaluating α) : x.Below x := fun _ => .inr rfl

theorem Below.trans {x y z : Evaluating α} (h : x.Below y) (h' : y.Below z) : x.Below z := by
  intro env
  rcases h env with hx | hxy
  · exact .inl hx
  · rw [← hxy]
    exact h' env

theorem Below.bind {x y : Evaluating α} {f g : α → Evaluating β} (h : x.Below y)
    (hfg : ∀ a, (f a).Below (g a)) : (x >>= f).Below (y >>= g) := by
  intro env
  rcases h env with hx | hxy
  · exact .inl (bind_of_tooDeep hx)
  · rw [run_bind, run_bind, hxy]
    generalize x.run.run env = r
    obtain ⟨r, env'⟩ := r
    cases r with
    | ok a => exact hfg a env'
    | error stop => exact .inr rfl

theorem Below.inside {x y : Evaluating Value} (h : x.Below y) (locals : String → Value) :
    (inside locals x).Below (inside locals y) := by
  intro env
  rw [run_inside, run_inside]
  rcases h { env with locals } with hx | hxy
  · exact .inl (back_of_tooDeep hx)
  · rw [hxy]
    exact .inr rfl

end Evaluating

open Evaluating

section

variable {call call' : Function → List Value → Evaluating Value}

mutual

/-- The value of a term does not depend on calls that go too deep. -/
theorem Term.eval_below (hcall : ∀ f vs, (call f vs).Below (call' f vs)) (t : Term) :
    (t.eval call).Below (t.eval call') := by
  cases t with
  | load s => exact .refl _
  | boolean b => exact .refl _
  | integer i n => exact .refl _
  | string i s => exact .refl _
  | function i k name => exact .refl _
  | unary op t => exact (Term.eval_below hcall t).bind fun v => .refl _
  | binary op t u =>
    refine (Term.eval_below hcall t).bind fun v => ?_
    exact (Term.eval_below hcall u).bind fun w => .refl _
  | cond t yes no =>
    refine (Term.eval_below hcall t).bind fun v => ?_
    cases v.isTruthy with
    | true => exact Command.value_below hcall yes
    | false => exact Command.value_below hcall no
  | call t ts =>
    refine (Term.eval_below hcall t).bind fun v => ?_
    refine (Term.evalAll_below hcall ts).bind fun vs => ?_
    cases v with
    | function f => exact hcall f vs
    | _ => exact .refl _
  | array ts => exact (Term.evalAll_below hcall ts).bind fun vs => .refl _
  | hash ts => exact (Term.evalAll_below hcall ts).bind fun vs => .refl _
  | index t u =>
    refine (Term.eval_below hcall t).bind fun v => ?_
    exact (Term.eval_below hcall u).bind fun w => .refl _
termination_by structural t

theorem Term.evalAll_below (hcall : ∀ f vs, (call f vs).Below (call' f vs)) (ts : List Term) :
    (Term.evalAll call ts).Below (Term.evalAll call' ts) := by
  cases ts with
  | nil => exact .refl _
  | cons t ts =>
    refine (Term.eval_below hcall t).bind fun v => ?_
    exact (Term.evalAll_below hcall ts).bind fun vs => .refl _
termination_by structural ts

theorem Command.run_below (hcall : ∀ f vs, (call f vs).Below (call' f vs)) (c : Command) :
    (c.run call).Below (c.run call') := by
  cases c with
  | store s t => exact (Term.eval_below hcall t).bind fun v => .refl _
  | ret t => exact (Term.eval_below hcall t).bind fun v => .refl _
  | drop t => exact Term.eval_below hcall t
termination_by structural c

theorem Command.value_below (hcall : ∀ f vs, (call f vs).Below (call' f vs)) (cs : List Command) :
    (Command.value call cs).Below (Command.value call' cs) := by
  cases cs with
  | nil => exact .refl _
  | cons c cs =>
    have hsequence : (c.run call >>= fun _ => Command.value call cs).Below
        (c.run call' >>= fun _ => Command.value call' cs) :=
      (Command.run_below hcall c).bind fun _ => Command.value_below hcall cs
    cases c with
    | drop t =>
      cases cs with
      | nil => exact Term.eval_below hcall t
      | cons d ds => exact hsequence
    | store s t => exact hsequence
    | ret t => exact hsequence
termination_by structural cs

end

theorem Command.last_below (hcall : ∀ f vs, (call f vs).Below (call' f vs)) (v : Value)
    (cs : List Command) : (Command.last call v cs).Below (Command.last call' v cs) := by
  induction cs generalizing v with
  | nil => exact .refl _
  | cons c cs ih => exact (Command.run_below hcall c).bind fun w => ih w

end

/-- One more call within each other is enough room for what had room before. -/
theorem Evaluating.call_below (literals : Array Literal) (depth : Nat) (f : Function)
    (vs : List Value) : (call literals depth f vs).Below (call literals (depth + 1) f vs) := by
  induction depth generalizing f vs with
  | zero =>
    by_cases hf : ∃ name parameters names body,
        literals[f.id]? = some (.function name parameters names body)
    · obtain ⟨name, parameters, names, body, hf⟩ := hf
      rw [call_of_literal hf, call_of_literal hf]
      split
      · exact .refl _
      · exact fun env => .inl rfl
    · rw [call_of_no_literal hf, call_of_no_literal hf]
      exact .refl _
  | succ depth ih =>
    by_cases hf : ∃ name parameters names body,
        literals[f.id]? = some (.function name parameters names body)
    · obtain ⟨name, parameters, names, body, hf⟩ := hf
      rw [call_of_literal hf, call_of_literal hf]
      split
      · exact .refl _
      · exact (Command.value_below ih body).inside _
    · rw [call_of_no_literal hf, call_of_no_literal hf]
      exact .refl _

/-- **A greater depth does not change the result.** -/
theorem Resolved.eval_mono (r : Resolved) {depth depth' : Nat} (h : depth ≤ depth') :
    (r.eval depth).1 = .error .tooDeep ∨ r.eval depth' = r.eval depth := by
  have hcall : ∀ f vs, (call r.literals depth f vs).Below (call r.literals depth' f vs) := by
    intro f vs
    induction h with
    | refl => exact .refl _
    | step _ ih => exact ih.trans (call_below r.literals _ f vs)
  exact (Command.last_below hcall .null r.commands).inside _ _

/-! ### Results without a depth -/

namespace Resolved

/-- The program has the result, at some depth and so at every greater one. -/
def Means (r : Resolved) (result : Except Stop Value × Env) : Prop :=
  result.1 ≠ .error .tooDeep ∧ ∃ depth, r.eval depth = result

/-- The program makes more calls within each other than any number. -/
def Diverges (r : Resolved) : Prop := ∀ depth, (r.eval depth).1 = .error .tooDeep

variable {r : Resolved} {result result' : Except Stop Value × Env}

theorem means_eval {depth : Nat} (h : (r.eval depth).1 ≠ .error .tooDeep) : r.Means (r.eval depth) :=
  ⟨h, depth, rfl⟩

/-- From some depth on the evaluation gives what the program means. -/
theorem Means.exists_eval_eq (h : r.Means result) :
    ∃ depth, ∀ depth', depth ≤ depth' → r.eval depth' = result := by
  obtain ⟨hdeep, depth, rfl⟩ := h
  exact ⟨depth, fun depth' hle => (r.eval_mono hle).resolve_left hdeep⟩

theorem Means.unique (h : r.Means result) (h' : r.Means result') : result = result' := by
  obtain ⟨depth, hdepth⟩ := h.exists_eval_eq
  obtain ⟨depth', hdepth'⟩ := h'.exists_eval_eq
  rw [← hdepth _ (Nat.le_max_left depth depth'), hdepth' _ (Nat.le_max_right depth depth')]

theorem Means.not_diverges (h : r.Means result) : ¬r.Diverges := by
  obtain ⟨hdeep, depth, rfl⟩ := h
  exact fun hdiverges => hdeep (hdiverges depth)

theorem diverges_or_means (r : Resolved) : r.Diverges ∨ ∃ result, r.Means result := by
  by_cases h : r.Diverges
  · exact .inl h
  · obtain ⟨depth, hdepth⟩ := Classical.not_forall.mp h
    exact .inr ⟨_, means_eval hdepth⟩

end Resolved

end Monkey
