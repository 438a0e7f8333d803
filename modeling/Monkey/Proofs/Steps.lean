/-!
# Steps that can fail

Compiling, running code and evaluating a tree are all made of steps that change a state, and either
give a result or fail. A step that fails keeps what it did to the state before.
-/

namespace Monkey

variable {ε σ α β : Type}

/-- The second step starts from the state that the first one has left, unless that failed. -/
theorem run_bind (x : ExceptT ε (StateM σ) α) (f : α → ExceptT ε (StateM σ) β) (s : σ) :
    (x >>= f).run.run s = match x.run.run s with
      | (.ok a, s') => (f a).run.run s'
      | (.error e, s') => (.error e, s') := by
  change (match x s with | (a, s') => ExceptT.bindCont f a s') = match x s with
    | (.ok a, s') => f a s'
    | (.error e, s') => (.error e, s')
  cases x s with
  | mk r s' => cases r <;> rfl

end Monkey
