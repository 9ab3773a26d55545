/-!
Computations that have a state and may fail, and that keep the state when they
fail.  Walks and runs are of this kind: what was seen before an error is part
of the answer.

Such a computation is known by its outcome from each state, which is a result
or an error together with the state it left.  The lemmas say what the outcome
of every way to build a computation is, so that nothing else about the monad
is needed to reason about one.
-/

namespace Polish

/-- A computation with a state that survives failure. -/
abbrev Fallible (ε σ : Type) := ExceptT ε (StateM σ)

namespace Fallible

variable {ε σ α β : Type}

/-- How a computation ends from a state, and the state it leaves. -/
def outcome (x : Fallible ε σ α) (s : σ) : Except ε α × σ :=
  x.run.run s

@[simp] theorem outcome_pure (a : α) (s : σ) :
    outcome (pure a : Fallible ε σ α) s = (.ok a, s) := rfl

@[simp] theorem outcome_throw (e : ε) (s : σ) :
    outcome (throw e : Fallible ε σ α) s = (.error e, s) := rfl

@[simp] theorem outcome_get (s : σ) :
    outcome (get : Fallible ε σ σ) s = (.ok s, s) := rfl

@[simp] theorem outcome_set (s t : σ) :
    outcome (set t : Fallible ε σ PUnit) s = (.ok ⟨⟩, t) := rfl

@[simp] theorem outcome_modify (f : σ → σ) (s : σ) :
    outcome (modify f : Fallible ε σ PUnit) s = (.ok ⟨⟩, f s) := rfl

@[simp] theorem outcome_bind (x : Fallible ε σ α) (f : α → Fallible ε σ β) (s : σ) :
    outcome (x >>= f) s =
      match outcome x s with
      | (.error e, t) => (.error e, t)
      | (.ok a, t) => outcome (f a) t := by
  simp only [outcome, ExceptT.run_bind, StateT.run_bind]
  rcases x.run.run s with ⟨_ | _, t⟩ <;> rfl

@[simp] theorem outcome_tryCatch (x : Fallible ε σ α) (f : ε → Fallible ε σ α) (s : σ) :
    outcome (tryCatch x f) s =
      match outcome x s with
      | (.error e, t) => outcome (f e) t
      | (.ok a, t) => (.ok a, t) := by
  simp only [outcome, ExceptT.run_tryCatch, StateT.run_bind]
  rcases x.run.run s with ⟨_ | _, t⟩ <;> rfl

end Fallible

end Polish
