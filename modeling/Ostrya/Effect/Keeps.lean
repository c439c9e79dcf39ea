/-
**Programs that can fail, and what they keep.**

A program is an `EStateM`: it returns a value or an error, and a new state in both cases. `Keeps inv pre act
post` says that from a state with `inv` and `pre` the program ends in a state with `inv`, whatever happens,
and with `post` if it returns.
-/

import Mathlib.Logic.Basic

namespace Effect

variable {ε σ α β : Type}

/-- The state after a run. -/
def stateAfter (act : EStateM ε σ α) (s : σ) : σ :=
  match act s with
  | .ok _ s' => s'
  | .error _ s' => s'

/-- A run keeps `inv`, and a run that returns ends in `post`. -/
def Keeps (inv pre : σ → Prop) (act : EStateM ε σ α) (post : α → σ → Prop) : Prop :=
  ∀ s, inv s → pre s → inv (stateAfter act s) ∧ ∀ a s', act s = .ok a s' → post a s'

namespace Keeps

variable {inv pre : σ → Prop} {post : α → σ → Prop}

variable {act : EStateM ε σ α}

variable {s : σ}

theorem ok (keeps : Keeps inv pre act post) (holds : inv s)
    (start : pre s) (run : act s = .ok a s') : inv s' ∧ post a s' := by
  have result := keeps s holds start
  unfold stateAfter at result
  rw [run] at result
  exact ⟨result.1, result.2 a s' rfl⟩

theorem error (keeps : Keeps inv pre act post) (holds : inv s)
    (start : pre s) (run : act s = .error e s') : inv s' := by
  have result := keeps s holds start
  unfold stateAfter at result
  rw [run] at result
  exact result.1

theorem after (keeps : Keeps inv pre act fun _ _ => True) (holds : inv s) (start : pre s) : inv (stateAfter act s) :=
  (keeps s holds start).1

theorem bind (first : Keeps inv pre act mid) (rest : ∀ a, Keeps inv (mid a) (next a) last) :
    Keeps inv pre (act >>= next) last := by
  intro s holds start
  have unfolded : (act >>= next) s = EStateM.bind act next s := rfl
  unfold stateAfter
  rw [unfolded]
  unfold EStateM.bind
  cases run : act s with
  | ok a s' =>
    obtain ⟨kept, there⟩ := first.ok holds start run
    exact rest a s' kept there
  | error e s' =>
    refine ⟨first.error holds start run, fun b s₂ same => ?_⟩
    cases same

theorem andThen (first : Keeps inv pre act fun _ _ => True)
    (rest : ∀ a, Keeps inv (fun _ => True) (next a) last) : Keeps inv pre (act >>= next) last :=
  first.bind rest

end Keeps

end Effect
