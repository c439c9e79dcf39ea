/-
**Loops with fuel.**

A loop over a state: it ends where `done` holds, fails where a round fails, and runs out where the fuel or a
round of its own runs out (`none`). A property of whole runs comes from what one round keeps
(`loop_invariant`); that a loop returns comes from a measure that each round lowers (`loop_returns`).
-/

import Mathlib.Order.Basic

namespace Search

variable {σ ε : Type} (done : σ → Bool) (round : σ → Option (Except ε σ))

def loop : Nat → σ → Option (Except ε σ)
  | 0, state => if done state then some (.ok state) else none
  | fuel + 1, state =>
    if done state then some (.ok state)
    else
      match round state with
      | none => none
      | some (.error fault) => some (.error fault)
      | some (.ok next) => loop fuel next

variable {done round} {Inv : σ → Prop} {state last : σ} {fuel : Nat}

theorem loop_of_done (ended : done state = true) : loop done round fuel state = some (.ok state) := by
  cases fuel <;> simp [loop, ended]

theorem loop_invariant
    (keeps : ∀ state next, Inv state → done state = false → round state = some (.ok next) → Inv next)
    (start : Inv state) (run : loop done round fuel state = some (.ok last)) : Inv last ∧ done last = true := by
  induction fuel generalizing state with
  | zero =>
    unfold loop at run
    split_ifs at run
    cases run
    exact ⟨start, ‹_›⟩
  | succ fuel ih =>
    unfold loop at run
    split at run
    · cases run
      exact ⟨start, ‹_›⟩
    · next going =>
      split at run
      · cases run
      · cases run
      · next next step => exact ih (keeps state next start (by simpa using going) step) run

theorem loop_returns (measure : σ → Nat)
    (lowers : ∀ state, Inv state → done state = false → ∃ result, round state = some result ∧
      ∀ next, result = .ok next → Inv next ∧ measure next < measure state)
    (start : Inv state) (enough : measure state < fuel) : ∃ result, loop done round fuel state = some result := by
  induction fuel generalizing state with
  | zero => cases enough
  | succ fuel ih =>
    cases ended : done state with
    | true => exact ⟨_, loop_of_done ended⟩
    | false =>
      obtain ⟨result, step, less⟩ := lowers state start ended
      unfold loop
      rw [ended, step]
      cases result with
      | error fault => exact ⟨_, rfl⟩
      | ok next =>
        obtain ⟨kept, less⟩ := less next rfl
        exact ih kept (by omega)

/-- A loop whose rounds succeed succeeds. -/
theorem loop_succeeds (succeeds : ∀ state, Inv state → done state = false → ∀ result, round state = some result →
      ∃ next, result = .ok next ∧ Inv next) (start : Inv state) (run : loop done round fuel state = some result) :
    ∃ last, result = .ok last := by
  induction fuel generalizing state with
  | zero =>
    unfold loop at run
    split_ifs at run
    cases run
    exact ⟨_, rfl⟩
  | succ fuel ih =>
    unfold loop at run
    split at run
    · cases run
      exact ⟨_, rfl⟩
    · next going =>
      have ran := succeeds state start (by simpa using going)
      split at run
      · cases run
      · next fault step =>
        obtain ⟨next, impossible, -⟩ := ran _ step
        cases impossible
      · next next step =>
        obtain ⟨_, same, kept⟩ := ran _ step
        cases same
        exact ih kept run

end Search
