/-
**Streams that arrive in pieces.**

A source holds the items that are still to come and, poll by poll, what its next reads do: one read is pending, another
one gives a few items. `await` polls until the result is ready; `await_returns` says that it ends with a ready poll from
a state that keeps the invariant of the pending ones. A read of up to `n` items gives the first `n` items of what is to
come, however they arrive (`readUpTo_eq`).
-/

import Mathlib.Data.List.Basic
import Mathlib.Tactic.Cases

namespace Async

/-- The result of one poll. -/
inductive Poll (α : Type) where
  | pending
  | ready (value : α)
  deriving DecidableEq

variable {σ α : Type}

/-- Polls until the result is ready, at most `fuel` times. -/
def await (poll : σ → Poll α × σ) : Nat → σ → Option (α × σ)
  | 0, _ => none
  | fuel + 1, state =>
    match poll state with
    | (.ready value, state) => some (value, state)
    | (.pending, state) => await poll fuel state

/-- If each pending poll keeps an invariant and lowers a measure, the result arrives, and its poll
starts from a state that has the invariant. -/
theorem await_returns {poll : σ → Poll α × σ} {inv : σ → Prop} {measure : σ → Nat}
    (step : ∀ state next, inv state → poll state = (.pending, next) → inv next ∧ measure next < measure state) :
    ∀ fuel state, inv state → measure state < fuel →
      ∃ before value after, inv before ∧ poll before = (.ready value, after) ∧
        await poll fuel state = some (value, after) := by
  intro fuel
  induction fuel with
  | zero => intro state _ below; omega
  | succ fuel ih =>
    intro state holds below
    rw [await]
    cases polled : poll state with
    | mk result next =>
      cases result with
      | ready value => exact ⟨state, value, next, holds, polled, rfl⟩
      | pending =>
        obtain ⟨kept, less⟩ := step state next holds polled
        exact ih next kept (by omega)

/-! ### Sources -/

/-- A stream: the items that are still to come, and what the next polls do. `none` is a pending
poll, `some most` gives at most `most + 1` items; once the list is used up, a read gives as much as
there is room for. -/
structure Source (α : Type) where
  items : List α
  polls : List (Option Nat)

namespace Source

/-- One poll for up to `room` items. No item is the end of the stream, or no room. -/
def pollRead (source : Source α) (room : Nat) : Poll (List α) × Source α :=
  match source.polls with
  | [] => (.ready (source.items.take room), ⟨source.items.drop room, []⟩)
  | none :: polls => (.pending, ⟨source.items, polls⟩)
  | some most :: polls =>
    (.ready (source.items.take (min room (most + 1))), ⟨source.items.drop (min room (most + 1)), polls⟩)

theorem pollRead_pending {source next : Source α} (polled : source.pollRead room = (.pending, next)) :
    next.items = source.items ∧ next.polls.length < source.polls.length := by
  unfold pollRead at polled
  split at polled
  · simp at polled
  · next polls same =>
    obtain rfl : (⟨source.items, polls⟩ : Source α) = next := by simpa using polled
    simp [same]
  · simp at polled

/-- A ready read gives the next items, at most `room`, and none only at the end or with no room. -/
theorem pollRead_ready {source next : Source α} {room : Nat} (polled : source.pollRead room = (.ready got, next)) :
    source.items = got ++ next.items ∧ got.length ≤ room ∧ (got = [] → room = 0 ∨ source.items = []) ∧
      next.polls.length ≤ source.polls.length := by
  unfold pollRead at polled
  split at polled
  · next same =>
    obtain ⟨rfl, rfl⟩ : source.items.take room = got ∧ (⟨source.items.drop room, []⟩ : Source α) = next := by
      simpa using polled
    refine ⟨by simp, List.length_take_le _ _, fun none_read => List.take_eq_nil_iff.mp none_read, by simp⟩
  · simp at polled
  · next most polls same =>
    obtain ⟨rfl, rfl⟩ : source.items.take (min room (most + 1)) = got ∧
        (⟨source.items.drop (min room (most + 1)), polls⟩ : Source α) = next := by simpa using polled
    refine ⟨by simp, Nat.le_trans (List.length_take_le _ _) (Nat.min_le_left _ _), ?_, by simp [same]⟩
    intro none_read
    rcases List.take_eq_nil_iff.mp none_read with small | ended
    · exact .inl (by omega)
    · exact .inr ended

/-- One awaited read, from the polls to come. -/
def readFrom (items : List α) (room : Nat) : List (Option Nat) → List α × Source α
  | [] => (items.take room, ⟨items.drop room, []⟩)
  | none :: polls => readFrom items room polls
  | some most :: polls => (items.take (min room (most + 1)), ⟨items.drop (min room (most + 1)), polls⟩)

/-- One awaited read of up to `room` items. -/
def read (source : Source α) (room : Nat) : List α × Source α := readFrom source.items room source.polls

/-- `read` is what awaiting `pollRead` gives. -/
theorem await_pollRead (source : Source α) (room : Nat) :
    await (fun source : Source α => source.pollRead room) (source.polls.length + 1) source =
      some (source.read room) := by
  obtain ⟨items, polls⟩ := source
  induction polls with
  | nil => rfl
  | cons poll polls ih =>
    cases poll with
    | none => exact ih
    | some most => rfl

theorem read_eq (source : Source α) (room : Nat) : source.items = (source.read room).1 ++ (source.read room).2.items ∧
    (source.read room).1.length ≤ room ∧ ((source.read room).1 = [] → room = 0 ∨ source.items = []) := by
  obtain ⟨before, value, after, same, polled, awaited⟩ := @await_returns _ _
    (fun state : Source α => state.pollRead room) (fun state => state.items = source.items)
    (fun state => state.polls.length)
    (fun _ _ holds polled => ⟨(pollRead_pending polled).1.trans holds, (pollRead_pending polled).2⟩)
    (source.polls.length + 1) source rfl (Nat.lt_succ_self _)
  rw [await_pollRead, Option.some.injEq] at awaited
  obtain ⟨split, bounded, full, -⟩ := pollRead_ready polled
  rw [awaited, ← same]
  exact ⟨split, bounded, full⟩

/-- Reads until `room` items are read or the stream ends; each round reads one item or more. -/
def readLoop : (fuel room : Nat) → Source α → List α × Source α
  | 0, _, source => ([], source)
  | fuel + 1, room, source =>
    if room = 0 then ([], source)
    else
      let (got, source) := source.read room
      if got.isEmpty then ([], source)
      else
        let (more, source) := readLoop fuel (room - got.length) source
        (got ++ more, source)

/-- Reads `room` items, or up to the end of the stream. -/
def readUpTo (source : Source α) (room : Nat) : List α × Source α := readLoop room room source

/-- A full read takes what there is, up to its room. -/
theorem readLoop_eq (fuel room : Nat) (source : Source α) (enough : room ≤ fuel) :
    ∃ polls, readLoop fuel room source = (source.items.take room, ⟨source.items.drop room, polls⟩) := by
  induction fuel generalizing room source with
  | zero =>
    obtain rfl : room = 0 := by omega
    exact ⟨source.polls, rfl⟩
  | succ fuel ih =>
    rw [readLoop]
    split_ifs with empty
    · subst empty
      exact ⟨source.polls, rfl⟩
    · obtain ⟨joined, bounded, ended⟩ := source.read_eq room
      cases read : source.read room with
      | mk got next =>
        rw [read] at joined bounded ended
        simp only at joined bounded ended ⊢
        split_ifs with none_read
        · have done : source.items = [] := (ended (List.isEmpty_iff.mp none_read)).resolve_left empty
          have rest : next.items = [] := by simp_all
          exact ⟨next.polls, by rw [done, List.take_nil, List.drop_nil, ← rest]⟩
        · have some_read : 0 < got.length :=
            List.length_pos_of_ne_nil fun none => none_read (List.isEmpty_iff.mpr none)
          obtain ⟨polls, looped⟩ := ih (room - got.length) next (by omega)
          refine ⟨polls, ?_⟩
          rw [looped, joined, List.take_append, List.drop_append, List.take_of_length_le bounded,
            List.drop_eq_nil_of_le bounded, List.nil_append]

/-- **However a stream arrives**, reading `room` items of it gives its first `room` items and leaves
the others. -/
theorem readUpTo_eq (source : Source α) (room : Nat) :
    ∃ polls, source.readUpTo room = (source.items.take room, ⟨source.items.drop room, polls⟩) :=
  readLoop_eq room room source (Nat.le_refl room)

end Source

end Async
