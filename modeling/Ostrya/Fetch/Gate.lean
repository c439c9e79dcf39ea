/-
**The request gate** (`gate.rs`).

A permit goes to a waiter before the waiter runs, so a future that is dropped can own one that no
one took.

* `World.HandsOn`: a permit goes to the first waiter, or is free.
* `handsOn_pass`: so does `hand_off`.
* `gate_conserves`: after every run, no permit and no wake-up is lost, and each permit that is
  released or dropped with its future is handed on.
-/

import Mathlib.Data.List.MinMax
import Mathlib.Data.List.Nodup
import Mathlib.Data.Prod.Lex

namespace Ostrya.Fetch

/-- `WaitKey`. -/
structure WaitKey where
  priority : Nat
  seq : Nat
  deriving DecidableEq

/-- The order of the queue: highest priority first, then arrival. -/
def WaitKey.rank (key : WaitKey) : ℕᵒᵈ ×ₗ ℕ := toLex (OrderDual.toDual key.priority, key.seq)

/-- Futures by their keys, each with a waker. -/
abbrev Queue (Waker : Type) := List (WaitKey × Waker)

variable {Waker : Type}

/-- `State`. `nextSeq` is a `u64` of the source; a run of `n` events leaves it at `n` at most. -/
structure State (Waker : Type) where
  free : Nat
  nextSeq : Nat := 0
  waiting : Queue Waker := []
  granted : List WaitKey := []

/-- `hand_off`, with the waiter to wake. -/
def State.handOff (state : State Waker) : State Waker × Option (WaitKey × Waker) :=
  match state.waiting.argmin (·.1.rank) with
  | some first =>
    ({ state with
        waiting := state.waiting.filter (·.1 ≠ first.1)
        granted := first.1 :: state.granted }, some first)
  | none => ({ state with free := state.free + 1 }, none)

/-- The waiter comes first: none has a higher priority, nor the same one and an earlier number. -/
def Queue.First (queue : Queue Waker) (first : WaitKey × Waker) : Prop :=
  first ∈ queue ∧ ∀ other ∈ queue, other.1.priority < first.1.priority ∨
    other.1.priority = first.1.priority ∧ first.1.seq ≤ other.1.seq

theorem State.handOff_spec (state : State Waker) :
    (state.waiting = [] ∧ state.handOff = ({ state with free := state.free + 1 }, none)) ∨
    ∃ first, state.waiting.First first ∧ state.handOff =
      ({ state with
          waiting := state.waiting.filter (·.1 ≠ first.1)
          granted := first.1 :: state.granted }, some first) := by
  unfold State.handOff
  cases least : state.waiting.argmin (·.1.rank) with
  | none => exact .inl ⟨List.argmin_eq_none.mp least, rfl⟩
  | some first =>
    refine .inr ⟨first, ⟨List.argmin_mem least, fun other inside => ?_⟩, rfl⟩
    have before := Prod.Lex.le_iff.mp (List.le_of_mem_argmin inside least)
    exact before.imp_right fun equal => ⟨equal.1.symm, equal.2⟩

/-- The gate with its live permits, the live futures that have a key with the waker of their last
poll, the wakes that a call is about to make, and the wakes since the last poll. -/
structure World (Waker : Type) extends State Waker where
  permits : Nat := 0
  futures : Queue Waker := []
  waking : Queue Waker := []
  woken : Queue Waker := []

/-- The polls of a future with no key and of one with a key, the drops of a future and of a permit,
and a wake. -/
inductive Event (Waker : Type) where
  | join (priority : Nat) (waker : Waker)
  | poll (key : WaitKey) (waker : Waker)
  | drop (key : WaitKey)
  | release
  | wake (key : WaitKey)

namespace World

/-- `hand_off`, up to the wake. -/
def pass (world : World Waker) : World Waker :=
  { world with toState := world.handOff.1, waking := world.handOff.2.toList ++ world.waking }

/-- The future of the key has a new waker. -/
def renew (key : WaitKey) (waker : Waker) (queue : Queue Waker) : Queue Waker :=
  queue.map fun future => if future.1 = key then (key, waker) else future

/-- The future of the key is gone. -/
def leave (world : World Waker) (key : WaitKey) : World Waker :=
  { world with
    waiting := world.waiting.filter (·.1 ≠ key)
    granted := world.granted.erase key
    futures := world.futures.filter (·.1 ≠ key) }

def step (world : World Waker) : Event Waker → World Waker
  | .join priority waker =>
    if 0 < world.free then { world with free := world.free - 1, permits := world.permits + 1 }
    else
      let future := (⟨priority, world.nextSeq⟩, waker)
      { world with
        nextSeq := world.nextSeq + 1
        waiting := future :: world.waiting
        futures := future :: world.futures }
  | .poll key waker =>
    if key ∉ world.futures.map Prod.fst then world
    else if key ∈ world.granted then
      { world with
        granted := world.granted.erase key
        permits := world.permits + 1
        futures := world.futures.filter (·.1 ≠ key) }
    else
      { world with
        waiting := renew key waker world.waiting
        futures := renew key waker world.futures
        woken := world.woken.filter (·.1 ≠ key) }
  | .drop key => if key ∈ world.granted then (world.leave key).pass else world.leave key
  | .release => if world.permits = 0 then world else { world with permits := world.permits - 1 }.pass
  | .wake key =>
    { world with
      waking := world.waking.filter (·.1 ≠ key)
      woken := world.waking.filter (·.1 = key) ++ world.woken }

def run (limit : Nat) (events : List (Event Waker)) : World Waker := events.foldl step { free := limit }

/-- What holds between two steps, with `held` permits on the way from one owner to the next. -/
structure Inv (limit held : Nat) (world : World Waker) : Prop where
  count : world.free + world.granted.length + world.permits + held = limit
  idle : 0 < world.free → world.waiting = []
  queue : world.waiting = world.futures.filter (·.1 ∉ world.granted)
  grants : ∀ key ∈ world.granted, key ∈ world.futures.map Prod.fst
  once : world.granted.Nodup
  distinct : (world.futures.map Prod.fst).Nodup
  arrived : ∀ future ∈ world.futures, future.1.seq < world.nextSeq
  woken : ∀ future ∈ world.futures, future.1 ∈ world.granted →
    future ∈ world.waking ∨ future ∈ world.woken

variable {limit held : Nat} {world : World Waker} (key : WaitKey) (waker : Waker)

/-- **A permit in hand goes to the first waiter, or is free.** -/
theorem Inv.pass (inv : Inv limit (held + 1) world) : Inv limit held world.pass := by
  have count := inv.count
  obtain ⟨empty, same⟩ | ⟨first, ⟨inside, -⟩, same⟩ := world.handOff_spec
  · rw [World.pass, same]
    exact { inv with count := by dsimp only; omega, idle := fun _ => empty }
  · obtain ⟨live, waits⟩ := List.mem_filter.mp (inv.queue ▸ inside)
    rw [World.pass, same]
    refine { inv with
      count := ?_, idle := fun free => ?_, queue := ?_, grants := ?_, once := ?_, woken := ?_ }
    · simp only [List.length_cons]
      omega
    · simp [inv.idle free] at inside
    · simp [inv.queue]
    · exact List.forall_mem_cons.mpr ⟨List.mem_map_of_mem live, inv.grants⟩
    · exact List.nodup_cons.mpr ⟨by simpa using waits, inv.once⟩
    · intro future member granted
      rcases List.mem_cons.mp granted with equal | granted
      · rw [List.inj_on_of_nodup_map inv.distinct member live equal]
        exact .inl (.head _)
      · exact (inv.woken future member granted).imp_left (.tail _)

/-- **A future leaves**, and its permit with it. -/
theorem Inv.leave {permits other : Nat} (inv : Inv limit held world)
    (count : world.free + (world.granted.erase key).length + permits + other = limit) :
    Inv limit other { world.leave key with permits } where
  count := count
  idle := fun free => by simp [World.leave, inv.idle free]
  queue := by
    simp [World.leave, inv.queue]
    refine List.filter_congr fun future _ => ?_
    by_cases same : future.1 = key
    · simp [same]
    · simp [same, List.mem_erase_of_ne same]
  grants := by
    intro other granted
    obtain ⟨differs, granted⟩ := inv.once.mem_erase_iff.mp granted
    obtain ⟨future, live, rfl⟩ := List.mem_map.mp (inv.grants other granted)
    exact List.mem_map_of_mem (List.mem_filter.mpr ⟨live, by simpa using differs⟩)
  once := inv.once.erase key
  distinct := inv.distinct.sublist (List.filter_sublist.map _)
  arrived := fun future live => inv.arrived future (List.mem_of_mem_filter live)
  woken := fun future live granted =>
    inv.woken future (List.mem_of_mem_filter live) (List.mem_of_mem_erase granted)

/-- A granted future does not wait. -/
theorem Inv.waiting_filter {key : WaitKey} (inv : Inv limit held world)
    (granted : key ∈ world.granted) : world.waiting.filter (·.1 ≠ key) = world.waiting := by
  refine List.filter_eq_self.mpr fun future waits => ?_
  rw [inv.queue, List.mem_filter] at waits
  simpa using fun same : future.1 = key => by simp [same, granted] at waits

theorem renew_key (future : WaitKey × Waker) :
    (if future.1 = key then (key, waker) else future).1 = future.1 := by
  split
  · next same => exact same.symm
  · rfl

theorem keys_renew (queue : Queue Waker) :
    (renew key waker queue).map Prod.fst = queue.map Prod.fst := by
  simp [renew, Function.comp_def, renew_key]

/-- **Every event keeps the invariant.** -/
theorem Inv.step (inv : Inv limit 0 world) (event : Event Waker) :
    Inv limit 0 (world.step event) := by
  have count := inv.count
  cases event with
  | join priority waker =>
    rw [World.step]
    split
    · next free => exact { inv with count := by dsimp only; omega, idle := fun _ => inv.idle free }
    · next busy =>
      have fresh : ⟨priority, world.nextSeq⟩ ∉ world.futures.map Prod.fst := by
        intro inside
        obtain ⟨future, live, same⟩ := List.mem_map.mp inside
        exact absurd (inv.arrived future live) (by simp [same])
      have unknown : ⟨priority, world.nextSeq⟩ ∉ world.granted :=
        fun granted => fresh (inv.grants _ granted)
      refine { inv with
        idle := fun free => absurd free busy, queue := by simp [inv.queue, unknown]
        grants := fun key granted => .tail _ (inv.grants key granted)
        distinct := List.nodup_cons.mpr ⟨fresh, inv.distinct⟩
        arrived := List.forall_mem_cons.mpr ⟨Nat.lt_succ_self _, fun future live => ?_⟩
        woken := List.forall_mem_cons.mpr ⟨fun granted => absurd granted unknown, inv.woken⟩ }
      exact Nat.lt_succ_of_lt (inv.arrived future live)
  | poll key waker =>
    rw [World.step]
    split
    · exact inv
    split
    · next granted =>
      have length := List.length_erase_add_one granted
      have left := @Inv.leave _ _ _ _ key (world.permits + 1) 0 inv (by omega)
      rwa [World.leave, inv.waiting_filter granted] at left
    · next pending =>
      refine { inv with
        idle := fun free => ?_, queue := ?_, grants := ?_, distinct := ?_, arrived := ?_, woken := ?_ }
      · simp [inv.idle free, renew]
      · simp [inv.queue, renew, List.filter_map, Function.comp_def, renew_key]
      · rw [keys_renew]
        exact inv.grants
      · rw [keys_renew]
        exact inv.distinct
      · intro future live
        obtain ⟨old, inside, rfl⟩ := List.mem_map.mp live
        rw [renew_key]
        exact inv.arrived old inside
      · intro future live granted
        obtain ⟨old, inside, rfl⟩ := List.mem_map.mp live
        rw [renew_key] at granted
        have differs : old.1 ≠ key := fun same => pending (same ▸ granted)
        rw [if_neg differs]
        refine (inv.woken old inside granted).imp_right fun woken => ?_
        exact List.mem_filter.mpr ⟨woken, by simpa using differs⟩
  | drop key =>
    rw [World.step]
    split
    · next granted =>
      have length := List.length_erase_add_one granted
      exact (inv.leave key (by omega)).pass
    · next absent => exact inv.leave key (by rwa [List.erase_of_not_mem absent])
  | release =>
    rw [World.step]
    split
    · exact inv
    · exact Inv.pass { inv with count := by dsimp only; omega }
  | wake key =>
    refine { inv with woken := fun future live granted => ?_ }
    rcases inv.woken future live granted with waits | woken
    · by_cases same : future.1 = key
      · exact .inr (List.mem_append_left _ (List.mem_filter.mpr ⟨waits, by simpa using same⟩))
      · exact .inl (List.mem_filter.mpr ⟨waits, by simpa using same⟩)
    · exact .inr (List.mem_append_right _ woken)

theorem inv_run (limit : Nat) (events : List (Event Waker)) : Inv limit 0 (run limit events) := by
  have start : Inv limit 0 ({ free := limit } : World Waker) := by constructor <;> simp
  exact List.foldlRecOn events World.step start fun _ inv event _ => inv.step event

/-- An event numbers one waiter at most. -/
theorem nextSeq_step_le (event : Event Waker) : (world.step event).nextSeq ≤ world.nextSeq + 1 := by
  have pass_nextSeq : ∀ world : World Waker, world.pass.nextSeq = world.nextSeq := by
    intro world
    obtain ⟨-, same⟩ | ⟨first, -, same⟩ := world.handOff_spec <;> rw [World.pass, same]
  cases event <;> rw [World.step] <;> (try split_ifs) <;> simp [pass_nextSeq, World.leave]

theorem nextSeq_foldl_le (events : List (Event Waker)) (world : World Waker) :
    (events.foldl step world).nextSeq ≤ world.nextSeq + events.length := by
  induction events generalizing world with
  | nil => simp
  | cons event events ih =>
    have one := world.nextSeq_step_le event
    have rest := ih (world.step event)
    rw [List.foldl_cons, List.length_cons]
    omega

/-- **A permit is handed on**: the first waiter is granted it and is to be woken, or, if none waits,
the permit is free. `granted` is what was granted before. -/
structure HandsOn (before : World Waker) (granted : List WaitKey) (after : World Waker) : Prop where
  free : before.waiting = [] →
    after.free = before.free + 1 ∧ after.waiting = [] ∧ after.granted = granted
  first : before.waiting ≠ [] → ∃ first, before.waiting.First first ∧
    after.free = before.free ∧ after.waiting = before.waiting.filter (·.1 ≠ first.1) ∧
    after.granted = first.1 :: granted ∧ after.waking = first :: before.waking

theorem handsOn_pass (world : World Waker) : world.HandsOn world.granted world.pass := by
  obtain ⟨empty, same⟩ | ⟨first, earliest, same⟩ := world.handOff_spec
  · rw [World.pass, same]
    exact ⟨fun _ => ⟨rfl, empty, rfl⟩, fun waits => absurd empty waits⟩
  · rw [World.pass, same]
    refine ⟨fun empty => ?_, fun _ => ⟨first, earliest, rfl, rfl, rfl, rfl⟩⟩
    exact absurd earliest.1 (by simp [empty])

/-- **A permit that is dropped is handed on.** -/
theorem handsOn_release (held : 0 < world.permits) :
    world.HandsOn world.granted (world.step .release) := by
  rw [World.step, if_neg (by omega)]
  obtain ⟨free, first⟩ := handsOn_pass { world with permits := world.permits - 1 }
  exact ⟨free, first⟩

/-- **A granted future that is dropped hands its permit on.** -/
theorem Inv.handsOn_drop {key : WaitKey} (inv : Inv limit 0 world) (granted : key ∈ world.granted) :
    world.HandsOn (world.granted.erase key) (world.step (.drop key)) := by
  have passed := handsOn_pass (world.leave key)
  rw [World.step, if_pos granted]
  have waiting : (world.leave key).waiting = world.waiting := inv.waiting_filter granted
  exact ⟨fun empty => passed.free (waiting.trans empty),
    fun waits => waiting ▸ passed.first (waiting ▸ waits)⟩

end World

/-- **No permit and no wake-up is lost**, after every run of the gate. -/
theorem gate_conserves (limit : Nat) (events : List (Event Waker)) :
    let world := World.run limit events
    world.free + world.granted.length + world.permits = limit ∧
    (0 < world.free → world.waiting = []) ∧
    -- Each live future waits with the waker of its last poll, or was granted a permit.
    world.waiting = world.futures.filter (·.1 ∉ world.granted) ∧
    (∀ key ∈ world.granted, key ∈ world.futures.map Prod.fst) ∧
    -- A granted future was woken since its last poll, or the call that granted it is about to.
    (∀ future ∈ world.futures, future.1 ∈ world.granted →
      future ∈ world.waking ∨ future ∈ world.woken) ∧
    (world.waking = [] → ∀ future ∈ world.futures, future.1 ∈ world.granted → future ∈ world.woken) ∧
    -- A later arrival has a higher number, and the numbers stay below the count of the events.
    (∀ future ∈ world.futures, future.1.seq < world.nextSeq) ∧ world.nextSeq ≤ events.length ∧
    -- A new future takes a free permit, and waits only if there is none.
    (∀ priority waker, let after := world.step (.join priority waker)
      (0 < world.free → after.free + 1 = world.free ∧ after.permits = world.permits + 1) ∧
      (world.free = 0 → after.permits = world.permits ∧
        after.waiting = (⟨priority, world.nextSeq⟩, waker) :: world.waiting)) ∧
    -- The next poll of a granted future takes the permit.
    (∀ key ∈ world.granted, ∀ waker, let after := world.step (.poll key waker)
      after.permits = world.permits + 1 ∧ after.granted = world.granted.erase key) ∧
    (0 < world.permits → world.HandsOn world.granted (world.step .release)) ∧
    (∀ key ∈ world.granted, world.HandsOn (world.granted.erase key) (world.step (.drop key))) ∧
    -- The drop of another future only takes it out of the queue.
    ∀ key ∉ world.granted, let after := world.step (.drop key)
      after.free = world.free ∧ after.granted = world.granted ∧
      after.waiting = world.waiting.filter (·.1 ≠ key) := by
  intro world
  have inv := World.inv_run limit events
  refine ⟨inv.count, inv.idle, inv.queue, inv.grants, inv.woken, ?_, inv.arrived, ?_, ?_, ?_,
    World.handsOn_release, fun key granted => inv.handsOn_drop granted, ?_⟩
  · intro quiet future live granted
    have woken := inv.woken future live granted
    exact woken.resolve_left fun waits => absurd waits (by simp [world, quiet])
  · exact (World.nextSeq_foldl_le events { free := limit }).trans_eq (Nat.zero_add _)
  · intro priority waker
    refine ⟨fun free => ?_, fun busy => ?_⟩
    · rw [World.step, if_pos free]
      exact ⟨Nat.sub_add_cancel free, rfl⟩
    · rw [World.step, if_neg (by omega)]
      exact ⟨rfl, rfl⟩
  · intro key granted waker
    rw [World.step, if_neg (not_not_intro (inv.grants key granted)), if_pos granted]
    exact ⟨rfl, rfl⟩
  · intro key absent
    rw [World.step, if_neg absent]
    exact ⟨rfl, List.erase_of_not_mem absent, rfl⟩

end Ostrya.Fetch
