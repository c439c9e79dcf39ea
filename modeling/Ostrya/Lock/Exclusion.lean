/-
**The repository lock excludes across handles and processes.**

What a step does to the lock objects, the registries and the kernel is one or two of a few changes
(`Change`, `Step.changes`). Each of them keeps `Wired`: the registry of a process has one entry for each of
its lock objects, the kernel holds for a process exactly the lock that the object's counts ask for, and an
exclusive record lock is alone on its inode.

* `Wired.exclusive_alone`: an exclusive guard is the only guard on its inode in any process;
* `Wired.unique`: a process has at most one lock object for an inode;
* `Step.dying_stays`: a dying object stays until its `Drop` removes it;
* `Reaches.invariant`: all of this in every reachable state.
-/

import Ostrya.Lock.Model

set_option linter.unusedSectionVars false

namespace Ostrya.Lock

variable {π κ ρ τ : Type}

/-! ### One lock object -/

variable {state : LockState} {kind : LockKind}

/-- The record lock that a lock object asks for. -/
def LockData.os : LockData → OsLock
  | .repo state => state.os
  | .update held => if held then .exclusive else .unlocked

/-- The counts are those of the guards, and the recorded lock is what they ask for. -/
def LockData.Counts (guards : List LockKind) : LockData → Prop
  | .repo state => state.shared = guards.count .shared ∧ state.exclusive = guards.count .exclusive ∧
      state.os = state.target ∧ (0 < state.exclusive → state.exclusive = 1 ∧ state.shared = 0)
  | .update held => guards = if held then [.exclusive] else []

/-- A lock object between two steps. -/
structure Obj.Sound (obj : Obj π κ) : Prop where
  counts : obj.data.Counts obj.guards
  dead : obj.dying = true → obj.handles = 0 ∧ obj.guards = []

theorem LockKind.eq_of_count {guards : List LockKind} (none_shared : guards.count .shared = 0)
    (none_exclusive : guards.count .exclusive = 0) : guards = [] := by
  rw [List.count_eq_zero] at none_shared none_exclusive
  refine List.eq_nil_iff_forall_not_mem.mpr fun kind member => ?_
  cases kind with
  | shared => exact none_shared member
  | exclusive => exact none_exclusive member

variable {obj : Obj π κ}

/-- **The recorded lock is `Unlocked` exactly if no guard is alive.** -/
theorem Obj.Sound.unlocked_iff (sound : obj.Sound) :
    obj.data.os = .unlocked ↔ obj.guards = [] := by
  have counts := sound.counts
  have none_left := @LockKind.eq_of_count obj.guards
  cases data : obj.data with
  | repo state =>
    grind [LockData.os, LockData.Counts, LockState.target]
  | update held =>
    rw [data] at counts
    cases held <;> simp_all [LockData.os, LockData.Counts]

/-- An exclusive guard is the only guard of its object, which asks for the exclusive lock. -/
theorem Obj.Sound.of_exclusive (sound : obj.Sound) (guard : .exclusive ∈ obj.guards) :
    obj.guards = [.exclusive] ∧ obj.data.os = .exclusive := by
  have counts := sound.counts
  cases data : obj.data with
  | repo state =>
    rw [data] at counts
    obtain ⟨shared, exclusive, os, one⟩ := counts
    have some : 0 < state.exclusive := exclusive ▸ List.count_pos_iff.mpr guard
    obtain ⟨alone, none⟩ := one some
    have all : ∀ kind ∈ obj.guards, kind = .exclusive := by
      intro kind member
      cases kind with
      | shared => exact absurd member (List.count_eq_zero.mp (shared.symm.trans none))
      | exclusive => rfl
    have length : obj.guards.length = 1 := by
      rw [← List.count_eq_length.mpr fun kind member => (all kind member).symm, ← exclusive, alone]
    exact ⟨List.eq_replicate_iff.mpr ⟨length, all⟩, by rw [LockData.os, os, LockState.target, if_pos some]⟩
  | update held =>
    rw [data] at counts
    cases held with
    | false =>
      rw [show obj.guards = [] from counts] at guard
      cases guard
    | true => exact ⟨counts, rfl⟩

/-- What `try_acquire` can do: nothing, or it counts one holder, with the record lock it needs. -/
theorem LockState.tryAcquire_cases (st : LockState) (kind : LockKind) (fcntl : Fcntl) :
    ((st.tryAcquire kind fcntl).outcome ≠ .ok .acquired ∧ (st.tryAcquire kind fcntl).state = st ∧
        (st.tryAcquire kind fcntl).takes = none) ∨
      (kind = .shared ∧ st.exclusive = 0 ∧ st.os = .shared ∧
        st.tryAcquire kind fcntl = ⟨.ok .acquired, { st with shared := st.shared + 1 }, none⟩) ∨
      (kind = .shared ∧ st.exclusive = 0 ∧ fcntl = .granted ∧ st.tryAcquire kind fcntl =
        ⟨.ok .acquired, { st with os := .shared, shared := st.shared + 1 }, some .shared⟩) ∨
      (kind = .exclusive ∧ st.shared = 0 ∧ st.exclusive = 0 ∧ fcntl = .granted ∧ st.tryAcquire kind fcntl =
        ⟨.ok .acquired, { st with os := .exclusive, exclusive := st.exclusive + 1 }, some .exclusive⟩) := by
  cases kind <;> cases fcntl <;> grind [LockState.tryAcquire]

theorem Obj.tried_of_not_acquired (is : obj.data = .repo state)
    (kind : LockKind) {tried : Tried} (refused : tried.outcome ≠ .ok .acquired) (same : tried.state = state) :
    obj.tried kind tried = obj := by
  obtain ⟨⟩ := obj
  grind [Obj.tried]

/-- An object with a reference left is not dying. -/
theorem Obj.Sound.alive (sound : obj.Sound) (used : 0 < obj.handles ∨ obj.guards ≠ []) : obj.dying = false := by
  by_contra dying
  obtain ⟨handles, guards⟩ := sound.dead (Bool.not_eq_false _ ▸ dying)
  simp [handles, guards] at used

theorem Obj.Sound.of_alive (alive : obj.dying = false) (counts : obj.data.Counts obj.guards) : obj.Sound where
  counts := counts
  dead := fun dying => by rw [alive] at dying; cases dying

theorem Obj.Sound.hold (sound : obj.Sound) (owned : 0 < obj.handles) (kind : LockKind)
    {data : LockData} (counts : data.Counts (kind :: obj.guards)) :
    Obj.Sound { obj.hold kind with data := data } :=
  .of_alive (sound.alive (.inl owned)) counts

theorem Obj.Sound.tried (sound : obj.Sound) (is : obj.data = .repo state)
    (owned : 0 < obj.handles) (kind : LockKind) (fcntl : Fcntl) :
    (obj.tried kind (state.tryAcquire kind fcntl)).Sound := by
  have counts := sound.counts
  obtain ⟨refused, same, -⟩ | ⟨rfl, free, held, run⟩ | ⟨rfl, free, -, run⟩ | ⟨rfl, free, free', -, run⟩ :=
    state.tryAcquire_cases kind fcntl
  · rw [Obj.tried_of_not_acquired is kind refused same]
    exact sound
  all_goals
    rw [run]
    refine sound.hold owned _ ?_
    grind [LockData.Counts, LockState.target]

/-- A release with a holder left asks for the lock it has, and one with none left for no lock. -/
theorem LockData.Counts.target_dropHolder (counts : (LockData.repo state).Counts guards) (owned : kind ∈ guards) :
    (state.dropHolder kind).target = state.os ∨ (state.dropHolder kind).target = .unlocked := by
  cases kind <;> grind [LockData.Counts, LockState.target, LockState.dropHolder]

theorem Obj.Sound.unhold (sound : obj.Sound) (owned : kind ∈ obj.guards)
    {data : LockData} (counts : data.Counts (obj.guards.erase kind)) :
    Obj.Sound { obj.unhold kind with data := data } :=
  .of_alive (sound.alive (.inr (List.ne_nil_of_mem owned))) counts

theorem Obj.Sound.released (sound : obj.Sound) (is : obj.data = .repo state) (owned : kind ∈ obj.guards) :
    Obj.Sound { obj.unhold kind with data := .repo (state.release kind).1 } := by
  have counts := sound.counts
  rw [is] at counts
  obtain ⟨shared, exclusive, os, one⟩ := counts
  have some_guard : 0 < obj.guards.count kind := List.count_pos_iff.mpr owned
  refine sound.unhold owned ?_
  have left : (state.release kind).1 = { state.dropHolder kind with os := (state.dropHolder kind).target } := by
    unfold LockState.release
    dsimp only
    split
    · next same => rw [same]
    · rfl
  rw [left]
  cases kind with
  | shared =>
    refine ⟨?_, ?_, rfl, ?_⟩
    · simp [LockState.dropHolder, shared]
    · simp [LockState.dropHolder, exclusive]
    · intro some_exclusive
      have := one some_exclusive
      omega
  | exclusive =>
    refine ⟨?_, ?_, rfl, ?_⟩
    · simp [LockState.dropHolder, shared]
    · simp [LockState.dropHolder, exclusive]
    · grind [LockState.dropHolder]

theorem Obj.Sound.dropHandle (sound : obj.Sound) (owned : 0 < obj.handles) :
    obj.dropHandle.Sound := by
  unfold Obj.dropHandle
  split
  · exact .of_alive (sound.alive (.inl owned)) sound.counts
  · next last =>
    have none_left : obj.guards.length = 0 := by omega
    exact ⟨sound.counts, fun _ => ⟨rfl, List.length_eq_zero_iff.mp none_left⟩⟩

theorem sound_newObj (p : π) (key : κ) (view : View) : (newObj p key view).Sound := by
  cases view with
  | repo => exact .of_alive rfl ⟨rfl, rfl, rfl, fun absurd => by cases absurd⟩
  | update => exact .of_alive rfl rfl

theorem newObj_place (p : π) (key : κ) (view : View) :
    (newObj p key view).proc = p ∧ (newObj p key view).key = key ∧ (newObj p key view).data.os = .unlocked := by
  cases view <;> exact ⟨rfl, rfl, rfl⟩

/-! ### What a step changes -/

variable {id : Nat} {key other : κ} {p q : π} {locks : κ → π → OsLock}

/-- The locks of the other processes leave room for `lock` on the inode. -/
def Room (locks : κ → π → OsLock) (key : κ) (p : π) (lock : OsLock) : Prop :=
  ∀ q, q ≠ p → locks key q ≠ .exclusive ∧ (lock = .exclusive → locks key q = .unlocked)

theorem room_of_granted (granted : Answers locks key p kind .granted) : Room locks key p kind.os := by
  intro q apart
  have free : ¬ Conflict locks key p kind := granted
  refine ⟨fun exclusive => free ⟨q, apart, .inl exclusive⟩, fun same => ?_⟩
  cases kind with
  | shared => cases same
  | exclusive =>
    cases lock : locks key q with
    | unlocked => rfl
    | shared => exact absurd ⟨q, apart, .inr ⟨rfl, lock⟩⟩ free
    | exclusive => exact absurd ⟨q, apart, .inl lock⟩ free

variable [DecidableEq π] [DecidableEq κ]

/-- The lock objects, the registries and the kernel. -/
structure Core (π κ : Type) where
  objs : Nat → Option (Obj π κ)
  registry : π → κ → Option Entry
  locks : κ → π → OsLock

/-- The registry with one entry changed. -/
def setRegistry (registry : π → κ → Option Entry) (p : π) (key : κ) (entry : Option Entry) :
    π → κ → Option Entry :=
  Function.update registry p (Function.update (registry p) key entry)

theorem setRegistry_apply (registry : π → κ → Option Entry) (entry : Option Entry) :
    setRegistry registry p key entry q other = if q = p ∧ other = key then entry else registry q other := by
  simp only [setRegistry, Function.update_apply]
  grind

theorem setLock_apply (locks : κ → π → OsLock) (lock : OsLock) :
    setLock locks key p lock other q = if other = key ∧ q = p then lock else locks other q := by
  simp only [setLock, Function.update_apply]
  grind

theorem setLock_self (locks : κ → π → OsLock) (key : κ) (p : π) (lock : OsLock) :
    setLock locks key p lock key p = lock := by
  rw [setLock_apply, if_pos ⟨rfl, rfl⟩]

theorem setLock_of_ne (locks : κ → π → OsLock) (lock : OsLock)
    (apart : ¬ (other = key ∧ q = p)) : setLock locks key p lock other q = locks other q := by
  rw [setLock_apply, if_neg apart]

/-- The counts or the references of an object change, and its record lock with them. -/
structure Moves (core : Core π κ) (id : Nat) (obj obj' : Obj π κ) (locks : κ → π → OsLock) : Prop where
  here : core.objs id = some obj
  proc : obj'.proc = obj.proc
  key : obj'.key = obj.key
  sound : obj.Sound → obj'.Sound
  others : ∀ k q, ¬ (k = obj.key ∧ q = obj.proc) → locks k q = core.locks k q
  own : core.locks obj.key obj.proc = obj.data.os → locks obj.key obj.proc = obj'.data.os
  room : obj'.data.os = obj.data.os ∨ obj'.data.os = .unlocked ∨ Room core.locks obj.key obj.proc obj'.data.os

/-- What a step can do to the lock objects, the registries and the kernel. -/
inductive Change : Core π κ → Core π κ → Prop where
  | same : Change core core
  /-- A descriptor is parked in the entry. -/
  | park {p : π} {key : κ} (found : core.registry p key = some entry)
      (parked : Nat) :
      Change core { core with registry := setRegistry core.registry p key (some ⟨entry.lock, parked⟩) }
  | object {id : Nat} {obj : Obj π κ} {locks : κ → π → OsLock} (moves : Moves core id obj obj' locks) :
      Change core { core with objs := Function.update core.objs id (some obj'), locks := locks }
  /-- A descriptor of an inode with no live object is closed. -/
  | close {p : π} {key : κ} (dead : ∀ entry, core.registry p key = some entry →
      ∃ obj, core.objs entry.lock = some obj ∧ obj.dying = true) :
      Change core { core with locks := setLock core.locks key p .unlocked }
  /-- A new object is registered. -/
  | register {p : π} {key : κ} {id : Nat} (view : View) (absent : core.registry p key = none)
      (unused : core.objs id = none) :
      Change core { core with
        objs := Function.update core.objs id (some (newObj p key view))
        registry := setRegistry core.registry p key (some ⟨id, 0⟩) }
  /-- A dying object and its entry are removed. -/
  | remove {id : Nat} {obj : Obj π κ} (here : core.objs id = some obj)
      (dying : obj.dying = true) :
      Change core { core with
        objs := Function.update core.objs id none
        registry := setRegistry core.registry obj.proc obj.key none }

/-- The registries, the lock objects and the kernel agree. -/
structure Wired (core : Core π κ) : Prop where
  registered : ∀ id obj, core.objs id = some obj →
    ∃ parked, core.registry obj.proc obj.key = some ⟨id, parked⟩
  known : ∀ p key entry, core.registry p key = some entry →
    ∃ obj, core.objs entry.lock = some obj ∧ obj.proc = p ∧ obj.key = key
  sound : ∀ id obj, core.objs id = some obj → obj.Sound
  kernel : ∀ id obj, core.objs id = some obj → core.locks obj.key obj.proc = obj.data.os
  unlocked : ∀ p key, core.registry p key = none → core.locks key p = .unlocked
  alone : ∀ key p q, core.locks key p = .exclusive → q ≠ p → core.locks key q = .unlocked

namespace Wired

variable {core : Core π κ}

variable {id : Nat} {obj obj' : Obj π κ}

/-- **A process has at most one lock object for an inode.** -/
theorem unique (wired : Wired core) {id' : Nat} (here : core.objs id = some obj)
    (here' : core.objs id' = some obj') (proc : obj'.proc = obj.proc) (key : obj'.key = obj.key) : id' = id := by
  obtain ⟨parked, found⟩ := wired.registered id obj here
  obtain ⟨parked', found'⟩ := wired.registered id' obj' here'
  rw [proc, key, found] at found'
  cases found'
  rfl

/-- **An exclusive guard is the only guard on its inode in any process.** -/
theorem exclusive_alone (wired : Wired core) (here : core.objs id = some obj)
    (guard : .exclusive ∈ obj.guards) (here' : core.objs id' = some obj') (key : obj'.key = obj.key)
    (apart : id' ≠ id) : obj'.guards = [] := by
  have other : obj'.proc ≠ obj.proc := fun same => apart (wired.unique here here' same key)
  have held : core.locks obj.key obj.proc = .exclusive := by
    rw [wired.kernel id obj here]
    exact ((wired.sound id obj here).of_exclusive guard).2
  rw [← (wired.sound id' obj' here').unlocked_iff, ← wired.kernel id' obj' here', key]
  exact wired.alone obj.key obj.proc obj'.proc held other

theorem unlocked_of_dying (wired : Wired core) (here : core.objs id = some obj)
    (dying : obj.dying = true) : core.locks obj.key obj.proc = .unlocked := by
  have sound := wired.sound id obj here
  rw [wired.kernel id obj here, sound.unlocked_iff]
  exact (sound.dead dying).2

/-- The entry of a dying object leads to no live one. -/
theorem dead_of_dying (wired : Wired core) (here : core.objs id = some obj)
    (dying : obj.dying = true) (entry : Entry) (found : core.registry obj.proc obj.key = some entry) :
    ∃ obj, core.objs entry.lock = some obj ∧ obj.dying = true := by
  obtain ⟨parked, own⟩ := wired.registered id obj here
  rw [found] at own
  cases own
  exact ⟨obj, here, dying⟩

variable {p : π} {key : κ}

theorem unlocked_of_dead (wired : Wired core)
    (dead : ∀ entry, core.registry p key = some entry → ∃ obj, core.objs entry.lock = some obj ∧ obj.dying = true) :
    core.locks key p = .unlocked := by
  cases found : core.registry p key with
  | none => exact wired.unlocked p key found
  | some entry =>
    obtain ⟨obj, here, dying⟩ := dead entry found
    obtain ⟨obj', here', rfl, rfl⟩ := wired.known p key entry found
    rw [here] at here'
    cases here'
    exact wired.unlocked_of_dying here dying

theorem setLock_eq_self (already : locks key p = .unlocked) :
    setLock locks key p .unlocked = locks := by
  funext other q
  by_cases here : other = key ∧ q = p
  · rw [here.1, here.2, setLock_self, already]
  · exact setLock_of_ne locks .unlocked here

section

variable (wired : Wired core)

include wired

theorem park (found : core.registry p key = some entry) (parked : Nat) :
    Wired { core with registry := setRegistry core.registry p key (some ⟨entry.lock, parked⟩) } := by
  obtain ⟨registered, known, sound, kernel, unlocked, alone⟩ := wired
  constructor <;> grind [setRegistry_apply]

theorem object (moves : Moves core id obj obj' locks) :
    Wired { core with objs := Function.update core.objs id (some obj'), locks := locks } := by
  obtain ⟨here, proc, key, sound, others, own, room⟩ := moves
  have held := wired.kernel id obj here
  obtain ⟨registered, known, sounds, kernel, unlocked, alone⟩ := wired
  refine ⟨?_, ?_, ?_, ?_, ?_, ?_⟩ <;> simp only [Function.update_apply]
  · grind
  · grind
  · grind
  · grind
  · grind
  · intro other p q exclusive apart
    by_cases mine : other = obj.key ∧ p = obj.proc
    · -- the object's own lock is the exclusive one
      obtain ⟨rfl, rfl⟩ := mine
      rw [others _ _ fun same => apart same.2]
      rw [own held] at exclusive
      obtain same | unlocked | room := room
      · exact alone _ _ _ (held.trans (same.symm.trans exclusive)) apart
      · rw [unlocked] at exclusive
        cases exclusive
      · exact (room q apart).2 exclusive
    · rw [others _ _ mine] at exclusive
      by_cases theirs : other = obj.key ∧ q = obj.proc
      · obtain ⟨rfl, rfl⟩ := theirs
        rw [own held]
        obtain same | unlocked | room := room
        · rw [same, ← held]
          exact alone _ _ _ exclusive apart
        · exact unlocked
        · exact absurd exclusive (room p (Ne.symm apart)).1
      · rw [others _ _ theirs]
        exact alone _ _ _ exclusive apart

theorem register (view : View) (absent : core.registry p key = none)
    (unused : core.objs id = none) : Wired { core with
      objs := Function.update core.objs id (some (newObj p key view))
      registry := setRegistry core.registry p key (some ⟨id, 0⟩) } := by
  obtain ⟨proc, place, os⟩ := newObj_place p key view
  have new := sound_newObj p key view
  obtain ⟨registered, known, sounds, kernel, unlocked, alone⟩ := wired
  refine ⟨?_, ?_, ?_, ?_, ?_, alone⟩ <;> simp only [Function.update_apply, setRegistry_apply]
  · intro id₁ obj₁ now
    split at now
    · next same =>
      cases now
      exact ⟨0, by rw [if_pos ⟨proc, place⟩, same]⟩
    · obtain ⟨parked, found⟩ := registered id₁ obj₁ now
      refine ⟨parked, (if_neg ?_).trans found⟩
      rintro ⟨rfl, rfl⟩
      rw [absent] at found
      cases found
  · intro q other entry now
    split at now
    · next same =>
      cases now
      exact ⟨_, if_pos rfl, proc.trans same.1.symm, place.trans same.2.symm⟩
    · obtain ⟨obj₁, there, place₁⟩ := known q other entry now
      refine ⟨obj₁, (if_neg fun same => ?_).trans there, place₁⟩
      rw [same, unused] at there
      cases there
  · intro id₁ obj₁ now
    split at now
    · cases now
      exact new
    · exact sounds id₁ obj₁ now
  · intro id₁ obj₁ now
    split at now
    · cases now
      rw [proc, place, os, unlocked p key absent]
    · exact kernel id₁ obj₁ now
  · intro q other none
    split at none
    · cases none
    · exact unlocked q other none

theorem remove (here : core.objs id = some obj) (dying : obj.dying = true) :
    Wired { core with
      objs := Function.update core.objs id none
      registry := setRegistry core.registry obj.proc obj.key none } := by
  have free := wired.unlocked_of_dying here dying
  obtain ⟨registered, known, sounds, kernel, unlocked, alone⟩ := wired
  constructor <;> simp only [Function.update_apply, setRegistry_apply] <;> grind

theorem change (change : Change core core') : Wired core' := by
  cases change with
  | same => exact wired
  | park found parked => exact wired.park found parked
  | object moves => exact wired.object moves
  | close dead =>
    rw [setLock_eq_self (wired.unlocked_of_dead dead)]
    exact wired
  | register view absent unused => exact wired.register view absent unused
  | remove here dying => exact wired.remove here dying

end

end Wired

/-! ### The steps -/

variable [DecidableEq τ] [DecidableEq ρ] {proc : τ → π}

variable {action : Action π τ} {closes : List (π × κ)}

/-- The lock objects, the registries and the kernel of a state. -/
def State.core (st : State π κ ρ τ) : Core π κ := ⟨st.objs, st.registry, st.locks⟩

/-- A call that holds the registry mutex. -/
def Task.Holds : Task ρ κ → Prop
  | .probing .. | .opening .. | .opened .. => True
  | _ => False

/-- Who holds the registry mutex of a process. -/
structure Mutex (proc : τ → π) (st : State π κ ρ τ) : Prop where
  holder : ∀ t, (st.task t).Holds → st.owner (proc t) = some (.task t)
  owner : ∀ p t, st.owner p = some (.task t) → proc t = p ∧ (st.task t).Holds
  drops : ∀ p id, st.owner p = some (.drop id) → ∃ obj, st.objs id = some obj ∧ obj.proc = p ∧ obj.dying = true

variable {core : Core π κ}

/-- Only references change. -/
theorem Change.references (here : core.objs id = some obj)
    (proc : obj'.proc = obj.proc) (key : obj'.key = obj.key) (data : obj'.data = obj.data)
    (sound : obj.Sound → obj'.Sound) :
    Change core { core with objs := Function.update core.objs id (some obj') } :=
  .object ⟨here, proc, key, sound, fun _ _ _ => rfl, fun kernel => by rw [data]; exact kernel, .inl (by rw [data])⟩

theorem Change.cloned (here : core.objs id = some obj) (alive : obj.dying = false) :
    Change core { core with objs := Function.update core.objs id (some { obj with handles := obj.handles + 1 }) } :=
  .references here rfl rfl rfl fun sound => .of_alive alive sound.counts

theorem Change.tried
    {fcntl : Fcntl} (here : core.objs id = some obj) (is : obj.data = .repo state) (owned : 0 < obj.handles)
    (answers : Answers core.locks obj.key obj.proc kind fcntl) :
    Change core { core with
      objs := Function.update core.objs id (some (obj.tried kind (state.tryAcquire kind fcntl)))
      locks := triedLocks core.locks obj.key obj.proc (state.tryAcquire kind fcntl) } := by
  have sound : obj.Sound → (obj.tried kind (state.tryAcquire kind fcntl)).Sound := fun sound =>
    sound.tried is owned kind fcntl
  have os : obj.data.os = state.os := by rw [is]; rfl
  obtain ⟨refused, same, takes⟩ | ⟨rfl, free, held, run⟩ | ⟨rfl, free, rfl, run⟩ | ⟨rfl, free, free', rfl, run⟩ :=
    state.tryAcquire_cases kind fcntl
  · rw [triedLocks, takes, Obj.tried_of_not_acquired is kind refused same]
    exact .references here rfl rfl rfl fun sound => sound
  · rw [run] at sound ⊢
    exact .object ⟨here, rfl, rfl, sound, fun _ _ _ => rfl, fun kernel => kernel.trans os, .inl os.symm⟩
  all_goals
    rw [run] at sound ⊢
    exact .object ⟨here, rfl, rfl, sound, fun _ _ apart => setLock_of_ne _ _ apart,
      fun _ => setLock_self .., .inr (.inr (room_of_granted answers))⟩

theorem Change.released (wired : Wired core) (here : core.objs id = some obj)
    (is : obj.data = .repo state) (owned : kind ∈ obj.guards) :
    Change core { core with
      objs := Function.update core.objs id (some { obj.unhold kind with data := .repo (state.release kind).1 })
      locks := releasedLocks core.locks obj.key obj.proc (state.release kind).2 } := by
  have sound := wired.sound id obj here
  have counts := sound.counts
  have os : (state.dropHolder kind).os = state.os := by cases kind <;> rfl
  -- a release that changes the record lock leaves no holder
  have gone : (state.release kind).2 = true → (state.release kind).1.os = .unlocked := by
    grind [LockState.release, Ostrya.Lock.LockData.Counts.target_dropHolder]
  have kept : (state.release kind).2 = false → (state.release kind).1.os = state.os := by
    unfold LockState.release
    dsimp only
    split
    · exact fun _ => os
    · intro absurd
      cases absurd
  refine .object ⟨here, rfl, rfl, fun sound => sound.released is owned, ?_, ?_, ?_⟩
  · intro k q apart
    unfold releasedLocks
    split
    · exact setLock_of_ne _ _ apart
    · rfl
  · intro kernel
    unfold releasedLocks
    cases unlocks : (state.release kind).2 with
    | true =>
      rw [if_pos rfl, setLock_self]
      exact (gone unlocks).symm
    | false =>
      rw [if_neg Bool.false_ne_true, kernel, is]
      exact (kept unlocks).symm
  · cases unlocks : (state.release kind).2 with
    | true => exact .inr (.inl (gone unlocks))
    | false =>
      refine .inl ((kept unlocks).trans ?_)
      rw [is]
      rfl

theorem Change.acquiredUpdate (here : core.objs id = some obj)
    (is : obj.data = .update false) (owned : 0 < obj.handles)
    (answers : Answers core.locks obj.key obj.proc .exclusive .granted) :
    Change core { core with
      objs := Function.update core.objs id (some { obj.hold .exclusive with data := .update true })
      locks := setLock core.locks obj.key obj.proc .exclusive } := by
  refine .object ⟨here, rfl, rfl, fun sound => sound.hold owned .exclusive ?_,
    fun _ _ apart => setLock_of_ne _ _ apart, fun _ => setLock_self .., .inr (.inr (room_of_granted answers))⟩
  have counts := sound.counts
  rw [is] at counts
  have guards : obj.guards = [] := counts
  rw [guards]
  rfl

theorem Change.releasedUpdate {held : Bool}
    (here : core.objs id = some obj) (is : obj.data = .update held) (owned : .exclusive ∈ obj.guards) :
    Change core { core with
      objs := Function.update core.objs id (some { obj.unhold .exclusive with data := .update false })
      locks := setLock core.locks obj.key obj.proc .unlocked } := by
  refine .object ⟨here, rfl, rfl, fun sound => sound.unhold owned ?_,
    fun _ _ apart => setLock_of_ne _ _ apart, fun _ => setLock_self .., .inr (.inl rfl)⟩
  have counts := sound.counts
  rw [is] at counts
  have guards : obj.guards = if held then [.exclusive] else [] := counts
  rw [guards]
  cases held <;> rfl

variable {st st' : State π κ ρ τ}

/-- **What a step does is one or two of the changes.** -/
theorem Step.changes (step : Step proc st action closes st') (wired : Wired st.core)
    (mutex : Mutex proc st) : ∃ mid, Change st.core mid ∧ Change mid st'.core := by
  cases step with
  | call repo view here | enter here free | probeOther here named found other | probeDying here named found dying
  | probeNone here | openFile here named | create here absent fresh | openFails here | spurious here
  | notify pending | relink names => exact ⟨_, .same, .same⟩
  | probeLive here named found live =>
    exact ⟨_, .cloned live.1 live.2.2, .same⟩
  | @createFails _ t key _ _ here absent fresh =>
    refine ⟨_, .close (p := proc t) (fun entry found => ?_), .same⟩
    have gone : st.registry (proc t) key = none := fresh.unregistered (proc t)
    have found' : st.registry (proc t) key = some entry := found
    rw [gone] at found'
    cases found'
  | register here absent unused => exact ⟨_, .register _ absent unused, .same⟩
  | foundLive here found live =>
    exact ⟨_, .cloned live.1 live.2.2, .park found _⟩
  | foundOther here found other | foundDying here found dying => exact ⟨_, .park found _, .same⟩
  | clone here owned => exact ⟨_, .cloned here owned, .same⟩
  | @dropHandle obj _ _ here owned =>
    have place : obj.dropHandle.proc = obj.proc ∧ obj.dropHandle.key = obj.key ∧
        obj.dropHandle.data = obj.data := by
      unfold Obj.dropHandle
      split <;> exact ⟨rfl, rfl, rfl⟩
    exact ⟨_, .references here place.1 place.2.1 place.2.2 fun sound => sound.dropHandle owned, .same⟩
  | tryAcquire kind here is owned answers => exact ⟨_, .tried here is owned answers, .same⟩
  | release here is owned => exact ⟨_, .released wired here is owned, .same⟩
  | acquireUpdate here is owned answers => exact ⟨_, .acquiredUpdate here is owned answers, .same⟩
  | releaseUpdate here is owned => exact ⟨_, .releasedUpdate here is owned, .same⟩
  | lockDrop here dying free =>
    exact ⟨_, .close (wired.dead_of_dying here dying), .same⟩
  | @remove obj entry _ _ here holds found =>
    obtain ⟨obj', here', -, dying⟩ := mutex.drops _ _ holds
    rw [here] at here'
    cases here'
    by_cases none_parked : entry.parked = 0
    · refine ⟨st.core, .same, ?_⟩
      rw [if_pos none_parked]
      exact .remove here dying
    · refine ⟨{ st.core with locks := setLock st.locks obj.key obj.proc .unlocked }, .close ?_, ?_⟩
      · exact wired.dead_of_dying here dying
      · rw [if_neg none_parked]
        exact .remove here dying

/-! ### The registry mutex -/

namespace Mutex

variable {st : State π κ ρ τ}

variable {st' : State π κ ρ τ}

/-- The mutex is not concerned if its owners stay, and no dying object goes. -/
theorem of_same (mutex : Mutex proc st)
    (task : ∀ t, (st'.task t).Holds ↔ (st.task t).Holds) (owner : st'.owner = st.owner)
    (dying : ∀ id obj, st.objs id = some obj → obj.dying = true → st'.objs id = some obj) : Mutex proc st' where
  holder := by
    intro t holds
    rw [owner]
    exact mutex.holder t ((task t).mp holds)
  owner := by
    intro p t owns
    rw [owner] at owns
    exact (mutex.owner p t owns).imp_right (task t).mpr
  drops := by
    intro p id owns
    rw [owner] at owns
    obtain ⟨obj, here, rfl, dead⟩ := mutex.drops p id owns
    exact ⟨obj, dying id obj here dead, rfl, dead⟩

variable {t : τ}

section

variable (mutex : Mutex proc st)

include mutex

theorem setTask (same : task.Holds ↔ (st.task t).Holds) : Mutex proc (st.setTask t task) := by
  refine mutex.of_same (fun u => ?_) rfl fun _ _ here _ => here
  by_cases mine : u = t
  · subst mine
    simpa only [State.setTask, Function.update_self] using same
  · simp only [State.setTask, Function.update_of_ne mine]

/-- A dying object keeps its place. -/
theorem of_core (task : st'.task = st.task) (owner : st'.owner = st.owner)
    (dying : ∀ id obj, st.objs id = some obj → obj.dying = true → st'.objs id = some obj) : Mutex proc st' :=
  mutex.of_same (fun t => by rw [task]) owner dying

theorem enter (free : st.owner (proc t) = none)
    (holds : task.Holds) : Mutex proc ((st.setTask t task).setOwner (proc t) (some (.task t))) := by
  obtain ⟨holder, owner, drops⟩ := mutex
  constructor <;> simp only [State.setOwner, State.setTask, Function.update_apply] <;> grind

theorem leave (task : Task ρ κ) (held : (st.task t).Holds)
    (released : ¬ task.Holds) : Mutex proc (st.leave (proc t) t task) := by
  obtain ⟨holder, owner, drops⟩ := mutex
  constructor <;> simp only [State.leave, State.setOwner, State.setTask, Function.update_apply] <;> grind

theorem lockDrop {id : Nat} {obj : Obj π κ}
    (here : st.objs id = some obj) (dying : obj.dying = true) (free : st.owner obj.proc = none)
    (task : st'.task = st.task) (objs : st'.objs = st.objs)
    (owner : st'.owner = Function.update st.owner obj.proc (some (.drop id))) : Mutex proc st' := by
  obtain ⟨holder, owned, drops⟩ := mutex
  constructor <;> simp only [task, objs, owner, Function.update_apply] <;> grind

theorem remove {id : Nat} {obj : Obj π κ} (here : st.objs id = some obj) (holds : st.owner obj.proc = some (.drop id))
    (task : st'.task = st.task) (objs : st'.objs = Function.update st.objs id none)
    (owner : st'.owner = Function.update st.owner obj.proc none) : Mutex proc st' := by
  obtain ⟨holder, owned, drops⟩ := mutex
  constructor <;> simp only [task, objs, owner, Function.update_apply] <;> grind

end

end Mutex

theorem wake_holds (proc : τ → π) (p : π) (task : τ → Task ρ κ) (t : τ) :
    (wake proc p task t).Holds ↔ (task t).Holds := by
  unfold wake
  cases task t with
  | waiting repo view =>
    dsimp only
    split <;> rfl
  | _ => rfl

/-- **A dying object stays until its `Drop` removes it.** -/
theorem Step.dying_stays (step : Step proc st action closes st') (wired : Wired st.core)
    (here : st.objs id = some obj) (dying : obj.dying = true) (kept : action ≠ .remove id) :
    st'.objs id = some obj := by
  -- a step that changes another object
  have other : ∀ id' obj' next, st.objs id' = some obj' → obj'.dying = false →
      Function.update st.objs id' next id = some obj := by
    grind
  have used : ∀ id' obj' next, st.objs id' = some obj' → 0 < obj'.handles ∨ obj'.guards ≠ [] →
      Function.update st.objs id' next id = some obj := fun id' obj' next here' owned =>
    other id' obj' next here' ((wired.sound id' obj' here').alive owned)
  cases step with
  | call | enter | probeOther | probeDying | probeNone | openFile | create | createFails | openFails
  | foundOther | foundDying | spurious | lockDrop | notify | relink => exact here
  | probeLive _ _ _ live => exact other _ _ _ live.1 live.2.2
  | foundLive _ _ live => exact other _ _ _ live.1 live.2.2
  | register _ _ unused =>
    refine (Function.update_of_ne ?_ ..).trans here
    rintro rfl
    rw [here] at unused
    cases unused
  | clone here' owned => exact other _ _ _ here' owned
  | dropHandle here' owned | tryAcquire _ here' _ owned | acquireUpdate here' _ owned =>
    exact used _ _ _ here' (.inl owned)
  | release here' _ owned | releaseUpdate here' _ owned =>
    exact used _ _ _ here' (.inr (List.ne_nil_of_mem owned))
  | remove here' holds found =>
    refine (Function.update_of_ne ?_ ..).trans here
    rintro rfl
    exact kept rfl

/-- **Every step keeps the mutex and its holder in step.** -/
theorem Mutex.step (mutex : Mutex proc st) (wired : Wired st.core)
    (step : Step proc st action closes st') : Mutex proc st' := by
  have stays : (∀ id, action ≠ .remove id) → ∀ id obj, st.objs id = some obj → obj.dying = true →
      st'.objs id = some obj := fun kept id obj here dying => step.dying_stays wired here dying (kept id)
  cases step with
  | call repo view here | probeNone here | openFile here | spurious here => exact mutex.setTask (by rw [here]; rfl)
  | enter here free => exact mutex.enter free trivial
  | probeLive here | createFails here | register here | foundLive here | foundOther here =>
    exact (mutex.leave .idle (by rw [here]; trivial) not_false).of_core rfl rfl (stays (by simp))
  | probeOther here | openFails here => exact mutex.leave .idle (by rw [here]; trivial) not_false
  | probeDying here => exact mutex.leave (.waiting _ _) (by rw [here]; trivial) not_false
  | create here =>
    refine Mutex.of_core (mutex.setTask ?_) rfl rfl (stays (by simp))
    rw [here]
    rfl
  | foundDying here =>
    exact (mutex.leave (.waiting _ _) (by rw [here]; trivial) not_false).of_core rfl rfl (stays (by simp))
  | clone | dropHandle | tryAcquire | release | acquireUpdate | releaseUpdate | relink =>
    exact mutex.of_core rfl rfl (stays (by simp))
  | lockDrop here dying free => exact mutex.lockDrop here dying free rfl rfl rfl
  | remove here holds found => exact mutex.remove here holds rfl rfl rfl
  | @notify _ p pending =>
    exact mutex.of_same (wake_holds proc p st.task) rfl (stays (by simp))

/-! ### The reachable states -/

/-- What holds in every reachable state. -/
structure Invariant (proc : τ → π) (st : State π κ ρ τ) : Prop where
  wired : Wired st.core
  mutex : Mutex proc st

theorem Invariant.step (inv : Invariant proc st) (step : Step proc st action closes st') : Invariant proc st' := by
  obtain ⟨mid, first, second⟩ := step.changes inv.wired inv.mutex
  exact ⟨(inv.wired.change first).change second, inv.mutex.step inv.wired step⟩

theorem Invariant.init (proc : τ → π) (names : ρ → View → Option κ) : Invariant proc (State.init names) where
  wired := by
    refine ⟨?_, ?_, ?_, ?_, ?_, ?_⟩
    · exact fun _ _ here => nomatch here
    · exact fun _ _ _ found => nomatch found
    · exact fun _ _ here => nomatch here
    · exact fun _ _ here => nomatch here
    · exact fun _ _ _ => rfl
    · exact fun _ _ _ held => nomatch held
  mutex := ⟨fun _ holds => holds.elim, fun _ _ owns => (nomatch owns), fun _ _ owns => (nomatch owns)⟩

theorem Reaches.invariant (reaches : Reaches proc names st) :
    Invariant proc st := by
  induction reaches with
  | init => exact Invariant.init proc names
  | step _ step before => exact before.step step

end Ostrya.Lock
