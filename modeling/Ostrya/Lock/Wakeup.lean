/-
**The repository lock excludes, and a waiting call is woken** (`lock.rs`).

* `Step.closes_dead`: a descriptor closes only when its process has no live lock object for the inode;
* `Waits.step`: a call that waits has a waker, a dying object of its process or a pending `notify_all`;
* `Run.woken`: along a fair run the waker comes;
* `repo_lock_excludes`: the lock over every reachable state and every fair run.

A run is fair if who holds the registry mutex goes on, if a `notify_all` that is due happens, and if a
`Drop` that finds the mutex free again and again gets it once.
-/

import Mathlib.Data.Nat.Init
import Ostrya.Lock.Exclusion

namespace Ostrya.Lock

theorem until_event (stays : Nat → Prop) {event : Nat → Prop} (now : stays n)
    (next : ∀ k, n ≤ k → stays k → ¬ event k → stays (k + 1)) (comes : ∃ m, n ≤ m ∧ event m) :
    ∃ m, n ≤ m ∧ event m ∧ stays m := by
  obtain ⟨m, later, happens⟩ := comes
  obtain ⟨gap, rfl⟩ := Nat.exists_eq_add_of_le later
  induction gap generalizing n with
  | zero => exact ⟨n, Nat.le_refl n, happens, now⟩
  | succ gap ih =>
    grind

variable {π κ ρ τ : Type} [DecidableEq π] [DecidableEq κ] [DecidableEq τ] [DecidableEq ρ] {proc : τ → π}

section Steps

variable {st st' : State π κ ρ τ} {action : Action π τ} {closes : List (π × κ)}

variable {p : π} {id : Nat} {obj : Obj π κ}

/-- **A descriptor closes only when no live lock object of its process and inode is there.** -/
theorem Step.closes_dead (step : Step proc st action closes st') (inv : Invariant proc st)
    (closed : (p, key) ∈ closes) (here : st.objs id = some obj)
    (of_process : obj.proc = p) (of_inode : obj.key = key) : obj.dying = true := by
  -- a dying object of the inode is the only object of the inode
  have same : ∀ id' obj', st.objs id' = some obj' → obj'.dying = true →
      (p, key) = (obj'.proc, obj'.key) → obj.dying = true := by
    intro id' obj' here' dying is
    cases is
    have one := inv.wired.unique here' here of_process of_inode
    subst one
    rw [here'] at here
    cases here
    exact dying
  cases step with
  | createFails _ absent fresh =>
    cases List.mem_singleton.mp closed
    obtain ⟨parked, found⟩ := inv.wired.registered id obj here
    have gone : st.registry obj.proc obj.key = none := by
      rw [of_inode]
      exact fresh.unregistered obj.proc
    have found' : st.registry obj.proc obj.key = some ⟨id, parked⟩ := found
    rw [gone] at found'
    cases found'
  | lockDrop here' dying free => exact same _ _ here' dying (List.mem_singleton.mp closed)
  | @remove obj' entry _ id' here' holds found =>
    obtain ⟨obj'', here'', -, dying⟩ := inv.mutex.drops _ _ holds
    rw [here'] at here''
    cases here''
    exact same _ _ here' dying (List.eq_of_mem_replicate closed)
  | _ => cases closed

/-- An object that is removed has a `notify_all` to make. -/
theorem Step.remove_notifies (step : Step proc st (.remove id) closes st')
    (here : st.objs id = some obj) : 0 < st'.notifying obj.proc := by
  cases step with
  | @remove obj' _ _ _ here' holds found =>
    grind

theorem Step.lockDrop_owns (step : Step proc st (.lockDrop id) closes st')
    (here : st.objs id = some obj) : st'.owner obj.proc = some (.drop id) := by
  cases step with
  | lockDrop here' =>
    rw [here] at here'
    cases here'
    exact Function.update_self ..

/-- A dying object of a process. -/
def Doomed (st : State π κ ρ τ) (p : π) : Prop :=
  ∃ id obj, st.objs id = some obj ∧ obj.proc = p ∧ obj.dying = true

/-- A call that waits has a waker. -/
def Waits (proc : τ → π) (st : State π κ ρ τ) : Prop :=
  ∀ t repo view, st.task t = .waiting repo view → 0 < st.notifying (proc t) ∨ Doomed st (proc t)

/-- A dying object stays, or its `Drop` has a `notify_all` to make. -/
theorem Step.doomed (step : Step proc st action closes st') (inv : Invariant proc st)
    (doomed : Doomed st p) : 0 < st'.notifying p ∨ Doomed st' p := by
  obtain ⟨id, obj, here, rfl, dying⟩ := doomed
  by_cases removed : action = .remove id
  · subst removed
    exact .inl (step.remove_notifies here)
  · exact .inr ⟨id, obj, step.dying_stays inv.wired here dying removed, rfl, dying⟩

/-- A `notify_all` that is due stays due until it is made. -/
theorem Step.notifying (step : Step proc st action closes st') (pending : 0 < st.notifying p)
    (other : action ≠ .notify p) : 0 < st'.notifying p := by
  cases step with
  | @remove obj entry _ id here holds found =>
    grind
  | @notify _ q _ =>
    grind
  | _ => exact pending

variable {t : τ} {repo : ρ} {view : View}

omit [DecidableEq κ] [DecidableEq τ] [DecidableEq ρ] in
theorem wake_waiting
    (waits : wake proc p task t = .waiting repo view) : task t = .waiting repo view ∧ proc t ≠ p := by
  unfold wake at waits
  cases now : task t with
  | waiting repo' view' =>
    rw [now] at waits
    split_ifs at waits with apart
    exact ⟨waits, apart⟩
  | _ =>
    rw [now] at waits
    cases waits

omit [DecidableEq π] [DecidableEq κ] [DecidableEq ρ] in
theorem setTask_waiting (waits : Function.update st.task t task u = .waiting repo view) :
    st.task u = .waiting repo view ∨ (u = t ∧ task = .waiting repo view) := by
  by_cases mine : u = t
  · subst mine
    rw [Function.update_self] at waits
    exact .inr ⟨rfl, waits⟩
  · rw [Function.update_of_ne mine] at waits
    exact .inl waits

/-- A call that waits after a step waited before, or has just found a dying lock. -/
theorem Step.waiting_before (step : Step proc st action closes st') (wired : Wired st.core)
    (waits : st'.task t = .waiting repo view) :
    (st.task t = .waiting repo view ∧ action ≠ .notify (proc t)) ∨
      (Doomed st (proc t) ∧ ∀ id, action ≠ .remove id) := by
  -- a dying entry of the registry leads to a dying object of the process
  have doomed : ∀ u key entry view' obj, st.registry (proc u) key = some entry →
      Dying st entry view' obj → Doomed st (proc u) := by
    intro u key entry view' obj found dying
    obtain ⟨obj', here, of_process, -⟩ := wired.known (proc u) key entry found
    have here' : st.objs entry.lock = some obj' := here
    rw [dying.1] at here'
    cases here'
    exact ⟨entry.lock, obj, dying.1, of_process, dying.2.2⟩
  cases step with
  | call | enter | probeLive | probeOther | probeNone | openFile | create | createFails | openFails
  | register | foundLive | foundOther | spurious =>
    obtain before | ⟨-, absurd⟩ := setTask_waiting waits
    · exact .inl ⟨before, by simp⟩
    · cases absurd
  | probeDying here named found dying =>
    obtain before | ⟨rfl, -⟩ := setTask_waiting waits
    · exact .inl ⟨before, by simp⟩
    · exact .inr ⟨doomed _ _ _ _ _ found dying, by simp⟩
  | foundDying here found dying =>
    obtain before | ⟨rfl, -⟩ := setTask_waiting waits
    · exact .inl ⟨before, by simp⟩
    · exact .inr ⟨doomed _ _ _ _ _ found dying, by simp⟩
  | @notify _ p pending =>
    obtain ⟨before, apart⟩ := wake_waiting waits
    refine .inl ⟨before, fun same => apart ?_⟩
    cases same
    rfl
  | _ => exact .inl ⟨waits, by simp⟩

/-- Who waits goes on waiting, or is woken. -/
theorem Step.waiting_next (step : Step proc st action closes st') (waits : st.task t = .waiting repo view) :
    (st'.task t = .waiting repo view ∧ action ≠ .notify (proc t)) ∨ st'.task t = .start repo view := by
  -- a call that does not wait is another one
  have update : ∀ u task, ¬ st.task u = .waiting repo view →
      Function.update st.task u task t = .waiting repo view := by
    intro u task other
    refine (Function.update_of_ne ?_ ..).trans waits
    rintro rfl
    exact other waits
  cases step with
  | call _ _ here => exact .inl ⟨update _ _ (by simp [here]), by simp⟩
  | enter here | probeLive here | probeOther here | probeDying here | probeNone here | openFile here
  | create here | createFails here | openFails here | register here | foundLive here | foundOther here
  | foundDying here => exact .inl ⟨update _ _ (by simp [here]), by simp⟩
  | @spurious _ u _ _ here =>
    by_cases mine : t = u
    · subst mine
      rw [waits] at here
      cases here
      exact .inr (Function.update_self ..)
    · exact .inl ⟨(Function.update_of_ne mine ..).trans waits, by simp⟩
  | @notify _ p =>
    grind [wake]
  | _ => exact .inl ⟨waits, by simp⟩

theorem Waits.step (waits : Waits proc st) (inv : Invariant proc st)
    (step : Step proc st action closes st') : Waits proc st' := by
  intro t repo view waiting
  obtain ⟨before, other⟩ | ⟨doomed, -⟩ := step.waiting_before inv.wired waiting
  · obtain pending | doomed := waits t repo view before
    · exact .inl (step.notifying pending other)
    · exact step.doomed inv doomed
  · exact step.doomed inv doomed

theorem Reaches.waits (reaches : Reaches proc names st) : Waits proc st := by
  induction reaches with
  | init => exact fun _ _ _ waiting => nomatch waiting
  | step before step waits => exact waits.step before.invariant step

/-! ### The registry mutex gets free -/

/-- How much a call still does with the registry mutex. -/
def Task.rank : Task ρ κ → Nat
  | .probing .. => 3
  | .opening .. => 2
  | .opened .. => 1
  | _ => 0

/-- A holder of the mutex stays where it is until it moves. -/
theorem Step.holder_stays (step : Step proc st action closes st') (holds : (st.task t).Holds)
    (other : action ≠ .task t) : st'.task t = st.task t := by
  -- the step moves another call
  have update : ∀ u task, u ≠ t → Function.update st.task u task t = st.task t := fun u task apart =>
    Function.update_of_ne (Ne.symm apart) ..
  have by_action : ∀ u, action = .task u → u ≠ t := by
    rintro u rfl rfl
    exact other rfl
  have by_task : ∀ u, ¬ (st.task u).Holds → u ≠ t := by
    rintro u idle rfl
    exact idle holds
  cases step with
  | call _ _ here => exact update _ _ (by_task _ (by rw [here]; exact not_false))
  | enter here => exact update _ _ (by_task _ (by rw [here]; exact not_false))
  | spurious here => exact update _ _ (by_task _ (by rw [here]; exact not_false))
  | probeLive | probeOther | probeDying | probeNone | openFile | create | createFails | openFails
  | register | foundLive | foundOther | foundDying => exact update _ _ (by_action _ rfl)
  | notify =>
    show wake proc _ st.task t = st.task t
    unfold wake
    cases now : st.task t with
    | waiting repo view =>
      rw [now] at holds
      exact holds.elim
    | _ => rfl
  | _ => rfl

/-- A holder of the mutex that moves releases it, or has less to do. -/
theorem Step.holder_moves (step : Step proc st (.task t) closes st') :
    st'.owner (proc t) = none ∨ ((st'.task t).Holds ∧ (st'.task t).rank < (st.task t).rank) := by
  cases step with
  | probeNone here | openFile here | create here =>
    right
    show (Function.update st.task t _ t).Holds ∧ (Function.update st.task t _ t).rank < _
    rw [Function.update_self, here]
    exact ⟨trivial, Nat.lt_succ_self _⟩
  | _ => exact .inl (Function.update_self ..)

end Steps

/-! ### Runs -/

/-- A run that never ends. -/
structure Run (proc : τ → π) (names : ρ → View → Option κ) where
  state : Nat → State π κ ρ τ
  action : Nat → Action π τ
  closes : Nat → List (π × κ)
  start : state 0 = State.init names
  next : ∀ n, Step proc (state n) (action n) (closes n) (state (n + 1))

namespace Run

variable {names : ρ → View → Option κ}

/-- A fair run. -/
structure Fair (run : Run proc names) : Prop where
  call : ∀ n t, ((run.state n).task t).Holds → ∃ m, n ≤ m ∧ run.action m = .task t
  drop : ∀ n p id, (run.state n).owner p = some (.drop id) → ∃ m, n ≤ m ∧ run.action m = .remove id
  notify : ∀ n p, 0 < (run.state n).notifying p → ∃ m, n ≤ m ∧ run.action m = .notify p
  mutex : ∀ n id obj, (∀ m, n ≤ m → (run.state m).objs id = some obj) → obj.dying = true →
    (∀ m, n ≤ m → ∃ k, m ≤ k ∧ (run.state k).owner obj.proc = none) →
    ∃ m, n ≤ m ∧ run.action m = .lockDrop id

theorem reaches (run : Run proc names) (n : Nat) : Reaches proc names (run.state n) := by
  induction n with
  | zero =>
    rw [run.start]
    exact .init
  | succ n before => exact .step before (run.next n)

variable {run : Run proc names} {n : Nat}

/-- An object whose `Drop` has the mutex is removed, and a `notify_all` of its process is due. -/
theorem Fair.removed (fair : run.Fair) {id : Nat}
    (owns : (run.state n).owner p = some (.drop id)) : ∃ m, n ≤ m ∧ 0 < (run.state m).notifying p := by
  have inv := (run.reaches n).invariant
  obtain ⟨obj, here, rfl, dying⟩ := inv.mutex.drops p id owns
  obtain ⟨m, later, removes, still⟩ :=
    until_event (fun k => (run.state k).objs id = some obj) here
      (fun k _ still other => (run.next k).dying_stays (run.reaches k).invariant.wired still dying other)
      (fair.drop n obj.proc id owns)
  have step := run.next m
  rw [removes] at step
  exact ⟨m + 1, by omega, step.remove_notifies still⟩

theorem Fair.released (fair : run.Fair)
    (holds : ((run.state n).task t).Holds) : ∃ m, n ≤ m ∧ (run.state m).owner (proc t) = none := by
  -- by the number of things that the call still does
  induction left : ((run.state n).task t).rank using Nat.strongRecOn generalizing n with
  | _ left ih =>
    obtain ⟨m, later, moves, still⟩ :=
      until_event (fun k => (run.state k).task t = (run.state n).task t) rfl
        (fun k _ same other => ((run.next k).holder_stays (by rw [same]; exact holds) other).trans same)
        (fair.call n t holds)
    have step := run.next m
    rw [moves] at step
    obtain free | ⟨holds', less⟩ := step.holder_moves
    · exact ⟨m + 1, by omega, free⟩
    rw [still, left] at less
    obtain ⟨k, after, free⟩ := ih _ less holds' rfl
    exact ⟨k, by omega, free⟩

/-- **A call that waits is woken.** -/
theorem Fair.woken (fair : run.Fair) {t : τ} {view : View} (waits : (run.state n).task t = .waiting repo view) :
    ∃ m, n < m ∧ (run.state m).task t = .start repo view := by
  by_contra never
  have forever : ∀ m, n ≤ m → (run.state m).task t = .waiting repo view := by
    intro m later
    induction m, later using Nat.le_induction with
    | base => exact waits
    | succ m later before =>
      obtain still | woken := (run.next m).waiting_next before
      · exact still.1
      · exact absurd ⟨m + 1, by omega, woken⟩ never
  -- a pending `notify_all` would wake the call
  have quiet : ∀ m, n ≤ m → ¬ 0 < (run.state m).notifying (proc t) := by
    intro m later pending
    obtain ⟨k, after, notifies⟩ := fair.notify m (proc t) pending
    obtain ⟨-, other⟩ | woken := (run.next k).waiting_next (forever k (by omega))
    · exact other notifies
    · exact never ⟨k + 1, by omega, woken⟩
  -- so no object of the process is removed, and a dying one stays
  obtain pending | ⟨id, obj, here, of_process, dying⟩ := (run.reaches n).waits t repo view waits
  · exact quiet n (Nat.le_refl n) pending
  have stays : ∀ m, n ≤ m → (run.state m).objs id = some obj := by
    intro m later
    induction m, later using Nat.le_induction with
    | base => exact here
    | succ m later before =>
      have inv := (run.reaches m).invariant
      by_contra gone
      obtain removed : run.action m = .remove id := by
        by_contra other
        exact gone ((run.next m).dying_stays inv.wired before dying other)
      have step := run.next m
      rw [removed] at step
      have due := step.remove_notifies before
      rw [of_process] at due
      exact quiet (m + 1) (by omega) due
  have free : ∀ m, n ≤ m → ∃ k, m ≤ k ∧ (run.state k).owner obj.proc = none := by
    intro m later
    cases owner : (run.state m).owner obj.proc with
    | none => exact ⟨m, Nat.le_refl m, owner⟩
    | some who =>
      cases who with
      | task u =>
        obtain ⟨of_process', holds⟩ := (run.reaches m).invariant.mutex.owner _ _ owner
        rw [← of_process']
        exact fair.released holds
      | drop other =>
        obtain ⟨k, after, pending⟩ := fair.removed owner
        rw [of_process] at pending
        exact absurd pending (quiet k (by omega))
  -- the `Drop` of the dying object gets the mutex, and removes it
  obtain ⟨m, later, drops⟩ := fair.mutex n id obj stays dying free
  have step := run.next m
  rw [drops] at step
  obtain ⟨k, after, pending⟩ := fair.removed (step.lockDrop_owns (stays m later))
  rw [of_process] at pending
  exact quiet k (by omega) pending

end Run

/-! ### The lock -/

/-- What the lock promises in a state. -/
structure Excludes (proc : τ → π) (st : State π κ ρ τ) : Prop where
  /-- An exclusive guard is the only guard of its lock object, -/
  single : ∀ id obj, st.objs id = some obj → .exclusive ∈ obj.guards → obj.guards = [.exclusive]
  /-- and no other lock object of the inode, in any process, has a guard. -/
  alone : ∀ id obj id' obj', st.objs id = some obj → .exclusive ∈ obj.guards →
    st.objs id' = some obj' → obj'.key = obj.key → id' ≠ id → obj'.guards = []
  /-- The recorded lock is the lock that the kernel holds for the process, -/
  recorded : ∀ id obj, st.objs id = some obj → obj.data.os = st.locks obj.key obj.proc
  /-- and it is `Unlocked` exactly if no guard is alive. -/
  unlocked : ∀ id obj, st.objs id = some obj → (obj.data.os = .unlocked ↔ obj.guards = [])
  /-- A process has at most one lock object for an inode. -/
  unique : ∀ id obj id' obj', st.objs id = some obj → st.objs id' = some obj' →
    obj'.proc = obj.proc → obj'.key = obj.key → id' = id
  /-- The next step closes a descriptor only if no lock object of its process and inode is alive. -/
  closes : ∀ action closes st', Step proc st action closes st' → ∀ p key, (p, key) ∈ closes →
    ∀ id obj, st.objs id = some obj → obj.proc = p → obj.key = key → obj.dying = true
  /-- A call that waits has a waker. -/
  waker : Waits proc st

theorem Reaches.excludes {names : ρ → View → Option κ} (reaches : Reaches proc names st) :
    Excludes proc st := by
  have inv := reaches.invariant
  refine ⟨?_, ?_, ?_, ?_, ?_, ?_, reaches.waits⟩
  · exact fun id obj here guard => ((inv.wired.sound id obj here).of_exclusive guard).1
  · exact fun id obj id' obj' here guard here' key apart => inv.wired.exclusive_alone here guard here' key apart
  · exact fun id obj here => (inv.wired.kernel id obj here).symm
  · exact fun id obj here => (inv.wired.sound id obj here).unlocked_iff
  · exact fun id obj id' obj' here here' proc key => inv.wired.unique here here' proc key
  · exact fun action closes st' step p key closed id obj here proc key =>
      step.closes_dead inv closed here proc key

/-- **The repository lock excludes across handles and processes**: every reachable state keeps the
promises of the lock, and along a fair run a call that waits for a dying entry is woken. -/
theorem repo_lock_excludes (proc : τ → π) (names : ρ → View → Option κ) :
    (∀ st, Reaches proc names st → Excludes proc st) ∧
      ∀ run : Run proc names, run.Fair → ∀ n t repo view, (run.state n).task t = .waiting repo view →
        ∃ m, n < m ∧ (run.state m).task t = .start repo view :=
  ⟨fun _ reaches => reaches.excludes, fun _ fair _ _ _ _ waits => fair.woken waits⟩

/-! ### A run with two processes

A call creates the lock and takes it; a call of another process registers the same inode, and its attempt is
refused. The first process then drops its last reference, and a second call of it finds the dying lock and
waits. -/

namespace Sample

abbrev St := State Bool Unit Unit (Option Bool)

/-- The call `none` is of another process. -/
def process : Option Bool → Bool := Option.isNone

/-- The lock object of a process at rest. -/
def lock (p : Bool) : Obj Bool Unit := newObj p () .repo

/-- The first `try_acquire` of a lock object. -/
def first (fcntl : Fcntl) : Tried := (LockState.mk 0 0 .unlocked).tryAcquire .exclusive fcntl

/-- The lock object with an exclusive guard. -/
def held : Obj Bool Unit := (lock false).tried .exclusive (first .granted)

/-- The lock object after the guard. -/
def rest : Obj Bool Unit :=
  { held.unhold .exclusive with data := .repo ((LockState.mk 0 1 .exclusive).release .exclusive).1 }

/-- No lock file exists. -/
def unnamed : Unit → View → Option Unit := fun _ _ => none

def s0 : St := .init unnamed
def s1 : St := s0.setTask (some false) (.start () .repo)
def s2 : St := (s1.setTask (some false) (.probing () .repo)).setOwner false (some (.task (some false)))
def s3 : St := s2.setTask (some false) (.opening () .repo)
def s4 : St := { s3.setTask (some false) (.opened .repo () ()) with
  names := Function.update s3.names () (Function.update (s3.names ()) .repo (some ())) }
def s5 : St := ((s4.leave false (some false) .idle).setObj 0 (some (lock false))).setEntry false () (some ⟨0, 0⟩)
def s6 : St := s5.setTask none (.start () .repo)
def s7 : St := (s6.setTask none (.probing () .repo)).setOwner true (some (.task none))
def s8 : St := s7.setTask none (.opening () .repo)
def s9 : St := s8.setTask none (.opened .repo () ())
def s10 : St := ((s9.leave true none .idle).setObj 1 (some (lock true))).setEntry true () (some ⟨1, 0⟩)
def s11 : St := { s10.setObj 0 (some held) with locks := triedLocks s10.locks () false (first .granted) }
def s12 : St := { s11.setObj 1 (some ((lock true).tried .exclusive (first .wouldBlock))) with
  locks := triedLocks s11.locks () true (first .wouldBlock) }
def s13 : St := { s12.setObj 0 (some rest) with
  locks := releasedLocks s12.locks () false ((LockState.mk 0 1 .exclusive).release .exclusive).2 }
def s14 : St := s13.setObj 0 (some rest.dropHandle)
def s15 : St := s14.setTask (some true) (.start () .repo)
def s16 : St := (s15.setTask (some true) (.probing () .repo)).setOwner false (some (.task (some true)))
def s17 : St := s16.leave false (some true) (.waiting () .repo)
def s18 : St := { s17.setOwner false (some (.drop 0)) with locks := setLock s17.locks () false .unlocked }
def s19 : St := { ((s18.setOwner false none).setObj 0 none).setEntry false () none with
  locks := s18.locks, notifying := Function.update s18.notifying false 1 }
def s20 : St := { s19 with
  task := wake process false s19.task, notifying := Function.update s19.notifying false 0 }

def state : Nat → St
  | 0 => s0 | 1 => s1 | 2 => s2 | 3 => s3 | 4 => s4 | 5 => s5 | 6 => s6 | 7 => s7 | 8 => s8 | 9 => s9 | 10 => s10
  | 11 => s11 | 12 => s12 | 13 => s13 | 14 => s14 | 15 => s15 | 16 => s16 | 17 => s17 | 18 => s18 | 19 => s19
  | _ => s20

def action : Nat → Action Bool (Option Bool)
  | 2 | 3 | 4 => .task (some false)
  | 7 | 8 | 9 => .task none
  | 16 => .task (some true)
  | 17 => .lockDrop 0
  | 18 => .remove 0
  | 19 => .notify false
  | _ => .other

def closes : Nat → List (Bool × Unit)
  | 17 => [(false, ())]
  | _ => []

theorem no_conflict : ¬ Conflict s10.locks () false .exclusive := by
  rintro ⟨_, -, taken | ⟨-, taken⟩⟩ <;> cases taken

theorem fresh : s3.Fresh () where
  unregistered := fun _ => rfl
  unopened := by
    intro t view repo
    rcases t with _ | _ | _ <;> exact fun absurd => nomatch absurd
  unnamed := fun _ _ absurd => nomatch absurd

theorem next : ∀ n, Step process (state n) (action n) (closes n) (state (n + 1))
  | 0 => .call () .repo rfl
  | 1 => .enter rfl rfl
  | 2 => .probeNone rfl
  | 3 => .create rfl rfl fresh
  | 4 => .register rfl rfl rfl
  | 5 => .call () .repo rfl
  | 6 => .enter rfl rfl
  | 7 => .probeNone rfl
  | 8 => .openFile rfl rfl
  | 9 => .register rfl rfl rfl
  | 10 => .tryAcquire .exclusive rfl rfl (by decide) no_conflict
  | 11 => .tryAcquire .exclusive rfl rfl (by decide) ⟨false, by decide, .inl rfl⟩
  | 12 => .release rfl rfl (by decide)
  | 13 => .dropHandle rfl (by decide)
  | 14 => .call () .repo rfl
  | 15 => .enter rfl rfl
  | 16 => .probeDying rfl rfl rfl ⟨rfl, rfl, rfl⟩
  | 17 => @Step.lockDrop _ _ _ _ _ _ _ _ process rest.dropHandle s17 0 rfl rfl rfl
  | 18 => @Step.remove _ _ _ _ _ _ _ _ process rest.dropHandle ⟨0, 0⟩ s18 0 rfl rfl rfl
  | 19 => .notify (by decide)
  | _ + 20 => .relink s20.names

def run : Run process unnamed where
  state := state
  action := action
  closes := closes
  start := rfl
  next := next

theorem alive {id : Nat} (here : s20.objs id = some obj) : obj.dying = false := by
  rcases id with _ | _ | id
  · cases here
  · cases here
    rfl
  · cases here

theorem fair : run.Fair where
  call := by
    intro n t holds
    rcases t with _ | _ | _
    · by_cases early : n ≤ 9
      · exact ⟨9, early, rfl⟩
      · match n, early with
        | 10, _ | 11, _ | 12, _ | 13, _ | 14, _ | 15, _ | 16, _ | 17, _ | 18, _ | 19, _ | _ + 20, _ =>
          exact holds.elim
    · by_cases early : n ≤ 4
      · exact ⟨4, early, rfl⟩
      · match n, early with
        | 5, _ | 6, _ | 7, _ | 8, _ | 9, _ | 10, _ | 11, _ | 12, _ | 13, _ | 14, _ | 15, _ | 16, _ | 17, _ | 18, _
        | 19, _ | _ + 20, _ => exact holds.elim
    · by_cases early : n ≤ 16
      · exact ⟨16, early, rfl⟩
      · match n, early with
        | 17, _ | 18, _ | 19, _ | _ + 20, _ => exact holds.elim
  drop := by
    intro n p id owns
    cases p with
    | true =>
      match n with
      | 0 | 1 | 2 | 3 | 4 | 5 | 6 | 7 | 8 | 9 | 10 | 11 | 12 | 13 | 14 | 15 | 16 | 17 | 18 | 19 | _ + 20 => cases owns
    | false =>
      match n with
      | 18 =>
        cases owns
        exact ⟨18, Nat.le_refl _, rfl⟩
      | 0 | 1 | 2 | 3 | 4 | 5 | 6 | 7 | 8 | 9 | 10 | 11 | 12 | 13 | 14 | 15 | 16 | 17 | 19 | _ + 20 => cases owns
  notify := by
    intro n p pending
    cases p with
    | true =>
      match n with
      | 0 | 1 | 2 | 3 | 4 | 5 | 6 | 7 | 8 | 9 | 10 | 11 | 12 | 13 | 14 | 15 | 16 | 17 | 18 | 19 | _ + 20 =>
        cases pending
    | false =>
      by_cases early : n ≤ 19
      · exact ⟨19, early, rfl⟩
      · match n, early with
        | _ + 20, _ => cases pending
  mutex := by
    intro n id obj stays dying free
    have here : s20.objs id = some obj := stays (n + 20) (by omega)
    rw [alive here] at dying
    cases dying

end Sample

/-- The attempt of the other process is refused, and the second call, which waits at 17, is
woken. -/
theorem repo_lock_excludes_two_processes : Excludes Sample.process Sample.s12 ∧
    (∃ obj, Sample.s12.objs 0 = some obj ∧ obj.proc = false ∧ obj.guards = [.exclusive]) ∧
    (∃ obj, Sample.s12.objs 1 = some obj ∧ obj.proc = true ∧ obj.guards = []) ∧
    ∃ m, 17 < m ∧ (Sample.run.state m).task (some true) = .start () .repo :=
  ⟨(repo_lock_excludes Sample.process Sample.unnamed).1 Sample.s12 (Sample.run.reaches 12),
    ⟨Sample.held, rfl, rfl, rfl⟩, ⟨_, rfl, rfl, rfl⟩,
    (repo_lock_excludes Sample.process Sample.unnamed).2 Sample.run Sample.fair 17 (some true) () .repo rfl⟩

end Ostrya.Lock
