/-
**The repository lock and the registry of lock files** (`lock.rs`, `lock/update.rs`).

`LockState.tryAcquire` and `LockState.release` are the hold counts of one lock object. The rest is the
system around them: the lock objects of every process, the registry of each process with its mutex and its
condition variable, the record locks of the kernel, and the names of the two lock files, which anyone can
link and rename at any moment.

A record lock belongs to a process and an inode, and the close of any descriptor of the inode drops it.
Each step says which descriptors it closes (`closes`).

Of the update lock only what the registry and the kernel see of it is kept: its queue decides who asks
next, not who gets the lock.
-/

import Mathlib.Logic.Function.Basic
import Mathlib.Data.List.Basic

namespace Ostrya.Lock

/-- `LockKind`. -/
inductive LockKind where
  | shared
  | exclusive
  deriving DecidableEq

/-- `OsLock`: the lock that the kernel holds for a process on an inode. -/
inductive OsLock where
  | unlocked
  | shared
  | exclusive
  deriving DecidableEq

/-- The record lock of a kind. -/
def LockKind.os : LockKind → OsLock
  | .shared => .shared
  | .exclusive => .exclusive

/-- `LockState`. -/
structure LockState where
  shared : Nat
  exclusive : Nat
  os : OsLock
  deriving DecidableEq

/-- `TryOutcome`. -/
inductive TryOutcome where
  | acquired
  | wouldBlock
  deriving DecidableEq

/-- The result of a non-blocking `fcntl_lock`: another holder has the lock (`would_block`), or
another error. -/
inductive Fcntl where
  | granted
  | wouldBlock
  | failed
  deriving DecidableEq

/-- What `try_acquire` returns, the state it leaves, and the record lock that it took. -/
structure Tried where
  outcome : Except Unit TryOutcome
  state : LockState
  takes : Option LockKind
  deriving DecidableEq

/-- `RepoLock::try_acquire`, by what its `fcntl_lock` would give. -/
def LockState.tryAcquire (st : LockState) (kind : LockKind) (fcntl : Fcntl) : Tried :=
  match kind with
  | .shared =>
    if st.exclusive > 0 then ⟨.ok .wouldBlock, st, none⟩
    else if st.os = .shared then ⟨.ok .acquired, { st with shared := st.shared + 1 }, none⟩
    else match fcntl with
      | .granted => ⟨.ok .acquired, { st with os := .shared, shared := st.shared + 1 }, some .shared⟩
      | .wouldBlock => ⟨.ok .wouldBlock, st, none⟩
      | .failed => ⟨.error (), st, none⟩
  | .exclusive =>
    if st.shared > 0 ∨ st.exclusive > 0 then ⟨.ok .wouldBlock, st, none⟩
    else match fcntl with
      | .granted =>
        ⟨.ok .acquired, { st with os := .exclusive, exclusive := st.exclusive + 1 }, some .exclusive⟩
      | .wouldBlock => ⟨.ok .wouldBlock, st, none⟩
      | .failed => ⟨.error (), st, none⟩

/-- The counts after one holder of `kind` went. -/
def LockState.dropHolder (st : LockState) : LockKind → LockState
  | .shared => { st with shared := st.shared - 1 }
  | .exclusive => { st with exclusive := st.exclusive - 1 }

/-- The record lock that the counts ask for. -/
def LockState.target (st : LockState) : OsLock :=
  if st.exclusive > 0 then .exclusive else if st.shared > 0 then .shared else .unlocked

/-- `RepoLock::release`: the state it leaves, and whether it asks the kernel to unlock. -/
def LockState.release (st : LockState) (kind : LockKind) : LockState × Bool :=
  let left := st.dropHolder kind
  if left.target = left.os then (left, false) else ({ left with os := left.target }, true)

/-! ### The system -/

/-- The two lock files, `LOCK_FILE` and `UPDATE_LOCK_FILE`, and the lock types for them. -/
inductive View where
  | repo
  | update
  deriving DecidableEq

/-- The state of a lock object: `LockState`, or the `held` of `UpdateState`. -/
inductive LockData where
  | repo (state : LockState)
  | update (held : Bool)

/-- The type of a lock object. -/
def LockData.view : LockData → View
  | .repo _ => .repo
  | .update _ => .update

/-- A lock object, `RepoLock` or `UpdateLock`, with its descriptor. `guards` are the guards that
hold it, and `handles` counts the other strong references: handles, and the futures of `acquire`. A
`dying` object has lost its last reference, and its `Drop` has not removed it yet. -/
structure Obj (π κ : Type) where
  proc : π
  key : κ
  data : LockData
  handles : Nat
  guards : List LockKind
  dying : Bool

/-- `Entry`: the lock object and the number of parked descriptors. -/
structure Entry where
  lock : Nat
  parked : Nat

/-- Where a call of `get_or_register` is. From `probing` to `opened` it holds the registry mutex. -/
inductive Task (ρ κ : Type) where
  | idle
  | start (repo : ρ) (view : View)
  | probing (repo : ρ) (view : View)
  | opening (repo : ρ) (view : View)
  | opened (view : View) (repo : ρ) (key : κ)
  | waiting (repo : ρ) (view : View)

/-- Who holds the registry mutex of a process: a call, or the `Drop` of a lock object. -/
inductive Owner (τ : Type) where
  | task (t : τ)
  | drop (id : Nat)

/-- The state of all processes, the kernel and the file names. `notifying` counts the drops that
removed their entry and have not called `notify_all` yet. -/
structure State (π κ ρ τ : Type) where
  objs : Nat → Option (Obj π κ)
  registry : π → κ → Option Entry
  owner : π → Option (Owner τ)
  notifying : π → Nat
  task : τ → Task ρ κ
  locks : κ → π → OsLock
  names : ρ → View → Option κ

/-- The steps that a fair scheduler gives their turn. -/
inductive Action (π τ : Type) where
  | task (t : τ)
  | lockDrop (id : Nat)
  | remove (id : Nat)
  | notify (p : π)
  | other

variable {π κ ρ τ : Type} [DecidableEq π] [DecidableEq κ] [DecidableEq τ] [DecidableEq ρ]

/-- Another process holds a record lock that excludes `kind`. -/
def Conflict (locks : κ → π → OsLock) (key : κ) (p : π) (kind : LockKind) : Prop :=
  ∃ q, q ≠ p ∧ (locks key q = .exclusive ∨ (kind = .exclusive ∧ locks key q = .shared))

/-- What `fcntl_lock` gives on a kernel state. -/
def Answers (locks : κ → π → OsLock) (key : κ) (p : π) (kind : LockKind) : Fcntl → Prop
  | .granted => ¬ Conflict locks key p kind
  | .wouldBlock => Conflict locks key p kind
  | .failed => True

/-- The kernel state after a process set its record lock on an inode. -/
def setLock (locks : κ → π → OsLock) (key : κ) (p : π) (lock : OsLock) : κ → π → OsLock :=
  Function.update locks key (Function.update (locks key) p lock)

namespace State

/-- The object of an id changes. -/
def setObj (st : State π κ ρ τ) (id : Nat) (obj : Option (Obj π κ)) : State π κ ρ τ :=
  { st with objs := Function.update st.objs id obj }

/-- The registry entry of an inode changes. -/
def setEntry (st : State π κ ρ τ) (p : π) (key : κ) (entry : Option Entry) : State π κ ρ τ :=
  { st with registry := Function.update st.registry p (Function.update (st.registry p) key entry) }

/-- A call moves on. -/
def setTask (st : State π κ ρ τ) (t : τ) (task : Task ρ κ) : State π κ ρ τ :=
  { st with task := Function.update st.task t task }

/-- The registry mutex of a process changes hands. -/
def setOwner (st : State π κ ρ τ) (p : π) (owner : Option (Owner τ)) : State π κ ρ τ :=
  { st with owner := Function.update st.owner p owner }

/-- A call ends, and releases the mutex. -/
def leave (st : State π κ ρ τ) (p : π) (t : τ) (task : Task ρ κ) : State π κ ρ τ :=
  (st.setTask t task).setOwner p none

/-- A new inode: no process has it open, and no name leads to it. -/
structure Fresh (st : State π κ ρ τ) (key : κ) : Prop where
  unregistered : ∀ p, st.registry p key = none
  unopened : ∀ t view repo, st.task t ≠ .opened view repo key
  unnamed : ∀ repo view, st.names repo view ≠ some key

end State

/-- `Found::Live`: a lock object of the type that the call asks for, with a strong reference. -/
def Live (st : State π κ ρ τ) (entry : Entry) (view : View) (obj : Obj π κ) : Prop :=
  st.objs entry.lock = some obj ∧ obj.data.view = view ∧ obj.dying = false

/-- `Found::Dying`. -/
def Dying (st : State π κ ρ τ) (entry : Entry) (view : View) (obj : Obj π κ) : Prop :=
  st.objs entry.lock = some obj ∧ obj.data.view = view ∧ obj.dying = true

/-- `Found::Other`: the inode is registered for the other lock file. -/
def Other (st : State π κ ρ τ) (entry : Entry) (view : View) (obj : Obj π κ) : Prop :=
  st.objs entry.lock = some obj ∧ obj.data.view ≠ view

/-- A new lock object, with the reference that `get_or_register` returns. -/
def newObj (p : π) (key : κ) : View → Obj π κ
  | .repo => ⟨p, key, .repo ⟨0, 0, .unlocked⟩, 1, [], false⟩
  | .update => ⟨p, key, .update false, 1, [], false⟩

/-- The guard of a successful `acquire` takes the place of the reference of its future. -/
def Obj.hold (obj : Obj π κ) (kind : LockKind) : Obj π κ :=
  { obj with handles := obj.handles - 1, guards := kind :: obj.guards }

/-- A guard's `Drop` ran, and its reference is still there. -/
def Obj.unhold (obj : Obj π κ) (kind : LockKind) : Obj π κ :=
  { obj with handles := obj.handles + 1, guards := obj.guards.erase kind }

/-- A `Tried` on a lock object. -/
def Obj.tried (obj : Obj π κ) (kind : LockKind) (tried : Tried) : Obj π κ :=
  match tried.outcome with
  | .ok .acquired => { obj.hold kind with data := .repo tried.state }
  | _ => { obj with data := .repo tried.state }

/-- The kernel state after a `Tried`. -/
def triedLocks (locks : κ → π → OsLock) (key : κ) (p : π) (tried : Tried) : κ → π → OsLock :=
  match tried.takes with
  | some kind => setLock locks key p kind.os
  | none => locks

/-- The kernel state after a `release`. -/
def releasedLocks (locks : κ → π → OsLock) (key : κ) (p : π) (unlocks : Bool) : κ → π → OsLock :=
  if unlocks then setLock locks key p .unlocked else locks

/-- A reference is dropped: the object dies with its last one. -/
def Obj.dropHandle (obj : Obj π κ) : Obj π κ :=
  if obj.handles + obj.guards.length > 1 then { obj with handles := obj.handles - 1 }
  else { obj with handles := 0, dying := true }

/-- `notify_all` of a process. -/
def wake (proc : τ → π) (p : π) (task : τ → Task ρ κ) : τ → Task ρ κ := fun t =>
  match task t with
  | .waiting repo view => if proc t = p then .start repo view else .waiting repo view
  | other => other

/-- One step of the system, its action, and the descriptors that it closes. `proc` gives the process
of each call. -/
inductive Step (proc : τ → π) : State π κ ρ τ → Action π τ → List (π × κ) → State π κ ρ τ → Prop where
  /-- `get_or_create` is called. -/
  | call (repo : ρ) (view : View) (here : st.task t = .idle) :
      Step proc st .other [] (st.setTask t (.start repo view))
  /-- The call takes the registry mutex. -/
  | enter (here : st.task t = .start repo view)
      (free : st.owner (proc t) = none) :
      Step proc st .other [] ((st.setTask t (.probing repo view)).setOwner (proc t) (some (.task t)))
  /-- The probe finds a live lock. -/
  | probeLive (here : st.task t = .probing repo view) (named : st.names repo view = some key)
      (found : st.registry (proc t) key = some entry) (live : Live st entry view obj) :
      Step proc st (.task t) [] ((st.leave (proc t) t .idle).setObj entry.lock
        (some { obj with handles := obj.handles + 1 }))
  /-- The probe finds a lock of the other lock file: `shared_inode`. -/
  | probeOther (here : st.task t = .probing repo view) (named : st.names repo view = some key)
      (found : st.registry (proc t) key = some entry) (other : Other st entry view obj) :
      Step proc st (.task t) [] (st.leave (proc t) t .idle)
  /-- The probe finds a dying lock, and the call waits. -/
  | probeDying (here : st.task t = .probing repo view) (named : st.names repo view = some key)
      (found : st.registry (proc t) key = some entry) (dying : Dying st entry view obj) :
      Step proc st (.task t) [] (st.leave (proc t) t (.waiting repo view))
  /-- The probe finds no entry, or its `statat` fails. -/
  | probeNone (here : st.task t = .probing repo view) :
      Step proc st (.task t) [] (st.setTask t (.opening repo view))
  /-- The open finds a file. -/
  | openFile (here : st.task t = .opening repo view) (named : st.names repo view = some key) :
      Step proc st (.task t) [] (st.setTask t (.opened view repo key))
  /-- The open creates the file. -/
  | create (here : st.task t = .opening repo view) (absent : st.names repo view = none)
      (fresh : st.Fresh key) : Step proc st (.task t) [] { st.setTask t (.opened view repo key) with
        names := Function.update st.names repo (Function.update (st.names repo) view (some key)) }
  /-- The open creates the file, and the `fchmod` fails. -/
  | createFails (here : st.task t = .opening repo view) (absent : st.names repo view = none) (fresh : st.Fresh key) :
      Step proc st (.task t) [(proc t, key)] { st.leave (proc t) t .idle with
        names := Function.update st.names repo (Function.update (st.names repo) view (some key))
        locks := setLock st.locks key (proc t) .unlocked }
  /-- The open fails. -/
  | openFails (here : st.task t = .opening repo view) :
      Step proc st (.task t) [] (st.leave (proc t) t .idle)
  /-- The registry has no entry for the open file: the call registers a new lock. -/
  | register {id : Nat} (here : st.task t = .opened view repo key)
      (absent : st.registry (proc t) key = none) (unused : st.objs id = none) :
      Step proc st (.task t) [] (((st.leave (proc t) t .idle).setObj id (some (newObj (proc t) key view))).setEntry
        (proc t) key (some ⟨id, 0⟩))
  /-- The registry has a live lock for it: the call parks the descriptor. -/
  | foundLive (here : st.task t = .opened view repo key)
      (found : st.registry (proc t) key = some entry) (live : Live st entry view obj) :
      Step proc st (.task t) [] (((st.leave (proc t) t .idle).setObj entry.lock
        (some { obj with handles := obj.handles + 1 })).setEntry (proc t) key
          (some { entry with parked := entry.parked + 1 }))
  /-- The registry has a lock of the other lock file for it. -/
  | foundOther (here : st.task t = .opened view repo key)
      (found : st.registry (proc t) key = some entry) (other : Other st entry view obj) :
      Step proc st (.task t) [] ((st.leave (proc t) t .idle).setEntry (proc t) key
        (some { entry with parked := entry.parked + 1 }))
  /-- The registry has a dying lock for it, and the call waits. -/
  | foundDying (here : st.task t = .opened view repo key)
      (found : st.registry (proc t) key = some entry) (dying : Dying st entry view obj) :
      Step proc st (.task t) [] ((st.leave (proc t) t (.waiting repo view)).setEntry (proc t) key
        (some { entry with parked := entry.parked + 1 }))
  /-- A wait on a condition variable can end with no `notify_all`. -/
  | spurious (here : st.task t = .waiting repo view) :
      Step proc st .other [] (st.setTask t (.start repo view))
  /-- A reference is cloned. -/
  | clone {id : Nat} (here : st.objs id = some obj)
      (owned : obj.dying = false) :
      Step proc st .other [] (st.setObj id (some { obj with handles := obj.handles + 1 }))
  /-- A reference is dropped, also that of a dropped or timed out `acquire`. -/
  | dropHandle {id : Nat} (here : st.objs id = some obj)
      (owned : 0 < obj.handles) : Step proc st .other [] (st.setObj id (some obj.dropHandle))
  /-- A turn of the loop of `acquire`, or a `try_acquire`. -/
  | tryAcquire {id : Nat} (kind : LockKind)
      {fcntl : Fcntl} (here : st.objs id = some obj) (is : obj.data = .repo state) (owned : 0 < obj.handles)
      (answers : Answers st.locks obj.key obj.proc kind fcntl) :
      Step proc st .other [] { st.setObj id (some (obj.tried kind (state.tryAcquire kind fcntl))) with
        locks := triedLocks st.locks obj.key obj.proc (state.tryAcquire kind fcntl) }
  /-- The `Drop` of a guard. -/
  | release {id : Nat} (here : st.objs id = some obj) (is : obj.data = .repo state)
      (owned : kind ∈ obj.guards) : Step proc st .other []
        { st.setObj id (some { obj.unhold kind with data := .repo (state.release kind).1 }) with
          locks := releasedLocks st.locks obj.key obj.proc (state.release kind).2 }
  /-- The head of the queue of the update lock gets it. -/
  | acquireUpdate {id : Nat} (here : st.objs id = some obj)
      (is : obj.data = .update false) (owned : 0 < obj.handles)
      (answers : Answers st.locks obj.key obj.proc .exclusive .granted) :
      Step proc st .other [] { st.setObj id (some { obj.hold .exclusive with data := .update true }) with
        locks := setLock st.locks obj.key obj.proc .exclusive }
  /-- The `Drop` of the update lock's guard. The unlock and `held = false` are one step: no other process sees
  `held`, and no waiter of this one makes a request in between. -/
  | releaseUpdate {id : Nat} (here : st.objs id = some obj)
      (is : obj.data = .update held) (owned : .exclusive ∈ obj.guards) :
      Step proc st .other [] { st.setObj id (some { obj.unhold .exclusive with data := .update false }) with
        locks := setLock st.locks obj.key obj.proc .unlocked }
  /-- `unregister` takes the registry mutex, and closes the descriptor of the lock. -/
  | lockDrop {id : Nat} (here : st.objs id = some obj)
      (dying : obj.dying = true) (free : st.owner obj.proc = none) :
      Step proc st (.lockDrop id) [(obj.proc, obj.key)] { st.setOwner obj.proc (some (.drop id)) with
        locks := setLock st.locks obj.key obj.proc .unlocked }
  /-- `unregister` removes the entry, and closes the parked descriptors. -/
  | remove {id : Nat} (here : st.objs id = some obj)
      (holds : st.owner obj.proc = some (.drop id)) (found : st.registry obj.proc obj.key = some entry) :
      Step proc st (.remove id) (List.replicate entry.parked (obj.proc, obj.key))
        { ((st.setOwner obj.proc none).setObj id none).setEntry obj.proc obj.key none with
          locks := if entry.parked = 0 then st.locks else setLock st.locks obj.key obj.proc .unlocked
          notifying := Function.update st.notifying obj.proc (st.notifying obj.proc + 1) }
  /-- `unregister` wakes the calls that wait. -/
  | notify (pending : 0 < st.notifying p) :
      Step proc st (.notify p) [] { st with
        task := wake proc p st.task
        notifying := Function.update st.notifying p (st.notifying p - 1) }
  /-- Anyone links or renames the lock files. -/
  | relink (names : ρ → View → Option κ) :
      Step proc st .other [] { st with names := names }

/-- Before the first call. -/
def State.init (names : ρ → View → Option κ) : State π κ ρ τ where
  objs := fun _ => none
  registry := fun _ _ => none
  owner := fun _ => none
  notifying := fun _ => 0
  task := fun _ => .idle
  locks := fun _ _ => .unlocked
  names := names

/-- The states that the processes reach. -/
inductive Reaches (proc : τ → π) (names : ρ → View → Option κ) : State π κ ρ τ → Prop where
  | init : Reaches proc names (State.init names)
  | step (before : Reaches proc names st) (step : Step proc st action closes st') : Reaches proc names st'

end Ostrya.Lock
