/-
**Staging trees under concurrency** (`staging_tree.rs`).

Each operation holds the lock of the tree for short sections only, and the paths that it works with come from
earlier sections. Here every section can run at any time with any arguments, so that each interleaving of the
operations, dropped futures included, is a run of `Step`. The load of a lazy directory between two sections of
`ensure_child_dir` is a `Hydration` in flight, and a file writer is a handle with the state of its `finish`.

`detached` keeps the path of each directory entry that a section took out of its map or put another one in the
place of: a directory whose path and those above it are not detached is the same node.
-/

import Ostrya.Effect.Keeps
import Ostrya.Repo.Merge

namespace Ostrya.Staging

open ByteFormat Gvariant Ostrya.Core Effect
open Repo (MutableTree ChildKind join dirGone)

variable {sha256 : Bytes → Checksum}

inductive Error where
  | tree (fault : Repo.Error)
  | entryExists (path : String)
  /-- An `expect` that fails. -/
  | panic (message : String)

def dirGoneError (path : List String) : Error := .tree (.staging (dirGone path))

/-! ### A directory under the lock -/

/-- The directory at hand, and the entries that were detached, as paths from it. -/
structure Dir where
  tree : MutableTree
  dropped : List (List String)

abbrev DirM := EStateM Error Dir

namespace DirM

/-- A method of the directory. One that fails changes nothing. -/
def change (drops : MutableTree → List (List String))
    (method : MutableTree → Except Repo.Error MutableTree) : DirM Unit := fun dir =>
  match method dir.tree with
  | .ok next => .ok () ⟨next, dir.dropped ++ drops dir.tree⟩
  | .error fault => .error (.tree fault) dir

/-- The entry of a name, if it is a directory. -/
def entry (name : String) (tree : MutableTree) : List (List String) :=
  if (SortedMap.get name tree.dirs).isSome then [[name]] else []

def childKind (name : String) : DirM ChildKind := fun dir => .ok (dir.tree.childKind name) dir

def replaceFile (name : String) (checksum : Checksum) : DirM Unit :=
  change (fun _ => []) fun tree => tree.replaceFile name checksum

def insertEmptyDir (name : String) (dirmeta : Option Checksum) : DirM Unit :=
  change (entry name) fun tree => .ok (tree.insertEmptyDir name dirmeta)

def remove (name : String) : DirM Unit := change (entry name) fun tree => tree.remove name true

def setChildDirmeta (name : String) (dirmeta : Checksum) : DirM Unit :=
  change (fun _ => []) fun tree => tree.setChildDirmeta name dirmeta

/-- `dir_at_mut` of one name, and `clear_children` there. -/
def clearChild (name : String) : DirM Unit := fun dir =>
  match dir.tree.dirAt [name] with
  | none => .error (.panic "a loaded child under the same lock acquisition") dir
  | some child =>
    .ok () ⟨dir.tree.setAt [name] child.clearChildren, dir.dropped ++ child.dirs.map fun item => [name, item.1]⟩

/-- The install of `ensure_child_dir`: only over an entry that is still lazy. -/
def install (name : String) (loaded : MutableTree) : DirM Unit := do
  match ← childKind name with
  | .lazyDir _ _ => change (entry name) fun tree => .ok (tree.installHydratedChild name loaded)
  | _ => pure ()

/-- `check_no_live_writers`. -/
def checkNoLiveWriters (writers : Nat) (action : String) : DirM Unit :=
  match Repo.checkNoLiveWriters writers action with
  | .ok () => pure ()
  | .error fault => throw (.tree fault)

end DirM

/-! ### The shared state -/

/-- The end of a writer. -/
inductive End where
  | finished
  | dropped
  /-- The future of `finish` was dropped after its first poll. -/
  | cancelled

/-- The state of a writer. -/
inductive Phase where
  | opened
  /-- `finish` took the inner writer and awaits its end. -/
  | finishing
  /-- `finish` has its outcome, and the slot is not released yet. -/
  | decided (outcome : Except Error Unit)
  | ended (how : End)

/-- `StagedFileWriter`. `since` is the number of the detached entries when it was registered. -/
structure Writer where
  parent : List String
  name : String
  phase : Phase
  since : Nat

/-- A directory that `ensure_child_dir` loads. -/
structure Hydration where
  path : List String
  name : String
  dirtree : Checksum
  dirmeta : Checksum

/-- The tree, the count of the writers, every writer so far, and the loads in flight. -/
structure Shared where
  tree : MutableTree
  writers : Nat
  handles : List Writer
  detached : List (List String)
  loads : List Hydration
  closed : Bool

/-! ### The sections -/

/-- What an operation does under one acquisition of the lock. -/
abbrev Section := EStateM Error Shared

/-- `with_dir_mut`. The closure reads the count of the writers. -/
def withDirMut (path : List String) (f : Nat → DirM Unit) : Section Unit := fun s =>
  match s.tree.dirAt path with
  | none => .error (dirGoneError path) s
  | some dir =>
    let leaves (after : Dir) : Shared :=
      { s with tree := s.tree.setAt path after.tree, detached := s.detached ++ after.dropped.map (path ++ ·) }
    match f s.writers ⟨dir, []⟩ with
    | .ok () after => .ok () (leaves after)
    | .error error after => .error error (leaves after)

/-- The sections that change a directory at a path. -/
inductive Edit where
  /-- The end of a write, a symlink, a hardlink and `finish`, and a file of a merge. -/
  | replaceFile (name : String) (checksum : Checksum)
  | makeDir (name : String) (dirmeta : Checksum)
  /-- A component of `walk_creating`. -/
  | createDir (name : String) (dirmeta : Checksum)
  | ensureDir (name : String) (dirmeta : Checksum)
  | placeObject (name : String) (checksum : Checksum)
  | remove (name : String) (allowNoent : Bool)
  | clearDir (name : String) (allowNoent : Bool)
  /-- `insert_merged_dir`. -/
  | mergeDir (name : String) (dirmeta : Option Checksum) (allowOverwrite : Bool)
  /-- A file of a merge over a directory. -/
  | mergeOverDir (name : String) (checksum : Checksum)
  /-- The dirmeta of the directory itself. -/
  | stamp (dirmeta : Checksum)

/-- The closure of a section. -/
def Edit.act (path : List String) (writers : Nat) : Edit → DirM Unit
  | replaceFile name checksum => DirM.replaceFile name checksum
  | makeDir name dirmeta => do
    match ← DirM.childKind name with
    | .absent => DirM.insertEmptyDir name (some dirmeta)
    | _ => throw (.entryExists (join path name))
  | createDir name dirmeta => do
    match ← DirM.childKind name with
    | .absent => DirM.insertEmptyDir name (some dirmeta)
    | .file _ => throw (.tree (.notADirectory (join path name)))
    | .dir | .lazyDir _ _ => pure ()
  | ensureDir name dirmeta => do
    match ← DirM.childKind name with
    | .absent => DirM.insertEmptyDir name (some dirmeta)
    | .dir | .lazyDir _ _ => DirM.setChildDirmeta name dirmeta
    | .file _ => throw (.tree (.notADirectory (join path name)))
  | placeObject name checksum => do
    match ← DirM.childKind name with
    | .absent => DirM.replaceFile name checksum
    | .file existing =>
      if existing = checksum then pure ()
      else throw (.tree (.mergeConflict ("placed object differs at " ++ join path name)))
    | .dir | .lazyDir _ _ =>
      throw (.tree (.mergeConflict ("an object cannot overwrite the directory at " ++ join path name)))
  | remove name allowNoent => do
    match ← DirM.childKind name with
    | .absent => if allowNoent then pure () else throw (.tree (.pathNotFound (join path name)))
    | _ => do
      DirM.checkNoLiveWriters writers ("remove " ++ join path name)
      DirM.remove name
  | clearDir name allowNoent => do
    match ← DirM.childKind name with
    | .absent => if allowNoent then pure () else throw (.tree (.pathNotFound (join path name)))
    | .file _ => throw (.tree (.notADirectory (join path name)))
    | .dir => do
      DirM.checkNoLiveWriters writers ("clear the directory at " ++ join path name)
      DirM.clearChild name
    | .lazyDir _ dirmeta => do
      DirM.checkNoLiveWriters writers ("clear the directory at " ++ join path name)
      DirM.insertEmptyDir name (some dirmeta)
  | mergeDir name dirmeta allowOverwrite => do
    match ← DirM.childKind name with
    | .dir | .lazyDir _ _ =>
      if allowOverwrite then do
        DirM.checkNoLiveWriters writers ("drop the directory at " ++ join path name)
        DirM.insertEmptyDir name dirmeta
      else throw (.tree (.mergeConflict ("a directory appeared at " ++ join path name ++
        " after the merge read the name")))
    | _ => DirM.insertEmptyDir name dirmeta
  | mergeOverDir name checksum => do
    DirM.checkNoLiveWriters writers ("drop the directory at " ++ join path name)
    DirM.remove name
    DirM.replaceFile name checksum
  | stamp dirmeta => DirM.change (fun _ => []) fun tree => .ok (tree.setMetadataChecksum dirmeta)

def Edit.run (path : List String) (edit : Edit) : Section Unit := withDirMut path fun writers => edit.act path writers

/-- The registration of `write_file`. -/
def register (parent : List String) (name : String) : Section Unit := fun s =>
  match s.tree.dirAt parent with
  | none => .error (dirGoneError parent) s
  | some _ =>
    .ok () { s with
      writers := s.writers + 1
      handles := s.handles ++ [⟨parent, name, .opened, s.detached.length⟩] }

/-- The move of `rename`, after its checks. -/
def moveEntry (tree fromDir : MutableTree) (fromParent : List String) (fromName : String)
    (toParent : List String) (toName : String) : Except Error MutableTree :=
  match fromDir.takeChild fromName with
  | none => .error (.panic "an entry present under the same lock acquisition")
  | some (entry, rest) =>
    let tree := tree.setAt fromParent rest
    match tree.dirAt toParent with
    | none => .error (.panic "a destination parent present under the same lock acquisition")
    | some toDir => match toDir.insertChild toName entry with
      | .error _ => .error (.panic "a fresh name in a present directory under the same lock acquisition")
      | .ok next => .ok (tree.setAt toParent next)

/-- What `rename` leaves: the tree, and the entry if it is a directory. -/
def renamed (s : Shared) (fromParent : List String) (fromName : String) (toParent : List String)
    (toName : String) : Except Error (MutableTree × List (List String)) :=
  match s.tree.dirAt toParent with
  | none => .error (dirGoneError toParent)
  | some toDir =>
    if toDir.childKind toName ≠ .absent then .error (.entryExists (join toParent toName))
    else match s.tree.dirAt fromParent with
      | none => .error (dirGoneError fromParent)
      | some fromDir =>
        if fromDir.childKind fromName = .absent then .error (.tree (.pathNotFound (join fromParent fromName)))
        else match Repo.checkNoLiveWriters s.writers
            ("rename " ++ join fromParent fromName ++ " to " ++ join toParent toName) with
          | .error fault => .error (.tree fault)
          | .ok () => match moveEntry s.tree fromDir fromParent fromName toParent toName with
            | .error error => .error error
            | .ok tree => .ok (tree, (DirM.entry fromName fromDir).map (fromParent ++ ·))

/-- The end of `rename`. A panic poisons the mutex, so no later section sees the tree that it
leaves. -/
def rename (fromParent : List String) (fromName : String) (toParent : List String)
    (toName : String) : Section Unit := fun s =>
  match renamed s fromParent fromName toParent toName with
  | .error error => .error error s
  | .ok (tree, gone) => .ok () { s with tree := tree, detached := s.detached ++ gone }

/-- The second section of `ensure_child_dir`. A directory that is gone is no error here. -/
def install (path : List String) (name : String) (loaded : MutableTree) : Section Unit := fun s =>
  match s.tree.dirAt path with
  | none => .ok () s
  | some _ => withDirMut path (fun _ => DirM.install name loaded) s

/-- The value or the error of a section. -/
def outcome (act : Section Unit) (s : Shared) : Except Error Unit :=
  match act s with
  | .ok () _ => .ok ()
  | .error error _ => .error error

/-! ### Steps -/

/-- The writers with one of them in another phase. -/
def setPhase (before : List Writer) (w : Writer) (phase : Phase) (after : List Writer) : List Writer :=
  before ++ { w with phase := phase } :: after

/-- A step of a writer `w`. -/
inductive WriterStep (s : Shared) (before after : List Writer) (w : Writer) : Shared → Prop
  /-- The drop of a writer that has its inner writer, also inside a `finish` that was never polled. -/
  | drop (phase : w.phase = .opened) : WriterStep s before after w
      { s with writers := s.writers - 1, handles := setPhase before w (.ended .dropped) after }
  /-- The first poll of `finish` takes the inner writer. -/
  | take (phase : w.phase = .opened) : WriterStep s before after w
      { s with handles := setPhase before w .finishing after }
  /-- The inner writer fails. -/
  | fail (phase : w.phase = .finishing) (fault : Repo.Error) : WriterStep s before after w
      { s with handles := setPhase before w (.decided (.error (.tree fault))) after }
  /-- The inner writer has the checksum, and the entry is recorded under the lock. -/
  | record (phase : w.phase = .finishing) (checksum : Checksum) : WriterStep s before after w
      { stateAfter ((Edit.replaceFile w.name checksum).run w.parent) s with
        handles := setPhase before w (.decided (outcome ((Edit.replaceFile w.name checksum).run w.parent) s)) after }
  /-- The decrement at the end of `finish`. The drop that follows finds no inner writer. -/
  | release (phase : w.phase = .decided result) : WriterStep s before after w
      { s with writers := s.writers - 1, handles := setPhase before w (.ended .finished) after }
  /-- The future of `finish` is dropped at its await. The drop of the writer finds no inner writer. -/
  | cancel (phase : w.phase = .finishing) : WriterStep s before after w
      { s with handles := setPhase before w (.ended .cancelled) after }

/-- The steps of the operations and the writers of one staging tree. After `close` the writers alone
are left. -/
inductive Step (txn : Repo.Txn sha256) : Shared → Shared → Prop
  | edit (here : s.closed = false) (path : List String) (edit : Edit) :
      Step txn s (stateAfter (edit.run path) s)
  | rename (here : s.closed = false) (fromParent : List String) (fromName : String)
      (toParent : List String) (toName : String) :
      Step txn s (stateAfter (rename fromParent fromName toParent toName) s)
  | register (here : s.closed = false) (parent : List String) (name : String) :
      Step txn s (stateAfter (register parent name) s)
  /-- `ensure_child_dir` reads a lazy child of a directory with a repository handle. -/
  | read (here : s.closed = false) (load : Hydration)
      (there : s.tree.dirAt load.path = some dir) (repo : dir.repo = true)
      (lazy : dir.childKind load.name = .lazyDir load.dirtree load.dirmeta) :
      Step txn s { s with loads := load :: s.loads }
  /-- `ensure_child_dir` installs what it loaded. -/
  | install (here : s.closed = false) (load : Hydration) (mine : load ∈ s.loads)
      (read : MutableTree.hydrate txn load.dirtree load.dirmeta = .ok loaded) :
      Step txn s (stateAfter (install load.path load.name loaded) s)
  | writer (is : s.handles = before ++ w :: after)
      (step : WriterStep s before after w s') : Step txn s s'
  /-- `close` takes the tree, or is refused and drops its handle of it. -/
  | close (here : s.closed = false) :
      Step txn s (if s.writers = 0 then { s with tree := .new, loads := [], closed := true }
        else { s with loads := [], closed := true })

/-- A new staging tree. -/
def fresh (tree : MutableTree) : Shared := ⟨tree, 0, [], [], [], false⟩

/-- The states that a staging tree reaches. -/
inductive Reached (txn : Repo.Txn sha256) (tree : MutableTree) : Shared → Prop
  | start : Reached txn tree (fresh tree)
  | next (reached : Reached txn tree s) (step : Step txn s s') : Reached txn tree s'

end Ostrya.Staging
