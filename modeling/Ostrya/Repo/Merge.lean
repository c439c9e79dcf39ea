/-
**The merge of a tree into a staging tree** (`staging_tree.rs`).

The left tree is changed in place, each directory by its literal path from the root. The right side is read
through `RightDir`: a loaded directory in memory, or a committed one that loads through the transaction.
Recursion over committed directories has no bound of its own, so the merge takes fuel and returns `none`
where the fuel runs out.
-/

import Ostrya.Repo.MutableTree

namespace Ostrya.Repo

open ByteFormat Gvariant Ostrya.Core

variable {sha256 : Bytes → Checksum}

/-- `RootDirmeta`. -/
inductive RootDirmeta where
  | reconcile
  | keepLeft
  deriving DecidableEq

/-- `MergeOptions`. -/
structure MergeOptions where
  allowOverwrite : Bool
  followSymlinks : Bool
  rootDirmeta : RootDirmeta
  symlinkTargetDirmeta : RootDirmeta

/-! ### Texts -/

/-- `join`. -/
def join (path : List String) (name : String) : String :=
  if path = [] then name else "/".intercalate path ++ "/" ++ name

/-- `spell_path`. -/
def spellPath (path : List String) : String := if path = [] then "." else "/".intercalate path

/-- `dir_gone`. -/
def dirGone (path : List String) : String := "directory " ++ spellPath path ++ " is no longer present"

/-! ### The staging tree -/

/-- The result of an operation of the staging tree, and the tree after it, also where it failed. -/
abbrev Outcome := Except Error Unit × MutableTree

/-- The next operation, on the tree that the first one left. -/
def Outcome.andThen (first : Outcome) (next : MutableTree → Outcome) : Outcome :=
  match first with
  | (.error fault, tree) => (.error fault, tree)
  | (.ok (), tree) => next tree

/-- What a `&mut self` method of the tree leaves: on an error, the tree as it was. -/
def attempt (dir : MutableTree) (result : Except Error MutableTree) : Outcome :=
  match result with
  | .error fault => (.error fault, dir)
  | .ok next => (.ok (), next)

/-- `with_dir_mut`. -/
def withDirMut (tree : MutableTree) (path : List String) (f : MutableTree → Outcome) : Outcome :=
  match tree.dirAt path with
  | none => (.error (.staging (dirGone path)), tree)
  | some dir => ((f dir).1, tree.setAt path (f dir).2)

/-- `peek`. -/
def peek (tree : MutableTree) (path : List String) (name : String) : Except Error ChildKind :=
  match tree.dirAt path with
  | none => .error (.staging (dirGone path))
  | some dir => .ok (dir.childKind name)

/-- `check_no_live_writers`. -/
def checkNoLiveWriters (writers : Nat) (action : String) : Except Error Unit :=
  if writers ≠ 0 then
    .error (.staging ("cannot " ++ action ++ ": " ++ toString writers ++ " file writer(s) still outstanding"))
  else .ok ()

/-- `ensure_child_dir`. After the load the source reads the name again and finds the loaded
directory. -/
def ensureChildDir (txn : Txn sha256) (tree : MutableTree) (path : List String) (name : String) : Outcome :=
  match tree.dirAt path with
  | none => (.error (.staging (dirGone path)), tree)
  | some dir =>
    match dir.childKind name with
    | .dir => (.ok (), tree)
    | .lazyDir dirtree dirmeta =>
      if dir.repo then
        match MutableTree.hydrate txn dirtree dirmeta with
        | .error fault => (.error fault, tree)
        | .ok loaded => (.ok (), tree.setAt path (dir.installHydratedChild name loaded))
      else (.error (.staging ("cannot hydrate " ++ join path name ++ ": no repository handle")), tree)
    | .file _ => (.error (.notADirectory (join path name)), tree)
    | .absent => (.error (.pathNotFound (join path name)), tree)

/-- `insert_merged_dir`. -/
def insertMergedDir (writers : Nat) (tree : MutableTree) (parent : List String) (name : String)
    (dirmeta : Option Checksum) (allowOverwrite : Bool) : Outcome :=
  withDirMut tree parent fun dir =>
    match dir.childKind name with
    | .dir | .lazyDir _ _ =>
      if allowOverwrite then
        match checkNoLiveWriters writers ("drop the directory at " ++ join parent name) with
        | .error fault => (.error fault, dir)
        | .ok () => (.ok (), dir.insertEmptyDir name dirmeta)
      else
        (.error (.mergeConflict ("a directory appeared at " ++ join parent name ++
          " after the merge read the name")), dir)
    | _ => (.ok (), dir.insertEmptyDir name dirmeta)

/-! ### The right side -/

/-- `RightDir`. -/
inductive RightDir where
  | mutable (tree : MutableTree)
  | committed (dirtree dirmeta : Checksum)

namespace RightDir

/-- `RightDir::dirmeta`. -/
def dirmeta : RightDir → Option Checksum
  | mutable tree => tree.metadataChecksum
  | committed _ dirmeta => some dirmeta

/-- The view of a child of a loaded directory. -/
def ofChild : Child MutableTree → RightDir
  | .loaded tree => .mutable tree
  | .lazy dirtree dirmeta => .committed dirtree dirmeta

/-- `RightDir::entries`. -/
def entries (txn : Txn sha256) : RightDir → Except Error (List (String × Checksum) × List (String × RightDir))
  | mutable tree => .ok (tree.files, tree.dirs.map fun entry => (entry.1, ofChild entry.2))
  | committed dirtree _ => do
    let loaded ← txn.loadDirtreeStagedFirst dirtree
    .ok (loaded.files, loaded.dirs.map fun entry => (entry.1, .committed entry.2.1 entry.2.2))

end RightDir

/-! ### The merge -/

/-- What a merge runs in: the transaction, the writers of the staging tree, and the two walks that
only a merge with `follow_symlinks` takes. -/
structure MergeEnv (sha256 : Bytes → Checksum) where
  txn : Txn sha256
  writers : Nat
  /-- The target of a file object that is a symlink: `load_file_staged_first`. -/
  symlinkTarget : Checksum → Except Error (Option String)
  /-- `resolve_symlink_dir`, which may load directories on its way. -/
  resolveSymlinkDir : MutableTree → List String → String → Except Error (List String) × MutableTree

section Merge

variable (env : MergeEnv sha256) (opts : MergeOptions)

/-- The dirmeta of the directory at `path`. -/
def mergeDirmeta (path : List String) (right : RightDir) (root : RootDirmeta) (tree : MutableTree) : Outcome :=
  match root, right.dirmeta with
  | .reconcile, some rightDm =>
    match tree.dirAt path with
    | none => (.error (.staging (dirGone path)), tree)
    | some dir =>
      let update := withDirMut tree path fun dir => (.ok (), dir.setMetadataChecksum rightDm)
      match dir.metadataChecksum with
      | some left =>
        if left = rightDm then (.ok (), tree)
        else if opts.allowOverwrite then update
        else (.error (.mergeConflict ("directory metadata differs at " ++ spellPath path)), tree)
      | none => update
  | _, _ => (.ok (), tree)

/-- One turn of the loop over the files. -/
def mergeFile (path : List String) (name : String) (rightCsum : Checksum) (tree : MutableTree) : Outcome :=
  match peek tree path name with
  | .error fault => (.error fault, tree)
  | .ok .absent => withDirMut tree path fun dir => attempt dir (dir.replaceFile name rightCsum)
  | .ok (.file leftCsum) =>
    if leftCsum = rightCsum then (.ok (), tree)
    else if opts.allowOverwrite then
      withDirMut tree path fun dir => attempt dir (dir.replaceFile name rightCsum)
    else (.error (.mergeConflict ("file differs at " ++ join path name)), tree)
  | .ok _ =>
    if opts.allowOverwrite then
      withDirMut tree path fun dir =>
        match checkNoLiveWriters env.writers ("drop the directory at " ++ join path name) with
        | .error fault => (.error fault, dir)
        | .ok () =>
          Outcome.andThen (attempt dir (dir.remove name true)) fun dir =>
            attempt dir (dir.replaceFile name rightCsum)
    else
      (.error (.mergeConflict ("a file cannot overwrite the directory at " ++ join path name)), tree)

/-- The loop over the files. -/
def mergeFiles (path : List String) : List (String × Checksum) → MutableTree → Outcome
  | [], tree => (.ok (), tree)
  | entry :: entries, tree =>
    Outcome.andThen (mergeFile env opts path entry.1 entry.2 tree) (mergeFiles path entries)

/-- A merge that may run out of fuel. -/
abbrev Merge := List String → RightDir → RootDirmeta → MutableTree → Option Outcome

/-- The next step of a merge that may run out of fuel. -/
def Outcome.andMerge (first : Outcome) (next : MutableTree → Option Outcome) : Option Outcome :=
  match first with
  | (.error fault, tree) => some (.error fault, tree)
  | (.ok (), tree) => next tree

/-- One turn of the loop over the subdirectories; `recurse` is `merge_into`. -/
def mergeDir (recurse : Merge) (path : List String) (name : String) (right : RightDir)
    (tree : MutableTree) : Option Outcome :=
  match peek tree path name with
  | .error fault => some (.error fault, tree)
  | .ok .absent =>
    Outcome.andMerge (insertMergedDir env.writers tree path name right.dirmeta opts.allowOverwrite)
      (recurse (path ++ [name]) right .reconcile)
  | .ok (.file leftCsum) =>
    let overwrite :=
      if opts.allowOverwrite then
        Outcome.andMerge (insertMergedDir env.writers tree path name right.dirmeta opts.allowOverwrite)
          (recurse (path ++ [name]) right .reconcile)
      else some (.error (.mergeConflict ("a directory cannot overwrite the file at " ++ join path name)), tree)
    if opts.followSymlinks then
      match env.symlinkTarget leftCsum with
      | .error fault => some (.error fault, tree)
      | .ok (some target) =>
        match env.resolveSymlinkDir tree path target with
        | (.error fault, tree') => some (.error fault, tree')
        | (.ok targetDir, tree') => recurse targetDir right opts.symlinkTargetDirmeta tree'
      | .ok none => overwrite
    else overwrite
  | .ok _ =>
    Outcome.andMerge (ensureChildDir env.txn tree path name) (recurse (path ++ [name]) right .reconcile)

/-- The loop over the subdirectories. -/
def mergeDirs (recurse : Merge) (path : List String) : List (String × RightDir) → MutableTree → Option Outcome
  | [], tree => some (.ok (), tree)
  | entry :: entries, tree => do
    let outcome ← mergeDir env opts recurse path entry.1 entry.2 tree
    Outcome.andMerge outcome (mergeDirs recurse path entries)

/-- `merge_into`. -/
def mergeInto : Nat → Merge
  | 0, _, _, _, _ => none
  | fuel + 1, path, right, root, tree =>
    Outcome.andMerge (mergeDirmeta opts path right root tree) fun tree =>
      match right.entries env.txn with
      | .error fault => some (.error fault, tree)
      | .ok (rfiles, rdirs) =>
        Outcome.andMerge (mergeFiles env opts path rfiles tree)
          (mergeDirs env opts (mergeInto fuel) path rdirs)

/-- `StagingTree::merge`: the base `.` is the root. -/
def merge (fuel : Nat) (left other : MutableTree) : Option Outcome :=
  mergeInto env opts fuel [] (.mutable other) opts.rootDirmeta left

end Merge

end Ostrya.Repo
