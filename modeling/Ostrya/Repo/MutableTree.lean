/-
**Directory trees built in memory** (`mtree.rs`), over the dirtree objects of a transaction.

A `MutableTree` holds the files and subdirectories of one directory. A subdirectory is loaded, or it is
lazy: the checksums of a committed dirtree and dirmeta that were not read. `clean` is the checksum of the
dirtree that the directory still matches; `write_node` reuses it for a directory with no loaded child and
writes every other directory, children first.

The transaction keeps what it staged apart from what the repository holds. A read of the repository
(`hydrate`) sees the second only; a read through the transaction sees both. `hashed` records the byte
strings that were hashed, so that an assumption on collisions can speak of these alone.
-/

import Ostrya.ByteFormat.SortedMap
import Ostrya.Core.Commit
import Ostrya.Core.DirTree

namespace Ostrya.Repo

open ByteFormat Gvariant Ostrya.Core

/-- The reasons of `Error::MutableTree`. -/
inductive TreeFault where
  | emptyName
  | traversal (name : String)
  | slash (name : String)
  | noRepository (name : String)
  | notMaterialized (name : String)
  | entryExists (name : String)
  | noEntry (name : String)
  | noSubdirectory (name : String)
  | noDirmeta (path : String)
  deriving DecidableEq

/-- The text of a reason; `debug` is the `{:?}` form of a name. -/
def TreeFault.text (debug : String → String) : TreeFault → String
  | emptyName => "entry name is empty"
  | traversal name => "entry name " ++ debug name ++ " is a directory traversal"
  | slash name => "entry name " ++ debug name ++ " contains a slash"
  | noRepository name =>
    "cannot read subdirectory " ++ debug name ++ ": no repository to hydrate from"
  | notMaterialized name => "subdirectory " ++ debug name ++ " was not materialized"
  | entryExists name => "an entry named " ++ debug name ++ " already exists"
  | noEntry name => "no entry named " ++ debug name ++ " to remove"
  | noSubdirectory name => "no subdirectory named " ++ debug name
  | noDirmeta path => "directory " ++ path ++ " has no dirmeta checksum set"

/-- The errors of the `ostrya` crate that the modelled functions return. -/
inductive Error where
  | io (reason : String)
  | core (fault : Core.Error)
  | objectNotFound (checksum : Checksum) (ty : ObjectType)
  | refNotFound (rev : String)
  | mutableTree (fault : TreeFault)
  | pathNotFound (path : String)
  | notADirectory (path : String)
  | replaceDirWithFile (name : String)
  | replaceFileWithDir (name : String)
  | staging (reason : String)
  | mergeConflict (reason : String)
  deriving DecidableEq

/-! ### The dirtree objects of a transaction -/

/-- The dirtree objects of the repository and those that the transaction staged. -/
structure Txn (sha256 : Bytes → Checksum) where
  committed : Checksum → Option Bytes
  staged : Checksum → Option Bytes
  hashed : List Bytes
  accounted : ∀ checksum bytes, staged checksum = some bytes → bytes ∈ hashed ∧ sha256 bytes = checksum

variable {sha256 : Bytes → Checksum}

namespace Txn

/-- A dirtree from the bytes of its file: `read_meta_fd` and `DirTree::parse`. -/
def readDirtree (bytes : Bytes) : Except Error DirTree :=
  if bytes.length > maxMetadataSize then .error (.io "object exceeds the metadata size cap")
  else (DirTree.parse bytes).mapError .core

/-- `Repo::load_dirtree`. -/
def loadDirtree (txn : Txn sha256) (checksum : Checksum) : Except Error DirTree :=
  match txn.committed checksum with
  | none => .error (.objectNotFound checksum .dirTree)
  | some bytes => readDirtree bytes

/-- The bytes that a read through the transaction finds: staged first. -/
def object (txn : Txn sha256) (checksum : Checksum) : Option Bytes :=
  (txn.staged checksum).or (txn.committed checksum)

/-- `load_dirtree_staged_first`. -/
def loadDirtreeStagedFirst (txn : Txn sha256) (checksum : Checksum) : Except Error DirTree :=
  match txn.staged checksum with
  | none => txn.loadDirtree checksum
  | some bytes => readDirtree bytes

/-- `write_metadata` of a dirtree: an object that the repository holds is not staged again. `refuse`
is the answer of the file system, the repository mode and the free-space budget. -/
def writeMetadata (refuse : Bytes → Option Error) (txn : Txn sha256) (bytes : Bytes) :
    Except Error Checksum × Txn sha256 :=
  let checksum := sha256 bytes
  let hashed : Txn sha256 :=
    { txn with
      hashed := bytes :: txn.hashed
      accounted := fun c b staged =>
        ⟨.tail _ (txn.accounted c b staged).1, (txn.accounted c b staged).2⟩ }
  match refuse bytes with
  | some fault => (.error fault, hashed)
  | none =>
    if (txn.committed checksum).isSome then (.ok checksum, hashed)
    else (.ok checksum,
      { hashed with
        staged := fun c => if c = checksum then some bytes else txn.staged c
        accounted := by
          intro c b staged
          split at staged
          · next same =>
            cases staged
            exact ⟨(.head _), same.symm⟩
          · exact ⟨.tail _ (txn.accounted c b staged).1, (txn.accounted c b staged).2⟩ })

end Txn

/-! ### The tree -/

/-- `Child`. -/
inductive Child (τ : Type) where
  | lazy (dirtree dirmeta : Checksum)
  | loaded (tree : τ)

def Child.isLoaded {τ : Type} : Child τ → Bool
  | lazy _ _ => false
  | loaded _ => true

/-- `MutableTree`. The two maps are lists in name order. `repo` says that the directory holds a
handle of the repository of the transaction. -/
structure MutableTree where
  metadataChecksum : Option Checksum
  files : List (String × Checksum)
  dirs : List (String × Child MutableTree)
  clean : Option Checksum
  repo : Bool

/-- `TakenEntry`. -/
inductive TakenEntry where
  | file (checksum : Checksum)
  | dir (child : Child MutableTree)

/-- `ChildKind`. -/
inductive ChildKind where
  | absent
  | file (checksum : Checksum)
  | dir
  | lazyDir (dirtree dirmeta : Checksum)
  deriving DecidableEq

/-- `Absent`: what a descent does with an absent name. -/
inductive Absent where
  | create
  | refuse
  deriving DecidableEq

/-- `validate_name`. -/
def validateName (name : String) : Except Error Unit :=
  if name = "" then .error (.mutableTree .emptyName)
  else if name = "." ∨ name = ".." then .error (.mutableTree (.traversal name))
  else if name.toList.contains '/' then .error (.mutableTree (.slash name))
  else .ok ()

namespace MutableTree

/-- An induction over the loaded directories of a tree. -/
theorem inductionOn {motive : MutableTree → Prop} (node : ∀ tree : MutableTree,
      (∀ name child, (name, Child.loaded child) ∈ tree.dirs → motive child) → motive tree)
    (tree : MutableTree) : motive tree := by
  suffices bounded : ∀ n, ∀ tree : MutableTree, sizeOf tree ≤ n → motive tree from
    bounded _ tree le_rfl
  intro n
  induction n with
  | zero =>
    intro tree small
    cases tree
    simp at small
  | succ n ih =>
    intro tree small
    refine node tree fun name child member => ih child ?_
    have smaller := List.sizeOf_lt_of_mem member
    cases tree
    simp at *
    omega

/-- `MutableTree::new`. -/
def new : MutableTree := ⟨none, [], [], none, false⟩

/-- `MutableTree::hydrate`. -/
def hydrate (txn : Txn sha256) (dirtree dirmeta : Checksum) : Except Error MutableTree := do
  let loaded ← txn.loadDirtree dirtree
  .ok
    { metadataChecksum := some dirmeta
      files := SortedMap.collect asBytes loaded.files
      dirs := SortedMap.collect asBytes (loaded.dirs.map fun entry => (entry.1, .lazy entry.2.1 entry.2.2))
      clean := some dirtree
      repo := true }

/-- `MutableTree::from_commit`, over the `resolve_rev` and the `load_commit` of the repository. -/
def fromCommit (txn : Txn sha256) (resolveRev : String → Except Error (Option Checksum))
    (loadCommit : Checksum → Except Error Commit) (rev : String) : Except Error MutableTree := do
  match ← resolveRev rev with
  | none => .error (.refNotFound rev)
  | some checksum =>
    let commit ← loadCommit checksum
    hydrate txn commit.rootDirtree commit.rootDirmeta

/-- `set_metadata_checksum`. -/
def setMetadataChecksum (tree : MutableTree) (checksum : Checksum) : MutableTree :=
  { tree with metadataChecksum := some checksum }

/-- A subdirectory set in the map. -/
def withDir (tree : MutableTree) (name : String) (child : Child MutableTree) : MutableTree :=
  { tree with dirs := SortedMap.insert asBytes name child tree.dirs }

/-- A directory with no entries, under the repository handle of its parent. -/
def emptyChild (tree : MutableTree) (dirmeta : Option Checksum) : MutableTree :=
  ⟨dirmeta, [], [], none, tree.repo⟩

/-- The subdirectory that a descent goes into, in place: created, read, or as it is. -/
def materialize (txn : Txn sha256) (tree : MutableTree) (name : String) (absent : Absent) :
    Except Error MutableTree :=
  match SortedMap.get name tree.dirs with
  | none =>
    match absent with
    | .refuse => .error (.pathNotFound name)
    | .create => .ok { tree.withDir name (.loaded (tree.emptyChild none)) with clean := none }
  | some (.lazy dirtree dirmeta) =>
    if tree.repo then do
      let loaded ← hydrate txn dirtree dirmeta
      .ok (tree.withDir name (.loaded loaded))
    else .error (.mutableTree (.noRepository name))
  | some (.loaded _) => .ok tree

/-- `descend`. The directory that it returns is the loaded child `name` of the result. -/
def descend (txn : Txn sha256) (tree : MutableTree) (name : String) (absent : Absent) :
    Except Error MutableTree := do
  validateName name
  if (SortedMap.get name tree.files).isSome then
    .error (match absent with
      | .create => .replaceFileWithDir name
      | .refuse => .notADirectory name)
  else do
    let next ← materialize txn tree name absent
    match SortedMap.get name next.dirs with
    | some (.loaded _) => .ok next
    | _ => .error (.mutableTree (.notMaterialized name))

/-- `ensure_dir`. -/
def ensureDir (txn : Txn sha256) (tree : MutableTree) (name : String) : Except Error MutableTree :=
  tree.descend txn name .create

/-- `subtree`. -/
def subtree (txn : Txn sha256) (tree : MutableTree) (name : String) : Except Error MutableTree :=
  tree.descend txn name .refuse

/-- `replace_file`. -/
def replaceFile (tree : MutableTree) (name : String) (checksum : Checksum) : Except Error MutableTree := do
  validateName name
  if (SortedMap.get name tree.dirs).isSome then .error (.replaceDirWithFile name)
  else .ok { tree with files := SortedMap.insert asBytes name checksum tree.files, clean := none }

/-- `clear_children`. -/
def clearChildren (tree : MutableTree) : MutableTree :=
  if tree.files ≠ [] ∨ tree.dirs ≠ [] then { tree with files := [], dirs := [], clean := none } else tree

/-- `take_child`. -/
def takeChild (tree : MutableTree) (name : String) : Option (TakenEntry × MutableTree) :=
  match SortedMap.get name tree.files with
  | some checksum =>
    some (.file checksum, { tree with files := SortedMap.remove name tree.files, clean := none })
  | none =>
    match SortedMap.get name tree.dirs with
    | some child => some (.dir child, { tree with dirs := SortedMap.remove name tree.dirs, clean := none })
    | none => none

/-- `insert_child`. -/
def insertChild (tree : MutableTree) (name : String) (entry : TakenEntry) : Except Error MutableTree := do
  validateName name
  if (SortedMap.get name tree.files).isSome ∨ (SortedMap.get name tree.dirs).isSome then
    .error (.mutableTree (.entryExists name))
  else match entry with
    | .file checksum =>
      .ok { tree with files := SortedMap.insert asBytes name checksum tree.files, clean := none }
    | .dir child => .ok { tree.withDir name child with clean := none }

/-- `remove`. -/
def remove (tree : MutableTree) (name : String) (allowNoent : Bool) : Except Error MutableTree :=
  if (SortedMap.get name tree.files).isSome then
    .ok { tree with files := SortedMap.remove name tree.files, clean := none }
  else if (SortedMap.get name tree.dirs).isSome then
    .ok { tree with dirs := SortedMap.remove name tree.dirs, clean := none }
  else if allowNoent then .ok tree
  else .error (.mutableTree (.noEntry name))

/-- `insert_lazy_dir`, with a handle of the repository of the transaction. -/
def insertLazyDir (tree : MutableTree) (name : String) (dirtree dirmeta : Checksum) :
    Except Error MutableTree := do
  validateName name
  if (SortedMap.get name tree.files).isSome then .error (.replaceFileWithDir name)
  else .ok { tree.withDir name (.lazy dirtree dirmeta) with clean := none, repo := true }

/-- `child_kind`. -/
def childKind (tree : MutableTree) (name : String) : ChildKind :=
  match SortedMap.get name tree.files with
  | some checksum => .file checksum
  | none =>
    match SortedMap.get name tree.dirs with
    | some (.loaded _) => .dir
    | some (.lazy dirtree dirmeta) => .lazyDir dirtree dirmeta
    | none => .absent

/-- `install_hydrated_child`. -/
def installHydratedChild (tree : MutableTree) (name : String) (loaded : MutableTree) : MutableTree :=
  tree.withDir name (.loaded loaded)

/-- `set_child_dirmeta`. -/
def setChildDirmeta (tree : MutableTree) (name : String) (dirmeta : Checksum) : Except Error MutableTree :=
  match SortedMap.get name tree.dirs with
  | some (.loaded child) => .ok (tree.withDir name (.loaded (child.setMetadataChecksum dirmeta)))
  | some (.lazy dirtree old) =>
    if old ≠ dirmeta then .ok { tree.withDir name (.lazy dirtree dirmeta) with clean := none } else .ok tree
  | none => .error (.mutableTree (.noSubdirectory name))

/-- `insert_empty_dir`. -/
def insertEmptyDir (tree : MutableTree) (name : String) (dirmeta : Option Checksum) : MutableTree :=
  { tree.withDir name (.loaded (tree.emptyChild dirmeta)) with
    files := SortedMap.remove name tree.files
    clean := none }

/-- `dir_at`. -/
def dirAt (tree : MutableTree) : List String → Option MutableTree
  | [] => some tree
  | name :: path =>
    match SortedMap.get name tree.dirs with
    | some (.loaded child) => child.dirAt path
    | _ => none

/-- The tree after a change through `dir_at_mut`: the directory at `path` becomes `dir`. -/
def setAt (tree : MutableTree) (path : List String) (dir : MutableTree) : MutableTree :=
  match path with
  | [] => dir
  | name :: path =>
    match SortedMap.get name tree.dirs with
    | some (.loaded child) => tree.withDir name (.loaded (child.setAt path dir))
    | _ => tree

end MutableTree

/-! ### The writer -/

/-- `Emitted`. -/
structure Emitted where
  dirtree : Checksum
  dirmeta : Checksum
  deriving DecidableEq

/-- `join_path`. -/
def joinPath (parent name : String) : String :=
  if parent = "/" then "/" ++ name else parent ++ "/" ++ name

section Writer

variable (refuse : Bytes → Option Error)

/-- The end of `write_node`: the dirtree of the files and the written children. -/
def writeDirtree (files : List (String × Checksum)) (dirs : List (String × Checksum × Checksum))
    (txn : Txn sha256) : Except Error Checksum × Txn sha256 :=
  match (⟨files, dirs⟩ : DirTree).serialize with
  | .error fault => (.error (.core fault), txn)
  | .ok bytes => txn.writeMetadata refuse bytes

mutual

/-- `write_node`. The tree and the transaction are those after the call, also where it fails. -/
def writeNode (txn : Txn sha256) (path : String) :
    MutableTree → Except Error Emitted × MutableTree × Txn sha256
  | ⟨metadataChecksum, files, dirs, clean, repo⟩ =>
    match metadataChecksum with
    | none =>
      (.error (.mutableTree (.noDirmeta path)), ⟨metadataChecksum, files, dirs, clean, repo⟩, txn)
    | some dirmeta =>
      match clean, dirs.any fun entry => entry.2.isLoaded with
      | some dirtree, false =>
        (.ok ⟨dirtree, dirmeta⟩, ⟨metadataChecksum, files, dirs, clean, repo⟩, txn)
      | _, _ =>
        match writeDirs txn path dirs with
        | (.error fault, dirs', txn') =>
          (.error fault, ⟨metadataChecksum, files, dirs', clean, repo⟩, txn')
        | (.ok entries, dirs', txn') =>
          match writeDirtree refuse files entries txn' with
          | (.error fault, txn'') =>
            (.error fault, ⟨metadataChecksum, files, dirs', clean, repo⟩, txn'')
          | (.ok dirtree, txn'') =>
            (.ok ⟨dirtree, dirmeta⟩, ⟨metadataChecksum, files, dirs', some dirtree, repo⟩, txn'')
termination_by structural tree => tree

/-- The loop of `write_node` over the subdirectories. -/
def writeDirs (txn : Txn sha256) (path : String) :
    List (String × Child MutableTree) →
      Except Error (List (String × Checksum × Checksum)) × List (String × Child MutableTree) × Txn sha256
  | [] => (.ok [], [], txn)
  | entry :: entries =>
    match writeEntry txn path entry with
    | (.error fault, entry', txn') => (.error fault, entry' :: entries, txn')
    | (.ok written, entry', txn') =>
      match writeDirs txn' path entries with
      | (.error fault, entries', txn'') => (.error fault, entry' :: entries', txn'')
      | (.ok rest, entries', txn'') => (.ok (written :: rest), entry' :: entries', txn'')
termination_by structural entries => entries

/-- One turn of the loop. -/
def writeEntry (txn : Txn sha256) (path : String) :
    String × Child MutableTree →
      Except Error (String × Checksum × Checksum) × (String × Child MutableTree) × Txn sha256
  | (name, child) =>
    match writeChild txn (joinPath path name) child with
    | (.error fault, child', txn') => (.error fault, (name, child'), txn')
    | (.ok emitted, child', txn') => (.ok (name, emitted.dirtree, emitted.dirmeta), (name, child'), txn')
termination_by structural entry => entry

def writeChild (txn : Txn sha256) (path : String) :
    Child MutableTree → Except Error Emitted × Child MutableTree × Txn sha256
  | .lazy dirtree dirmeta => (.ok ⟨dirtree, dirmeta⟩, .lazy dirtree dirmeta, txn)
  | .loaded tree =>
    match writeNode txn path tree with
    | (result, tree', txn') => (result, .loaded tree', txn')
termination_by structural child => child

end

/-- `write_mtree`. -/
def writeMtree (txn : Txn sha256) (tree : MutableTree) : Except Error Emitted × MutableTree × Txn sha256 :=
  writeNode refuse txn "/" tree

end Writer

end Ostrya.Repo
