/-
**The content of a tree**, in memory and in the object store.

The content is what a read at each path finds: through the loaded directories of a `MutableTree` and from
the dirtree objects below a lazy one (`MutableTree.view`), or from the dirtree objects alone (`viewTree`).

A stored object is found by the hash of its bytes. `Txn.Good` assumes no collision among the byte strings
that the transaction hashed and the objects of the repository, and nothing about other byte strings. Under
it, an object keeps its bytes at every later time (`Txn.Before.object`), and so does what was readable
(`viewTree_stable`).
-/

import Ostrya.Repo.MutableTree
import Mathlib.Data.Set.Function

namespace Ostrya.Repo

open ByteFormat Gvariant Ostrya.Core

variable {sha256 : Bytes → Checksum} {stored : DirTree}

/-! ### Objects that stay -/

namespace Txn

/-- `later` is the transaction at a later time: objects are added, none is lost. -/
structure Before (txn later : Txn sha256) : Prop where
  committed : ∀ checksum bytes, txn.committed checksum = some bytes → later.committed checksum = some bytes
  present : ∀ checksum, (txn.object checksum).isSome → (later.object checksum).isSome
  hashed : ∀ bytes ∈ txn.hashed, bytes ∈ later.hashed

theorem Before.refl (txn : Txn sha256) : txn.Before txn :=
  ⟨fun _ _ found => found, fun _ found => found, fun _ member => member⟩

theorem Before.trans {first second third : Txn sha256} (before : first.Before second)
    (after : second.Before third) : first.Before third :=
  ⟨fun c b found => after.committed c b (before.committed c b found),
    fun c found => after.present c (before.present c found),
    fun b member => after.hashed b (before.hashed b member)⟩

/-- The byte strings that an assumption on collisions speaks of. -/
def known (txn : Txn sha256) : Set Bytes := {bytes | bytes ∈ txn.hashed ∨ ∃ c, txn.committed c = some bytes}

/-- An intact repository, no collision among the known byte strings, and byte strings that are
vectors. -/
structure Good (txn : Txn sha256) : Prop where
  intact : ∀ checksum bytes, txn.committed checksum = some bytes → sha256 bytes = checksum
  injective : Set.InjOn sha256 txn.known
  vectors : ∀ bytes ∈ txn.hashed, Addressable bytes

variable {txn : Txn sha256} {checksum : Checksum} {bytes : Bytes}

/-- What a read finds has the checksum it was asked for. -/
theorem Good.object_known (good : txn.Good)
    (found : txn.object checksum = some bytes) : bytes ∈ txn.known ∧ sha256 bytes = checksum := by
  obtain staged | ⟨-, committed⟩ := Option.or_eq_some_iff.mp found
  · obtain ⟨member, hash⟩ := txn.accounted _ _ staged
    exact ⟨.inl member, hash⟩
  · exact ⟨.inr ⟨_, committed⟩, good.intact _ _ committed⟩

/-- A known byte string is the object of its hash, if there is one. -/
theorem Good.object_of_hash (good : txn.Good) (known : bytes ∈ txn.known)
    (present : (txn.object (sha256 bytes)).isSome) : txn.object (sha256 bytes) = some bytes := by
  obtain ⟨stored, found⟩ := Option.isSome_iff_exists.mp present
  obtain ⟨storedKnown, same⟩ := good.object_known found
  rw [found, good.injective storedKnown known same]

theorem Good.object_of_committed (good : txn.Good)
    (committed : txn.committed checksum = some bytes) : txn.object checksum = some bytes := by
  obtain rfl := good.intact _ _ committed
  exact good.object_of_hash (.inr ⟨_, committed⟩) (by simp [object, committed])

variable {later : Txn sha256}

theorem Before.object (before : txn.Before later) (good : later.Good)
    (found : txn.object checksum = some bytes) : later.object checksum = some bytes := by
  have present := before.present checksum (Option.isSome_of_eq_some found)
  obtain staged | ⟨-, committed⟩ := Option.or_eq_some_iff.mp found
  · obtain ⟨member, rfl⟩ := txn.accounted _ _ staged
    exact good.object_of_hash (.inl (before.hashed _ member)) present
  · exact good.object_of_committed (before.committed _ _ committed)

theorem before_writeMetadata (refuse : Bytes → Option Error) (txn : Txn sha256) (bytes : Bytes) :
    txn.Before (txn.writeMetadata refuse bytes).2 := by
  unfold writeMetadata
  dsimp only
  split
  · exact ⟨fun _ _ found => found, fun _ found => found, fun _ => List.mem_cons_of_mem _⟩
  split
  · exact ⟨fun _ _ found => found, fun _ found => found, fun _ => List.mem_cons_of_mem _⟩
  · refine ⟨fun _ _ found => found, fun c found => ?_, fun _ => List.mem_cons_of_mem _⟩
    unfold object at found ⊢
    dsimp only
    split
    · rfl
    · exact found

theorem writeMetadata_stored (written : (txn.writeMetadata refuse bytes).1 = .ok checksum)
    (before : (txn.writeMetadata refuse bytes).2.Before later) (good : later.Good) :
    later.object checksum = some bytes ∧ Addressable bytes := by
  have hashed : bytes ∈ (txn.writeMetadata refuse bytes).2.hashed := by
    unfold writeMetadata
    dsimp only
    split
    · exact .head _
    split <;> exact .head _
  have stored : checksum = sha256 bytes ∧ ((txn.writeMetadata refuse bytes).2.object checksum).isSome := by
    revert written
    unfold writeMetadata object
    dsimp only
    split
    · intro failed
      cases failed
    split
    · next present =>
      rintro ⟨⟩
      exact ⟨rfl, by simp [present]⟩
    · rintro ⟨⟩
      exact ⟨rfl, by simp⟩
  obtain ⟨rfl, present⟩ := stored
  have member := before.hashed _ hashed
  exact ⟨good.object_of_hash (.inl member) (before.present _ present), good.vectors _ member⟩

theorem readDirtree_eq_ok (read : readDirtree bytes = .ok stored) :
    DirTree.parse bytes = .ok stored := by
  unfold readDirtree at read
  split_ifs at read
  cases parsed : DirTree.parse bytes with
  | error => rw [parsed] at read; cases read
  | ok found => rw [parsed] at read; cases read; rfl

/-- A load parses what is committed. -/
theorem loadDirtree_eq_ok (loaded : txn.loadDirtree checksum = .ok stored) :
    ∃ bytes, txn.committed checksum = some bytes ∧ DirTree.parse bytes = .ok stored := by
  unfold loadDirtree at loaded
  split at loaded
  · cases loaded
  · next bytes object => exact ⟨bytes, object, readDirtree_eq_ok loaded⟩

/-- The dirtree that the transaction holds under a checksum. The readers refuse a file over the
metadata size cap; this is what the object holds in any size. -/
def dirtree (txn : Txn sha256) (checksum : Checksum) : Option DirTree :=
  (txn.object checksum).bind fun bytes => (DirTree.parse bytes).toOption

theorem dirtree_of_object (found : txn.object checksum = some bytes)
    (parsed : DirTree.parse bytes = .ok tree) : txn.dirtree checksum = some tree := by
  simp [dirtree, found, parsed, Except.toOption]

theorem Before.dirtree (before : txn.Before later) (good : later.Good)
    (found : txn.dirtree checksum = some tree) : later.dirtree checksum = some tree := by
  obtain ⟨bytes, object, parsed⟩ := Option.bind_eq_some_iff.mp found
  unfold Txn.dirtree
  rw [before.object good object]
  exact parsed

end Txn

/-! ### Content -/

variable {load : Checksum → Option DirTree}

/-- What a read at a path finds. `unreadable` is a dirtree that is absent or does not parse. -/
inductive Found where
  | absent
  | file (checksum : Checksum)
  | dir (dirmeta : Option Checksum)
  | unreadable
  deriving DecidableEq

/-- The entry at a path, from the dirtree objects alone. -/
def viewTree (load : Checksum → Option DirTree) (checksum : Checksum) (name : String) : List String → Found
  | [] =>
    match load checksum with
    | none => .unreadable
    | some tree =>
      match SortedMap.get name tree.files, SortedMap.get name tree.dirs with
      | some file, _ => .file file
      | none, some (_, dirmeta) => .dir (some dirmeta)
      | none, none => .absent
  | next :: rest =>
    match load checksum with
    | none => .unreadable
    | some tree =>
      match SortedMap.get name tree.files, SortedMap.get name tree.dirs with
      | some _, _ => .absent
      | none, some (sub, _) => viewTree load sub next rest
      | none, none => .absent

/-- The dirmeta of a subdirectory. -/
def Child.dirmeta : Child MutableTree → Option Checksum
  | .lazy _ dirmeta => some dirmeta
  | .loaded tree => tree.metadataChecksum

/-- The entry at a path, through the loaded directories. -/
def MutableTree.view (load : Checksum → Option DirTree) (tree : MutableTree) (name : String) : List String → Found
  | [] =>
    match SortedMap.get name tree.files, SortedMap.get name tree.dirs with
    | some file, _ => .file file
    | none, some child => .dir child.dirmeta
    | none, none => .absent
  | next :: rest =>
    match SortedMap.get name tree.files, SortedMap.get name tree.dirs with
    | some _, _ => .absent
    | none, some (.lazy sub _) => viewTree load sub next rest
    | none, some (.loaded child) => child.view load next rest
    | none, none => .absent

def Child.view (load : Checksum → Option DirTree) : Child MutableTree → String → List String → Found
  | .lazy dirtree _ => viewTree load dirtree
  | .loaded tree => tree.view load

/-- A dirtree entry shows what a child shows. -/
structure Shows (load : Checksum → Option DirTree) (entry : String × Checksum × Checksum)
    (child : String × Child MutableTree) :
    Prop where
  name : entry.1 = child.1
  dirmeta : child.2.dirmeta = some entry.2.2
  view : ∀ next rest, viewTree load entry.2.1 next rest = child.2.view load next rest

/-- A dirtree with the files of a directory and entries that show its children shows the
directory. -/
theorem viewTree_eq_view {checksum : Checksum} {tree : MutableTree}
    (found : load checksum = some stored) (files : stored.files = tree.files)
    (dirs : List.Forall₂ (Shows load) stored.dirs tree.dirs) (name : String) (rest : List String) :
    viewTree load checksum name rest = tree.view load name rest := by
  have children := SortedMap.get_of_forall₂ dirs (fun _ _ shows => shows.name) name
  cases rest with
  | nil =>
    simp only [viewTree, MutableTree.view, found, files]
    cases SortedMap.get name tree.files with
    | some file => rfl
    | none =>
      obtain ⟨first, second⟩ | ⟨entry, child, first, second, shows⟩ := children
      · rw [first, second]
      · rw [first, second]
        exact congrArg Found.dir shows.dirmeta.symm
  | cons next rest =>
    simp only [viewTree, MutableTree.view, found, files]
    cases SortedMap.get name tree.files with
    | some file => rfl
    | none =>
      obtain ⟨first, second⟩ | ⟨entry, child, first, second, shows⟩ := children
      · rw [first, second]
      · rw [first, second]
        have view := shows.view next rest
        cases child with
        | lazy sub dirmeta => exact view
        | loaded child => exact view

/-- What was readable stays as it was. -/
theorem viewTree_stable (kept : ∀ checksum tree, load checksum = some tree → later checksum = some tree)
    (readable : viewTree load checksum name rest ≠ .unreadable) :
    viewTree later checksum name rest = viewTree load checksum name rest := by
  induction rest generalizing checksum name with
  | nil =>
    unfold viewTree at readable ⊢
    cases found : load checksum with
    | none => simp [found] at readable
    | some tree => simp only [kept _ _ found]
  | cons next rest ih =>
    unfold viewTree at readable ⊢
    cases found : load checksum with
    | none => simp [found] at readable
    | some tree =>
      grind

theorem MutableTree.view_stable
    (kept : ∀ checksum tree, load checksum = some tree → later checksum = some tree)
    {tree : MutableTree} {name : String}
    (readable : tree.view load name rest ≠ .unreadable) :
    tree.view later name rest = tree.view load name rest := by
  induction rest generalizing tree name with
  | nil => rfl
  | cons next rest ih =>
    grind [MutableTree.view, SortedMap.get, viewTree_stable]

/-! ### The content of a tree determines its checksum -/

/-- What a dirtree shows at a name and below it. -/
theorem viewTree_cases (rules : stored.Rules)
    (found : load checksum = some stored) (name : String) :
    (∃ file, SortedMap.get name stored.files = some file ∧ SortedMap.get name stored.dirs = none ∧
      viewTree load checksum name [] = .file file) ∨
    (∃ sub dirmeta, SortedMap.get name stored.files = none ∧ SortedMap.get name stored.dirs = some (sub, dirmeta) ∧
      viewTree load checksum name [] = .dir (some dirmeta) ∧
      ∀ next rest, viewTree load checksum name (next :: rest) = viewTree load sub next rest) ∨
    (SortedMap.get name stored.files = none ∧ SortedMap.get name stored.dirs = none ∧
      viewTree load checksum name [] = .absent) := by
  simp only [viewTree, found]
  cases file : SortedMap.get name stored.files with
  | none => rcases SortedMap.get name stored.dirs with _ | ⟨sub, dirmeta⟩ <;> simp
  | some checksum =>
    have apart : SortedMap.get name stored.dirs = none := by
      rw [SortedMap.get_eq_none]
      intro shared
      obtain ⟨entry, inDirs, same⟩ := List.mem_map.mp shared
      exact rules.disjoint _ (List.mem_map_of_mem (SortedMap.mem_of_get file)) (same ▸ List.mem_map_of_mem inDirs)
    simp [apart]

/-- Two trees of the same content, each whole and with an end, have one checksum. -/
theorem checksum_of_content {first second : Txn sha256} (good : first.Good) (other : second.Good)
    {depth : Nat} {left right : Checksum}
    (same : ∀ name rest, viewTree first.dirtree left name rest = viewTree second.dirtree right name rest)
    (readable : ∀ name rest, viewTree first.dirtree left name rest ≠ .unreadable)
    (finite : ∀ name rest, depth ≤ rest.length → viewTree first.dirtree left name rest = .absent) : left = right := by
  have bytes : ∀ {txn : Txn sha256} {checksum}, txn.Good → viewTree txn.dirtree checksum "" [] ≠ .unreadable →
      ∃ stored bytes, txn.dirtree checksum = some stored ∧ stored.Rules ∧
        stored.serialize = .ok bytes ∧ sha256 bytes = checksum := by
    intro txn checksum good readable
    obtain ⟨stored, found⟩ : ∃ stored, txn.dirtree checksum = some stored := by grind [viewTree]
    obtain ⟨bytes, object, parsed⟩ := Option.bind_eq_some_iff.mp found
    have parsed : DirTree.parse bytes = .ok stored := by
      cases result : DirTree.parse bytes <;> simp_all [Except.toOption]
    have written := DirTree.serialize_of_parse parsed
    exact ⟨stored, bytes, found, (DirTree.serialize_eq_ok.mp written).1, written, (good.object_known object).2⟩
  induction depth using Nat.strongRecOn generalizing left right with
  | ind depth ih =>
    obtain ⟨stored, data, found, rules, written, rfl⟩ := bytes good (readable "" [])
    obtain ⟨copy, data', copied, rules', written', rfl⟩ := bytes other (same "" [] ▸ readable "" [])
    have entries : ∀ name, SortedMap.get name stored.files = SortedMap.get name copy.files ∧
        SortedMap.get name stored.dirs = SortedMap.get name copy.dirs := by
      intro name
      have here := same name []
      obtain ⟨file, inFiles, inDirs, shown⟩ | ⟨sub, dirmeta, inFiles, inDirs, shown, below⟩
          | ⟨inFiles, inDirs, shown⟩ :=
        viewTree_cases rules found name <;>
      obtain ⟨file', inFiles', inDirs', shown'⟩ | ⟨sub', dirmeta', inFiles', inDirs', shown', below'⟩ |
        ⟨inFiles', inDirs', shown'⟩ := viewTree_cases rules' copied name
      all_goals simp [shown, shown'] at here
      · simp [inFiles, inDirs, inFiles', inDirs', here]
      · -- a directory is shown at its own path, so its content ends one level sooner
        obtain ⟨less, rfl⟩ : ∃ less, depth = less + 1 := by
          refine Nat.exists_eq_succ_of_ne_zero fun zero => ?_
          simpa [shown] using finite name [] (Nat.le_of_eq zero)
        have subs : sub = sub' := ih less less.lt_succ_self (fun next rest => by rw [← below, same, below'])
          (fun next rest => below next rest ▸ readable _ _)
          fun next rest deep => below next rest ▸ finite _ _ (Nat.succ_le_succ deep)
        simp [inFiles, inDirs, inFiles', inDirs', subs, here]
      · simp [inFiles, inDirs, inFiles', inDirs']
    have trees : stored = copy := DirTree.ext
      (SortedMap.ext_get rules.filesAscend rules'.filesAscend fun name => (entries name).1)
      (SortedMap.ext_get rules.dirsAscend rules'.dirsAscend fun name => (entries name).2)
    rw [trees, written'] at written
    rw [Except.ok.inj written]

end Ostrya.Repo
