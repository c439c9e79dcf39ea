/-
**Changes at a path, and what a directory shows** (for the merge of `staging_tree.rs`).

The source changes the left tree by literal paths. `dirAt_setAt`, `setAt_setAt` and `setAt_append` reduce
this to the directory at hand. Both sides of a merge are compared by what a read at each path finds
(`look`), so that laziness and the order of the steps cannot show: `unionAt` is the result at a path, `Clash`
a path where the two sides cannot both be kept, and `EntriesOk` is what the right side hands out.
-/

import Ostrya.Repo.Merge
import Ostrya.Repo.MutableTreeSound

namespace Ostrya.Repo

open ByteFormat Gvariant Ostrya.Core

variable {sha256 : Bytes → Checksum}

/-! ### Changes at a path -/

variable {path : List String} {name : String}

/-- The maps of every loaded directory are maps. -/
abbrev Valid : MutableTree → Prop := Sound fun _ => True

instance true_promise : Promise fun _ => True :=
    ⟨fun _ _ => trivial, fun _ _ _ _ _ _ _ => trivial, fun _ _ _ => trivial⟩

variable {tree dir : MutableTree}

theorem Valid.layout (valid : Valid tree) : Layout tree := valid.here.1

theorem withDir_withDir (layout : Layout tree) (name : String) (first second : Child MutableTree) :
    (tree.withDir name first).withDir name second = tree.withDir name second := by
  unfold MutableTree.withDir
  congr 1
  have sorted := layout.dirs
  have once : SortedMap.Sorted asBytes (SortedMap.insert asBytes name first tree.dirs) :=
    SortedMap.sorted_insert sorted
  refine SortedMap.ext_get (SortedMap.sorted_insert once)
    (SortedMap.sorted_insert sorted) fun key => ?_
  rw [SortedMap.get_insert asBytes_injective once, SortedMap.get_insert asBytes_injective sorted,
    SortedMap.get_insert asBytes_injective sorted]
  split <;> rfl

theorem get_withDir (layout : Layout tree) (name other : String) (child : Child MutableTree) :
    SortedMap.get other (tree.withDir name child).dirs =
      if other = name then some child else SortedMap.get other tree.dirs :=
  SortedMap.get_insert asBytes_injective layout.dirs

theorem dirAt_setAt (valid : Valid tree)
    (there : tree.dirAt path = some old) : (tree.setAt path new).dirAt path = some new := by
  induction path generalizing tree with
  | nil => rfl
  | cons name path ih =>
    unfold MutableTree.dirAt at there
    split at there
    · next child found =>
      unfold MutableTree.setAt
      simp only [found]
      unfold MutableTree.dirAt
      rw [get_withDir valid.layout, if_pos rfl]
      exact ih (valid.soundChild found child rfl) there
    · cases there

theorem setAt_setAt (valid : Valid tree) (first second : MutableTree) (there : tree.dirAt path = some old) :
    (tree.setAt path first).setAt path second = tree.setAt path second := by
  induction path generalizing tree with
  | nil => rfl
  | cons name path ih =>
    unfold MutableTree.dirAt at there
    split at there
    · next child found =>
      have inner := ih (valid.soundChild found child rfl) there
      simp only [MutableTree.setAt, found, get_withDir valid.layout, if_pos]
      rw [inner, withDir_withDir valid.layout]
    · cases there

theorem setAt_self (valid : Valid tree) (there : tree.dirAt path = some dir) :
    tree.setAt path dir = tree := by
  induction path generalizing tree with
  | nil =>
    cases there
    rfl
  | cons name path ih =>
    unfold MutableTree.dirAt at there
    split at there
    · next child found =>
      have inner := ih (valid.soundChild found child rfl) there
      have same : SortedMap.insert asBytes name (.loaded child) tree.dirs = tree.dirs := by
        refine SortedMap.ext_get (SortedMap.sorted_insert valid.layout.dirs)
          valid.layout.dirs fun key => ?_
        rw [SortedMap.get_insert asBytes_injective valid.layout.dirs]
        split
        · next same => rw [same, found]
        · rfl
      simp only [MutableTree.setAt, found, inner]
      unfold MutableTree.withDir
      rw [same]
      cases tree
      rfl
    · cases there

theorem dirAt_append
    (there : tree.dirAt path = some dir) (found : SortedMap.get name dir.dirs = some (.loaded child)) :
    tree.dirAt (path ++ [name]) = some child := by
  induction path generalizing tree with
  | nil =>
    cases there
    simp [MutableTree.dirAt, found]
  | cons head path ih =>
    grind [MutableTree.dirAt]

theorem setAt_append (new : MutableTree)
    (there : tree.dirAt path = some dir) (found : SortedMap.get name dir.dirs = some (.loaded child)) :
    tree.setAt (path ++ [name]) new = tree.setAt path (dir.withDir name (.loaded new)) := by
  induction path generalizing tree with
  | nil =>
    cases there
    simp [MutableTree.setAt, found]
  | cons head path ih =>
    grind [MutableTree.dirAt, MutableTree.setAt]

/-! ### What a directory shows -/

variable {txn : Txn sha256}

/-- The entry at a path from a directory; the empty path is the directory itself. -/
def MutableTree.look (load : Checksum → Option DirTree) (tree : MutableTree) : List String → Found
  | [] => .dir tree.metadataChecksum
  | name :: rest => tree.view load name rest

def RightDir.look (load : Checksum → Option DirTree) : RightDir → List String → Found
  | .mutable tree => tree.look load
  | .committed dirtree dirmeta => fun path =>
    match path with
    | [] => .dir (some dirmeta)
    | name :: rest => viewTree load dirtree name rest

/-- A path below a file finds nothing. -/
def Found.below (checksum : Checksum) : List String → Found
  | [] => .file checksum
  | _ :: _ => .absent

/-- What a directory with these entries shows at a name. -/
def lookEntries (load : Checksum → Option DirTree) (files : List (String × Checksum))
    (dirs : List (String × RightDir)) (name : String) (rest : List String) : Found :=
  match SortedMap.get name files with
  | some checksum => Found.below checksum rest
  | none =>
    match SortedMap.get name dirs with
    | some child => child.look load rest
    | none => .absent

variable {load : Checksum → Option DirTree}

theorem look_eq_lookEntries (tree : MutableTree) (name : String) (rest : List String) :
    tree.look load (name :: rest) =
      lookEntries load tree.files (tree.dirs.map fun entry => (entry.1, RightDir.ofChild entry.2)) name rest := by
  unfold lookEntries
  rw [MutableTree.look, SortedMap.get_map (f := fun entry => RightDir.ofChild entry.2)]
  cases rest with
  | nil | cons next rest =>
    unfold MutableTree.view
    cases SortedMap.get name tree.files with
    | some checksum => rfl
    | none =>
      cases SortedMap.get name tree.dirs with
      | none => rfl
      | some child => cases child <;> rfl

theorem look_file (file : SortedMap.get name tree.files = some checksum)
    (rest : List String) : tree.look load (name :: rest) = Found.below checksum rest := by
  rw [look_eq_lookEntries, lookEntries, file]

theorem look_child (noFile : SortedMap.get name tree.files = none)
    (found : SortedMap.get name tree.dirs = some child) (rest : List String) :
    tree.look load (name :: rest) = (RightDir.ofChild child).look load rest := by
  rw [look_eq_lookEntries, lookEntries, noFile,
    SortedMap.get_map (f := fun entry => RightDir.ofChild entry.2), found]
  rfl

theorem look_absent (noFile : SortedMap.get name tree.files = none)
    (noDir : SortedMap.get name tree.dirs = none) (rest : List String) :
    tree.look load (name :: rest) = .absent := by
  rw [look_eq_lookEntries, lookEntries, noFile,
    SortedMap.get_map (f := fun entry => RightDir.ofChild entry.2), noDir]
  rfl

/-- The entries at a name decide what is shown there. -/
theorem look_congr {next : MutableTree} (files : SortedMap.get name next.files = SortedMap.get name tree.files)
    (dirs : SortedMap.get name next.dirs = SortedMap.get name tree.dirs) (rest : List String) :
    next.look load (name :: rest) = tree.look load (name :: rest) := by
  rw [look_eq_lookEntries, look_eq_lookEntries, lookEntries, lookEntries, files,
    SortedMap.get_map (f := fun entry => RightDir.ofChild entry.2),
    SortedMap.get_map (f := fun entry => RightDir.ofChild entry.2), dirs]

/-- A directory that was just read shows what it was read from. -/
theorem look_hydrate (read : MutableTree.hydrate txn dirtree dirmeta = .ok loaded)
    (same : load dirtree = (txn.loadDirtree dirtree).toOption) (path : List String) :
    loaded.look load path = (RightDir.committed dirtree dirmeta).look load path := by
  obtain ⟨stored, found, rfl⟩ := hydrate_eq_ok.mp read
  cases path with
  | nil => rfl
  | cons name rest =>
    have stored' : load dirtree = some stored := by
      rw [same, found]
      rfl
    refine (viewTree_eq_view stored' rfl ?_ name rest).symm
    rw [List.forall₂_map_right_iff, List.forall₂_same]
    exact fun entry _ => ⟨rfl, rfl, fun _ _ => rfl⟩

/-! ### The union -/

variable {dirmeta : Option Checksum}

def Found.isFile : Found → Bool
  | .file _ => true
  | _ => false

/-- A file at the path or at a directory above it. -/
def fileAbove (right : List String → Found) : List String → Bool
  | [] => (right []).isFile
  | name :: path => (right []).isFile || fileAbove (fun path => right (name :: path)) path

/-- The result of a merge at a path. -/
def unionAt (root : RootDirmeta) (left right : List String → Found) (path : List String) : Found :=
  match right path with
  | .file checksum => .file checksum
  | .dir rightDm =>
    match left path with
    | .dir leftDm => .dir (if path = [] ∧ root = .keepLeft then leftDm else rightDm.or leftDm)
    | _ => .dir rightDm
  | .absent => if fileAbove right path then .absent else left path
  | .unreadable => .unreadable

/-- A path where the sides cannot both be kept: files with different checksums, a file against a
directory, or two set and different dirmetas of a directory that reconciles. -/
def Clash (root : RootDirmeta) (left right : List String → Found) (path : List String) : Prop :=
  match left path, right path with
  | .file leftCsum, .file rightCsum => leftCsum ≠ rightCsum
  | .file _, .dir _ => True
  | .dir _, .file _ => True
  | .dir (some leftDm), .dir (some rightDm) => leftDm ≠ rightDm ∧ (path ≠ [] ∨ root = .reconcile)
  | _, _ => False

variable {root : RootDirmeta} {left right : List String → Found}

theorem unionAt_cons (rootDir : right [] = .dir dirmeta) (name : String) (path : List String) :
    unionAt root left right (name :: path) =
      unionAt .reconcile (fun path => left (name :: path)) (fun path => right (name :: path)) path := by
  have above : fileAbove right (name :: path) = fileAbove (fun path => right (name :: path)) path := by
    rw [fileAbove, rootDir]
    rfl
  unfold unionAt
  rw [above]
  simp

theorem clash_cons (name : String) (path : List String) :
    Clash root left right (name :: path) ↔
      Clash .reconcile (fun path => left (name :: path)) (fun path => right (name :: path)) path := by
  unfold Clash
  simp

theorem not_clash_of_left_absent (absent : left path = .absent) :
    ¬ Clash root left right path := by
  unfold Clash
  rw [absent]
  exact id

theorem not_clash_of_right_absent (absent : right path = .absent) :
    ¬ Clash root left right path := by
  unfold Clash
  rw [absent]
  rcases left path with _ | _ | (_ | _) | _ <;> exact id

/-- Where the left side has nothing below, the union is the right side below. -/
theorem unionAt_of_below (here : unionAt .reconcile left right [] = right [])
    (below : ∀ name path, left (name :: path) = .absent) (path : List String) :
    unionAt .reconcile left right path = right path := by
  cases path with
  | nil => exact here
  | cons name path =>
    unfold unionAt
    rw [below]
    cases right (name :: path) with
    | absent => exact ite_self _
    | _ => rfl

/-- Where the left side is a file or nothing, the union is the right side. -/
theorem unionAt_of_absent (rootDir : right [] = .dir dirmeta)
    (noDir : ∀ dirmeta, left [] ≠ .dir dirmeta) (below : ∀ name path, left (name :: path) = .absent)
    (path : List String) : unionAt .reconcile left right path = right path := by
  refine unionAt_of_below ?_ below path
  rw [unionAt, rootDir]
  cases own : left [] with
  | dir leftDm => exact absurd own (noDir leftDm)
  | _ => rfl

/-- Into a fresh directory with the right dirmeta, the union is the right side. -/
theorem unionAt_of_fresh (rootDir : right [] = .dir dirmeta)
    (fresh : left [] = .dir dirmeta) (below : ∀ name path, left (name :: path) = .absent) (path : List String) :
    unionAt .reconcile left right path = right path := by
  refine unionAt_of_below ?_ below path
  rw [unionAt, rootDir, fresh]
  cases dirmeta <;> simp

theorem not_clash_of_fresh (rootDir : right [] = .dir dirmeta)
    (fresh : left [] = .dir dirmeta) (below : ∀ name path, left (name :: path) = .absent) (path : List String) :
    ¬ Clash .reconcile left right path := by
  unfold Clash
  cases path with
  | nil =>
    rw [fresh, rootDir]
    cases dirmeta <;> simp
  | cons name path => exact not_clash_of_left_absent (below name path)

/-! ### The entries of the right side -/

theorem validateName_eq_ok (valid : DirTree.IsEntryName name) : validateName name = .ok () := by
  unfold validateName
  have slash : name.toList.contains '/' = false := by
    rw [Bool.eq_false_iff, ne_eq, List.contains_iff_mem]
    exact valid.noSlash
  rw [if_neg valid.nonempty, if_neg (not_or.mpr ⟨valid.notDot, valid.notDotDot⟩), slash]
  rfl

/-- The right side is laid out as maps, and its file names are entry names. -/
def RightDir.Ok : RightDir → Prop
  | .mutable tree => EveryDir (fun dir => Layout dir ∧ ∀ file ∈ dir.files, validateName file.1 = .ok ()) tree
  | .committed _ _ => True

/-- What `entries` returns. -/
structure EntriesOk (load : Checksum → Option DirTree) (right : RightDir)
    (rfiles : List (String × Checksum)) (rdirs : List (String × RightDir)) : Prop where
  files : SortedMap.Sorted asBytes rfiles
  dirs : SortedMap.Sorted asBytes rdirs
  disjoint : ∀ name, (SortedMap.get name rdirs).isSome → SortedMap.get name rfiles = none
  named : ∀ file ∈ rfiles, validateName file.1 = .ok ()
  children : ∀ entry ∈ rdirs, entry.2.Ok
  look : ∀ name rest, right.look load (name :: rest) = lookEntries load rfiles rdirs name rest

theorem Txn.loadDirtreeStagedFirst_eq_ok
    (loaded : txn.loadDirtreeStagedFirst checksum = .ok stored) : ∃ bytes, DirTree.parse bytes = .ok stored := by
  unfold Txn.loadDirtreeStagedFirst at loaded
  split at loaded
  · obtain ⟨bytes, -, parsed⟩ := Txn.loadDirtree_eq_ok loaded
    exact ⟨bytes, parsed⟩
  · next bytes _ => exact ⟨bytes, Txn.readDirtree_eq_ok loaded⟩

theorem entriesOk_of_entries (same : ∀ c, load c = (txn.loadDirtreeStagedFirst c).toOption)
    (ok : side.Ok) (read : side.entries txn = .ok (rfiles, rdirs)) : EntriesOk load side rfiles rdirs := by
  cases side with
  | mutable tree =>
    cases read
    obtain ⟨layout, named⟩ := EveryDir.here ok
    refine ⟨layout.files, (SortedMap.sorted_map _).mpr layout.dirs, fun name there => ?_, named, ?_,
      fun name rest => look_eq_lookEntries tree name rest⟩
    · rw [SortedMap.get_map (f := fun entry => RightDir.ofChild entry.2), Option.isSome_map] at there
      exact layout.disjoint name there
    · intro entry member
      obtain ⟨⟨name, child⟩, inside, rfl⟩ := List.mem_map.mp member
      cases child with
      | lazy dirtree dirmeta => trivial
      | loaded sub => exact EveryDir.child ok inside
  | committed dirtree dirmeta =>
    obtain ⟨stored, loaded, made⟩ := bind_eq_ok.mp read
    cases made
    obtain ⟨bytes, parsed⟩ := Txn.loadDirtreeStagedFirst_eq_ok loaded
    obtain ⟨-, -, -, -, -, rules⟩ := DirTree.parse_eq_ok.mp parsed
    have found : load dirtree = some stored := by
      rw [same, loaded]
      rfl
    refine ⟨rules.filesAscend, (SortedMap.sorted_map _).mpr rules.dirsAscend, fun name there => ?_,
      fun file member => validateName_eq_ok (rules.fileNamed file member), ?_, fun name rest => ?_⟩
    · rw [SortedMap.get_map (f := fun entry : String × Checksum × Checksum =>
        RightDir.committed entry.2.1 entry.2.2), Option.isSome_map] at there
      obtain ⟨entry, found⟩ := Option.isSome_iff_exists.mp there
      rw [SortedMap.get_eq_none]
      intro shared
      obtain ⟨file, inFiles, rfl⟩ := List.mem_map.mp shared
      exact rules.disjoint _ (List.mem_map_of_mem inFiles) (List.mem_map_of_mem (SortedMap.mem_of_get found))
    · intro entry member
      obtain ⟨_, -, rfl⟩ := List.mem_map.mp member
      trivial
    · unfold lookEntries
      rw [SortedMap.get_map (f := fun entry : String × Checksum × Checksum =>
        RightDir.committed entry.2.1 entry.2.2)]
      show viewTree load dirtree name rest = _
      cases rest with
      | nil | cons next rest =>
        rw [viewTree, found]
        dsimp only
        cases SortedMap.get name stored.files with
        | some checksum => rfl
        | none => cases SortedMap.get name stored.dirs <;> rfl

theorem entries_of_readable {side : RightDir} (same : ∀ c, load c = (txn.loadDirtreeStagedFirst c).toOption)
    (readable : ∀ path, side.look load path ≠ .unreadable) : ∃ entries, side.entries txn = .ok entries := by
  cases side with
  | mutable tree => exact ⟨_, rfl⟩
  | committed dirtree dirmeta =>
    cases loaded : txn.loadDirtreeStagedFirst dirtree with
    | ok stored => exact ⟨_, by rw [RightDir.entries, loaded]; rfl⟩
    | error fault =>
      have missing : load dirtree = none := by
        rw [same, loaded]
        rfl
      have first : viewTree load dirtree "" [] = .unreadable := by rw [viewTree, missing]
      exact absurd first (readable [""])

end Ostrya.Repo
