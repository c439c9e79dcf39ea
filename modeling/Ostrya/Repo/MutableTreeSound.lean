/-
**Dirty tracking** (`mtree.rs`, the mutators).

`clean` names the dirtree that a directory was read from or last written as. `Matches` is what it promises:
that dirtree has the files of the directory, the same subdirectory names, and the checksums of every child
that is still lazy. A loaded child may differ, and a directory with a loaded child is always written. Each
mutator keeps the promise of every loaded directory (`Sound.edit`): it clears `clean`, or it only loads or
changes a loaded child.
-/

import Ostrya.Repo.TreeContent

namespace Ostrya.Repo

open ByteFormat Gvariant Ostrya.Core

variable {sha256 : Bytes → Checksum}

/-! ### What `clean` promises -/

variable {P : MutableTree → Prop} {name : String} {now : Txn sha256} {dirtree dirmeta : Checksum}

/-- Every loaded directory of a tree satisfies `P`. -/
inductive EveryDir (P : MutableTree → Prop) : MutableTree → Prop
  | intro {tree : MutableTree} (here : P tree)
      (children : ∀ name child, (name, Child.loaded child) ∈ tree.dirs → EveryDir P child) : EveryDir P tree

/-- The maps are maps, and no name is in both. -/
structure Layout (tree : MutableTree) : Prop where
  files : SortedMap.Sorted asBytes tree.files
  dirs : SortedMap.Sorted asBytes tree.dirs
  disjoint : ∀ name, (SortedMap.get name tree.dirs).isSome → SortedMap.get name tree.files = none

/-- A dirtree entry against a child: the same name, and the same checksums if the child was not
read. -/
def Agrees (entry : String × Checksum × Checksum) (child : String × Child MutableTree) : Prop :=
  entry.1 = child.1 ∧ ∀ dirtree dirmeta, child.2 = .lazy dirtree dirmeta → entry.2 = (dirtree, dirmeta)

/-- What `clean` promises, by the dirtrees that the transaction holds. -/
def Matches (txn : Txn sha256) (tree : MutableTree) : Prop :=
  ∀ checksum, tree.clean = some checksum →
    ∃ stored, txn.dirtree checksum = some stored ∧ stored.files = tree.files ∧
      List.Forall₂ Agrees stored.dirs tree.dirs

/-- A property of a directory that its mutators keep: it asks nothing of a directory that is not
clean, and it does not look at loaded children or at the dirmeta. -/
class Promise (M : MutableTree → Prop) : Prop where
  unclean : ∀ tree, tree.clean = none → M tree
  load : ∀ tree name old child, Layout tree → SortedMap.get name tree.dirs = some old → M tree →
    M (tree.withDir name (.loaded child))
  dirmeta : ∀ tree checksum, M tree → M (tree.setMetadataChecksum checksum)

/-- Every loaded directory is laid out as a map and keeps its promise. -/
def Sound (M : MutableTree → Prop) : MutableTree → Prop := EveryDir fun dir => Layout dir ∧ M dir

variable {M : MutableTree → Prop} {tree : MutableTree}

theorem EveryDir.here (every : EveryDir P tree) : P tree := by
  cases every
  assumption

theorem EveryDir.child (every : EveryDir P tree) {child : MutableTree}
    (member : (name, Child.loaded child) ∈ tree.dirs) : EveryDir P child := by
  cases every with
  | intro _ children => exact children name child member

theorem EveryDir.imp (weaker : ∀ dir, P dir → Q dir) (every : EveryDir P tree) :
    EveryDir Q tree := by
  induction every with
  | intro here _ ih => exact .intro (weaker _ here) ih

theorem EveryDir.and {Q : MutableTree → Prop} (first : EveryDir P tree) (second : EveryDir Q tree) :
    EveryDir (fun dir => P dir ∧ Q dir) tree := by
  induction first with
  | intro here _ ih =>
    exact .intro ⟨here, second.here⟩ fun name child member => ih name child member (second.child member)

/-- A child that a tree may take: lazy, or loaded and sound. -/
def SoundChild (M : MutableTree → Prop) (child : Child MutableTree) : Prop :=
  ∀ tree, child = .loaded tree → Sound M tree

theorem Sound.soundChild (sound : Sound M tree) {child : Child MutableTree}
    (found : SortedMap.get name tree.dirs = some child) : SoundChild M child := by
  rintro sub rfl
  exact sound.child (SortedMap.mem_of_get found)

theorem Sound.of_unclean [promise : Promise M] (unclean : tree.clean = none) (layout : Layout tree)
    (children : ∀ name child, (name, child) ∈ tree.dirs → SoundChild M child) : Sound M tree := by
  exact .intro ⟨layout, promise.unclean _ unclean⟩ fun name child member => children name _ member child rfl

theorem Sound.children (sound : Sound M tree) :
    ∀ name child, (name, child) ∈ tree.dirs → SoundChild M child := by
  rintro name child member sub rfl
  exact sound.child member

variable [Promise M]

theorem sound_new : Sound M .new :=
  .of_unclean rfl ⟨SortedMap.sorted_nil, SortedMap.sorted_nil, by simp [MutableTree.new, SortedMap.get]⟩
    (by simp [MutableTree.new])

theorem sound_emptyChild (dirmeta : Option Checksum) : Sound M (tree.emptyChild dirmeta) :=
  .of_unclean rfl ⟨SortedMap.sorted_nil, SortedMap.sorted_nil, by simp [MutableTree.emptyChild, SortedMap.get]⟩
    (by simp [MutableTree.emptyChild])

/-- What a read directory is: the entries of a dirtree, every subdirectory lazy. -/
theorem hydrate_eq_ok :
    MutableTree.hydrate now dirtree dirmeta = .ok tree ↔
      ∃ stored, now.loadDirtree dirtree = .ok stored ∧
        tree = ⟨some dirmeta, stored.files, stored.dirs.map fun entry => (entry.1, .lazy entry.2.1 entry.2.2),
          some dirtree, true⟩ := by
  have collected : ∀ stored, now.loadDirtree dirtree = .ok stored →
      SortedMap.collect asBytes stored.files = stored.files ∧
      SortedMap.collect asBytes
        (stored.dirs.map fun entry => (entry.1, (Child.lazy entry.2.1 entry.2.2 : Child MutableTree))) =
        stored.dirs.map fun entry => (entry.1, .lazy entry.2.1 entry.2.2) := by
    intro stored loaded
    obtain ⟨bytes, -, parsed⟩ := Txn.loadDirtree_eq_ok loaded
    obtain ⟨-, -, -, -, -, rules⟩ := DirTree.parse_eq_ok.mp parsed
    exact ⟨SortedMap.collect_of_sorted rules.filesAscend,
      SortedMap.collect_of_sorted ((SortedMap.sorted_map _).mpr rules.dirsAscend)⟩
  unfold MutableTree.hydrate
  rw [bind_eq_ok]
  constructor
  · rintro ⟨stored, loaded, made⟩
    rw [(collected stored loaded).1, (collected stored loaded).2] at made
    cases made
    exact ⟨stored, loaded, rfl⟩
  · rintro ⟨stored, loaded, rfl⟩
    refine ⟨stored, loaded, ?_⟩
    rw [(collected stored loaded).1, (collected stored loaded).2]

theorem layout_hydrate (read : MutableTree.hydrate now dirtree dirmeta = .ok tree) : Layout tree := by
  obtain ⟨stored, loaded, rfl⟩ := hydrate_eq_ok.mp read
  obtain ⟨bytes, -, parsed⟩ := Txn.loadDirtree_eq_ok loaded
  obtain ⟨-, -, -, -, -, rules⟩ := DirTree.parse_eq_ok.mp parsed
  refine ⟨rules.filesAscend, (SortedMap.sorted_map _).mpr rules.dirsAscend, fun name there => ?_⟩
  -- the rules of a dirtree keep the two lists apart
  rw [SortedMap.get_eq_none]
  intro shared
  obtain ⟨child, found⟩ := Option.isSome_iff_exists.mp there
  obtain ⟨file, inFiles, rfl⟩ := List.mem_map.mp shared
  obtain ⟨entry, inDirs, same⟩ := List.mem_map.mp (SortedMap.mem_of_get found)
  refine rules.disjoint _ (List.mem_map_of_mem inFiles) ?_
  rw [← (Prod.mk.inj same).1]
  exact List.mem_map_of_mem inDirs

omit [Promise M] in
theorem sound_hydrate (read : MutableTree.hydrate now dirtree dirmeta = .ok tree) (kept : M tree) : Sound M tree := by
  refine .intro ⟨layout_hydrate read, kept⟩ fun name child member => ?_
  obtain ⟨stored, -, rfl⟩ := hydrate_eq_ok.mp read
  obtain ⟨entry, -, same⟩ := List.mem_map.mp member
  cases (Prod.mk.inj same).2

theorem matches_hydrate (before : now.Before txn) (good : txn.Good)
    (read : MutableTree.hydrate now dirtree dirmeta = .ok tree) :
    Matches txn tree := by
  obtain ⟨stored, loaded, rfl⟩ := hydrate_eq_ok.mp read
  obtain ⟨bytes, object, parsed⟩ := Txn.loadDirtree_eq_ok loaded
  rintro checksum ⟨⟩
  refine ⟨stored, Txn.dirtree_of_object (good.object_of_committed (before.committed _ _ object)) parsed, rfl, ?_⟩
  rw [List.forall₂_map_right_iff, List.forall₂_same]
  rintro ⟨name, entry⟩ -
  refine ⟨rfl, ?_⟩
  rintro sub dirmeta ⟨⟩
  rfl

/-- `clean` asks nothing of a directory that is not clean, and a loaded child is always written. -/
instance matches_promise {txn : Txn sha256} : Promise (Matches txn) where
  unclean := by
    intro tree unclean checksum named
    rw [unclean] at named
    cases named
  load := by
    intro tree name old child layout there promise checksum named
    obtain ⟨stored, found, files, dirs⟩ := promise checksum named
    refine ⟨stored, found, files, ?_⟩
    rw [MutableTree.withDir, SortedMap.insert_of_get asBytes_injective layout.dirs there,
      List.forall₂_map_right_iff]
    refine dirs.imp fun entry sub agrees => ⟨agrees.1, fun dirtree dirmeta lazy => ?_⟩
    split_ifs at lazy
    exact agrees.2 dirtree dirmeta lazy
  dirmeta := fun _ _ promise => promise

/-! ### Every mutator keeps the promise -/

variable {next : MutableTree}

section

variable (sound : Sound M tree)

include sound

/-- A subdirectory set, in a directory whose `clean` is cleared. -/
theorem Sound.insertDir (childSound : SoundChild M child)
    (free : SortedMap.get name next.files = none) (files : SortedMap.Sorted asBytes next.files)
    (kept : ∀ other, SortedMap.get other tree.files = none → SortedMap.get other next.files = none)
    (dirs : next.dirs = SortedMap.insert asBytes name child tree.dirs) (unclean : next.clean = none) :
    Sound M next := by
  obtain ⟨layout, -⟩ := sound.here
  refine .of_unclean unclean ⟨files, ?_, fun other there => ?_⟩ fun other sub member => ?_
  · rw [dirs]
    exact SortedMap.sorted_insert layout.dirs
  · rw [dirs, SortedMap.get_insert asBytes_injective layout.dirs] at there
    split at there
    · next same => rw [same, free]
    · exact kept other (layout.disjoint other there)
  · rw [dirs] at member
    obtain same | old := SortedMap.mem_insert asBytes_injective member
    · obtain ⟨rfl, rfl⟩ := Prod.mk.inj same
      exact childSound
    · exact sound.children other sub old

theorem Sound.setFiles (files : SortedMap.Sorted asBytes next.files)
    (disjoint : ∀ name, (SortedMap.get name tree.dirs).isSome → SortedMap.get name next.files = none)
    (dirs : next.dirs = tree.dirs) (unclean : next.clean = none) : Sound M next := by
  obtain ⟨layout, -⟩ := sound.here
  refine .of_unclean unclean ⟨files, by rw [dirs]; exact layout.dirs, by rw [dirs]; exact disjoint⟩ ?_
  rw [dirs]
  exact sound.children

/-- A subdirectory taken out, in a directory whose `clean` is cleared. -/
theorem Sound.removeDir (files : next.files = tree.files) (dirs : next.dirs = SortedMap.remove name tree.dirs)
    (unclean : next.clean = none) : Sound M next := by
  obtain ⟨layout, -⟩ := sound.here
  refine .of_unclean unclean ⟨by rw [files]; exact layout.files, ?_, fun other there => ?_⟩ fun other sub member => ?_
  · rw [dirs]
    exact SortedMap.sorted_remove layout.dirs
  · rw [dirs, SortedMap.get_remove layout.dirs] at there
    split at there
    · cases there
    · rw [files]
      exact layout.disjoint other there
  · rw [dirs] at member
    exact sound.children other sub (SortedMap.mem_remove member)

/-- A child loaded in place: `clean` may stay, since a loaded child is always written. -/
theorem Sound.load {child : MutableTree}
    (there : SortedMap.get name tree.dirs = some old) (childSound : Sound M child) :
    Sound M (tree.withDir name (.loaded child)) := by
  obtain ⟨layout, promise⟩ := sound.here
  refine .intro ⟨⟨layout.files, SortedMap.sorted_insert layout.dirs, fun other set => ?_⟩,
    Promise.load _ _ _ _ layout there promise⟩ ?_
  · rw [MutableTree.withDir, SortedMap.get_insert asBytes_injective layout.dirs] at set
    split at set
    · next same =>
      rw [same]
      exact layout.disjoint name (by rw [there]; rfl)
    · exact layout.disjoint other set
  · intro other sub member
    obtain same | before := SortedMap.mem_insert asBytes_injective member
    · cases same
      exact childSound
    · exact sound.child before

theorem Sound.setMetadataChecksum (checksum : Checksum) :
    Sound M (tree.setMetadataChecksum checksum) := by
  obtain ⟨layout, promise⟩ := sound.here
  exact .intro ⟨⟨layout.files, layout.dirs, layout.disjoint⟩, Promise.dirmeta _ _ promise⟩ fun _ _ member =>
    sound.child member

section

variable (reads : ∀ dirtree dirmeta tree, MutableTree.hydrate now dirtree dirmeta = .ok tree → M tree)

include reads

theorem Sound.materialize (free : SortedMap.get name tree.files = none)
    (run : tree.materialize now name absent = .ok next) : Sound M next := by
  unfold MutableTree.materialize at run
  split at run
  · split at run
    · cases run
    · cases run
      refine sound.insertDir ?_ free sound.here.1.files (fun _ other => other) rfl rfl
      rintro _ ⟨⟩
      exact sound_emptyChild none
  · next dirtree dirmeta there =>
    split_ifs at run
    obtain ⟨loaded, read, made⟩ := bind_eq_ok.mp run
    cases made
    exact sound.load there (sound_hydrate read (reads _ _ _ read))
  · cases run
    exact sound

theorem Sound.descend (run : tree.descend now name absent = .ok next) :
    Sound M next := by
  obtain ⟨-, run⟩ := check_bind_eq_ok.mp run
  split at run
  · cases run
  · next free =>
    obtain ⟨made, step, last⟩ := bind_eq_ok.mp run
    have kept := sound.materialize reads (by simpa using free) step
    split at last
    · cases last
      exact kept
    · cases last

end

theorem Sound.replaceFile (run : tree.replaceFile name checksum = .ok next) : Sound M next := by
  obtain ⟨layout, -⟩ := sound.here
  obtain ⟨-, run⟩ := check_bind_eq_ok.mp run
  split at run
  · cases run
  · next free =>
    cases run
    refine sound.setFiles (SortedMap.sorted_insert layout.files) (fun other there => ?_) rfl rfl
    rw [SortedMap.get_insert asBytes_injective layout.files, if_neg]
    · exact layout.disjoint other there
    · rintro rfl
      exact free there

theorem Sound.clearChildren : Sound M tree.clearChildren := by
  unfold MutableTree.clearChildren
  split
  · exact .of_unclean rfl ⟨SortedMap.sorted_nil, SortedMap.sorted_nil, by simp [SortedMap.get]⟩ (by simp)
  · exact sound

theorem Sound.removeFile (name : String) :
    Sound M { tree with files := SortedMap.remove name tree.files, clean := none } := by
  obtain ⟨layout, -⟩ := sound.here
  refine sound.setFiles (SortedMap.sorted_remove layout.files) (fun other there => ?_) rfl rfl
  rw [SortedMap.get_remove layout.files]
  split
  · rfl
  · exact layout.disjoint other there

end

/-- An entry that was taken out of a tree. -/
def TakenEntry.Sound (M : MutableTree → Prop) : TakenEntry → Prop
  | .file _ => True
  | .dir child => SoundChild M child

section

variable (sound : Sound M tree)

include sound

theorem Sound.takeChild (run : tree.takeChild name = some (entry, next)) : entry.Sound M ∧ Sound M next := by
  unfold MutableTree.takeChild at run
  split at run
  · cases run
    exact ⟨trivial, sound.removeFile name⟩
  · split at run
    · next child there =>
      cases run
      exact ⟨sound.soundChild there, sound.removeDir rfl rfl rfl⟩
    · cases run

theorem Sound.insertChild
    (entrySound : entry.Sound M) (run : tree.insertChild name entry = .ok next) : Sound M next := by
  obtain ⟨layout, -⟩ := sound.here
  obtain ⟨-, run⟩ := check_bind_eq_ok.mp run
  split at run
  · cases run
  · next free =>
    rw [not_or] at free
    split at run
    · cases run
      refine sound.setFiles (SortedMap.sorted_insert layout.files) (fun other there => ?_) rfl rfl
      rw [SortedMap.get_insert asBytes_injective layout.files, if_neg]
      · exact layout.disjoint other there
      · rintro rfl
        exact free.2 there
    · cases run
      exact sound.insertDir entrySound (Option.not_isSome_iff_eq_none.mp free.1)
        layout.files (fun _ other => other) rfl rfl

theorem Sound.remove {allowNoent : Bool} (run : tree.remove name allowNoent = .ok next) : Sound M next := by
  unfold MutableTree.remove at run
  split_ifs at run
  · cases run
    exact sound.removeFile name
  · cases run
    exact sound.removeDir rfl rfl rfl
  · cases run
    exact sound

theorem Sound.insertLazyDir (run : tree.insertLazyDir name dirtree dirmeta = .ok next) : Sound M next := by
  obtain ⟨-, run⟩ := check_bind_eq_ok.mp run
  split at run
  · cases run
  · next free =>
    cases run
    refine sound.insertDir ?_ (Option.not_isSome_iff_eq_none.mp free) sound.here.1.files (fun _ other => other) rfl rfl
    rintro _ ⟨⟩

theorem Sound.setChildDirmeta (run : tree.setChildDirmeta name dirmeta = .ok next) : Sound M next := by
  obtain ⟨layout, -⟩ := sound.here
  unfold MutableTree.setChildDirmeta at run
  split at run
  · next child there =>
    cases run
    exact sound.load there ((sound.soundChild there child rfl).setMetadataChecksum dirmeta)
  · next dirtree old there =>
    split at run
    · cases run
      refine sound.insertDir ?_ (layout.disjoint name (by rw [there]; rfl)) layout.files
        (fun _ other => other) rfl rfl
      rintro _ ⟨⟩
    · cases run
      exact sound
  · cases run

theorem Sound.insertEmptyDir (name : String) (dirmeta : Option Checksum) :
    Sound M (tree.insertEmptyDir name dirmeta) := by
  obtain ⟨layout, -⟩ := sound.here
  refine sound.insertDir ?_ ?_ (SortedMap.sorted_remove layout.files) (fun other absent => ?_) rfl rfl
  · rintro _ ⟨⟩
    exact sound_emptyChild dirmeta
  · show SortedMap.get name (SortedMap.remove name tree.files) = none
    rw [SortedMap.get_remove layout.files, if_pos rfl]
  · show SortedMap.get other (SortedMap.remove name tree.files) = none
    rw [SortedMap.get_remove layout.files, absent]
    split <;> rfl

omit [Promise M] in
theorem Sound.dirAt (found : tree.dirAt path = some dir) : Sound M dir := by
  induction path generalizing tree with
  | nil =>
    cases found
    exact sound
  | cons name path ih =>
    unfold MutableTree.dirAt at found
    split at found
    · next child there => exact ih (sound.soundChild there child rfl) found
    · cases found

theorem Sound.setAt (dirSound : Sound M dir) :
    Sound M (tree.setAt path dir) := by
  induction path generalizing tree with
  | nil => exact dirSound
  | cons name path ih =>
    unfold MutableTree.setAt
    split
    · next child there => exact sound.load there (ih (sound.soundChild there child rfl))
    · exact sound

end

/-! ### The trees that a caller can hold -/

/-- A change of one directory. `install` is the hydration of a lazy child by the staging tree. -/
inductive Edit where
  | ensureDir (name : String)
  | subtree (name : String)
  | replaceFile (name : String) (checksum : Checksum)
  | remove (name : String) (allowNoent : Bool)
  | setMetadataChecksum (checksum : Checksum)
  | insertLazyDir (name : String) (dirtree dirmeta : Checksum)
  | setChildDirmeta (name : String) (dirmeta : Checksum)
  | clearChildren
  | insertEmptyDir (name : String) (dirmeta : Option Checksum)
  | install (name : String)

/-- The directory after a change. A change that fails leaves the directory as it was. -/
def Edit.apply (now : Txn sha256) (dir : MutableTree) : Edit → Except Error MutableTree
  | .ensureDir name => dir.ensureDir now name
  | .subtree name => dir.subtree now name
  | .replaceFile name checksum => dir.replaceFile name checksum
  | .remove name allowNoent => dir.remove name allowNoent
  | .setMetadataChecksum checksum => .ok (dir.setMetadataChecksum checksum)
  | .insertLazyDir name dirtree dirmeta => dir.insertLazyDir name dirtree dirmeta
  | .setChildDirmeta name dirmeta => dir.setChildDirmeta name dirmeta
  | .clearChildren => .ok dir.clearChildren
  | .insertEmptyDir name dirmeta => .ok (dir.insertEmptyDir name dirmeta)
  | .install name =>
    match dir.childKind name with
    | .lazyDir dirtree dirmeta =>
      (MutableTree.hydrate now dirtree dirmeta).map (dir.installHydratedChild name)
    | _ => .ok dir

/-- What a caller holds: a tree, or an entry that was taken out of one. -/
inductive Held where
  | tree (tree : MutableTree)
  | entry (entry : TakenEntry)

/-- What a caller can hold at a state of the transaction. `path` leads to a loaded directory, which
the caller has as the result of `ensure_dir` or `subtree` or reaches with `dir_at_mut`. -/
inductive Reached : Txn sha256 → Held → Prop
  | new (now : Txn sha256) : Reached now (.tree .new)
  | hydrated {now : Txn sha256} {dirtree dirmeta : Checksum} {tree : MutableTree}
      (read : MutableTree.hydrate now dirtree dirmeta = .ok tree) : Reached now (.tree tree)
  | fromCommit {now : Txn sha256} {tree : MutableTree}
      (read : MutableTree.fromCommit now resolveRev loadCommit rev = .ok tree) : Reached now (.tree tree)
  | edited {now : Txn sha256} {tree : MutableTree} (path : List String) (edit : Edit)
      (held : Reached now (.tree tree)) (found : tree.dirAt path = some dir)
      (run : edit.apply now dir = .ok made) : Reached now (.tree (tree.setAt path made))
  | takenFrom {now : Txn sha256} {tree : MutableTree} (path : List String) {name : String}
      (held : Reached now (.tree tree)) (found : tree.dirAt path = some dir)
      (run : dir.takeChild name = some (entry, made)) : Reached now (.tree (tree.setAt path made))
  | taken {now : Txn sha256} {tree : MutableTree} (path : List String) {name : String}
      (held : Reached now (.tree tree)) (found : tree.dirAt path = some dir)
      (run : dir.takeChild name = some (entry, made)) : Reached now (.entry entry)
  | inserted {now : Txn sha256} {tree : MutableTree} (path : List String) {name : String}
      (held : Reached now (.tree tree)) (moved : Reached now (.entry entry))
      (found : tree.dirAt path = some dir) (run : dir.insertChild name entry = .ok made) :
      Reached now (.tree (tree.setAt path made))
  | written {now : Txn sha256} {tree : MutableTree} (refuse : Bytes → Option Error)
      (held : Reached now (.tree tree)) :
      Reached (writeMtree refuse now tree).2.2 (.tree (writeMtree refuse now tree).2.1)
  | later {now : Txn sha256} (before : now.Before after) (reached : Reached now held) : Reached after held

def Held.Sound (M : MutableTree → Prop) : Held → Prop
  | .tree tree => Repo.Sound M tree
  | .entry taken => taken.Sound M

theorem Sound.edit (sound : Sound M tree)
    (reads : ∀ dirtree dirmeta tree, MutableTree.hydrate now dirtree dirmeta = .ok tree → M tree)
    {edit : Edit} (run : edit.apply now tree = .ok next) : Sound M next := by
  cases edit with
  | ensureDir name | subtree name => exact sound.descend reads run
  | replaceFile name checksum => exact sound.replaceFile run
  | remove name allowNoent => exact sound.remove run
  | setMetadataChecksum checksum =>
    cases run
    exact sound.setMetadataChecksum checksum
  | insertLazyDir name dirtree dirmeta => exact sound.insertLazyDir run
  | setChildDirmeta name dirmeta => exact sound.setChildDirmeta run
  | clearChildren =>
    cases run
    exact sound.clearChildren
  | insertEmptyDir name dirmeta =>
    cases run
    exact sound.insertEmptyDir name dirmeta
  | install name =>
    unfold Edit.apply at run
    dsimp only at run
    split at run
    · next dirtree dirmeta kind =>
      obtain ⟨loaded, read, rfl⟩ := map_eq_ok.mp run
      obtain ⟨old, there⟩ : ∃ old, SortedMap.get name tree.dirs = some old := by
        grind [MutableTree.childKind]
      exact sound.load there (sound_hydrate read (reads _ _ _ read))
    · cases run
      exact sound

end Ostrya.Repo
