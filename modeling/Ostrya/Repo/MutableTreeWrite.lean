/-
**A written tree reads back as the tree in memory** (`mtree.rs`, `write_mtree`).

* `writeNode_spec` — the dirtree that `write_node` returns shows, at every path, what the directory shows;
  the directories that it wrote match the dirtrees that their `clean` now names.
* `Reached.sound` — **every mutator on every path keeps the promise of `clean`**, earlier writes of the
  transaction included.
* `writeMtree_reads_back` puts the two together.
-/

import Ostrya.Repo.MutableTreeSound

namespace Ostrya.Repo

open ByteFormat Gvariant Ostrya.Core

variable {sha256 : Bytes → Checksum}

variable {txn : Txn sha256} {tree : MutableTree} {refuse : Bytes → Option Error}

/-- A child after the writer: in its place, and loaded if it was. -/
def Rewrites (old new : String × Child MutableTree) : Prop :=
  old.1 = new.1 ∧ ∀ dirtree dirmeta, new.2 = .lazy dirtree dirmeta → old.2 = .lazy dirtree dirmeta

/-- What one run of a writer does: it only adds to the transaction, and from every later state on,
what it leaves in place of the old value is `New` and what it returns is `Shown`. -/
structure Writes {α β : Type} (now : Txn sha256) (run : Except Error α × β × Txn sha256) (Old : Txn sha256 → Prop)
    (New : Txn sha256 → β → Prop) (Shown : Txn sha256 → α → Prop) : Prop where
  before : now.Before run.2.2
  after : ∀ txn, run.2.2.Before txn → txn.Good → Old txn → New txn run.2.1 ∧ ∀ made, run.1 = .ok made → Shown txn made

/-- What `write_node` does with one directory. -/
def NodeSpec (sha256 : Bytes → Checksum) (refuse : Bytes → Option Error) (tree : MutableTree) : Prop :=
  ∀ (now : Txn sha256) path, Writes now (writeNode refuse now path tree) (fun txn => Sound (Matches txn) tree)
    (fun txn new => Sound (Matches txn) new) fun txn emitted => tree.metadataChecksum = some emitted.dirmeta ∧
      ∀ name rest, viewTree txn.dirtree emitted.dirtree name rest = tree.view txn.dirtree name rest

/-- What the loop body does with one child. -/
def EntrySpec (sha256 : Bytes → Checksum) (refuse : Bytes → Option Error) (entry : String × Child MutableTree) : Prop :=
  ∀ (now : Txn sha256) path, Writes now (writeEntry refuse now path entry)
    (fun txn => SoundChild (Matches txn) entry.2)
    (fun txn new => Rewrites entry new ∧ SoundChild (Matches txn) new.2)
    fun txn written => Shows txn.dirtree written entry ∧ Agrees written entry

/-- What the loop over the subdirectories does. -/
def DirsSpec (sha256 : Bytes → Checksum) (refuse : Bytes → Option Error)
    (entries : List (String × Child MutableTree)) : Prop :=
  ∀ (now : Txn sha256) path, Writes now (writeDirs refuse now path entries)
    (fun txn => ∀ entry ∈ entries, SoundChild (Matches txn) entry.2)
    (fun txn new => List.Forall₂ Rewrites entries new ∧ ∀ entry ∈ new, SoundChild (Matches txn) entry.2)
    fun txn written => List.Forall₂ (fun entry child => Shows txn.dirtree entry child ∧
      Agrees entry child) written entries

theorem writeEntry_loaded (now : Txn sha256) (path name : String) (tree : MutableTree) :
    writeEntry refuse now path (name, .loaded tree) =
      ((writeNode refuse now (joinPath path name) tree).1.map fun emitted =>
          (name, emitted.dirtree, emitted.dirmeta),
        (name, .loaded (writeNode refuse now (joinPath path name) tree).2.1),
        (writeNode refuse now (joinPath path name) tree).2.2) := by
  rw [writeEntry, writeChild]
  dsimp only
  cases (writeNode refuse now (joinPath path name) tree).1 <;> rfl

theorem Rewrites.refl (entry : String × Child MutableTree) : Rewrites entry entry := ⟨rfl, fun _ _ same => same⟩

theorem EntrySpec.of_lazy (name : String) (dirtree dirmeta : Checksum) :
    EntrySpec sha256 refuse (name, .lazy dirtree dirmeta) := by
  intro now path
  refine ⟨.refl now, fun txn _ _ sound => ⟨⟨.refl _, sound⟩, ?_⟩⟩
  rintro written ⟨⟩
  refine ⟨⟨rfl, rfl, fun _ _ => rfl⟩, rfl, ?_⟩
  rintro _ _ ⟨⟩
  rfl

theorem EntrySpec.of_loaded (node : NodeSpec sha256 refuse tree) :
    EntrySpec sha256 refuse (name, .loaded tree) := by
  intro now path
  obtain ⟨before, after⟩ := node now (joinPath path name)
  rw [writeEntry_loaded]
  refine ⟨before, fun txn later good sound => ?_⟩
  obtain ⟨kept, shows⟩ := after txn later good (sound tree rfl)
  refine ⟨⟨⟨rfl, ?_⟩, ?_⟩, fun written run => ?_⟩
  · rintro _ _ ⟨⟩
  · rintro _ ⟨⟩
    exact kept
  · obtain ⟨emitted, ok, rfl⟩ := map_eq_ok.mp run
    obtain ⟨dirmeta, view⟩ := shows emitted ok
    refine ⟨⟨rfl, dirmeta, view⟩, rfl, ?_⟩
    rintro _ _ ⟨⟩

theorem writeDirs_cons (now : Txn sha256) (path : String) (entry : String × Child MutableTree)
    (entries : List (String × Child MutableTree)) :
    writeDirs refuse now path (entry :: entries) =
      match (writeEntry refuse now path entry).1 with
      | .error fault => (.error fault, (writeEntry refuse now path entry).2.1 :: entries,
          (writeEntry refuse now path entry).2.2)
      | .ok written =>
        ((writeDirs refuse (writeEntry refuse now path entry).2.2 path entries).1.map (written :: ·),
          (writeEntry refuse now path entry).2.1 ::
            (writeDirs refuse (writeEntry refuse now path entry).2.2 path entries).2.1,
          (writeDirs refuse (writeEntry refuse now path entry).2.2 path entries).2.2) := by
  rw [writeDirs]
  rcases writeEntry refuse now path entry with ⟨fault | written, entry', middle⟩
  · rfl
  · dsimp only
    rcases writeDirs refuse middle path entries with ⟨fault | rest, entries', last⟩ <;> rfl

theorem DirsSpec.nil : DirsSpec sha256 refuse [] := by
  intro now path
  refine ⟨.refl now, fun txn _ _ sound => ⟨⟨.nil, sound⟩, ?_⟩⟩
  rintro written ⟨⟩
  exact .nil

variable {entries : List (String × Child MutableTree)}

theorem DirsSpec.cons {entry : String × Child MutableTree}
    (first : EntrySpec sha256 refuse entry) (rest : DirsSpec sha256 refuse entries) :
    DirsSpec sha256 refuse (entry :: entries) := by
  intro now path
  obtain ⟨before, after⟩ := first now path
  rw [writeDirs_cons]
  split
  · refine ⟨before, fun txn later good sound => ?_⟩
    obtain ⟨own, others⟩ := List.forall_mem_cons.mp sound
    obtain ⟨⟨place, kept⟩, -⟩ := after txn later good own
    refine ⟨⟨.cons place (List.forall₂_same.mpr fun _ _ => .refl _), List.forall_mem_cons.mpr ⟨kept, others⟩⟩, ?_⟩
    rintro _ ⟨⟩
  · next written ok =>
    obtain ⟨onward, rest⟩ := rest (writeEntry refuse now path entry).2.2 path
    refine ⟨before.trans onward, fun txn later good sound => ?_⟩
    obtain ⟨own, others⟩ := List.forall_mem_cons.mp sound
    obtain ⟨⟨place, kept⟩, shows⟩ := after txn (onward.trans later) good own
    obtain ⟨⟨places, keeps⟩, shown⟩ := rest txn later good others
    refine ⟨⟨.cons place places, List.forall_mem_cons.mpr ⟨kept, keeps⟩⟩, fun all run => ?_⟩
    obtain ⟨tail, okTail, rfl⟩ := map_eq_ok.mp run
    exact .cons (shows written ok) (shown tail okTail)

theorem DirsSpec.of_nodes
    (nodes : ∀ name child, (name, Child.loaded child) ∈ entries → NodeSpec sha256 refuse child) :
    DirsSpec sha256 refuse entries := by
  induction entries with
  | nil => exact .nil
  | cons entry entries ih =>
    refine .cons ?_ (ih fun name child member => nodes name child (.tail _ member))
    obtain ⟨name, child⟩ := entry
    cases child with
    | lazy dirtree dirmeta => exact .of_lazy name dirtree dirmeta
    | loaded tree => exact .of_loaded (nodes name tree (.head _))

theorem before_writeDirtree (files : List (String × Checksum)) (dirs : List (String × Checksum × Checksum))
    (now : Txn sha256) : now.Before (writeDirtree refuse files dirs now).2 := by
  unfold writeDirtree
  split
  · exact .refl now
  · exact now.before_writeMetadata refuse _

theorem writeDirtree_stored (written : (writeDirtree refuse files dirs now).1 = .ok checksum)
    (before : (writeDirtree refuse files dirs now).2.Before txn) (good : txn.Good) :
    txn.dirtree checksum = some ⟨files, dirs⟩ := by
  unfold writeDirtree at written before
  cases serialized : (⟨files, dirs⟩ : DirTree).serialize with
  | error fault =>
    rw [serialized] at written
    cases written
  | ok bytes =>
    rw [serialized] at written before
    obtain ⟨found, fits⟩ := Txn.writeMetadata_stored written before good
    exact Txn.dirtree_of_object found (DirTree.parse_of_serialize serialized fits)

/-- The ways a `write_node` ends. -/
theorem writeNode_cases (now : Txn sha256) (path : String) (tree : MutableTree) :
    (∃ fault, tree.metadataChecksum = none ∧ writeNode refuse now path tree = (.error fault, tree, now)) ∨
    (∃ dirmeta dirtree, tree.metadataChecksum = some dirmeta ∧ tree.clean = some dirtree ∧
      (tree.dirs.any fun entry => entry.2.isLoaded) = false ∧
      writeNode refuse now path tree = (.ok ⟨dirtree, dirmeta⟩, tree, now)) ∨
    (∃ fault, (writeDirs refuse now path tree.dirs).1 = .error fault ∧
      writeNode refuse now path tree =
        (.error fault, { tree with dirs := (writeDirs refuse now path tree.dirs).2.1 },
          (writeDirs refuse now path tree.dirs).2.2)) ∨
    (∃ entries fault, (writeDirs refuse now path tree.dirs).1 = .ok entries ∧
      (writeDirtree refuse tree.files entries (writeDirs refuse now path tree.dirs).2.2).1 = .error fault ∧
      writeNode refuse now path tree =
        (.error fault, { tree with dirs := (writeDirs refuse now path tree.dirs).2.1 },
          (writeDirtree refuse tree.files entries (writeDirs refuse now path tree.dirs).2.2).2)) ∨
    (∃ dirmeta entries dirtree, tree.metadataChecksum = some dirmeta ∧
      (writeDirs refuse now path tree.dirs).1 = .ok entries ∧
      (writeDirtree refuse tree.files entries (writeDirs refuse now path tree.dirs).2.2).1 = .ok dirtree ∧
      writeNode refuse now path tree =
        (.ok ⟨dirtree, dirmeta⟩,
          { tree with dirs := (writeDirs refuse now path tree.dirs).2.1, clean := some dirtree },
          (writeDirtree refuse tree.files entries (writeDirs refuse now path tree.dirs).2.2).2)) := by
  obtain ⟨metadataChecksum, files, dirs, clean, repo⟩ := tree
  cases metadataChecksum with
  | none => exact .inl ⟨_, rfl, rfl⟩
  | some dirmeta =>
    right
    simp only [writeNode]
    split
    · next dirtree unloaded => exact .inl ⟨dirmeta, dirtree, rfl, rfl, unloaded, rfl⟩
    · grind

theorem Agrees.rewrites (agrees : Agrees entry old) (rewrites : Rewrites old new) : Agrees entry new :=
  ⟨agrees.1.trans rewrites.1, fun _ _ lazy => agrees.2 _ _ (rewrites.2 _ _ lazy)⟩

/-- The layout is one of names. -/
theorem Layout.rewrites (layout : Layout tree) {dirs : List (String × Child MutableTree)}
    (places : List.Forall₂ Rewrites tree.dirs dirs) (clean : Option Checksum) :
    Layout { tree with dirs := dirs, clean := clean } where
  files := layout.files
  dirs := by
    have ranks := map_eq_of_forall₂ places fun old new rewrites => congrArg asBytes rewrites.1
    have sorted := layout.dirs
    unfold SortedMap.Sorted at sorted ⊢
    rwa [← ranks]
  disjoint := by
    intro name there
    obtain ⟨-, absent⟩ | ⟨old, new, before, -, -⟩ :=
      SortedMap.get_of_forall₂ places (fun _ _ rewrites => rewrites.1) name
    · rw [absent] at there
      cases there
    · exact layout.disjoint name (by rw [before]; rfl)

/-- A directory whose children were written, with `clean` as it was. -/
theorem Sound.rewritten (sound : Sound (Matches txn) tree)
    {dirs : List (String × Child MutableTree)} (places : List.Forall₂ Rewrites tree.dirs dirs)
    (children : ∀ entry ∈ dirs, SoundChild (Matches txn) entry.2) : Sound (Matches txn) { tree with dirs := dirs } := by
  obtain ⟨layout, promise⟩ := sound.here
  refine .intro ⟨layout.rewrites places tree.clean, fun checksum named => ?_⟩ fun name child member =>
    children _ member child rfl
  obtain ⟨stored, found, files, agrees⟩ := promise checksum named
  exact ⟨stored, found, files, forall₂_comp agrees places fun _ _ _ _ first second => first.rewrites second⟩

/-- With no loaded child, the dirtree that `clean` names shows the directory. -/
theorem Sound.clean_shows (sound : Sound (Matches txn) tree) (clean : tree.clean = some dirtree)
    (unloaded : (tree.dirs.any fun entry => entry.2.isLoaded) = false) (name : String) (rest : List String) :
    viewTree txn.dirtree dirtree name rest = tree.view txn.dirtree name rest := by
  obtain ⟨-, promise⟩ := sound.here
  obtain ⟨stored, found, files, agrees⟩ := promise dirtree clean
  refine viewTree_eq_view found files ?_ name rest
  rw [List.any_eq_false] at unloaded
  refine (forall₂_swap_imp agrees (S := fun child entry => Shows txn.dirtree entry child)
    fun entry _ child member same => ?_).flip
  have notLoaded := unloaded child member
  obtain ⟨childName, child⟩ := child
  cases child with
  | loaded tree => exact absurd rfl notLoaded
  | lazy sub dirmeta =>
    obtain ⟨names, lazy⟩ := same
    have checksums := lazy sub dirmeta rfl
    exact ⟨names, by rw [checksums]; rfl, fun next rest => by rw [checksums]; rfl⟩

/-- **`write_node` shows what the directory shows, and keeps every promise.** -/
theorem writeNode_spec (refuse : Bytes → Option Error) (tree : MutableTree) : NodeSpec sha256 refuse tree := by
  induction tree using MutableTree.inductionOn with
  | node tree ih =>
    intro now path
    obtain ⟨before, after⟩ := DirsSpec.of_nodes ih now path
    have rewritten : ∀ txn, (writeDirs refuse now path tree.dirs).2.2.Before txn → txn.Good → Sound (Matches txn) tree →
        Sound (Matches txn) { tree with dirs := (writeDirs refuse now path tree.dirs).2.1 } := by
      intro txn later good sound
      obtain ⟨⟨places, children⟩, -⟩ := after txn later good fun entry => sound.children entry.1 entry.2
      exact sound.rewritten places children
    have onward := fun entries =>
      @before_writeDirtree _ refuse tree.files entries (writeDirs refuse now path tree.dirs).2.2
    obtain ⟨_, -, run⟩ | ⟨_, _, dirmeta, clean, unloaded, run⟩ | ⟨_, -, run⟩ | ⟨entries, _, -, -, run⟩ |
      ⟨_, entries, _, dirmeta, ok, made, run⟩ := writeNode_cases now path tree <;> rw [run]
    · refine ⟨.refl now, fun txn _ _ sound => ⟨sound, ?_⟩⟩
      rintro _ ⟨⟩
    · refine ⟨.refl now, fun txn _ _ sound => ⟨sound, ?_⟩⟩
      rintro _ ⟨⟩
      exact ⟨dirmeta, sound.clean_shows clean unloaded⟩
    · refine ⟨before, fun txn later good sound => ⟨rewritten txn later good sound, ?_⟩⟩
      rintro _ ⟨⟩
    · refine ⟨before.trans (onward entries), fun txn later good sound =>
        ⟨rewritten txn ((onward entries).trans later) good sound, ?_⟩⟩
      rintro _ ⟨⟩
    · refine ⟨before.trans (onward entries), fun txn later good sound => ?_⟩
      obtain ⟨⟨places, children⟩, shows⟩ := after txn ((onward entries).trans later) good fun entry =>
        sound.children entry.1 entry.2
      have stored := writeDirtree_stored made later good
      constructor
      · refine .intro ⟨sound.here.1.rewrites places _, ?_⟩ fun name child member => children _ member child rfl
        rintro checksum ⟨⟩
        exact ⟨_, stored, rfl, forall₂_comp (shows _ ok) places fun _ _ _ _ both => both.2.rewrites⟩
      · rintro _ ⟨⟩
        exact ⟨dirmeta, viewTree_eq_view stored rfl ((shows _ ok).imp fun _ _ both => both.1)⟩

/-! ### Every tree that a caller can hold is sound -/

/-- **Every mutator on every path keeps the promise of `clean`.** -/
theorem Reached.sound (reached : Reached now held) (before : now.Before txn)
    (good : txn.Good) : held.Sound (Matches txn) := by
  induction reached with
  | new now => exact sound_new
  | hydrated read => exact sound_hydrate read (matches_hydrate before good read)
  | fromCommit read =>
    obtain ⟨found, -, rest⟩ := bind_eq_ok.mp read
    cases found with
    | none => cases rest
    | some checksum =>
      obtain ⟨commit, -, hydrated⟩ := bind_eq_ok.mp rest
      exact sound_hydrate hydrated (matches_hydrate before good hydrated)
  | edited path edit _ found run ih =>
    have sound : Sound (Matches txn) _ := ih before
    exact sound.setAt ((sound.dirAt found).edit (fun _ _ _ => matches_hydrate before good) run)
  | takenFrom path _ found run ih =>
    have sound : Sound (Matches txn) _ := ih before
    exact sound.setAt ((sound.dirAt found).takeChild run).2
  | taken path _ found run ih =>
    have sound : Sound (Matches txn) _ := ih before
    exact ((sound.dirAt found).takeChild run).1
  | inserted path _ _ found run ih ihEntry =>
    have sound : Sound (Matches txn) _ := ih before
    exact sound.setAt ((sound.dirAt found).insertChild (ihEntry before) run)
  | written refuse _ ih =>
    refine ((writeNode_spec refuse _ _ "/").after txn before good (ih ?_)).1
    exact (writeNode_spec refuse _ _ "/").before.trans before
  | later step _ ih => exact ih (step.trans before)

/-! ### A written tree reads back -/

/-- The names of a directory are names that a dirtree can hold. -/
structure Named (tree : MutableTree) : Prop where
  files : ∀ entry ∈ tree.files, DirTree.IsEntryName entry.1 ∧ 0 ∉ asBytes entry.1
  dirs : ∀ entry ∈ tree.dirs, DirTree.IsEntryName entry.1 ∧ 0 ∉ asBytes entry.1

theorem writeDirs_succeeds (nodes : ∀ name child, (name, Child.loaded child) ∈ entries → ∀ (now : Txn sha256) path,
      ∃ emitted, (writeNode refuse now path child).1 = .ok emitted) (now : Txn sha256) (path : String) :
    ∃ written, (writeDirs refuse now path entries).1 = .ok written ∧
      written.map Prod.fst = entries.map Prod.fst := by
  induction entries generalizing now with
  | nil => exact ⟨[], rfl, rfl⟩
  | cons entry entries ih =>
    obtain ⟨first, ok, name⟩ : ∃ first, (writeEntry refuse now path entry).1 = .ok first ∧ first.1 = entry.1 := by
      obtain ⟨name, child⟩ := entry
      cases child with
      | lazy dirtree dirmeta => exact ⟨_, rfl, rfl⟩
      | loaded tree =>
        obtain ⟨emitted, run⟩ := nodes name tree (.head _) now (joinPath path name)
        rw [writeEntry_loaded, run]
        exact ⟨_, rfl, rfl⟩
    obtain ⟨written, rest, names⟩ := ih
      (fun name child member => nodes name child (.tail _ member))
      (writeEntry refuse now path entry).2.2
    rw [writeDirs_cons, ok]
    refine ⟨first :: written, by simp [rest], ?_⟩
    rw [List.map_cons, List.map_cons, name, names]

/-- A dirtree of valid names, in order and apart, serializes. -/
theorem serialize_of_names (layout : Layout tree) (named : Named tree)
    (names : written.map Prod.fst = tree.dirs.map Prod.fst) :
    ∃ bytes, (⟨tree.files, written⟩ : DirTree).serialize = .ok bytes := by
  have dirNames : (⟨tree.files, written⟩ : DirTree).dirNames = tree.dirs.map fun entry => asBytes entry.1 := by
    have ranked := congrArg (List.map asBytes) names
    rw [List.map_map, List.map_map] at ranked
    exact ranked
  have valid : ∀ entry ∈ written, DirTree.IsEntryName entry.1 ∧ 0 ∉ asBytes entry.1 := by
    intro entry member
    have inside : entry.1 ∈ tree.dirs.map Prod.fst := names ▸ List.mem_map_of_mem member
    obtain ⟨child, there, same⟩ := List.mem_map.mp inside
    rw [← same]
    exact named.dirs child there
  refine DirTree.serialize_succeeds.mpr ⟨⟨layout.files, ?_, fun entry member => (named.files entry member).1,
    fun entry member => (valid entry member).1, ?_⟩,
    ⟨fun entry member => (named.files entry member).2, fun entry member => (valid entry member).2⟩⟩
  · rw [dirNames]
    exact layout.dirs
  · intro name inFiles inDirs
    rw [dirNames] at inDirs
    obtain ⟨file, fileMember, rfl⟩ := List.mem_map.mp inFiles
    obtain ⟨child, dirMember, same⟩ := List.mem_map.mp inDirs
    have absent := layout.disjoint file.1 (by
      rw [← asBytes_injective same, (SortedMap.get_eq_some_iff layout.dirs).mpr dirMember]
      rfl)
    rw [SortedMap.get_eq_none] at absent
    exact absent (List.mem_map_of_mem fileMember)

theorem writeNode_succeeds (accepts : ∀ bytes, refuse bytes = none)
    (every : EveryDir (fun dir => Layout dir ∧ Named dir ∧ dir.metadataChecksum.isSome) tree)
    (now : Txn sha256) (path : String) : ∃ emitted, (writeNode refuse now path tree).1 = .ok emitted := by
  induction tree using MutableTree.inductionOn generalizing now path with
  | node tree ih =>
    obtain ⟨layout, named, dirmeta⟩ := every.here
    obtain ⟨written, ok, names⟩ := @writeDirs_succeeds _ refuse _
      (fun name child member => ih name child member (every.child member)) now path
    obtain ⟨bytes, serialized⟩ := serialize_of_names layout named names
    obtain ⟨_, absent, -⟩ | ⟨_, _, -, -, -, run⟩ | ⟨_, failed, -⟩ | ⟨_, _, again, failed, -⟩ |
      ⟨_, _, _, -, -, -, run⟩ := @writeNode_cases _ refuse now path tree
    · rw [absent] at dirmeta
      cases dirmeta
    · exact ⟨_, by rw [run]⟩
    · rw [ok] at failed
      cases failed
    · rw [ok] at again
      cases again
      simp only [writeDirtree, serialized, Txn.writeMetadata, accepts] at failed
      split at failed <;> cases failed
    · exact ⟨_, by rw [run]⟩

/-- **Writes lose nothing.** For every tree that a caller can hold, whose directories all have a
dirmeta and whose names a dirtree can hold: `write_mtree` returns a root that shows, at every path,
what the tree shows, whichever directories were lazy, loaded or marked clean. -/
theorem writeMtree_reads_back {now : Txn sha256} (reached : Reached now (.tree tree))
    (dirmetas : EveryDir (fun dir => dir.metadataChecksum.isSome) tree) (names : EveryDir Named tree)
    (accepts : ∀ bytes, refuse bytes = none) (good : (writeMtree refuse now tree).2.2.Good) :
    ∃ root, (writeMtree refuse now tree).1 = .ok root ∧ tree.metadataChecksum = some root.dirmeta ∧
      ∀ name rest,
        viewTree (writeMtree refuse now tree).2.2.dirtree root.dirtree name rest =
            tree.view (writeMtree refuse now tree).2.2.dirtree name rest ∧
          (tree.view now.dirtree name rest ≠ .unreadable →
            tree.view (writeMtree refuse now tree).2.2.dirtree name rest = tree.view now.dirtree name rest) := by
  obtain ⟨before, after⟩ := writeNode_spec refuse tree now "/"
  have sound : Sound (Matches (writeMtree refuse now tree).2.2) tree := reached.sound before good
  have every : EveryDir (fun dir => Layout dir ∧ Named dir ∧ dir.metadataChecksum.isSome) tree := by
    have layouts : EveryDir Layout tree := sound.imp fun _ both => both.1
    exact (layouts.and names).and dirmetas |>.imp fun _ all => ⟨all.1.1, all.1.2, all.2⟩
  obtain ⟨root, ok⟩ := writeNode_succeeds accepts every now "/"
  obtain ⟨dirmeta, view⟩ := (after _ (.refl _) good sound).2 root ok
  exact ⟨root, ok, dirmeta, fun name rest => ⟨view name rest, fun readable =>
    MutableTree.view_stable (fun _ _ => before.dirtree good) readable⟩⟩

namespace Sample

/-- A stand-in for SHA-256: the last 32 bytes, in reverse order. -/
def hash (bytes : Bytes) : Checksum := ⟨(bytes.reverse ++ List.replicate 32 0).take 32, by simp⟩

theorem unstaged (checksum : Checksum) (bytes : Bytes) (found : (none : Option Bytes) = some bytes) :
    bytes ∈ ([] : List Bytes) ∧ hash bytes = checksum := by
  cases found

def empty : Txn hash := ⟨fun _ => none, fun _ => none, [], unstaged⟩

/-- One file and one subdirectory, each directory with a dirmeta. -/
def sample : MutableTree :=
  ⟨some (.filled 1), [("a", .filled 2)], [("d", .loaded ⟨some (.filled 3), [], [], none, false⟩)], none, false⟩

theorem reached_sample : Reached empty (.tree sample) := by
  have first := Reached.edited [] (.replaceFile "a" (.filled 2)) (.new empty) rfl rfl
  have second := Reached.edited [] (.ensureDir "d") first rfl rfl
  have third := Reached.edited [] (.setMetadataChecksum (.filled 1)) second rfl rfl
  exact Reached.edited ["d"] (.setMetadataChecksum (.filled 3)) third rfl rfl

/-- The transaction after the write of `sample`. -/
def after : Txn hash := (writeMtree (fun _ => none) empty sample).2.2

/-- The tree after the write of `sample`: its two directories are clean. -/
def written : MutableTree := (writeMtree (fun _ => none) empty sample).2.1

/-- The checksum of the dirtree with no entries, which the write of `sample` stages. -/
def bare : Checksum := hash [0]

/-- `written` with a lazy directory beside the clean one. -/
def mixed : MutableTree :=
  ⟨some (.filled 1), [("a", .filled 2)],
    [("d", .loaded ⟨some (.filled 3), [], [], some bare, false⟩), ("e", .lazy bare (.filled 4))], none, true⟩

theorem written_entries : written.files = mixed.files ∧ written.dirs = mixed.dirs.take 1 := ⟨rfl, rfl⟩

theorem reached_mixed : Reached after (.tree mixed) :=
  .edited [] (.insertLazyDir "e" bare (.filled 4)) (.written (fun _ => none) reached_sample) rfl rfl

theorem good_of_hashed {now : Txn hash} (uncommitted : now.committed = fun _ => none)
    (apart : ∀ first ∈ now.hashed, ∀ second ∈ now.hashed, hash first = hash second → first = second)
    (vectors : ∀ bytes ∈ now.hashed, Addressable bytes) : now.Good := by
  have known : ∀ bytes ∈ now.known, bytes ∈ now.hashed := by
    rintro bytes (hashed | ⟨c, found⟩)
    · exact hashed
    · rw [uncommitted] at found
      cases found
  refine ⟨fun c bytes found => ?_, fun first inFirst second inSecond =>
    apart first (known _ inFirst) second (known _ inSecond), vectors⟩
  rw [uncommitted] at found
  cases found

theorem good_after : after.Good := good_of_hashed rfl (by decide +kernel) (by decide +kernel)

theorem good_mixed : (writeMtree (fun _ => none) after mixed).2.2.Good :=
  good_of_hashed rfl (by decide +kernel) (by decide +kernel)

theorem everyDir_mixed (root : P mixed) (child : P ⟨some (.filled 3), [], [], some bare, false⟩) :
    EveryDir P mixed := by
  refine .intro root ?_
  intro name dir member
  obtain ⟨rfl, same⟩ : name = "d" ∧ _ := by simpa [mixed] using member
  cases same
  exact .intro child (by simp)

theorem named_of_checked (entries : List String)
    (checked : ∀ name ∈ entries, DirTree.checkName name = .ok () ∧ 0 ∉ asBytes name) :
    ∀ name ∈ entries, DirTree.IsEntryName name ∧ 0 ∉ asBytes name :=
  fun name member => ⟨DirTree.checkName_eq_ok.mp (checked name member).1, (checked name member).2⟩

/-- A file whose name is one NUL character. -/
def nulTree : MutableTree := ⟨some (.filled 1), [("\x00", .filled 2)], [], none, false⟩

end Sample

open Sample in
theorem writeMtree_reads_back_mixed :
    ∃ root, (writeMtree (fun _ => none) after mixed).1 = .ok root ∧
      mixed.metadataChecksum = some root.dirmeta ∧ ∀ name rest,
        viewTree (writeMtree (fun _ => none) after mixed).2.2.dirtree root.dirtree name rest =
            mixed.view (writeMtree (fun _ => none) after mixed).2.2.dirtree name rest ∧
          (mixed.view after.dirtree name rest ≠ .unreadable →
            mixed.view (writeMtree (fun _ => none) after mixed).2.2.dirtree name rest =
              mixed.view after.dirtree name rest) := by
  refine writeMtree_reads_back reached_mixed (everyDir_mixed rfl rfl) (everyDir_mixed ?_ ?_)
    (fun _ => rfl) good_mixed
  · refine ⟨?_, ?_⟩
    · simpa [mixed] using named_of_checked ["a"] (by decide +kernel)
    · simpa [mixed] using named_of_checked ["d", "e"] (by decide +kernel)
  · exact ⟨by simp, by simp⟩

open Sample in
/-- `replace_file` takes a name with a NUL byte, which `write_mtree` then refuses. -/
theorem writeMtree_refuses_nul :
    Reached empty (.tree nulTree) ∧ EveryDir (fun dir => dir.metadataChecksum.isSome) nulTree ∧
      ¬ ∃ root, (writeMtree (fun _ => none) empty nulTree).1 = .ok root := by
  refine ⟨?_, .intro rfl (by simp [nulTree]), ?_⟩
  · have named := Reached.edited [] (.replaceFile "\x00" (.filled 2)) (.new empty) rfl rfl
    exact Reached.edited [] (.setMetadataChecksum (.filled 1)) named rfl rfl
  · rintro ⟨root, ok⟩
    have refused : (writeMtree (fun _ => none) empty nulTree).1.isOk = false := by decide +kernel
    rw [ok] at refused
    cases refused

/-! ### The root of a content -/

/-- A tree that a caller can hold, whole and with an end, written as `root`. -/
structure Written (refuse : Bytes → Option Error) (now : Txn sha256) (tree : MutableTree) (root : Emitted) : Prop where
  reached : Reached now (.tree tree)
  readable : ∀ name rest, tree.view now.dirtree name rest ≠ .unreadable
  finite : ∃ depth, ∀ name rest, depth ≤ rest.length → tree.view now.dirtree name rest = .absent
  written : (writeMtree refuse now tree).1 = .ok root
  good : (writeMtree refuse now tree).2.2.Good

theorem Written.shows {now : Txn sha256} (one : Written refuse now tree root) :
    tree.metadataChecksum = some root.dirmeta ∧ ∀ name rest,
      viewTree (writeMtree refuse now tree).2.2.dirtree root.dirtree name rest = tree.view now.dirtree name rest := by
  obtain ⟨before, after⟩ := writeNode_spec refuse tree now "/"
  obtain ⟨dirmeta, view⟩ := (after _ (.refl _) one.good (one.reached.sound before one.good)).2 root one.written
  exact ⟨dirmeta, fun name rest => (view name rest).trans
    (MutableTree.view_stable (fun _ _ => before.dirtree one.good) (one.readable name rest))⟩

/-- **A root is determined by the content of its tree.** Two trees that show the same at every path
are written as one root, whatever calls and transactions led to them and whatever is lazy, loaded or
clean in each. -/
theorem writeMtree_canonical {now now' : Txn sha256} {tree tree' : MutableTree} {root root' : Emitted}
    (one : Written refuse now tree root) (two : Written refuse' now' tree' root')
    (dirmeta : tree.metadataChecksum = tree'.metadataChecksum)
    (same : ∀ name rest, tree.view now.dirtree name rest = tree'.view now'.dirtree name rest) : root = root' := by
  obtain ⟨own, shows⟩ := one.shows
  obtain ⟨own', shows'⟩ := two.shows
  obtain ⟨depth, finite⟩ := one.finite
  have dirtrees : root.dirtree = root'.dirtree := checksum_of_content one.good two.good
    (fun name rest => by rw [shows, same, shows']) (fun name rest => shows name rest ▸ one.readable name rest)
    fun name rest deep => by rw [shows, finite name rest deep]
  rw [own, own', Option.some.injEq] at dirmeta
  cases root
  cases root'
  simp_all

open Sample in
/-- The tree before a write and the clean one after it are written as one root. -/
theorem writeMtree_canonical_clean : ∃ root root', Written (fun _ => none) empty sample root ∧
    Written (fun _ => none) after written root' ∧ root = root' := by
  have shown : ∀ name rest, sample.view empty.dirtree name rest = written.view after.dirtree name rest ∧
      sample.view empty.dirtree name rest ≠ .unreadable ∧
      (1 ≤ rest.length → sample.view empty.dirtree name rest = .absent) := by
    intro name rest
    by_cases file : "a" = name <;> by_cases dir : "d" = name <;> rcases rest with _ | ⟨next, _ | ⟨last, rest⟩⟩ <;>
      simp [written_entries, sample, mixed, MutableTree.view, SortedMap.get, Child.dirmeta, file, dir]
  have one : Written (fun _ => none) empty sample _ := ⟨reached_sample, fun name rest => (shown name rest).2.1,
    ⟨1, fun name rest => (shown name rest).2.2⟩, rfl, good_after⟩
  have two : Written (fun _ => none) after written _ :=
    ⟨.written (fun _ => none) reached_sample, fun name rest => (shown name rest).1 ▸ (shown name rest).2.1,
      ⟨1, fun name rest => (shown name rest).1 ▸ (shown name rest).2.2⟩, rfl,
      good_of_hashed rfl (by decide +kernel) (by decide +kernel)⟩
  exact ⟨_, _, one, two, writeMtree_canonical one two rfl fun name rest => (shown name rest).1⟩

end Ostrya.Repo
