/-
**The writers of a staging tree.**

While a writer is registered, a section only adds directories and changes dirmetas, so that no loaded directory
goes (`Edit.gentle`). The count of the writers is that of the handles that are alive or whose `finish` was
dropped after its first poll: such a slot is never released.

* `writer_keeps_directory`: the directory of a live writer stays the same loaded node;
* `writer_count_exact_iff`: the count is exact as long as no polled `finish` was dropped.
-/

import Ostrya.Repo.MergeLook
import Ostrya.Repo.MutableTreeWrite
import Ostrya.Staging.Sections

namespace Ostrya.Staging

open ByteFormat Gvariant Ostrya.Core Effect
open Repo (MutableTree ChildKind join dirGone Valid Layout)

variable {sha256 : Bytes → Checksum} {dir tree : MutableTree} {name : String}

/-! ### What a section keeps of a directory -/

/-- A loaded child stays loaded, with its own children, and no loaded child is detached. -/
structure Mild (dir : MutableTree) (after : Dir) : Prop where
  children : ∀ name child, SortedMap.get name dir.dirs = some (.loaded child) →
    ∃ child', SortedMap.get name after.tree.dirs = some (.loaded child') ∧ child'.dirs = child.dirs
  dropped : ∀ gone ∈ after.dropped, ∃ name, gone = [name] ∧ ∀ child, SortedMap.get name dir.dirs ≠ some (.loaded child)

theorem not_loaded_of_kind (layout : Layout dir) (other : dir.childKind name ≠ .dir)
    (child : MutableTree) : SortedMap.get name dir.dirs ≠ some (.loaded child) := by
  intro loaded
  have noFile := layout.disjoint name (by rw [loaded]; rfl)
  exact other (by rw [MutableTree.childKind, noFile, loaded])

theorem lazy_of_kind (kind : dir.childKind name = .lazyDir dirtree dirmeta) :
    SortedMap.get name dir.files = none ∧ SortedMap.get name dir.dirs = some (.lazy dirtree dirmeta) := by
  unfold MutableTree.childKind at kind
  split at kind
  · cases kind
  next noFile =>
    split at kind <;> cases kind
    exact ⟨noFile, by assumption⟩

theorem mild_of_dirs (same : next.dirs = dir.dirs) : Mild dir ⟨next, []⟩ :=
  ⟨fun name child loaded => ⟨child, by rw [same]; exact loaded, rfl⟩, by simp⟩

theorem mild_of_set (layout : Layout dir) (other : dir.childKind name ≠ .dir) {next : MutableTree}
    {child : Repo.Child MutableTree} (set : next.dirs = (dir.withDir name child).dirs) {dropped : List (List String)}
    (only : ∀ gone ∈ dropped, gone = [name]) : Mild dir ⟨next, dropped⟩ := by
  refine ⟨fun name' child' loaded => ⟨child', ?_, rfl⟩, fun gone member => ⟨name, only gone member, ?_⟩⟩
  · grind [not_loaded_of_kind, Repo.get_withDir]
  · exact not_loaded_of_kind layout other

theorem mem_entry (member : gone ∈ [] ++ DirM.entry name tree) :
    gone = [name] := by
  unfold DirM.entry at member
  split at member <;> simp_all

/-- A new dirmeta of one child is mild. -/
theorem mild_setChildDirmeta (layout : Layout dir)
    (run : dir.setChildDirmeta name dirmeta = .ok next) : Mild dir ⟨next, []⟩ := by
  unfold MutableTree.setChildDirmeta at run
  split at run
  · next child loaded =>
    cases run
    refine ⟨fun name' child' loaded' => ?_, by simp⟩
    rw [Repo.get_withDir layout]
    split
    · next same =>
      subst same
      rw [loaded] at loaded'
      cases loaded'
      exact ⟨_, rfl, rfl⟩
    · exact ⟨child', loaded', rfl⟩
  · next dirtree old lazy =>
    split at run
    · cases run
      have other : dir.childKind name ≠ .dir := by
        have noFile := layout.disjoint name (by rw [lazy]; rfl)
        rw [MutableTree.childKind, noFile, lazy]
        exact fun same => by cases same
      exact @mild_of_set dir name layout other
        { dir.withDir name (.lazy dirtree dirmeta) with clean := none } _ rfl [] (by simp)
    · cases run
      exact mild_of_dirs rfl
  · cases run

/-! ### The closures -/

/-- A closure keeps the maps of the directory, and while a writer is registered it is mild. -/
def Fine (writers : Nat) (dir : MutableTree) (act : DirM Unit) : Prop :=
  Valid (stateAfter act ⟨dir, []⟩).tree ∧ (writers ≠ 0 → Mild dir (stateAfter act ⟨dir, []⟩))

variable {writers : Nat} {s : Shared}

section

variable (valid : Valid dir)

include valid

theorem fine_pure : Fine writers dir (pure ()) := ⟨valid, fun _ => mild_of_dirs rfl⟩

theorem fine_throw (error : Error) : Fine writers dir (throw error) :=
  ⟨valid, fun _ => mild_of_dirs rfl⟩

theorem fine_change (made : ∀ next, method dir = .ok next → Valid next ∧ Mild dir ⟨next, [] ++ drops dir⟩) :
    Fine writers dir (DirM.change drops method) := by
  unfold Fine stateAfter DirM.change
  cases run : method dir with
  | ok next => exact ⟨(made next run).1, fun _ => (made next run).2⟩
  | error fault => exact ⟨valid, fun _ => mild_of_dirs rfl⟩

/-- Behind the check, a closure runs only if no writer is registered. -/
theorem fine_check (action : String) (kept : Valid (stateAfter rest ⟨dir, []⟩).tree) :
    Fine writers dir (DirM.checkNoLiveWriters writers action >>= fun _ => rest) := by
  unfold DirM.checkNoLiveWriters Repo.checkNoLiveWriters
  by_cases some : writers ≠ 0
  · rw [if_pos some]
    exact ⟨valid, fun _ => mild_of_dirs rfl⟩
  · rw [if_neg some]
    exact ⟨kept, fun other => absurd other some⟩

theorem fine_insertEmptyDir (other : dir.childKind name ≠ .dir) (dirmeta : Option Checksum) :
    Fine writers dir (DirM.insertEmptyDir name dirmeta) := by
  refine fine_change valid fun next run => ?_
  cases run
  refine ⟨valid.insertEmptyDir name dirmeta, ?_⟩
  exact @mild_of_set dir name valid.layout other (dir.insertEmptyDir name dirmeta)
    _ rfl _ fun _ member => mem_entry member

theorem fine_replaceFile (checksum : Checksum) :
    Fine writers dir (DirM.replaceFile name checksum) := by
  refine fine_change valid fun next run => ⟨valid.replaceFile run, mild_of_dirs ?_⟩
  obtain ⟨-, run⟩ := check_bind_eq_ok.mp run
  split at run <;> cases run
  rfl

end

theorem keeps_change {inv : MutableTree → Prop} {drops : MutableTree → List (List String)}
    (keeps : ∀ tree next, inv tree → method tree = .ok next → inv next) :
    Keeps (fun d : Dir => inv d.tree) (fun _ => True) (DirM.change drops method) fun _ _ => True := by
  intro d holds _
  refine ⟨?_, fun _ _ _ => trivial⟩
  unfold stateAfter DirM.change
  cases run : method d.tree with
  | ok next => exact keeps _ _ holds run
  | error fault => exact holds

/-- **Every closure.** -/
theorem Edit.fine (valid : Valid dir) (path : List String) (edit : Edit) :
    Fine writers dir (edit.act path writers) := by
  -- the closures of a name start with its kind
  have reads : ∀ (name : String) (f : ChildKind → DirM Unit), Fine writers dir (f (dir.childKind name)) →
      Fine writers dir (DirM.childKind name >>= f) := fun _ _ fine => fine
  have empty : ∀ {name : String} {kind : ChildKind} (dirmeta : Option Checksum), dir.childKind name = kind →
      kind ≠ .dir → Fine writers dir (DirM.insertEmptyDir name dirmeta) :=
    fun dirmeta is other => fine_insertEmptyDir valid (is ▸ other) dirmeta
  have emptied : ∀ (name : String) (dirmeta : Option Checksum),
      Valid (stateAfter (DirM.insertEmptyDir name dirmeta) ⟨dir, []⟩).tree :=
    fun name dirmeta => valid.insertEmptyDir name dirmeta
  cases edit with
  | replaceFile name checksum => exact fine_replaceFile valid checksum
  | makeDir name dirmeta =>
    refine reads name _ ?_
    cases kind : dir.childKind name with
    | absent => exact empty _ kind nofun
    | _ => exact fine_throw valid _
  | createDir name dirmeta =>
    refine reads name _ ?_
    cases kind : dir.childKind name with
    | absent => exact empty _ kind nofun
    | file checksum => exact fine_throw valid _
    | _ => exact fine_pure valid
  | ensureDir name dirmeta =>
    refine reads name _ ?_
    cases kind : dir.childKind name with
    | absent => exact empty _ kind nofun
    | file checksum => exact fine_throw valid _
    | _ => exact fine_change valid fun next run => ⟨valid.setChildDirmeta run, mild_setChildDirmeta valid.layout run⟩
  | placeObject name checksum =>
    refine reads name _ ?_
    cases dir.childKind name with
    | absent => exact fine_replaceFile valid checksum
    | file existing =>
      dsimp only
      split
      · exact fine_pure valid
      · exact fine_throw valid _
    | _ => exact fine_throw valid _
  | remove name allowNoent =>
    refine reads name _ ?_
    cases dir.childKind name with
    | absent => cases allowNoent <;> exact ⟨valid, fun _ => mild_of_dirs rfl⟩
    | _ => exact fine_check valid _ (Keeps.after (keeps_change fun _ _ kept run => kept.remove run) valid trivial)
  | clearDir name allowNoent =>
    refine reads name _ ?_
    cases kind : dir.childKind name with
    | absent => cases allowNoent <;> exact ⟨valid, fun _ => mild_of_dirs rfl⟩
    | file checksum => exact fine_throw valid _
    | lazyDir dirtree dirmeta => exact fine_check valid _ (emptied name _)
    | dir =>
      refine fine_check valid _ ?_
      unfold stateAfter DirM.clearChild
      cases there : dir.dirAt [name] with
      | none => exact valid
      | some child => exact valid.setAt (valid.dirAt there).clearChildren
  | mergeDir name dirmeta allowOverwrite =>
    refine reads name _ ?_
    cases kind : dir.childKind name with
    | absent | file checksum => exact empty _ kind nofun
    | _ =>
      cases allowOverwrite with
      | true => exact fine_check valid _ (emptied name _)
      | false => exact fine_throw valid _
  | mergeOverDir name checksum =>
    have both : Keeps (fun d : Dir => Valid d.tree) (fun _ => True) (do
        DirM.remove name
        DirM.replaceFile name checksum) fun _ _ => True :=
      (keeps_change fun _ _ kept run => kept.remove run).andThen fun _ =>
        keeps_change fun _ _ kept run => kept.replaceFile run
    exact fine_check valid _ (both.after valid trivial)
  | stamp dirmeta =>
    unfold Edit.act
    refine fine_change valid fun next run => ?_
    cases run
    exact ⟨valid.setMetadataChecksum dirmeta, mild_of_dirs rfl⟩

/-! ### Sections -/

theorem dirAt_append_eq (tree : MutableTree) (path rest : List String) :
    tree.dirAt (path ++ rest) = (tree.dirAt path).bind fun dir => dir.dirAt rest := by
  induction path generalizing tree with
  | nil => rfl
  | cons name path ih =>
    rw [List.cons_append, MutableTree.dirAt, MutableTree.dirAt]
    split
    · exact ih _
    · rfl

/-- A mild change at a path keeps every loaded directory. -/
theorem Mild.stays (valid : Valid tree) (there : tree.dirAt path = some dir) (mild : Mild dir after)
    (loaded : (tree.dirAt other).isSome) : ((tree.setAt path after.tree).dirAt other).isSome := by
  induction path generalizing tree other with
  | nil =>
    cases there
    cases other with
    | nil => rfl
    | cons name rest =>
      unfold MutableTree.dirAt at loaded
      split at loaded
      · next child found =>
        obtain ⟨child', found', same⟩ := mild.children name child found
        rw [MutableTree.setAt, MutableTree.dirAt, found']
        cases rest with
        | nil => rfl
        | cons next rest =>
          unfold MutableTree.dirAt at loaded ⊢
          dsimp only
          rwa [same]
      · cases loaded
  | cons name path ih =>
    unfold MutableTree.dirAt at there
    split at there
    · next child found =>
      unfold MutableTree.setAt
      rw [found]
      cases other with
      | nil => rfl
      | cons first rest =>
        unfold MutableTree.dirAt at loaded ⊢
        rw [Repo.get_withDir valid.layout]
        by_cases same : first = name
        · subst same
          rw [found] at loaded
          rw [if_pos rfl]
          exact ih (valid.soundChild found child rfl) there loaded
        · rw [if_neg same]
          exact loaded
    · cases there

/-- What a section may do: it keeps the loaded directories while a writer is registered. -/
structure Gentle (s s' : Shared) : Prop where
  writers : s'.writers = s.writers
  handles : s'.handles = s.handles
  valid : Valid s'.tree
  stays : s.writers ≠ 0 → ∀ path, (s.tree.dirAt path).isSome → (s'.tree.dirAt path).isSome
  detached : ∃ more, s'.detached = s.detached ++ more ∧
    (s.writers ≠ 0 → ∀ gone ∈ more, ∀ path, (s.tree.dirAt path).isSome → ¬ gone <+: path)

theorem Gentle.refl (valid : Valid s.tree) : Gentle s s :=
  ⟨rfl, rfl, valid, fun _ _ loaded => loaded, [], by simp, by simp⟩

/-- A section over `with_dir_mut`. -/
theorem gentle_withDirMut (valid : Valid s.tree)
    (fine : ∀ dir, s.tree.dirAt path = some dir → Fine s.writers dir (f s.writers)) :
    Gentle s (stateAfter (withDirMut path f) s) := by
  cases there : s.tree.dirAt path with
  | none =>
    have same : stateAfter (withDirMut path f) s = s := by
      unfold stateAfter withDirMut
      rw [there]
    rw [same]
    exact .refl valid
  | some dir =>
    obtain ⟨after, is⟩ : ∃ after, stateAfter (f s.writers) ⟨dir, []⟩ = after := ⟨_, rfl⟩
    have left : stateAfter (withDirMut path f) s = { s with
        tree := s.tree.setAt path after.tree
        detached := s.detached ++ after.dropped.map (path ++ ·) } := by
      rw [← is]
      unfold stateAfter withDirMut
      rw [there]
      dsimp only
      cases f s.writers ⟨dir, []⟩ <;> rfl
    obtain ⟨kept, soft⟩ := fine dir there
    rw [is] at kept soft
    rw [left]
    refine ⟨rfl, rfl, valid.setAt kept, fun some other loaded => (soft some).stays valid there loaded, _, rfl, ?_⟩
    intro some gone member other loaded below
    obtain ⟨_, dropped, rfl⟩ := List.mem_map.mp member
    obtain ⟨name, rfl, free⟩ := (soft some).dropped _ dropped
    obtain ⟨rest, rfl⟩ := below
    rw [List.append_assoc, dirAt_append_eq, there] at loaded
    unfold Option.bind MutableTree.dirAt at loaded
    dsimp only [List.singleton_append] at loaded
    split at loaded
    · next child found => exact free child found
    · cases loaded

theorem Edit.gentle (valid : Valid s.tree) (path : List String) (edit : Edit) :
    Gentle s (stateAfter (edit.run path) s) :=
  gentle_withDirMut valid fun _ there => edit.fine (valid.dirAt there) path

theorem fine_install (valid : Valid dir) (sound : Valid loaded) :
    Fine writers dir (DirM.install name loaded) := by
  have reads : ∀ f : ChildKind → DirM Unit, Fine writers dir (f (dir.childKind name)) →
      Fine writers dir (DirM.childKind name >>= f) := fun _ fine => fine
  refine reads _ ?_
  cases kind : dir.childKind name with
  | lazyDir dirtree dirmeta =>
    refine fine_change valid fun next run => ?_
    cases run
    have other : dir.childKind name ≠ .dir := by simp [kind]
    refine ⟨Repo.Sound.load valid (lazy_of_kind kind).2 sound, ?_⟩
    exact @mild_of_set dir name valid.layout other (dir.installHydratedChild name loaded) _ rfl _
      fun _ member => mem_entry member
  | _ => exact fine_pure valid

theorem install_gentle (valid : Valid s.tree) (path : List String) (name : String)
    (sound : Valid loaded) : Gentle s (stateAfter (install path name loaded) s) := by
  have inner : Gentle s (stateAfter (withDirMut path fun _ => DirM.install name loaded) s) :=
    gentle_withDirMut valid fun _ there => fine_install (valid.dirAt there) sound
  unfold stateAfter install
  cases there : s.tree.dirAt path with
  | none => exact .refl valid
  | some dir => exact inner

/-- A move keeps the maps, and it is refused while a writer is registered. -/
theorem rename_gentle (valid : Valid s.tree) (fromParent : List String) (fromName : String)
    (toParent : List String) (toName : String) :
    Gentle s (stateAfter (rename fromParent fromName toParent toName) s) := by
  unfold stateAfter rename
  cases run : renamed s fromParent fromName toParent toName with
  | error error => exact .refl valid
  | ok left =>
    unfold renamed at run
    split at run
    · cases run
    split at run
    · cases run
    split at run
    · cases run
    next fromDir there =>
      split at run
      · cases run
      unfold Repo.checkNoLiveWriters at run
      by_cases some : s.writers ≠ 0
      · rw [if_pos some] at run
        cases run
      rw [if_neg some] at run
      refine ⟨rfl, rfl, ?_, fun other => absurd other some, _, rfl, fun other => absurd other some⟩
      dsimp only at run
      unfold moveEntry at run
      split at run
      · cases run
      next moved =>
        cases run
        split at moved
        · cases moved
        next entry rest taken =>
          obtain ⟨sound, left⟩ := (valid.dirAt there).takeChild taken
          have kept : Valid (s.tree.setAt fromParent rest) := valid.setAt left
          dsimp only at moved
          split at moved
          · cases moved
          next toDir found =>
            split at moved <;> cases moved
            exact kept.setAt ((kept.dirAt found).insertChild sound (by assumption))

/-! ### The writers -/

/-- The writer exists, and neither finished nor was dropped. -/
def Phase.isLive : Phase → Bool
  | .ended _ => false
  | _ => true

/-- The slot of the writer was not released. -/
def Phase.isCounted : Phase → Bool
  | .ended .finished | .ended .dropped => false
  | _ => true

/-- The directory at the path is the loaded node that it was at the number of detached entries
`since`. -/
structure Kept (tree : MutableTree) (detached : List (List String)) (parent : List String) (since : Nat) : Prop where
  there : (tree.dirAt parent).isSome
  known : since ≤ detached.length
  same : ∀ gone ∈ detached.drop since, ¬ gone <+: parent

structure Inv (s : Shared) : Prop where
  valid : Valid s.tree
  count : s.writers = s.handles.countP fun w => w.phase.isCounted
  kept : ∀ w ∈ s.handles, w.phase.isLive → Kept s.tree s.detached w.parent w.since

theorem Phase.counted_of_live {phase : Phase} (live : phase.isLive) : phase.isCounted := by
  cases phase with
  | ended how => cases live
  | _ => rfl

theorem Inv.writers_ne (inv : Inv s) {w : Writer} (mine : w ∈ s.handles) (live : w.phase.isLive) :
    s.writers ≠ 0 := by
  rw [inv.count]
  exact Nat.ne_of_gt (List.countP_pos_iff.mpr ⟨w, mine, Phase.counted_of_live live⟩)

theorem Gentle.inv (gentle : Gentle s s') (inv : Inv s) : Inv s' := by
  obtain ⟨more, grown, apart⟩ := gentle.detached
  refine ⟨gentle.valid, by rw [gentle.writers, gentle.handles]; exact inv.count, fun w mine live => ?_⟩
  rw [gentle.handles] at mine
  have some := inv.writers_ne mine live
  obtain ⟨there, since, same⟩ := inv.kept w mine live
  refine ⟨gentle.stays some _ there, by rw [grown, List.length_append]; omega, fun gone member => ?_⟩
  rw [grown, List.drop_append_of_le_length since, List.mem_append] at member
  exact member.elim (same gone) fun new => apart some gone new _ there

theorem Inv.setPhase (inv : Inv s) (is : s.handles = before ++ w :: after)
    (count : writers + (if w.phase.isCounted then 1 else 0) = s.writers + if phase.isCounted then 1 else 0)
    (live : phase.isLive → w.phase.isLive) :
    Inv { s with writers := writers, handles := setPhase before w phase after } := by
  refine ⟨inv.valid, ?_, fun other mine alive => ?_⟩
  · have all := inv.count
    rw [is] at all
    unfold Staging.setPhase
    rw [List.countP_append, List.countP_cons] at all ⊢
    dsimp only at all ⊢
    omega
  · have member : ∀ old ∈ before ++ w :: after, old.phase.isLive → Kept s.tree s.detached old.parent old.since := by
      rw [← is]
      exact inv.kept
    rcases List.mem_append.mp mine with inside | inside
    · exact member other (List.mem_append_left _ inside) alive
    · grind

/-- **Every step.** -/
theorem Inv.step (inv : Inv s) (step : Step txn s s') : Inv s' := by
  cases step with
  | edit _ path edit => exact (edit.gentle inv.valid path).inv inv
  | rename => exact (rename_gentle inv.valid ..).inv inv
  | register _ parent name =>
    unfold stateAfter register
    cases there : s.tree.dirAt parent with
    | none => exact inv
    | some dir =>
      refine ⟨inv.valid, by simp [inv.count, Phase.isCounted], fun w mine live => ?_⟩
      rcases List.mem_append.mp mine with old | new
      · exact inv.kept w old live
      · obtain rfl := List.mem_singleton.mp new
        exact ⟨by rw [there]; rfl, le_rfl, by simp⟩
  | read => exact ⟨inv.valid, inv.count, inv.kept⟩
  | install _ load _ read => exact (install_gentle inv.valid _ _ (Repo.sound_hydrate read trivial)).inv inv
  | close =>
    split
    · next none =>
      refine ⟨Repo.sound_new, inv.count, fun w mine live => ?_⟩
      exact absurd none (inv.writers_ne mine live)
    · exact ⟨inv.valid, inv.count, inv.kept⟩
  | @writer _ w _ _ _ is step =>
    have mine : w ∈ s.handles := by
      rw [is]
      exact List.mem_append_right _ (.head _)
    cases step with
    | drop phase | release phase =>
      have some := inv.writers_ne mine (by rw [phase]; rfl)
      exact inv.setPhase is (by simp [phase, Phase.isCounted]; omega) nofun
    | take phase | fail phase fault =>
      exact inv.setPhase is (by simp [phase, Phase.isCounted]) fun _ => by rw [phase]; rfl
    | record phase checksum =>
      have gentle := (Edit.replaceFile w.name checksum).gentle inv.valid w.parent
      exact (gentle.inv inv).setPhase (gentle.handles.trans is) (by simp [phase, Phase.isCounted])
        fun _ => by rw [phase]; rfl
    | cancel phase => exact inv.setPhase is (by simp [phase, Phase.isCounted]) nofun

theorem Reached.inv (valid : Valid tree) (reached : Reached txn tree s) : Inv s := by
  induction reached with
  | start => exact ⟨valid, rfl, nofun⟩
  | next _ step ih => exact ih.step step

/-- **A registered writer never loses its directory.** In every reachable state the directory at the
path of a live writer is present and loaded, no entry on that path was detached since the writer was
registered, and so `finish` does not fail with the directory-gone error. -/
theorem writer_keeps_directory (txn : Repo.Txn sha256) (tree : MutableTree) (valid : Valid tree) (s : Shared)
    (reached : Reached txn tree s) (w : Writer) (mine : w ∈ s.handles) (live : w.phase.isLive) :
    (∃ dir, s.tree.dirAt w.parent = some dir) ∧ (∀ gone ∈ s.detached.drop w.since, ¬ gone <+: w.parent) ∧
      ∀ checksum, outcome ((Edit.replaceFile w.name checksum).run w.parent) s ≠ .error (dirGoneError w.parent) := by
  obtain ⟨there, -, same⟩ := (reached.inv valid).kept w mine live
  obtain ⟨dir, found⟩ := Option.isSome_iff_exists.mp there
  refine ⟨⟨dir, found⟩, same, fun checksum => ?_⟩
  unfold outcome Edit.run withDirMut Edit.act DirM.replaceFile DirM.change MutableTree.replaceFile Repo.validateName
  rw [found]
  dsimp only
  split_ifs <;> simp [dirGoneError, bind, Except.bind]

namespace Sample

/-- The directory `d/e`, made in a new tree. -/
def nested : MutableTree :=
  ⟨none, [], [("d", .loaded ⟨some (.filled 1), [], [("e", .loaded ⟨some (.filled 2), [], [], none, false⟩)],
    none, false⟩)], none, false⟩

/-- A writer of the file `a` in `d/e`. -/
def writing (phase : Phase) : Shared := ⟨nested, 1, [⟨["d", "e"], "a", phase, 0⟩], [], [], false⟩

theorem reached_writing (txn : Repo.Txn sha256) : Reached txn .new (writing .opened) := by
  have outer := Reached.next (@Reached.start _ txn .new) (.edit rfl [] (.makeDir "d" (.filled 1)))
  have inner := outer.next (.edit rfl ["d"] (.makeDir "e" (.filled 2)))
  exact inner.next (.register rfl ["d", "e"] "a")

/-- The state in which a refused `remove` of `d` leaves the writer. -/
def refused : Shared := stateAfter ((Edit.remove "d" false).run []) (writing .opened)

theorem reached_finishing (txn : Repo.Txn sha256) : Reached txn .new (writing .finishing) := by
  have after : Reached txn .new refused := (reached_writing txn).next (.edit rfl [] (.remove "d" false))
  exact after.next (@Step.writer _ _ [] _ [] _ _ rfl (.take rfl))

end Sample

open Sample Repo.Sample in
theorem writer_keeps_directory_nested :
    (∃ fault, outcome ((Edit.remove "d" false).run []) (writing .opened) = .error (.tree fault)) ∧
      (∃ dir, refused.tree.dirAt ["d", "e"] = some dir) ∧
      ∀ checksum, outcome ((Edit.replaceFile "a" checksum).run ["d", "e"]) (writing .finishing) ≠
        .error (dirGoneError ["d", "e"]) :=
  ⟨⟨_, rfl⟩, (writer_keeps_directory empty .new Repo.sound_new _ (reached_finishing empty) _ (.head _) rfl).1,
    (writer_keeps_directory empty .new Repo.sound_new _ (reached_finishing empty) _ (.head _) rfl).2.2⟩

/-- **The count of the writers is exact if and only if no `finish` was dropped after its first
poll.** -/
theorem writer_count_exact_iff (txn : Repo.Txn sha256) (tree : MutableTree) (valid : Valid tree)
    (s : Shared) (reached : Reached txn tree s) :
    s.writers = (s.handles.countP fun w => w.phase.isLive) ↔ ∀ w ∈ s.handles, w.phase ≠ .ended .cancelled := by
  have fewer : (s.handles.countP fun w => w.phase.isCounted) =
      (s.handles.countP fun w => w.phase.isLive) + s.handles.countP fun w => w.phase.isCounted && !w.phase.isLive := by
    induction s.handles with
    | nil => rfl
    | cons w rest ih =>
      simp only [List.countP_cons, ih]
      cases w.phase with
      | ended how => cases how <;> (simp [Phase.isCounted, Phase.isLive]; try omega)
      | _ => simp [Phase.isCounted, Phase.isLive]; omega
  have none : (s.handles.countP fun w => w.phase.isCounted && !w.phase.isLive) = 0 ↔
      ∀ w ∈ s.handles, w.phase ≠ .ended .cancelled := by
    rw [List.countP_eq_zero]
    refine forall₂_congr fun w _ => ?_
    cases w.phase with
    | ended how => cases how <;> simp [Phase.isCounted, Phase.isLive]
    | _ => simp [Phase.isLive]
  rw [(reached.inv valid).count, ← none]
  omega

open Sample Repo.Sample in
theorem writer_count_exact_iff_finishing :
    Valid .new ∧ Reached empty .new (writing .finishing) ∧
      (writing .finishing).writers = (writing .finishing).handles.countP fun w => w.phase.isLive :=
  ⟨Repo.sound_new, reached_finishing empty,
    (writer_count_exact_iff empty .new Repo.sound_new _ (reached_finishing empty)).mpr (by simp [writing])⟩

open Sample Repo.Sample in
/-- The slot of a `finish` that is dropped at its await is never released, and `close` is
refused. -/
theorem cancelled_finish_keeps_slot :
    Reached empty .new (writing (.ended .cancelled)) ∧
      (writing (.ended .cancelled)).writers = 1 ∧
      ((writing (.ended .cancelled)).handles.countP fun w => w.phase.isLive) = 0 :=
  ⟨.next (reached_finishing empty) (@Step.writer _ _ [] _ [] _ _ rfl (.cancel rfl)), rfl, rfl⟩

end Ostrya.Staging
