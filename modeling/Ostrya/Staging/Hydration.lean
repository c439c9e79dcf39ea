/-
**Hydration of a staging tree.**

`ensure_child_dir` reads the checksums of a lazy child in one section, loads the dirtree without the lock, and
installs what it loaded in a later section that checks only that the entry is still lazy. So the install shows
through exactly if the entry became another lazy directory in between (`install_invisible_iff`): `ensure_dir`
changes the dirmeta of a lazy child, and `rename` puts another lazy directory in its place. The update is lost
(`install_loses_dirmeta`).
-/

import Ostrya.Repo.MergeUnion
import Ostrya.Staging.Writers

namespace Ostrya.Staging

open ByteFormat Gvariant Ostrya.Core Effect
open Repo (MutableTree RightDir ChildKind Child Valid Layout leftLoad viewTree)

variable {sha256 : Bytes → Checksum} {load : Checksum → Option DirTree}

/-! ### What a tree shows after a change at one place -/

/-- Another directory at a name shows exactly if it shows something else. -/
theorem look_withDir_iff (layout : Layout tree)
    (found : SortedMap.get name tree.dirs = some old) (new : Child MutableTree) :
    (∀ path, (tree.withDir name new).look load path = tree.look load path) ↔
      ∀ path, (RightDir.ofChild new).look load path = (RightDir.ofChild old).look load path := by
  have noFile : SortedMap.get name tree.files = none := layout.disjoint name (by rw [found]; rfl)
  have now (other : String) := Repo.get_withDir layout name other new
  have noFile' : SortedMap.get name (tree.withDir name new).files = none := noFile
  have inside (rest : List String) :
      (tree.withDir name new).look load (name :: rest) = (RightDir.ofChild new).look load rest :=
    Repo.look_child noFile' ((now name).trans (if_pos rfl)) rest
  constructor
  · intro same path
    rw [← inside, ← Repo.look_child noFile found, same]
  · intro same path
    cases path with
    | nil => rfl
    | cons first rest =>
      by_cases here : first = name
      · subst here
        rw [inside, same, Repo.look_child noFile found]
      · have kept : SortedMap.get first (tree.withDir name new).dirs = SortedMap.get first tree.dirs := by
          rw [now, if_neg here]
        refine Repo.look_congr ?_ kept rest
        rfl

/-- A change of the directory at a path shows exactly if the directory shows it. -/
theorem look_setAt_iff (valid : Valid tree) (there : tree.dirAt path = some dir) :
    (∀ other, (tree.setAt path next).look load other = tree.look load other) ↔
      ∀ other, next.look load other = dir.look load other := by
  induction path generalizing tree with
  | nil =>
    cases there
    rfl
  | cons name path ih =>
    unfold MutableTree.dirAt at there
    split at there
    · next child found =>
      unfold MutableTree.setAt
      rw [found]
      exact (look_withDir_iff valid.layout found _).trans (ih (valid.soundChild found child rfl) there)
    · cases there

/-! ### The install -/

variable {txn : Repo.Txn sha256} {tree dir loaded : MutableTree} {path : List String}
  {name : String} {dirtree dirmeta : Checksum}

/-- A loaded directory in the place of a lazy one shows exactly if the lazy one is another. -/
theorem look_install_iff (valid : Valid tree) (there : tree.dirAt path = some dir)
    (kind : dir.childKind name = .lazyDir dirtree dirmeta)
    (read : MutableTree.hydrate txn dirtree' dirmeta' = .ok loaded) :
    (∀ other, (tree.setAt path (dir.installHydratedChild name loaded)).look (leftLoad txn) other =
        tree.look (leftLoad txn) other) ↔
      dirmeta = dirmeta' ∧ ∀ name rest, viewTree (leftLoad txn) dirtree name rest =
        viewTree (leftLoad txn) dirtree' name rest := by
  have shown (other : List String) : (RightDir.ofChild (.loaded loaded)).look (leftLoad txn) other =
      (RightDir.committed dirtree' dirmeta').look (leftLoad txn) other := Repo.look_hydrate read rfl other
  have dirSound : Valid dir := valid.dirAt there
  refine (look_setAt_iff valid there).trans
    ((look_withDir_iff dirSound.layout (lazy_of_kind kind).2 _).trans ⟨fun same => ?_, ?_⟩)
  · have root := (shown []).symm.trans (same [])
    cases root
    exact ⟨rfl, fun name rest => (same (name :: rest)).symm.trans (shown (name :: rest))⟩
  · rintro ⟨rfl, below⟩ other
    rw [shown]
    cases other with
    | nil => rfl
    | cons name rest => exact (below name rest).symm

/-- **The install is invisible if and only if the entry is not another lazy directory by now.** -/
theorem install_invisible_iff (txn : Repo.Txn sha256) (tree : MutableTree) (valid : Valid tree)
    (s : Shared) (reached : Reached txn tree s) (hydration : Hydration) (loaded : MutableTree)
    (read : MutableTree.hydrate txn hydration.dirtree hydration.dirmeta = .ok loaded) :
    (∀ path, (stateAfter (install hydration.path hydration.name loaded) s).tree.look (leftLoad txn) path =
        s.tree.look (leftLoad txn) path) ↔
      ∀ dir dirtree dirmeta, s.tree.dirAt hydration.path = some dir →
        dir.childKind hydration.name = .lazyDir dirtree dirmeta →
          dirmeta = hydration.dirmeta ∧
            ∀ name rest, viewTree (leftLoad txn) dirtree name rest =
              viewTree (leftLoad txn) hydration.dirtree name rest := by
  have sound := (reached.inv valid).valid
  unfold stateAfter install withDirMut DirM.install DirM.childKind DirM.change
  cases there : s.tree.dirAt hydration.path with
  | none => exact iff_of_true (fun _ => rfl) nofun
  | some dir =>
    dsimp only [bind, EStateM.bind]
    cases kind : dir.childKind hydration.name with
    | lazyDir dirtree dirmeta =>
      refine (look_install_iff sound there kind read).trans ⟨?_, fun same => same dir dirtree dirmeta rfl kind⟩
      intro same _ _ _ same_dir same_kind
      cases same_dir
      rw [kind] at same_kind
      cases same_kind
      exact same
    | _ =>
      refine iff_of_true (fun path => ?_) fun _ _ _ same_dir same_kind => ?_
      · exact (look_setAt_iff sound there).mpr (fun _ => rfl) path
      · cases same_dir
        rw [kind] at same_kind
        cases same_kind

/-- The entry that a load is about. -/
def Hydration.entry (load : Hydration) (s : Shared) : Option ChildKind :=
  (s.tree.dirAt load.path).map fun dir => dir.childKind load.name

/-- **From the read to the install.** If no step in between touches the entry that was read, the
install is invisible, whatever the steps do elsewhere in the tree. -/
theorem install_invisible_of_untouched (valid : Valid tree) (reached : Reached txn tree s)
    (load : Hydration) (lazy : load.entry s = some (.lazyDir load.dirtree load.dirmeta))
    (run : Relation.ReflTransGen (fun now next => Step txn now next ∧ load.entry next = load.entry now) s s')
    (read : MutableTree.hydrate txn load.dirtree load.dirmeta = .ok loaded) (other : List String) :
    (stateAfter (install load.path load.name loaded) s').tree.look (leftLoad txn) other =
      s'.tree.look (leftLoad txn) other := by
  obtain ⟨later, same⟩ : Reached txn tree s' ∧ load.entry s' = load.entry s := by
    induction run with
    | refl => exact ⟨reached, rfl⟩
    | tail _ step ih => exact ⟨ih.1.next step.1, step.2.trans ih.2⟩
  obtain ⟨dir, there, kind⟩ := Option.map_eq_some_iff.mp (same.trans lazy)
  have shows := (look_install_iff (later.inv valid).valid there kind read).mpr ⟨rfl, fun _ _ => rfl⟩ other
  unfold stateAfter install withDirMut DirM.install DirM.childKind DirM.change
  simp only [there, bind, EStateM.bind, kind]
  exact shows

namespace Sample

open Repo.Sample

/-- `ensure_child_dir` of the committed directory `a` in flight. -/
def loadA : Hydration := ⟨[], "a", hash noEntries, .filled 1⟩

/-- The directory that it loads. -/
def loadedA : MutableTree := ⟨some (.filled 1), [], [], some (hash noEntries), true⟩

theorem hydrate_a : MutableTree.hydrate oneTree (hash noEntries) (.filled 1) = .ok loadedA := by
  rfl

def reading : Shared := { fresh overlaid with loads := [loadA] }

theorem reached_reading : Reached oneTree overlaid reading := .next .start (.read rfl loadA rfl rfl rfl)

/-- `ensure_dir` gives `a` another dirmeta before the install. -/
def rewritten : Shared := stateAfter ((Edit.ensureDir "a" (.filled 2)).run []) reading

theorem reached_rewritten : Reached oneTree overlaid rewritten :=
    .next reached_reading (.edit rfl [] (.ensureDir "a" (.filled 2)))

end Sample

open Sample Repo.Sample in
theorem install_invisible_iff_overlaid :
    MutableTree.hydrate oneTree loadA.dirtree loadA.dirmeta = .ok loadedA ∧
      ∀ path, (stateAfter (install loadA.path loadA.name loadedA) reading).tree.look (leftLoad oneTree) path =
        reading.tree.look (leftLoad oneTree) path := by
  refine ⟨hydrate_a, (install_invisible_iff oneTree overlaid valid_overlaid reading reached_reading loadA loadedA
    hydrate_a).mpr ?_⟩
  intro dir dirtree dirmeta there kind
  cases there
  cases kind
  exact ⟨rfl, fun _ _ => rfl⟩

open Sample Repo.Sample in
/-- The dirmeta that `ensure_dir` wrote is lost. -/
theorem install_loses_dirmeta :
    Reached oneTree overlaid rewritten ∧
      loadA ∈ rewritten.loads ∧
      MutableTree.hydrate oneTree loadA.dirtree loadA.dirmeta = .ok loadedA ∧
      rewritten.tree.look (leftLoad oneTree) ["a"] = .dir (some (.filled 2)) ∧
      (stateAfter (install loadA.path loadA.name loadedA) rewritten).tree.look (leftLoad oneTree) ["a"] =
        .dir (some (.filled 1)) :=
  ⟨reached_rewritten, List.mem_singleton_self _, hydrate_a, rfl, rfl⟩

end Ostrya.Staging
