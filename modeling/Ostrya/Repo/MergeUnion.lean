/-
**The merge is the right-biased union** (`staging_tree.rs`, `merge_into`).

Each step of the merge leaves `tree.setAt path dir'` for a directory `dir'`; `FileDone` and `DirDone` say
what `dir'` shows. A step fails with a conflict where the two sides clash and the right side may not win.
One other way leads out: a lazy left directory whose parent holds no repository handle cannot be read
(`Blocked`), and the merge then fails with neither a conflict nor a result.

* `mergeInto_spec` — **the three ways out, and what each means**, by induction over the depth of the right
  side.
* `merge_is_union_iff` — the merge is the reference merge exactly where it is not blocked.
-/

import Ostrya.Repo.MergeLook
import Ostrya.Repo.MutableTreeWrite

namespace Ostrya.Repo

open ByteFormat Gvariant Ostrya.Core

variable {sha256 : Bytes → Checksum}

/-- The dirtrees that the left side loads: those of the repository. -/
def leftLoad (txn : Txn sha256) (checksum : Checksum) : Option DirTree := (txn.loadDirtree checksum).toOption

/-- The dirtrees that the right side loads: staged first. -/
def rightLoad (txn : Txn sha256) (checksum : Checksum) : Option DirTree :=
  (txn.loadDirtreeStagedFirst checksum).toOption

variable {env : MergeEnv sha256} {opts : MergeOptions} {tree dir next middle : MutableTree}
  {path : List String} {name : String} {load : Checksum → Option DirTree}

/-! ### One file -/

/-- Everything but the entry at `name` is as it was. -/
structure Kept (name : String) (dir next : MutableTree) : Prop where
  dirmeta : next.metadataChecksum = dir.metadataChecksum
  repo : next.repo = dir.repo
  files : ∀ other, other ≠ name → SortedMap.get other next.files = SortedMap.get other dir.files
  dirs : ∀ other, other ≠ name → SortedMap.get other next.dirs = SortedMap.get other dir.dirs

theorem Kept.look (kept : Kept name dir next) (differs : other ≠ name) (rest : List String) :
    next.look load (other :: rest) = dir.look load (other :: rest) :=
  look_congr (kept.files other differs) (kept.dirs other differs) rest

/-- A left entry that a right file cannot stand beside. -/
def FileClash (dir : MutableTree) (name : String) (checksum : Checksum) : Prop :=
  match dir.childKind name with
  | .absent => False
  | .file leftCsum => leftCsum ≠ checksum
  | _ => True

theorem childKind_cases (layout : Layout dir) (name : String) :
    (dir.childKind name = .absent ∧ SortedMap.get name dir.files = none ∧ SortedMap.get name dir.dirs = none) ∨
    (∃ checksum, dir.childKind name = .file checksum ∧
      SortedMap.get name dir.files = some checksum ∧ SortedMap.get name dir.dirs = none) ∨
    (∃ child, SortedMap.get name dir.files = none ∧ SortedMap.get name dir.dirs = some child ∧
      dir.childKind name = match child with
        | .loaded _ => .dir
        | .lazy dirtree dirmeta => .lazyDir dirtree dirmeta) := by
  unfold MutableTree.childKind
  cases file : SortedMap.get name dir.files with
  | some checksum =>
    refine .inr (.inl ⟨checksum, rfl, rfl, ?_⟩)
    by_contra there
    have absent := layout.disjoint name (Option.isSome_iff_ne_none.mpr there)
    rw [file] at absent
    cases absent
  | none =>
    grind

/-- A left file in its place. -/
structure FileDone (name : String) (checksum : Checksum) (dir next : MutableTree) : Prop where
  valid : Valid next
  kept : Kept name dir next
  file : SortedMap.get name next.files = some checksum
  noDir : SortedMap.get name next.dirs = none

theorem replaceFile_done (valid : Valid dir) (named : validateName name = .ok ())
    (checksum : Checksum) (noDir : SortedMap.get name dir.dirs = none) :
    ∃ next, dir.replaceFile name checksum = .ok next ∧ FileDone name checksum dir next := by
  have made : dir.replaceFile name checksum =
      .ok { dir with files := SortedMap.insert asBytes name checksum dir.files, clean := none } := by
    unfold MutableTree.replaceFile
    rw [named, ok_bind, noDir]
    rfl
  refine ⟨_, made, valid.replaceFile made, ⟨rfl, rfl, fun other differs => ?_, fun _ _ => rfl⟩, ?_, noDir⟩
  · rw [SortedMap.get_insert asBytes_injective valid.layout.files, if_neg differs]
  · rw [SortedMap.get_insert asBytes_injective valid.layout.files, if_pos rfl]

theorem withDirMut_eq (there : tree.dirAt path = some dir) (f : MutableTree → Outcome) :
    withDirMut tree path f = ((f dir).1, tree.setAt path (f dir).2) := by
  unfold withDirMut
  rw [there]

theorem peek_eq (there : tree.dirAt path = some dir) : peek tree path name = .ok (dir.childKind name) := by
  unfold peek
  rw [there]

/-! ### The ways out of a step -/

/-- The ways out of a step on the directory at `path`: it is done, it cannot go on, or it comes to a
clash where the right side may not win. -/
def Ways (allow : Bool) (path : List String) (tree : MutableTree) (done : MutableTree → Prop)
    (blocked clash : Prop) (run : Option Outcome) : Prop :=
  (∃ next, run = some (.ok (), tree.setAt path next) ∧ done next ∧ ¬ blocked ∧ (allow = true ∨ ¬ clash)) ∨
    (∃ reason after, run = some (.error (.staging reason), after) ∧ blocked) ∨
    ∃ reason after, run = some (.error (.mergeConflict reason), after) ∧ ¬ blocked ∧ allow = false ∧ clash

theorem Ways.imp (ways : Ways allow path tree done blocked clash run) (implies : ∀ next, done next → done' next)
    (stops : blocked ↔ blocked') (clashes : clash ↔ clash') : Ways allow path tree done' blocked' clash' run := by
  unfold Ways at ways ⊢
  rw [← stops, ← clashes]
  exact ways.imp_left fun ⟨next, ran, ends, rest⟩ => ⟨next, ran, implies next ends, rest⟩

/-- **One step after another.** -/
theorem Ways.andMerge (valid : Valid tree) (there : tree.dirAt path = some dir)
    (first : Ways allow path tree done blocked clash run) (second : ∀ middle, done middle →
      Ways allow path (tree.setAt path middle) done' blocked' clash' (step (tree.setAt path middle))) :
    Ways allow path tree done' (blocked ∨ (allow = true ∨ ¬ clash) ∧ blocked') (clash ∨ clash')
      (run.bind (Outcome.andMerge · step)) := by
  obtain ⟨middle, rfl, ends, free, clear⟩ | ⟨reason, after, rfl, stopped⟩ |
    ⟨reason, after, rfl, free, refused, clash⟩ := first
  · have both : ¬ blocked' → ¬ (blocked ∨ (allow = true ∨ ¬ clash) ∧ blocked') :=
      fun other => not_or.mpr ⟨free, fun stopped => other stopped.2⟩
    have rest := second middle ends
    unfold Ways at rest
    simp only [setAt_setAt valid _ _ there] at rest
    obtain ⟨last, ran, ends, free, others⟩ | ⟨reason, after, ran, stopped⟩ |
      ⟨reason, after, ran, free, refused, clash⟩ := rest
    · refine .inl ⟨last, ran, ends, both free, ?_⟩
      rcases clear with allow | clear
      · exact .inl allow
      · exact others.imp_right fun others => not_or.mpr ⟨clear, others⟩
    · exact .inr (.inl ⟨reason, after, ran, .inr ⟨clear, stopped⟩⟩)
    · exact .inr (.inr ⟨reason, after, ran, both free, refused, .inr clash⟩)
  · exact .inr (.inl ⟨reason, after, rfl, .inl stopped⟩)
  · refine .inr (.inr ⟨reason, after, rfl, not_or.mpr ⟨free, ?_⟩, refused, .inl clash⟩)
    rintro ⟨allow | clear, -⟩
    · exact Bool.false_ne_true (refused.symm.trans allow)
    · exact clear clash

/-- A first step that cannot block. -/
theorem Ways.andMerge_free (valid : Valid tree) (there : tree.dirAt path = some dir)
    (first : Ways allow path tree done False clash run) (second : ∀ middle, done middle →
      Ways allow path (tree.setAt path middle) done' blocked' clash' (step (tree.setAt path middle))) :
    Ways allow path tree done' ((allow = true ∨ ¬ clash) ∧ blocked') (clash ∨ clash')
      (run.bind (Outcome.andMerge · step)) :=
  (first.andMerge valid there second).imp (fun _ ends => ends) (iff_of_eq (false_or _)) Iff.rfl

theorem Outcome.some_andThen (first : Outcome) (step : MutableTree → Outcome) :
    some (first.andThen step) = (some first).bind (Outcome.andMerge · (some ∘ step)) := by
  obtain ⟨_ | _, tree⟩ := first <;> rfl

/-- **One file**: in its place, or refused where it clashes. -/
theorem mergeFile_spec (writers : env.writers = 0) (valid : Valid tree) (there : tree.dirAt path = some dir)
    (named : validateName name = .ok ()) (checksum : Checksum) :
    Ways opts.allowOverwrite path tree (FileDone name checksum dir) False (FileClash dir name checksum)
      (some (mergeFile env opts path name checksum tree)) := by
  have dirValid : Valid dir := valid.dirAt there
  unfold mergeFile
  rw [peek_eq there]
  unfold FileClash
  obtain ⟨kind, noFile, noDir⟩ | ⟨leftCsum, kind, file, noDir⟩ | ⟨child, noFile, found, kind⟩ :=
    childKind_cases dirValid.layout name
  · obtain ⟨next, made, done⟩ := replaceFile_done dirValid named checksum noDir
    rw [kind]
    refine .inl ⟨next, ?_, done, id, .inr id⟩
    rw [withDirMut_eq there, made]
    rfl
  · rw [kind]
    dsimp only
    by_cases same : leftCsum = checksum
    · subst same
      refine .inl ⟨dir, ?_, ⟨dirValid, ⟨rfl, rfl, fun _ _ => rfl, fun _ _ => rfl⟩, file, noDir⟩, id, .inr (by simp)⟩
      rw [if_pos rfl, setAt_self valid there]
    · rw [if_neg same]
      cases allow : opts.allowOverwrite with
      | true =>
        obtain ⟨next, made, done⟩ := replaceFile_done dirValid named checksum noDir
        refine .inl ⟨next, ?_, done, id, .inl rfl⟩
        rw [if_pos rfl, withDirMut_eq there, made]
        rfl
      | false => exact .inr (.inr ⟨_, _, rfl, id, rfl, same⟩)
  · have clash : FileClash dir name checksum := by
      rw [FileClash, kind]
      cases child <;> trivial
    cases allow : opts.allowOverwrite with
    | false =>
      refine .inr (.inr ⟨"a file cannot overwrite the directory at " ++ join path name, tree, ?_, id, rfl, clash⟩)
      rw [kind]
      cases child <;> rfl
    | true =>
      -- the directory goes, then the file comes
      have removed : dir.remove name true =
          .ok { dir with dirs := SortedMap.remove name dir.dirs, clean := none } := by
        unfold MutableTree.remove
        rw [noFile, found]
        rfl
      have removedValid := dirValid.remove removed
      have gone : SortedMap.get name (SortedMap.remove name dir.dirs) = none := by
        rw [SortedMap.get_remove dirValid.layout.dirs, if_pos rfl]
      obtain ⟨next, made, done⟩ := replaceFile_done removedValid named checksum gone
      have kept : Kept name dir next := by
        refine ⟨done.kept.dirmeta, done.kept.repo, done.kept.files, fun other differs => ?_⟩
        rw [done.kept.dirs other differs]
        rw [SortedMap.get_remove dirValid.layout.dirs, if_neg differs]
      refine .inl ⟨next, congrArg some ?_, ⟨done.valid, kept, done.file, done.noDir⟩, id, .inl rfl⟩
      rw [kind]
      cases child
      all_goals
        change withDirMut tree path _ = _
        rw [withDirMut_eq there, writers, removed]
        simp only [checkNoLiveWriters, attempt, Outcome.andThen, made]
        rfl

/-! ### The files -/

/-- The right files in their places, and everything else as it was. -/
structure FilesDone (rfiles : List (String × Checksum)) (dir next : MutableTree) : Prop where
  valid : Valid next
  dirmeta : next.metadataChecksum = dir.metadataChecksum
  repo : next.repo = dir.repo
  placed : ∀ file ∈ rfiles, SortedMap.get file.1 next.files = some file.2 ∧ SortedMap.get file.1 next.dirs = none
  files : ∀ name, name ∉ rfiles.map Prod.fst → SortedMap.get name next.files = SortedMap.get name dir.files
  dirs : ∀ name, name ∉ rfiles.map Prod.fst → SortedMap.get name next.dirs = SortedMap.get name dir.dirs

theorem FilesDone.look (done : FilesDone rfiles dir next) (absent : name ∉ rfiles.map Prod.fst) (rest : List String) :
    next.look load (name :: rest) = dir.look load (name :: rest) :=
  look_congr (done.files name absent) (done.dirs name absent) rest

theorem fileClash_congr (files : SortedMap.get name next.files = SortedMap.get name dir.files)
    (dirs : SortedMap.get name next.dirs = SortedMap.get name dir.dirs) :
    FileClash next name checksum ↔ FileClash dir name checksum := by
  unfold FileClash MutableTree.childKind
  rw [files, dirs]

theorem FileDone.cons {checksum : Checksum} {rfiles : List (String × Checksum)}
    (first : FileDone name checksum dir middle) (rest : FilesDone rfiles middle next)
    (fresh : name ∉ rfiles.map Prod.fst) : FilesDone ((name, checksum) :: rfiles) dir next := by
  have others : ∀ {other}, other ∉ ((name, checksum) :: rfiles).map Prod.fst →
      other ≠ name ∧ other ∉ rfiles.map Prod.fst := fun absent => by simpa [not_or] using absent
  refine ⟨rest.valid, rest.dirmeta.trans first.kept.dirmeta, rest.repo.trans first.kept.repo, ?_, ?_, ?_⟩
  · rintro file (_ | ⟨_, inRest⟩)
    · exact ⟨(rest.files name fresh).trans first.file, (rest.dirs name fresh).trans first.noDir⟩
    · exact rest.placed file inRest
  · intro other absent
    obtain ⟨differs, absent⟩ := others absent
    exact (rest.files other absent).trans (first.kept.files other differs)
  · intro other absent
    obtain ⟨differs, absent⟩ := others absent
    exact (rest.dirs other absent).trans (first.kept.dirs other differs)

/-- **The loop over the files**, by induction over the files. -/
theorem mergeFiles_spec (writers : env.writers = 0) {rfiles : List (String × Checksum)}
    (apart : (rfiles.map Prod.fst).Nodup) (named : ∀ file ∈ rfiles, validateName file.1 = .ok ())
    (valid : Valid tree) (there : tree.dirAt path = some dir) :
    Ways opts.allowOverwrite path tree (FilesDone rfiles dir) False (∃ file ∈ rfiles, FileClash dir file.1 file.2)
      (some (mergeFiles env opts path rfiles tree)) := by
  induction rfiles generalizing tree dir with
  | nil =>
    refine .inl ⟨dir, ?_, ⟨valid.dirAt there, rfl, rfl, by simp, fun _ _ => rfl, fun _ _ => rfl⟩, id, .inr (by simp)⟩
    rw [setAt_self valid there]
    rfl
  | cons file rfiles ih =>
    obtain ⟨name, checksum⟩ := file
    obtain ⟨fresh, apart⟩ := List.nodup_cons.mp apart
    rw [mergeFiles, Outcome.some_andThen]
    refine (Ways.andMerge_free valid there (mergeFile_spec writers valid there (named _ (.head _)) checksum)
      fun middle done => ?_).imp (fun _ all => all) (iff_of_eq (and_false _))
      (List.exists_mem_cons_iff (fun file : String × Checksum => FileClash dir file.1 file.2) _ _).symm
    refine (ih apart (fun later member => named later (.tail _ member)) (valid.setAt done.valid)
      (dirAt_setAt valid there)).imp (fun next all => done.cons all fresh) Iff.rfl (exists_congr fun later => ?_)
    refine and_congr_right fun member => ?_
    have differs : later.1 ≠ name := fun same => fresh (List.mem_map.mpr ⟨later, member, same⟩)
    exact fileClash_congr (done.kept.files _ differs) (done.kept.dirs _ differs)

/-! ### The dirmeta -/

/-- The directory with its new dirmeta. -/
structure DirmetaDone (dirmeta : Found) (dir next : MutableTree) : Prop where
  valid : Valid next
  files : next.files = dir.files
  dirs : next.dirs = dir.dirs
  repo : next.repo = dir.repo
  dirmeta : .dir next.metadataChecksum = dirmeta

/-- **The dirmeta** of the directory at `path`. -/
theorem mergeDirmeta_spec (root : RootDirmeta) (right : RightDir) (valid : Valid tree)
    (there : tree.dirAt path = some dir) {left shown : List String → Found}
    (leftDir : left [] = .dir dir.metadataChecksum) (rightDir : shown [] = .dir right.dirmeta) :
    Ways opts.allowOverwrite path tree (DirmetaDone (unionAt root left shown []) dir) False (Clash root left shown [])
      (some (mergeDirmeta opts path right root tree)) := by
  have dirValid : Valid dir := valid.dirAt there
  have kept : some (.ok (), tree) = some ((.ok (), tree.setAt path dir) : Outcome) := by rw [setAt_self valid there]
  have update : ∀ checksum, (withDirMut tree path fun dir => (.ok (), dir.setMetadataChecksum checksum)) =
      (.ok (), tree.setAt path (dir.setMetadataChecksum checksum)) := fun checksum => withDirMut_eq there _
  unfold mergeDirmeta unionAt Clash
  rw [leftDir, rightDir]
  cases root with
  | keepLeft =>
    refine .inl ⟨dir, kept, ⟨dirValid, rfl, rfl, rfl, by simp⟩, id, .inr ?_⟩
    cases dir.metadataChecksum <;> cases right.dirmeta <;> simp
  | reconcile =>
    cases fromRight : right.dirmeta with
    | none =>
      refine .inl ⟨dir, kept, ⟨dirValid, rfl, rfl, rfl, by simp⟩, id, .inr ?_⟩
      cases dir.metadataChecksum <;> simp
    | some rightDm =>
      simp only [there, update]
      have set : ∀ found, .dir (some rightDm) = found → DirmetaDone found dir (dir.setMetadataChecksum rightDm) :=
        fun _ same => ⟨dirValid.setMetadataChecksum rightDm, rfl, rfl, rfl, same⟩
      cases fromLeft : dir.metadataChecksum with
      | none => exact .inl ⟨_, rfl, set _ rfl, id, .inr id⟩
      | some leftDm =>
        dsimp only
        by_cases same : leftDm = rightDm
        · subst same
          rw [if_pos rfl]
          exact .inl ⟨dir, kept, ⟨dirValid, rfl, rfl, rfl, by rw [fromLeft]; rfl⟩, id, .inr (by simp)⟩
        · rw [if_neg same]
          cases opts.allowOverwrite with
          | true => exact .inl ⟨_, rfl, set _ rfl, id, .inl rfl⟩
          | false => exact .inr (.inr ⟨_, _, rfl, id, rfl, same, .inr trivial⟩)

/-! ### Where a merge cannot go on -/

/-- No clash at `name` stops the merge. -/
def ClearAt (txn : Txn sha256) (allow : Bool) (dir : MutableTree) (name : String)
    (right : List String → Found) : Prop :=
  allow = true ∨ ∀ path, ¬ Clash .reconcile (fun path => dir.look (leftLoad txn) (name :: path)) right path

/-- The merge comes to a lazy left directory whose parent holds no repository handle, before any
clash that stops it. -/
inductive Blocked (txn : Txn sha256) (allow : Bool) : RootDirmeta → MutableTree → RightDir → Prop
  | here {dir : MutableTree} {name : String}
      (entries : right.entries txn = .ok (rfiles, before ++ (name, child) :: after))
      (rootClear : allow = true ∨ ¬ Clash root (dir.look (leftLoad txn)) (right.look (rightLoad txn)) [])
      (filesClear : allow = true ∨ ∀ file ∈ rfiles, ¬ FileClash dir file.1 file.2)
      (dirsClear : ∀ entry ∈ before, ClearAt txn allow dir entry.1 (entry.2.look (rightLoad txn)))
      (found : SortedMap.get name dir.dirs = some (.lazy dirtree dirmeta)) (noHandle : dir.repo = false) :
      Blocked txn allow root dir right
  | deeper {dir : MutableTree} {name : String}
      (entries : right.entries txn = .ok (rfiles, before ++ (name, child) :: after))
      (rootClear : allow = true ∨ ¬ Clash root (dir.look (leftLoad txn)) (right.look (rightLoad txn)) [])
      (filesClear : allow = true ∨ ∀ file ∈ rfiles, ¬ FileClash dir file.1 file.2)
      (dirsClear : ∀ entry ∈ before, ClearAt txn allow dir entry.1 (entry.2.look (rightLoad txn)))
      (found : SortedMap.get name dir.dirs = some (.loaded sub)) (blocked : Blocked txn allow .reconcile sub child) :
      Blocked txn allow root dir right

variable {txn : Txn sha256} {allow : Bool} {root : RootDirmeta} {right child : RightDir}
  {rdirs : List (String × RightDir)}

/-- A right directory at a name where the merge cannot go on. -/
def BlockedAt (txn : Txn sha256) (allow : Bool) (dir : MutableTree) (name : String) (child : RightDir) : Prop :=
  (∃ dirtree dirmeta, SortedMap.get name dir.dirs = some (.lazy dirtree dirmeta) ∧ dir.repo = false) ∨
    ∃ sub, SortedMap.get name dir.dirs = some (.loaded sub) ∧ Blocked txn allow .reconcile sub child

/-- The loop over the subdirectories comes to such a name. -/
def BlockedDirs (txn : Txn sha256) (allow : Bool) (dir : MutableTree) : List (String × RightDir) → Prop
  | [] => False
  | entry :: entries =>
    BlockedAt txn allow dir entry.1 entry.2 ∨
      (ClearAt txn allow dir entry.1 (entry.2.look (rightLoad txn)) ∧ BlockedDirs txn allow dir entries)

theorem blockedDirs_iff :
    BlockedDirs txn allow dir entries ↔
      ∃ before name child after, entries = before ++ (name, child) :: after ∧
        (∀ entry ∈ before, ClearAt txn allow dir entry.1 (entry.2.look (rightLoad txn))) ∧
        BlockedAt txn allow dir name child := by
  induction entries with
  | nil => simp [BlockedDirs]
  | cons entry entries ih =>
    rw [BlockedDirs, ih]
    constructor
    · rintro (blocked | ⟨clear, before, name, child, after, rfl, all, blocked⟩)
      · exact ⟨[], entry.1, entry.2, entries, rfl, by simp, blocked⟩
      · exact ⟨entry :: before, name, child, after, rfl, List.forall_mem_cons.mpr ⟨clear, all⟩, blocked⟩
    · rintro ⟨_ | ⟨first, before⟩, name, child, after, split, all, blocked⟩
      · cases split
        exact .inl blocked
      · grind

theorem blocked_iff {rfiles : List (String × Checksum)}
    (read : right.entries txn = .ok (rfiles, rdirs)) : Blocked txn allow root dir right ↔
      (allow = true ∨ ¬ Clash root (dir.look (leftLoad txn)) (right.look (rightLoad txn)) []) ∧
        (allow = true ∨ ¬ ∃ file ∈ rfiles, FileClash dir file.1 file.2) ∧ BlockedDirs txn allow dir rdirs := by
  simp only [blockedDirs_iff, not_exists, not_and]
  constructor
  · rintro (⟨entries, rootClear, filesClear, dirsClear, found, noHandle⟩ |
      ⟨entries, rootClear, filesClear, dirsClear, found, blocked⟩)
    all_goals
      rw [read] at entries
      cases entries
    · exact ⟨rootClear, filesClear, _, _, _, _, rfl, dirsClear, .inl ⟨_, _, found, noHandle⟩⟩
    · exact ⟨rootClear, filesClear, _, _, _, _, rfl, dirsClear, .inr ⟨_, found, blocked⟩⟩
  · rintro ⟨rootClear, filesClear, before, name, child, after, rfl, dirsClear,
      ⟨_, _, found, noHandle⟩ | ⟨sub, found, blocked⟩⟩
    · exact .here read rootClear filesClear dirsClear found noHandle
    · exact .deeper read rootClear filesClear dirsClear found blocked

theorem clearAt_congr
    (same : ∀ path, next.look (leftLoad txn) (name :: path) = dir.look (leftLoad txn) (name :: path)) :
    ClearAt txn allow next name shown ↔ ClearAt txn allow dir name shown := by
  unfold ClearAt
  simp only [same]

/-- The two sides clash at or below `name`. -/
def ClashAt (txn : Txn sha256) (dir : MutableTree) (name : String) (child : RightDir) : Prop :=
  ∃ path, Clash .reconcile (fun path => dir.look (leftLoad txn) (name :: path)) (child.look (rightLoad txn)) path

theorem clearAt_iff :
    ClearAt txn allow dir name (child.look (rightLoad txn)) ↔ allow = true ∨ ¬ ClashAt txn dir name child := by
  rw [ClearAt, ClashAt, not_exists]

theorem clashAt_congr {entries : List (String × RightDir)} (same : ∀ entry ∈ entries, ∀ path,
      next.look (leftLoad txn) (entry.1 :: path) = dir.look (leftLoad txn) (entry.1 :: path)) :
    (∃ entry ∈ entries, ClashAt txn next entry.1 entry.2) ↔ ∃ entry ∈ entries, ClashAt txn dir entry.1 entry.2 := by
  refine exists_congr fun entry => and_congr_right fun member => ?_
  unfold ClashAt
  simp only [same entry member]

/-- The rest of the loop does not see what an earlier turn did. -/
theorem blockedDirs_congr {entries : List (String × RightDir)} (repo : next.repo = dir.repo)
    (dirs : ∀ entry ∈ entries, SortedMap.get entry.1 next.dirs = SortedMap.get entry.1 dir.dirs)
    (same : ∀ entry ∈ entries, ∀ path,
      next.look (leftLoad txn) (entry.1 :: path) = dir.look (leftLoad txn) (entry.1 :: path)) :
    BlockedDirs txn allow next entries ↔ BlockedDirs txn allow dir entries := by
  induction entries with
  | nil => exact Iff.rfl
  | cons entry entries ih =>
    rw [BlockedDirs, BlockedDirs, clearAt_congr (same entry (.head _)),
      ih (fun later member => dirs later (.tail _ member))
        (fun later member => same later (.tail _ member))]
    unfold BlockedAt
    rw [repo, dirs entry (.head _)]

theorem not_blocked_of_no_dirs (noDirs : dir.dirs = []) : ¬ Blocked txn allow root dir right := by
  rintro (⟨-, -, -, -, found, -⟩ | ⟨-, -, -, -, found, -⟩) <;> simp [noDirs, SortedMap.get] at found

/-- A directory that was just read has a handle, and nothing below it is loaded. -/
theorem not_blocked_of_hydrate
    (read : MutableTree.hydrate txn dirtree dirmeta = .ok dir) : ¬ Blocked txn allow root dir right := by
  obtain ⟨stored, -, rfl⟩ := hydrate_eq_ok.mp read
  rintro (⟨-, -, -, -, -, noHandle⟩ | ⟨-, -, -, -, found, -⟩)
  · cases noHandle
  · obtain ⟨entry, -, same⟩ := List.mem_map.mp (SortedMap.mem_of_get found)
    cases (Prod.mk.inj same).2

/-! ### One subdirectory -/

/-- The two sides of a merge: their objects are present, and the right side ends within `fuel`
levels. -/
structure Sides (txn : Txn sha256) (fuel : Nat) (dir : MutableTree) (right : RightDir) : Prop where
  leftReads : ∀ path, dir.look (leftLoad txn) path ≠ .unreadable
  rightReads : ∀ path, right.look (rightLoad txn) path ≠ .unreadable
  deep : ∀ path, fuel ≤ path.length → right.look (rightLoad txn) path = .absent
  ok : right.Ok

/-- A merge that went through. -/
structure Merged (txn : Txn sha256) (root : RootDirmeta) (dir next : MutableTree) (right : RightDir) : Prop where
  valid : Valid next
  union : ∀ path, next.look (leftLoad txn) path =
    unionAt root (dir.look (leftLoad txn)) (right.look (rightLoad txn)) path

/-- How a merge at `path` ends: with the union, blocked, or with a conflict. -/
def Ends (env : MergeEnv sha256) (opts : MergeOptions) (root : RootDirmeta) (path : List String)
    (tree dir : MutableTree) (right : RightDir) : Option Outcome → Prop :=
  Ways opts.allowOverwrite path tree (Merged env.txn root dir · right)
    (Blocked env.txn opts.allowOverwrite root dir right)
    (∃ path, Clash root (dir.look (leftLoad env.txn)) (right.look (rightLoad env.txn)) path)

/-- A merged subdirectory in its place. -/
structure DirDone (txn : Txn sha256) (name : String) (child : RightDir) (dir next : MutableTree) : Prop where
  valid : Valid next
  kept : Kept name dir next
  union : ∀ path, next.look (leftLoad txn) (name :: path) =
    unionAt .reconcile (fun path => dir.look (leftLoad txn) (name :: path)) (child.look (rightLoad txn)) path

theorem rightLook_nil (load : Checksum → Option DirTree) (right : RightDir) :
    right.look load [] = .dir right.dirmeta := by
  cases right <;> rfl

/-- How one turn of the loop ends. -/
def EndsDir (env : MergeEnv sha256) (opts : MergeOptions) (path : List String) (name : String)
    (tree dir : MutableTree) (child : RightDir) : Option Outcome → Prop :=
  Ways opts.allowOverwrite path tree (DirDone env.txn name child dir)
    (BlockedAt env.txn opts.allowOverwrite dir name child)
    (ClashAt env.txn dir name child)

/-- The directory `next` at `name`, after a first change `middle` that put a loaded directory
there. -/
theorem DirDone.place (valid : Valid tree) (there : tree.dirAt path = some dir)
    (middleValid : Valid middle) (kept : Kept name dir middle)
    (loaded : SortedMap.get name middle.dirs = some (.loaded sub)) (noFile : SortedMap.get name middle.files = none)
    (nextValid : Valid next) (union : ∀ path, next.look (leftLoad txn) path =
      unionAt .reconcile (fun path => dir.look (leftLoad txn) (name :: path)) (child.look (rightLoad txn)) path) :
    ∃ placed, (tree.setAt path middle).setAt (path ++ [name]) next = tree.setAt path placed ∧
      DirDone txn name child dir placed := by
  refine ⟨middle.withDir name (.loaded next), ?_, middleValid.load loaded nextValid,
    ⟨kept.dirmeta, kept.repo, kept.files, fun other differs => ?_⟩, fun path => ?_⟩
  · rw [setAt_append next (dirAt_setAt valid there) loaded, setAt_setAt valid _ _ there]
  · rw [get_withDir middleValid.layout, if_neg differs]
    exact kept.dirs other differs
  · have inside : SortedMap.get name (middle.withDir name (.loaded next)).dirs = some (.loaded next) := by
      rw [get_withDir middleValid.layout, if_pos rfl]
    have clear : SortedMap.get name (middle.withDir name (.loaded next)).files = none := noFile
    rw [look_child clear inside]
    exact union path

/-- The recursion into a loaded directory `sub` that shows what the left directory at `name`
shows. -/
theorem Ends.endsDir (valid : Valid tree)
    (there : tree.dirAt path = some dir) (middleValid : Valid middle) (kept : Kept name dir middle)
    (loaded : SortedMap.get name middle.dirs = some (.loaded sub)) (noFile : SortedMap.get name middle.files = none)
    (shows : ∀ path, sub.look (leftLoad env.txn) path = dir.look (leftLoad env.txn) (name :: path))
    (blocked : Blocked env.txn opts.allowOverwrite .reconcile sub child ↔
      BlockedAt env.txn opts.allowOverwrite dir name child)
    (ends : Ends env opts .reconcile (path ++ [name]) (tree.setAt path middle) sub child run) :
    EndsDir env opts path name tree dir child run := by
  have same : sub.look (leftLoad env.txn) = fun path => dir.look (leftLoad env.txn) (name :: path) := funext shows
  unfold Ends Ways at ends
  rw [same, blocked] at ends
  obtain ⟨next, run, merged, free, clear⟩ | stopped | conflict := ends
  · obtain ⟨placed, moved, done⟩ := DirDone.place valid there middleValid kept loaded noFile
      merged.valid fun path => (merged.union path).trans (by rw [same])
    exact .inl ⟨placed, moved ▸ run, done, free, clear⟩
  · exact .inr (.inl stopped)
  · exact .inr (.inr conflict)

/-- The recursion into the directory that `insert_merged_dir` made, where the left side has none. -/
theorem Ends.endsDir_fresh (valid : Valid tree) (there : tree.dirAt path = some dir)
    (noDir : SortedMap.get name dir.dirs = none)
    (clear : opts.allowOverwrite = true ∨ ¬ ClashAt env.txn dir name child)
    (ends : Ends env opts .reconcile (path ++ [name]) (tree.setAt path (dir.insertEmptyDir name child.dirmeta))
      (dir.emptyChild child.dirmeta) child run) :
    EndsDir env opts path name tree dir child run := by
  have dirValid : Valid dir := valid.dirAt there
  have files : ∀ other, SortedMap.get other (dir.insertEmptyDir name child.dirmeta).files =
      if other = name then none else SortedMap.get other dir.files :=
    fun other => SortedMap.get_remove dirValid.layout.files
  have dirs : ∀ other, SortedMap.get other (dir.insertEmptyDir name child.dirmeta).dirs =
      if other = name then some (.loaded (dir.emptyChild child.dirmeta)) else SortedMap.get other dir.dirs :=
    fun other => get_withDir dirValid.layout name other _
  have kept : Kept name dir (dir.insertEmptyDir name child.dirmeta) :=
    ⟨rfl, rfl, fun other differs => by rw [files, if_neg differs], fun other differs => by rw [dirs, if_neg differs]⟩
  have below : ∀ first rest, (dir.emptyChild child.dirmeta).look (leftLoad env.txn) (first :: rest) = .absent :=
    fun first rest => look_absent rfl rfl rest
  have rightDir := rightLook_nil (rightLoad env.txn) child
  -- the left side shows a file or nothing
  have noLeftDir : ∀ dirmeta, dir.look (leftLoad env.txn) [name] ≠ .dir dirmeta := by
    intro dirmeta
    cases file : SortedMap.get name dir.files with
    | none =>
      rw [look_absent file noDir]
      nofun
    | some checksum =>
      rw [look_file file]
      nofun
  have leftBelow : ∀ first rest, dir.look (leftLoad env.txn) (name :: first :: rest) = .absent := by
    intro first rest
    cases file : SortedMap.get name dir.files with
    | none => rw [look_absent file noDir]
    | some checksum =>
      rw [look_file file]
      rfl
  obtain ⟨next, run, merged, -, -⟩ | ⟨_, _, -, blocked⟩ | ⟨_, _, -, -, -, at_, clash⟩ := ends
  · obtain ⟨placed, moved, done⟩ := DirDone.place valid there (dirValid.insertEmptyDir name child.dirmeta) kept
      (by rw [dirs, if_pos rfl]) (by rw [files, if_pos rfl]) merged.valid fun path => by
        rw [merged.union, unionAt_of_fresh rightDir rfl below, unionAt_of_absent rightDir noLeftDir leftBelow]
    refine .inl ⟨placed, moved ▸ run, done, ?_, clear⟩
    rintro (⟨_, _, found, -⟩ | ⟨_, found, -⟩) <;> rw [noDir] at found <;> cases found
  · exact absurd blocked (not_blocked_of_no_dirs rfl)
  · exact absurd clash (not_clash_of_fresh rightDir rfl below at_)

theorem insertMergedDir_eq (writers : Nat) (there : tree.dirAt path = some dir)
    (noDir : SortedMap.get name dir.dirs = none) (dirmeta : Option Checksum) (allow : Bool) :
    insertMergedDir writers tree path name dirmeta allow =
      (.ok (), tree.setAt path (dir.insertEmptyDir name dirmeta)) := by
  unfold insertMergedDir
  rw [withDirMut_eq there]
  unfold MutableTree.childKind
  rw [noDir]
  cases SortedMap.get name dir.files <;> rfl

/-- **One subdirectory**, given the merge of one level less. -/
theorem mergeDir_spec (plain : opts.followSymlinks = false) (valid : Valid tree) (there : tree.dirAt path = some dir)
    (leftReads : ∀ path, dir.look (leftLoad env.txn) (name :: path) ≠ .unreadable)
    (rightReads : ∀ path, child.look (rightLoad env.txn) path ≠ .unreadable)
    (deep : ∀ path, fuel ≤ path.length → child.look (rightLoad env.txn) path = .absent) (ok : child.Ok)
    (ih : ∀ path tree dir, Valid tree → tree.dirAt path = some dir → Sides env.txn fuel dir child →
      Ends env opts .reconcile path tree dir child (recurse path child .reconcile tree)) :
    EndsDir env opts path name tree dir child (mergeDir env opts recurse path name child tree) := by
  have dirValid : Valid dir := valid.dirAt there
  have rightDir := rightLook_nil (rightLoad env.txn) child
  -- a fresh directory at the name, where there is no directory
  have fresh : SortedMap.get name dir.dirs = none →
      (opts.allowOverwrite = true ∨ ¬ ClashAt env.txn dir name child) → EndsDir env opts path name tree dir child
        (Outcome.andMerge (insertMergedDir env.writers tree path name child.dirmeta opts.allowOverwrite)
          (recurse (path ++ [name]) child .reconcile)) := by
    intro noDir clear
    rw [insertMergedDir_eq _ there noDir]
    have made := dirValid.insertEmptyDir name child.dirmeta
    refine Ends.endsDir_fresh valid there noDir clear (ih _ _ _ (valid.setAt made) ?_ ?_)
    · refine dirAt_append (dirAt_setAt valid there) ?_
      exact (get_withDir dirValid.layout name name _).trans (if_pos rfl)
    · refine ⟨fun path => ?_, rightReads, deep, ok⟩
      cases path with
      | nil => nofun
      | cons first rest =>
        rw [look_absent rfl rfl]
        nofun
  unfold mergeDir
  rw [peek_eq there]
  obtain ⟨kind, noFile, noDir⟩ | ⟨leftCsum, kind, file, noDir⟩ | ⟨left, noFile, found, kind⟩ :=
    childKind_cases dirValid.layout name
  · rw [kind]
    refine fresh noDir (.inr (not_exists.mpr fun path => ?_))
    exact not_clash_of_left_absent (look_absent noFile noDir path)
  · rw [kind]
    simp only [plain, Bool.false_eq_true, if_false]
    cases allow : opts.allowOverwrite with
    | true =>
      rw [if_pos rfl, ← allow]
      exact fresh noDir (.inl allow)
    | false =>
      refine .inr (.inr ⟨_, _, rfl, ?_, allow, [], ?_⟩)
      · rintro (⟨_, _, found, -⟩ | ⟨_, found, -⟩) <;> rw [noDir] at found <;> cases found
      · unfold Clash
        simp only [look_file file, Found.below, rightDir]
  · cases left with
    | loaded sub =>
      rw [kind]
      have run : ensureChildDir env.txn tree path name = (.ok (), tree) := by
        unfold ensureChildDir
        rw [there]
        simp only [kind]
      simp only [run, Outcome.andMerge]
      have shows : ∀ path, sub.look (leftLoad env.txn) path = dir.look (leftLoad env.txn) (name :: path) :=
        fun path => (look_child noFile found path).symm
      have ends := ih (path ++ [name]) tree sub valid (dirAt_append there found)
        ⟨fun path => shows path ▸ leftReads path, rightReads, deep, ok⟩
      refine Ends.endsDir valid there dirValid ⟨rfl, rfl, fun _ _ => rfl, fun _ _ => rfl⟩ found
        noFile shows ?_ (by rw [setAt_self valid there]; exact ends)
      unfold BlockedAt
      simp [found]
    | lazy dirtree dirmeta =>
      rw [kind]
      cases handle : dir.repo with
      | false =>
        refine .inr (.inl ⟨"cannot hydrate " ++ join path name ++ ": no repository handle", tree, ?_,
          .inl ⟨_, _, found, handle⟩⟩)
        simp [ensureChildDir, there, kind, handle, Outcome.andMerge]
      | true =>
        have shown : ∀ path, dir.look (leftLoad env.txn) (name :: path) =
            (RightDir.committed dirtree dirmeta).look (leftLoad env.txn) path := look_child noFile found
        obtain ⟨loaded, read⟩ : ∃ loaded, MutableTree.hydrate env.txn dirtree dirmeta = .ok loaded := by
          cases stored : env.txn.loadDirtree dirtree with
          | ok stored' => exact ⟨_, hydrate_eq_ok.mpr ⟨stored', stored, rfl⟩⟩
          | error fault =>
            have missing : leftLoad env.txn dirtree = none := by
              unfold leftLoad
              rw [stored]
              rfl
            have first : viewTree (leftLoad env.txn) dirtree "" [] = .unreadable := by rw [viewTree, missing]
            exact absurd ((shown [""]).trans first) (leftReads [""])
        have shows : ∀ path, loaded.look (leftLoad env.txn) path = dir.look (leftLoad env.txn) (name :: path) :=
          fun path => (look_hydrate read rfl path).trans (shown path).symm
        have run : ensureChildDir env.txn tree path name =
            (.ok (), tree.setAt path (dir.withDir name (.loaded loaded))) := by
          unfold ensureChildDir
          rw [there]
          simp only [kind, handle, if_true, read]
          rfl
        simp only [run, Outcome.andMerge]
        have installed : Valid (dir.withDir name (.loaded loaded)) :=
          dirValid.load found (sound_hydrate read trivial)
        have inside : SortedMap.get name (dir.withDir name (.loaded loaded)).dirs = some (.loaded loaded) := by
          rw [get_withDir dirValid.layout, if_pos rfl]
        refine Ends.endsDir valid there installed ⟨rfl, rfl, fun _ _ => rfl, fun other differs => ?_⟩ inside noFile
          shows ?_ (ih _ _ _ (valid.setAt installed) (dirAt_append (dirAt_setAt valid there) inside)
            ⟨fun path => shows path ▸ leftReads path, rightReads, deep, ok⟩)
        · rw [get_withDir dirValid.layout, if_neg differs]
        · refine iff_of_false (not_blocked_of_hydrate read) ?_
          rintro (⟨_, _, -, noHandle⟩ | ⟨_, other, -⟩)
          · rw [handle] at noHandle
            cases noHandle
          · rw [found] at other
            cases other

/-! ### The subdirectories -/

/-- The right directories merged in their places, and everything else as it was. -/
structure DirsDone (txn : Txn sha256) (rdirs : List (String × RightDir)) (dir next : MutableTree) : Prop where
  valid : Valid next
  dirmeta : next.metadataChecksum = dir.metadataChecksum
  placed : ∀ entry ∈ rdirs, ∀ path, next.look (leftLoad txn) (entry.1 :: path) =
    unionAt .reconcile (fun path => dir.look (leftLoad txn) (entry.1 :: path)) (entry.2.look (rightLoad txn)) path
  others : ∀ name, name ∉ rdirs.map Prod.fst → ∀ path,
    next.look (leftLoad txn) (name :: path) = dir.look (leftLoad txn) (name :: path)

theorem DirDone.cons (first : DirDone txn name child dir middle) (rest : DirsDone txn rdirs middle next)
    (fresh : name ∉ rdirs.map Prod.fst) : DirsDone txn ((name, child) :: rdirs) dir next := by
  refine ⟨rest.valid, rest.dirmeta.trans first.kept.dirmeta, ?_, ?_⟩
  · rintro entry (_ | ⟨_, member⟩) path
    · rw [rest.others name fresh, first.union]
    · have differs : entry.1 ≠ name := fun same => fresh (List.mem_map.mpr ⟨entry, member, same⟩)
      rw [rest.placed entry member]
      congr 1
      exact funext fun path => first.kept.look differs path
  · intro other absent path
    have absent : other ≠ name ∧ other ∉ rdirs.map Prod.fst := by simpa [not_or] using absent
    rw [rest.others other absent.2, first.kept.look absent.1]

/-- **The loop over the subdirectories**, by induction over the subdirectories. -/
theorem mergeDirs_spec (apart : (rdirs.map Prod.fst).Nodup)
    (turn : ∀ entry ∈ rdirs, ∀ tree dir', Valid tree → tree.dirAt path = some dir' →
      (∀ path, dir'.look (leftLoad env.txn) (entry.1 :: path) = dir.look (leftLoad env.txn) (entry.1 :: path)) →
      EndsDir env opts path entry.1 tree dir' entry.2 (mergeDir env opts recurse path entry.1 entry.2 tree))
    (valid : Valid tree) (there : tree.dirAt path = some dir) :
    Ways opts.allowOverwrite path tree (DirsDone env.txn rdirs dir) (BlockedDirs env.txn opts.allowOverwrite dir rdirs)
      (∃ entry ∈ rdirs, ClashAt env.txn dir entry.1 entry.2) (mergeDirs env opts recurse path rdirs tree) := by
  induction rdirs generalizing tree dir with
  | nil =>
    refine .inl ⟨dir, ?_, ⟨valid.dirAt there, rfl, by simp, fun _ _ _ => rfl⟩, id, by simp⟩
    rw [setAt_self valid there]
    rfl
  | cons entry rdirs ih =>
    obtain ⟨name, child⟩ := entry
    obtain ⟨fresh, apart⟩ := List.nodup_cons.mp apart
    refine (Ways.andMerge valid there (turn _ (.head _) tree dir valid there fun _ => rfl) fun middle done => ?_).imp
      (fun _ all => all) (or_congr_right (and_congr_left' clearAt_iff.symm))
      (List.exists_mem_cons_iff (fun entry : String × RightDir => ClashAt env.txn dir entry.1 entry.2) _ _).symm
    have differs : ∀ later ∈ rdirs, later.1 ≠ name :=
      fun later member same => fresh (List.mem_map.mpr ⟨later, member, same⟩)
    have same : ∀ later ∈ rdirs, ∀ path,
        middle.look (leftLoad env.txn) (later.1 :: path) = dir.look (leftLoad env.txn) (later.1 :: path) :=
      fun later member path => done.kept.look (differs later member) path
    refine (ih apart (fun later member tree dir' valid there shown => turn later (.tail _ member) tree dir' valid there
      fun path => (shown path).trans (same later member path)) (valid.setAt done.valid) (dirAt_setAt valid there)).imp
      (fun next all => done.cons all fresh) ?_ (clashAt_congr same)
    exact blockedDirs_congr done.kept.repo (fun later member => done.kept.dirs _ (differs later member)) same

/-! ### The merge -/

theorem nodup_of_sorted {β : Type} {entries : List (String × β)}
    (sorted : SortedMap.Sorted asBytes entries) : (entries.map Prod.fst).Nodup := by
  have apart : (entries.map fun entry => asBytes entry.1).Nodup := sorted.nodup
  rw [show (fun entry : String × β => asBytes entry.1) = asBytes ∘ Prod.fst from rfl, ← List.map_map] at apart
  exact apart.of_map _

/-- A right file clashes where the left side has another file or a directory. -/
theorem fileClash_iff (layout : Layout dir) :
    (∃ path, Clash root (fun path => dir.look load (name :: path)) (Found.below checksum) path) ↔
      FileClash dir name checksum := by
  have onlyHere : (∃ path, Clash root (fun path => dir.look load (name :: path)) (Found.below checksum) path) ↔
      Clash root (fun path => dir.look load (name :: path)) (Found.below checksum) [] := by
    refine ⟨?_, fun clash => ⟨[], clash⟩⟩
    rintro ⟨_ | ⟨first, rest⟩, clash⟩
    · exact clash
    · exact absurd clash (not_clash_of_right_absent rfl)
  rw [onlyHere]
  unfold FileClash Clash
  obtain ⟨kind, noFile, noDir⟩ | ⟨leftCsum, kind, file, noDir⟩ | ⟨child, noFile, found, kind⟩ :=
    childKind_cases layout name
  · simp only [kind, look_absent noFile noDir]
  · simp only [kind, look_file file, Found.below]
  · simp only [kind, look_child noFile found, rightLook_nil, Found.below]
    cases child <;> simp

/-- The paths of a directory against those of its entries. -/
theorem clash_iff {rfiles : List (String × Checksum)} (layout : Layout dir)
    (entries : EntriesOk (rightLoad txn) right rfiles rdirs) :
    (∃ path, Clash root (dir.look (leftLoad txn)) (right.look (rightLoad txn)) path) ↔
      Clash root (dir.look (leftLoad txn)) (right.look (rightLoad txn)) [] ∨
        (∃ file ∈ rfiles, FileClash dir file.1 file.2) ∨
        ∃ entry ∈ rdirs, ClashAt txn dir entry.1 entry.2 := by
  constructor
  · rintro ⟨_ | ⟨name, rest⟩, clash⟩
    · exact .inl clash
    rw [clash_cons] at clash
    simp only [entries.look] at clash
    unfold lookEntries at clash
    cases file : SortedMap.get name rfiles with
    | some checksum =>
      rw [file] at clash
      exact .inr (.inl ⟨_, SortedMap.mem_of_get file, (fileClash_iff layout).mp ⟨rest, clash⟩⟩)
    | none =>
      cases found : SortedMap.get name rdirs with
      | some child =>
        simp only [file, found] at clash
        exact .inr (.inr ⟨_, SortedMap.mem_of_get found, rest, clash⟩)
      | none =>
        simp only [file, found] at clash
        exact absurd clash (not_clash_of_right_absent rfl)
  · rintro (clash | ⟨⟨name, checksum⟩, member, clash⟩ | ⟨⟨name, child⟩, member, path, clash⟩)
    · exact ⟨[], clash⟩
    · have file := (SortedMap.get_eq_some_iff entries.files).mpr member
      obtain ⟨path, clash⟩ := (fileClash_iff layout).mpr clash
      refine ⟨name :: path, clash_cons name path |>.mpr ?_⟩
      simp only [entries.look, lookEntries, file]
      exact clash
    · have found := (SortedMap.get_eq_some_iff entries.dirs).mpr member
      have noFile := entries.disjoint name (by rw [found]; rfl)
      refine ⟨name :: path, clash_cons name path |>.mpr ?_⟩
      simp only [entries.look, lookEntries, noFile, found]
      exact clash

theorem Merged.of_steps (entries : EntriesOk (rightLoad txn) right rfiles rdirs)
    (dirmeta : .dir first.metadataChecksum = unionAt root (dir.look (leftLoad txn)) (right.look (rightLoad txn)) [])
    (shown : ∀ name path, first.look (leftLoad txn) (name :: path) = dir.look (leftLoad txn) (name :: path))
    (files : FilesDone rfiles first middle) (dirs : DirsDone txn rdirs middle next) :
    Merged txn root dir next right := by
  refine ⟨dirs.valid, fun path => ?_⟩
  cases path with
  | nil =>
    rw [← dirmeta, ← files.dirmeta, ← dirs.dirmeta]
    rfl
  | cons name rest =>
    have other : name ∉ rfiles.map Prod.fst → ∀ path,
        middle.look (leftLoad txn) (name :: path) = dir.look (leftLoad txn) (name :: path) := by
      intro absent path
      rw [files.look absent, shown]
    rw [unionAt_cons (rightLook_nil _ _)]
    simp only [entries.look]
    unfold lookEntries
    cases file : SortedMap.get name rfiles with
    | some checksum =>
      have noDir : name ∉ rdirs.map Prod.fst := by
        intro shared
        obtain ⟨entry, member, rfl⟩ := List.mem_map.mp shared
        have absent := entries.disjoint entry.1 (by rw [(SortedMap.get_eq_some_iff entries.dirs).mpr member]; rfl)
        rw [file] at absent
        cases absent
      rw [dirs.others name noDir, look_file (files.placed _ (SortedMap.mem_of_get file)).1]
      unfold unionAt
      cases rest <;> simp [Found.below, fileAbove, Found.isFile]
    | none =>
      have noFile : name ∉ rfiles.map Prod.fst := SortedMap.get_eq_none.mp file
      cases found : SortedMap.get name rdirs with
      | some child =>
        rw [dirs.placed _ (SortedMap.mem_of_get found)]
        simp only [other noFile]
      | none =>
        have clear : fileAbove (fun _ => .absent) rest = false := by
          induction rest with
          | nil => rfl
          | cons _ rest ih => exact ih
        rw [dirs.others name (SortedMap.get_eq_none.mp found), other noFile]
        unfold unionAt
        simp [clear]

/-- **The three ways out of a merge**, by induction over the depth of the right side. -/
theorem mergeInto_spec (writers : env.writers = 0) (plain : opts.followSymlinks = false) (fuel : Nat)
    (root : RootDirmeta) (right : RightDir) (path : List String) (tree dir : MutableTree) (valid : Valid tree)
    (there : tree.dirAt path = some dir) (sides : Sides env.txn fuel dir right) :
    Ends env opts root path tree dir right (mergeInto env opts fuel path right root tree) := by
  induction fuel generalizing root right path tree dir with
  | zero =>
    have nothing := sides.deep [] (Nat.zero_le _)
    rw [rightLook_nil] at nothing
    cases nothing
  | succ fuel ih =>
    have dirValid : Valid dir := valid.dirAt there
    obtain ⟨⟨rfiles, rdirs⟩, read⟩ := entries_of_readable (fun _ => rfl) sides.rightReads
    have entries : EntriesOk (rightLoad env.txn) right rfiles rdirs :=
      entriesOk_of_entries (fun _ => rfl) sides.ok read
    have blocked := @blocked_iff _ dir env.txn opts.allowOverwrite root right _ _ read
    have clash := @clash_iff _ dir env.txn root right _ _ dirValid.layout entries
    unfold mergeInto
    simp only [read]
    refine (Ways.andMerge_free valid there (@mergeDirmeta_spec opts tree dir path root right valid there
      (dir.look (leftLoad env.txn)) (right.look (rightLoad env.txn)) rfl (rightLook_nil _ _)) fun first set => ?_).imp
      (fun _ merged => merged) blocked.symm clash.symm
    have shown : ∀ name path,
        first.look (leftLoad env.txn) (name :: path) = dir.look (leftLoad env.txn) (name :: path) := by
      intro name path
      rw [look_eq_lookEntries, look_eq_lookEntries, set.files, set.dirs]
    have firstThere : (tree.setAt path first).dirAt path = some first := dirAt_setAt valid there
    have filesWays := @mergeFiles_spec _ env opts _ _ _ writers _ (nodup_of_sorted entries.files)
      entries.named (valid.setAt set.valid) firstThere
    refine Ways.andMerge_free (valid.setAt set.valid) firstThere
      (filesWays.imp (fun _ files => files) Iff.rfl ?_) fun middle files => ?_
    · refine exists_congr fun file => and_congr_right fun _ => ?_
      exact fileClash_congr (by rw [set.files]) (by rw [set.dirs])
    rw [setAt_setAt valid _ _ there]
    -- the files were not where the directories are
    have apart : ∀ entry ∈ rdirs, entry.1 ∉ rfiles.map Prod.fst := by
      intro entry member
      rw [← SortedMap.get_eq_none]
      exact entries.disjoint _ (by rw [(SortedMap.get_eq_some_iff entries.dirs).mpr member]; rfl)
    have middleShown : ∀ entry ∈ rdirs, ∀ path,
        middle.look (leftLoad env.txn) (entry.1 :: path) = dir.look (leftLoad env.txn) (entry.1 :: path) :=
      fun entry member path => (files.look (apart entry member) path).trans (shown _ _)
    refine (mergeDirs_spec (nodup_of_sorted entries.dirs) (fun entry member tree dir' valid there same => ?_)
      (valid.setAt files.valid) (dirAt_setAt valid there)).imp
      (fun next dirs => .of_steps entries set.dirmeta shown files dirs) ?_ (clashAt_congr middleShown)
    · have found := (SortedMap.get_eq_some_iff entries.dirs).mpr member
      have shows : ∀ path, right.look (rightLoad env.txn) (entry.1 :: path) =
          entry.2.look (rightLoad env.txn) path := by
        intro path
        rw [entries.look, lookEntries, entries.disjoint _ (by rw [found]; rfl), found]
      refine mergeDir_spec plain valid there (fun path => ?_) (fun path => ?_) (fun path long => ?_)
        (entries.children entry member) fun path tree dir valid there sides =>
          ih .reconcile entry.2 path tree dir valid there sides
      · rw [same, middleShown entry member]
        exact sides.leftReads _
      · rw [← shows]
        exact sides.rightReads _
      · rw [← shows]
        exact sides.deep _ (Nat.succ_le_succ long)
    · refine blockedDirs_congr (files.repo.trans set.repo) (fun entry member => ?_) middleShown
      rw [files.dirs _ (apart entry member), set.dirs]

/-- The merge of `other` into `left` is the reference merge: it reports a conflict exactly where the
sides clash and the right side may not win, and otherwise leaves the union. -/
def IsReferenceMerge (env : MergeEnv sha256) (opts : MergeOptions) (left other : MutableTree)
    (run : Option Outcome) : Prop :=
  ∃ result after, run = some (result, after) ∧
    ((∃ reason, result = .error (.mergeConflict reason)) ↔
      opts.allowOverwrite = false ∧
        ∃ path, Clash opts.rootDirmeta (left.look (leftLoad env.txn)) (other.look (rightLoad env.txn)) path) ∧
    ((opts.allowOverwrite = true ∨
        ¬ ∃ path, Clash opts.rootDirmeta (left.look (leftLoad env.txn)) (other.look (rightLoad env.txn)) path) →
      result = .ok () ∧ ∀ path, after.look (leftLoad env.txn) path =
        unionAt opts.rootDirmeta (left.look (leftLoad env.txn)) (other.look (rightLoad env.txn)) path)

/-- **The merge is the right-biased union**, exactly where no lazy left directory without a
repository handle is in its way. -/
theorem merge_is_union_iff {fuel : Nat} {left other : MutableTree} (valid : Valid left)
    (sides : Sides env.txn fuel left (.mutable other)) (writers : env.writers = 0)
    (plain : opts.followSymlinks = false) :
    IsReferenceMerge env opts left other (merge env opts fuel left other) ↔
      ¬ Blocked env.txn opts.allowOverwrite opts.rootDirmeta left (.mutable other) := by
  have ends : Ends env opts opts.rootDirmeta [] left left (.mutable other) (merge env opts fuel left other) :=
    mergeInto_spec writers plain fuel opts.rootDirmeta (.mutable other) [] left left valid rfl sides
  obtain ⟨next, run, merged, free, clear⟩ | ⟨reason, after, run, blocked⟩ |
    ⟨reason, after, run, free, refused, clash⟩ := ends
  · refine iff_of_true ⟨.ok (), next, run, iff_of_false ?_ ?_, fun _ => ⟨rfl, merged.union⟩⟩ free
    · rintro ⟨_, ⟨⟩⟩
    · rintro ⟨refused, clash⟩
      rcases clear with allow | clear
      · rw [refused] at allow
        cases allow
      · exact clear clash
  · refine iff_of_false ?_ (not_not_intro blocked)
    rintro ⟨result, after, ran, conflict, union⟩
    rw [run] at ran
    cases ran
    cases allow : opts.allowOverwrite with
    | true =>
      obtain ⟨⟨⟩, -⟩ := union (.inl allow)
    | false =>
      grind
  · refine iff_of_true ⟨_, after, run, iff_of_true ⟨reason, rfl⟩ ⟨refused, clash⟩, ?_⟩ free
    rintro (allow | clear)
    · rw [refused] at allow
      cases allow
    · exact absurd clash clear

namespace Sample

/-- The dirtree with no entries. -/
def noEntries : Bytes := [0]

/-- A repository with that one dirtree. -/
def oneTree : Txn hash :=
  ⟨fun checksum => if checksum = hash noEntries then some noEntries else none, fun _ => none, [], unstaged⟩

def oneTreeEnv : MergeEnv hash := ⟨oneTree, 0, fun _ => .ok none, fun tree _ _ => (.ok [], tree)⟩

def refuseOverwrite : MergeOptions := ⟨false, false, .reconcile, .reconcile⟩

theorem leftLoad_noEntries : leftLoad oneTree (hash noEntries) = some ⟨[], []⟩ := rfl

theorem rightLoad_noEntries : rightLoad oneTree (hash noEntries) = some ⟨[], []⟩ := rfl

theorem viewTree_noEntries (found : load (hash noEntries) = some ⟨[], []⟩)
    (name : String) (rest : List String) : viewTree load (hash noEntries) name rest = .absent := by
  cases rest <;> simp [viewTree, found, SortedMap.get]

/-- A directory `b` from `ensure_dir`, with the committed directory `a` that a rename moved into
it. -/
def renamed : MutableTree :=
  ⟨none, [], [("b", .loaded ⟨none, [], [("a", .lazy (hash noEntries) (.filled 1))], none, false⟩)], none, true⟩

/-- The directories `b` and `b/a`. -/
def nested : MutableTree :=
  ⟨none, [], [("b", .loaded ⟨none, [], [("a", .loaded ⟨none, [], [], none, false⟩)], none, false⟩)], none, false⟩

theorem reached_renamed : Reached oneTree (.tree renamed) := by
  have made := Reached.edited [] (.ensureDir "b") (.new oneTree) rfl rfl
  have overlaid := Reached.edited [] (.insertLazyDir "a" (hash noEntries) (.filled 1)) made rfl rfl
  have left := Reached.takenFrom [] overlaid rfl (show MutableTree.takeChild _ "a" = _ from rfl)
  have entry := Reached.taken [] overlaid rfl (show MutableTree.takeChild _ "a" = _ from rfl)
  exact Reached.inserted ["b"] left entry rfl (show MutableTree.insertChild _ "a" _ = _ from rfl)

theorem reached_nested : Reached oneTree (.tree nested) := by
  have made := Reached.edited [] (.ensureDir "b") (.new oneTree) rfl rfl
  exact Reached.edited ["b"] (.ensureDir "a") made rfl rfl

theorem look_only {child : Child MutableTree} (files : tree.files = [])
    (dirs : tree.dirs = [(name, child)]) (first : String) (rest : List String) :
    tree.look load (first :: rest) = if first = name then (RightDir.ofChild child).look load rest else .absent := by
  by_cases same : first = name
  · grind [SortedMap.get, look_child]
  · rw [if_neg same, look_absent (by rw [files]; rfl) (by simp [dirs, SortedMap.get, Ne.symm same])]

theorem look_renamed (path : List String) :
    renamed.look (leftLoad oneTree) path =
      if path = [] ∨ path = ["b"] then .dir none
      else if path = ["b", "a"] then .dir (some (.filled 1)) else .absent := by
  rcases path with _ | ⟨first, _ | ⟨second, _ | ⟨third, rest⟩⟩⟩
  · rfl
  · rw [look_only rfl rfl]
    by_cases one : first = "b" <;> simp [one, RightDir.ofChild, RightDir.look, MutableTree.look]
  · rw [look_only rfl rfl, RightDir.ofChild, RightDir.look, look_only rfl rfl]
    by_cases one : first = "b" <;> by_cases two : second = "a" <;>
      simp [one, two, RightDir.ofChild, RightDir.look]
  · rw [look_only rfl rfl, RightDir.ofChild, RightDir.look, look_only rfl rfl, RightDir.ofChild, RightDir.look]
    simp [viewTree_noEntries leftLoad_noEntries]

theorem look_nested (path : List String) :
    nested.look (rightLoad oneTree) path =
      if path = [] ∨ path = ["b"] ∨ path = ["b", "a"] then .dir none else .absent := by
  rcases path with _ | ⟨first, _ | ⟨second, _ | ⟨third, rest⟩⟩⟩
  · rfl
  · rw [look_only rfl rfl]
    by_cases one : first = "b" <;> simp [one, RightDir.ofChild, RightDir.look, MutableTree.look]
  · rw [look_only rfl rfl, RightDir.ofChild, RightDir.look, look_only rfl rfl]
    by_cases one : first = "b" <;> by_cases two : second = "a" <;>
      simp [one, two, RightDir.ofChild, RightDir.look, MutableTree.look]
  · rw [look_only rfl rfl, RightDir.ofChild, RightDir.look, look_only rfl rfl, RightDir.ofChild,
      RightDir.look, look_absent rfl rfl]
    simp

theorem sides_renamed : Sides oneTree 3 renamed (.mutable nested) where
  leftReads path := by
    rw [look_renamed]
    split_ifs <;> simp
  rightReads path := by
    rw [RightDir.look, look_nested]
    split_ifs <;> simp
  deep path long := by
    rw [RightDir.look, look_nested, if_neg]
    rintro (rfl | rfl | rfl) <;> simp at long
  ok := by
    refine .intro ⟨⟨by simp [nested], by simp [nested, SortedMap.Sorted], fun _ _ => rfl⟩, by simp [nested]⟩ ?_
    rintro name child member
    obtain ⟨rfl, same⟩ := Prod.mk.inj (List.mem_singleton.mp member)
    cases same
    refine .intro ⟨⟨by simp, by simp [SortedMap.Sorted], fun _ _ => rfl⟩, by simp⟩ ?_
    rintro name child member
    obtain ⟨rfl, same⟩ := Prod.mk.inj (List.mem_singleton.mp member)
    cases same
    exact .intro ⟨⟨by simp, by simp, fun _ _ => rfl⟩, by simp⟩ (by simp)

/-- A committed directory `a` on both sides, and a file on the right. -/
def overlaid : MutableTree := ⟨none, [], [("a", .lazy (hash noEntries) (.filled 1))], none, true⟩

def update : MutableTree :=
  ⟨some (.filled 2), [("f", .filled 3)], [("a", .lazy (hash noEntries) (.filled 1))], none, true⟩

theorem look_update (first : String) (rest : List String) :
    update.look (rightLoad oneTree) (first :: rest) =
      if first = "f" then Found.below (.filled 3) rest
      else if first = "a" then (RightDir.committed (hash noEntries) (.filled 1)).look (rightLoad oneTree) rest
      else .absent := by
  by_cases file : first = "f"
  · subst file
    exact look_file rfl rest
  · have noFile : SortedMap.get first update.files = none := by simp [update, SortedMap.get, Ne.symm file]
    rw [if_neg file]
    by_cases dir : first = "a"
    · subst dir
      rw [if_pos rfl, look_child noFile (show SortedMap.get "a" update.dirs = some _ from rfl)]
      rfl
    · rw [if_neg dir, look_absent noFile (by simp [update, SortedMap.get, Ne.symm dir])]

theorem sides_overlaid : Sides oneTree 2 overlaid (.mutable update) where
  leftReads path := by
    cases path with
    | nil => nofun
    | cons first rest =>
      rw [look_only rfl rfl, RightDir.ofChild]
      cases rest with
      | nil =>
        simp only [RightDir.look]
        split_ifs <;> simp
      | cons _ _ => simp [RightDir.look, viewTree_noEntries leftLoad_noEntries]
  rightReads path := by
    cases path with
    | nil => nofun
    | cons first rest =>
      rw [RightDir.look, look_update]
      cases rest with
      | nil =>
        simp only [Found.below, RightDir.look]
        split_ifs <;> simp
      | cons _ _ => simp [Found.below, RightDir.look, viewTree_noEntries rightLoad_noEntries]
  deep path long := by
    match path with
    | first :: second :: rest =>
      rw [RightDir.look, look_update]
      simp [Found.below, RightDir.look, viewTree_noEntries rightLoad_noEntries]
  ok := by
    refine .intro ⟨⟨by simp [update, SortedMap.Sorted], by simp [update, SortedMap.Sorted], ?_⟩, ?_⟩ ?_
    · intro name there
      by_cases same : name = "f"
      · subst same
        cases there
      · simp [update, SortedMap.get, Ne.symm same]
    · intro file member
      obtain rfl := List.mem_singleton.mp member
      rfl
    · intro name child member
      obtain ⟨-, same⟩ := Prod.mk.inj (List.mem_singleton.mp member)
      cases same

theorem valid_overlaid : Valid overlaid := by
  refine .intro ⟨⟨by simp [overlaid], by simp [overlaid, SortedMap.Sorted], fun _ _ => rfl⟩, trivial⟩ ?_
  intro name child member
  obtain ⟨-, same⟩ := Prod.mk.inj (List.mem_singleton.mp member)
  cases same

theorem not_blocked_overlaid : ¬ Blocked oneTree false .reconcile overlaid (.mutable update) := by
  rw [blocked_iff (show (RightDir.mutable update).entries oneTree = .ok _ from rfl)]
  rintro ⟨-, -, (⟨_, _, -, noHandle⟩ | ⟨_, found, -⟩) | ⟨-, ⟨⟩⟩⟩
  · cases noHandle
  · cases found

end Sample

open Sample in
theorem merge_is_union_overlaid :
    Valid overlaid ∧ Sides oneTree 2 overlaid (.mutable update) ∧
      IsReferenceMerge oneTreeEnv refuseOverwrite overlaid update
        (merge oneTreeEnv refuseOverwrite 2 overlaid update) :=
  ⟨valid_overlaid, sides_overlaid,
    (@merge_is_union_iff _ oneTreeEnv refuseOverwrite 2 _ _ valid_overlaid sides_overlaid rfl
      rfl).mpr not_blocked_overlaid⟩

open Sample in
/-- The rename put a lazy directory under a parent without a handle: a merge that comes to it fails,
with no clash anywhere and every object present. -/
theorem merge_stops_at_renamed :
    Reached oneTree (.tree renamed) ∧ Reached oneTree (.tree nested) ∧ Sides oneTree 3 renamed (.mutable nested) ∧
      (∀ path, ¬ Clash .reconcile (renamed.look (leftLoad oneTree)) (nested.look (rightLoad oneTree)) path) ∧
      merge oneTreeEnv refuseOverwrite 3 renamed nested =
        some (.error (.staging "cannot hydrate b/a: no repository handle"), renamed) ∧
      ¬ IsReferenceMerge oneTreeEnv refuseOverwrite renamed nested
        (merge oneTreeEnv refuseOverwrite 3 renamed nested) := by
  have clear : ∀ path, ¬ Clash .reconcile (renamed.look (leftLoad oneTree)) (nested.look (rightLoad oneTree)) path := by
    intro path
    unfold Clash
    rw [look_renamed, look_nested]
    split_ifs <;> simp_all
  have run : merge oneTreeEnv refuseOverwrite 3 renamed nested =
      some (.error (.staging "cannot hydrate b/a: no repository handle"), renamed) := by
    rfl
  refine ⟨reached_renamed, reached_nested, sides_renamed, clear, run, ?_⟩
  rintro ⟨result, after, ran, -, union⟩
  cases ran
  obtain ⟨⟨⟩, -⟩ := union (.inr (not_exists.mpr clear))

end Ostrya.Repo
