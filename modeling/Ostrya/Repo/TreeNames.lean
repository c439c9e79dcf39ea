/-
**The names that a tree reaches** (`traverse.rs`, `walk_tree`).

* `TreeName` — the names that the present dirtrees below a root give, with no regard to the order of reads.
* `walkTree_spec` — **whichever read is ready first**, `walk_tree` adds exactly these names, and leaves a set
  of dirtrees that is closed under subtrees (`TreeClosed`), so that the next walk may skip them.
* `walkTree_returns`, `walkTree_succeeds` — it returns, and fails only where a read fails.
-/

import Mathlib.Data.Fintype.Card
import Mathlib.Data.Set.Finite.List
import Mathlib.Logic.Relation
import Ostrya.Repo.Traverse

namespace Ostrya.Repo

open ByteFormat Gvariant Ostrya.Core

/-- There are finitely many checksums. -/
instance finite_checksum : Finite Checksum := by
  have : Finite UInt8 := Finite.of_injective UInt8.toFin fun first second same => UInt8.toFin_inj.mp same
  have lists : {bytes : Bytes | bytes.length = 32}.Finite := List.finite_length_eq UInt8 32
  have := lists.to_subtype
  exact Finite.of_injective (fun checksum => (⟨checksum.bytes, checksum.length⟩ : {bytes : Bytes | bytes.length = 32}))
    fun first second same => Checksum.ext (congrArg Subtype.val same)

variable (store : MetadataSource)

/-- `sub` is a directory of the dirtree that the store holds at `tree`. -/
def SubtreeOf (tree sub : Checksum) : Prop :=
  ∃ dirtree, store.tryLoadDirtree tree = .ok (some dirtree) ∧ ∃ entry ∈ dirtree.dirs, entry.2.1 = sub

/-- `tree` is below `root`, through dirtrees that the store holds. -/
def TreeReach (root tree : Checksum) : Prop := Relation.ReflTransGen (SubtreeOf store) root tree

/-- The names that one dirtree gives. -/
def NameOf (dirtree : DirTree) (name : ObjectName) : Prop :=
  (∃ file ∈ dirtree.files, name = ⟨file.2, .file⟩) ∨ ∃ entry ∈ dirtree.dirs, name = ⟨entry.2.2, .dirMeta⟩

/-- The names that a tree reaches. -/
def TreeName (root : Checksum) (name : ObjectName) : Prop :=
  ∃ tree, TreeReach store root tree ∧
    (name = ⟨tree, .dirTree⟩ ∨ ∃ dirtree, store.tryLoadDirtree tree = .ok (some dirtree) ∧ NameOf dirtree name)

/-- The dirtree at `tree` was read, its names are among `names` and its subtrees among
`subtrees`. -/
def ReadInto (names : ObjectName → Prop) (subtrees : Checksum → Prop) (tree : Checksum) : Prop :=
  ∃ loaded, store.tryLoadDirtree tree = .ok loaded ∧ ∀ dirtree, loaded = some dirtree →
    (∀ name, NameOf dirtree name → names name) ∧ ∀ entry ∈ dirtree.dirs, subtrees entry.2.1

/-- Every dirtree of `seen` was read, with all that it reaches. -/
def TreeClosed (seen : Finset Checksum) (reachable : Finset ObjectName) : Prop :=
  ∀ tree ∈ seen, ⟨tree, .dirTree⟩ ∈ reachable ∧ ReadInto store (· ∈ reachable) (· ∈ seen) tree

variable {store} {root tree : Checksum} {seen : Finset Checksum} {reachable : Finset ObjectName}

theorem ReadInto.imp (read : ReadInto store names subtrees tree) (more : ∀ name, names name → names' name)
    (further : ∀ sub, subtrees sub → subtrees' sub) : ReadInto store names' subtrees' tree := by
  obtain ⟨loaded, ok, all⟩ := read
  refine ⟨loaded, ok, fun dirtree same => ?_⟩
  obtain ⟨here, below⟩ := all dirtree same
  exact ⟨fun name given => more name (here name given), fun entry member => further _ (below entry member)⟩

section

variable (closed : TreeClosed store seen reachable)

include closed

theorem TreeClosed.reach (start : root ∈ seen) (reach : TreeReach store root tree) : tree ∈ seen := by
  induction reach with
  | refl => exact start
  | tail _ step ih =>
    obtain ⟨dirtree, ok, entry, member, rfl⟩ := step
    obtain ⟨-, loaded, read, all⟩ := closed _ ih
    rw [ok] at read
    cases read
    exact (all dirtree rfl).2 entry member

theorem TreeClosed.names (start : root ∈ seen) (given : TreeName store root name) : name ∈ reachable := by
  obtain ⟨tree, reach, rfl | ⟨dirtree, ok, here⟩⟩ := given
  · exact (closed _ (closed.reach start reach)).1
  · obtain ⟨-, loaded, read, all⟩ := closed _ (closed.reach start reach)
    rw [ok] at read
    cases read
    exact (all dirtree rfl).1 name here

theorem TreeClosed.loads (start : root ∈ seen)
    (reach : TreeReach store root tree) : ∃ loaded, store.tryLoadDirtree tree = .ok loaded := by
  obtain ⟨-, loaded, ok, -⟩ := closed _ (closed.reach start reach)
  exact ⟨loaded, ok⟩

theorem TreeClosed.mono (subset : reachable ⊆ more) : TreeClosed store seen more := by
  intro tree member
  obtain ⟨named, read⟩ := closed tree member
  exact ⟨subset named, read.imp (fun _ inside => subset inside) fun _ inside => inside⟩

end

/-! ### The walk -/

/-- What holds during a walk from `root` that began with `seen` and `reachable`. -/
structure TreeInv (store : MetadataSource) (root : Checksum) (seen : Finset Checksum)
    (reachable : Finset ObjectName) (walk : TreeWalk) : Prop where
  seenKept : seen ⊆ walk.seen
  namesKept : reachable ⊆ walk.reachable
  start : root ∈ walk.seen ∨ root ∈ walk.stack
  named : ∀ tree ∈ walk.seen, ⟨tree, .dirTree⟩ ∈ walk.reachable
  read : ∀ tree ∈ walk.seen, tree ∈ walk.reads ∨
    ReadInto store (· ∈ walk.reachable) (fun sub => sub ∈ walk.seen ∨ sub ∈ walk.stack) tree
  stackReach : ∀ tree ∈ walk.stack, TreeReach store root tree
  readsReach : ∀ tree ∈ walk.reads, TreeReach store root tree
  seenReach : ∀ tree ∈ walk.seen, tree ∈ seen ∨ TreeReach store root tree
  names : ∀ name ∈ walk.reachable, name ∈ reachable ∨ TreeName store root name

variable {walk : TreeWalk} {ready : Nat → Nat}

/-- The inner loop moves dirtrees from the stack to the reads. -/
theorem TreeInv.startReads {limit : Nat} (inv : TreeInv store root seen reachable { walk with stack := stack }) :
    TreeInv store root seen reachable (startReads limit walk stack) := by
  induction stack generalizing walk with
  | nil => exact inv
  | cons checksum stack ih =>
    have below : TreeReach store root checksum := inv.stackReach checksum (.head _)
    unfold Repo.startReads
    split
    · split
      · next known =>
        -- a dirtree that was seen leaves the stack
        have moved : ∀ sub, sub ∈ walk.seen ∨ sub ∈ checksum :: stack → sub ∈ walk.seen ∨ sub ∈ stack := by
          grind
        exact ih ⟨inv.seenKept, inv.namesKept, moved _ inv.start, inv.named,
          fun tree member => (inv.read tree member).imp_right fun read => read.imp (fun _ h => h) moved,
          fun tree member => inv.stackReach tree (.tail _ member), inv.readsReach, inv.seenReach,
          inv.names⟩
      · have moved : ∀ sub, sub ∈ walk.seen ∨ sub ∈ checksum :: stack →
            sub ∈ insert checksum walk.seen ∨ sub ∈ stack := by
          grind
        refine ih ⟨inv.seenKept.trans (Finset.subset_insert ..), inv.namesKept.trans (Finset.subset_insert ..),
          moved _ inv.start, ?_, ?_, fun tree member => inv.stackReach tree (.tail _ member), ?_, ?_, ?_⟩
        · intro tree member
          obtain rfl | member := Finset.mem_insert.mp member
          · exact Finset.mem_insert_self ..
          · exact Finset.mem_insert_of_mem (inv.named tree member)
        · intro tree member
          obtain rfl | member := Finset.mem_insert.mp member
          · exact .inl (by simp)
          · refine (inv.read tree member).imp (fun reading => List.mem_append_left _ reading) fun read => ?_
            exact read.imp (fun _ inside => Finset.mem_insert_of_mem inside) moved
        · grind [Ostrya.Repo.TreeInv.readsReach, List.mem_singleton]
        · intro tree member
          obtain rfl | member := Finset.mem_insert.mp member
          · exact .inr below
          · exact inv.seenReach tree member
        · intro name member
          obtain rfl | member := Finset.mem_insert.mp member
          · exact .inr ⟨checksum, below, .inl rfl⟩
          · exact inv.names name member
    · exact inv

theorem mem_insertAll {α β : Type} [DecidableEq β] (f : α → β) (items : List α) (set : Finset β) (b : β) :
    b ∈ items.foldl (fun set item => insert (f item) set) set ↔ b ∈ set ∨ ∃ item ∈ items, b = f item := by
  induction items generalizing set with
  | nil => simp
  | cons item items ih =>
    rw [List.foldl_cons, ih, Finset.mem_insert]
    simp only [List.mem_cons, exists_eq_or_imp]
    tauto

theorem mem_addDirtree :
    name ∈ addDirtree dirtree reachable ↔ name ∈ reachable ∨ NameOf dirtree name := by
  unfold addDirtree NameOf
  rw [mem_insertAll (fun entry : String × Checksum × Checksum => (⟨entry.2.2, .dirMeta⟩ : ObjectName)),
    mem_insertAll (fun entry : String × Checksum => (⟨entry.2, .file⟩ : ObjectName)), or_assoc]

theorem mem_pushAll {α β : Type} (f : α → β) (items : List α) (stack : List β) (b : β) :
    b ∈ items.foldl (fun stack item => f item :: stack) stack ↔ b ∈ stack ∨ ∃ item ∈ items, b = f item := by
  simp [List.foldl_flip_cons_eq_append, or_comm, eq_comm]

/-- **One turn.** -/
theorem TreeInv.treeRound (inv : TreeInv store root seen reachable walk)
    (run : treeRound store ready walk = .ok next) : TreeInv store root seen reachable next := by
  have started : TreeInv store root seen reachable (Repo.startReads (max store.maxReads 1) walk walk.stack) :=
    TreeInv.startReads (by cases walk; exact inv)
  unfold Repo.treeRound at run
  generalize Repo.startReads (max store.maxReads 1) walk walk.stack = walk at started run
  dsimp only at run
  split at run
  · cases run
    exact started
  · next checksum taken =>
    have reading := List.mem_of_getElem? taken
    have below := started.readsReach checksum reading
    have others : ∀ tree ∈ walk.reads, tree = checksum ∨
        tree ∈ walk.reads.eraseIdx (ready walk.turn % walk.reads.length) := by
      grind [List.mem_eraseIdx_iff_getElem?, List.mem_iff_getElem?, Option.some.inj]
    have fewer : ∀ tree, tree ∈ walk.reads.eraseIdx (ready walk.turn % walk.reads.length) → tree ∈ walk.reads :=
      fun tree member => List.mem_of_mem_eraseIdx member
    obtain ⟨loaded, ok, run⟩ := bind_eq_ok.mp run
    cases loaded with
    | none =>
      cases run
      refine ⟨started.seenKept, started.namesKept, started.start, started.named, fun tree member => ?_,
        started.stackReach, fun tree member => started.readsReach tree (fewer tree member), started.seenReach,
        started.names⟩
      rcases started.read tree member with reading | read
      · rcases others tree reading with rfl | later
        · exact .inr ⟨none, ok, nofun⟩
        · exact .inl later
      · exact .inr read
    | some dirtree =>
      cases run
      have pushed : ∀ sub, sub ∈ dirtree.dirs.foldl (fun stack entry => entry.2.1 :: stack) walk.stack ↔
          sub ∈ walk.stack ∨ ∃ entry ∈ dirtree.dirs, sub = entry.2.1 :=
        mem_pushAll (fun entry : String × Checksum × Checksum => entry.2.1) dirtree.dirs walk.stack
      refine ⟨started.seenKept, fun name member => mem_addDirtree.mpr (.inl (started.namesKept member)),
        started.start.imp_right fun inside => (pushed _).mpr (.inl inside),
        fun tree member => mem_addDirtree.mpr (.inl (started.named tree member)), fun tree member => ?_,
        fun tree member => ?_, fun tree member => started.readsReach tree (fewer tree member), started.seenReach,
        fun name member => ?_⟩
      · rcases started.read tree member with reading | read
        · rcases others tree reading with rfl | later
          · refine .inr ⟨some dirtree, ok, ?_⟩
            rintro _ ⟨⟩
            exact ⟨fun name given => mem_addDirtree.mpr (.inr given),
              fun entry member => .inr ((pushed _).mpr (.inr ⟨entry, member, rfl⟩))⟩
          · exact .inl later
        · exact .inr (read.imp (fun name inside => mem_addDirtree.mpr (.inl inside))
            fun sub inside => inside.imp_right fun inside => (pushed _).mpr (.inl inside))
      · rcases (pushed _).mp member with inside | ⟨entry, inside, rfl⟩
        · exact started.stackReach tree inside
        · exact below.tail ⟨dirtree, ok, entry, inside, rfl⟩
      · rcases mem_addDirtree.mp member with inside | given
        · exact started.names name inside
        · exact .inr ⟨checksum, below, .inr ⟨dirtree, ok, given⟩⟩

section

variable (closed : TreeClosed store seen reachable)

include closed

/-- A walk begins with a closed set of dirtrees. -/
theorem TreeClosed.begin (root : Checksum) :
    TreeInv store root seen reachable ⟨[root], [], 0, seen, reachable⟩ where
  seenKept := Finset.Subset.refl _
  namesKept := Finset.Subset.refl _
  start := .inr (.head _)
  named tree member := (closed tree member).1
  read tree member := .inr ((closed tree member).2.imp (fun _ inside => inside) fun _ inside => .inl inside)
  stackReach tree member := by
    cases List.mem_singleton.mp member
    exact .refl
  readsReach := by simp
  seenReach _ member := .inl member
  names _ member := .inl member

/-- **`walk_tree` adds exactly the names that the tree reaches.** -/
theorem walkTree_spec (run : walkTree store ready fuel root seen reachable = some (.ok walk)) :
    TreeClosed store walk.seen walk.reachable ∧ root ∈ walk.seen ∧ seen ⊆ walk.seen ∧
      ∀ name, name ∈ walk.reachable ↔ name ∈ reachable ∨ TreeName store root name := by
  obtain ⟨inv, ended⟩ := Search.loop_invariant
    (fun state next inv _ step => TreeInv.treeRound inv (Option.some.inj step)) (closed.begin root) run
  obtain ⟨noStack, noReads⟩ : walk.stack = [] ∧ walk.reads = [] := by simpa [TreeWalk.done] using ended
  have closedAfter : TreeClosed store walk.seen walk.reachable := by
    intro tree member
    refine ⟨inv.named tree member, ?_⟩
    rcases inv.read tree member with reading | read
    · rw [noReads] at reading
      cases reading
    · refine read.imp (fun _ inside => inside) fun sub inside => ?_
      simpa [noStack] using inside
  have start : root ∈ walk.seen := by simpa [noStack] using inv.start
  exact ⟨closedAfter, start, inv.seenKept, fun name => ⟨inv.names name, fun given =>
    given.elim (fun inside => inv.namesKept inside) fun given => closedAfter.names start given⟩⟩

/-- It fails only where a read fails. -/
theorem walkTree_succeeds
    (loads : ∀ tree, TreeReach store root tree → ∃ loaded, store.tryLoadDirtree tree = .ok loaded)
    (run : walkTree store ready fuel root seen reachable = some result) :
    ∃ walk, result = .ok walk := by
  refine Search.loop_succeeds (fun state inv _ result step => ?_) (closed.begin root) run
  cases step
  have started : TreeInv store root seen reachable (startReads (max store.maxReads 1) state state.stack) :=
    TreeInv.startReads (by cases state; exact inv)
  obtain ⟨next, made⟩ : ∃ next, treeRound store ready state = .ok next := by
    unfold treeRound
    dsimp only
    split
    · exact ⟨_, rfl⟩
    · next checksum taken =>
      obtain ⟨loaded, ok⟩ := loads checksum (started.readsReach checksum (List.mem_of_getElem? taken))
      rw [ok]
      cases loaded <;> exact ⟨_, rfl⟩
  exact ⟨next, made, inv.treeRound made⟩

end

/-! ### The walk returns -/

noncomputable instance fintype_checksum : Fintype Checksum := Fintype.ofFinite _

/-- What each turn lowers: the dirtrees that were not seen, the reads in flight, and whether the
stack holds anything. -/
noncomputable def TreeWalk.left (walk : TreeWalk) : Nat :=
  2 * (2 * walk.seenᶜ.card + walk.reads.length) + if walk.stack = [] then 0 else 1

theorem card_compl_insert {α : Type} [Fintype α] [DecidableEq α] {seen : Finset α} {a : α}
    (fresh : a ∉ seen) : (insert a seen)ᶜ.card + 1 = seenᶜ.card := by
  rw [Finset.compl_insert]
  exact Finset.card_erase_add_one (Finset.mem_compl.mpr fresh)

/-- The inner loop raises nothing, and stops with a read in flight or an empty stack. -/
theorem startReads_left (limit : Nat) (room : 0 < limit) (walk : TreeWalk) (stack : List Checksum) :
    2 * (startReads limit walk stack).seenᶜ.card + (startReads limit walk stack).reads.length ≤
        2 * walk.seenᶜ.card + walk.reads.length ∧
      walk.reads.length ≤ (startReads limit walk stack).reads.length ∧
      ((startReads limit walk stack).reads = [] → (startReads limit walk stack).stack = []) := by
  induction stack generalizing walk with
  | nil => exact ⟨le_refl _, le_refl _, fun _ => rfl⟩
  | cons checksum stack ih =>
    unfold startReads
    split
    · grind [card_compl_insert, List.length_append, List.length_singleton]
    · grind

theorem treeRound_left (going : walk.done = false)
    (run : treeRound store ready walk = .ok next) : next.left < walk.left := by
  obtain ⟨less, grows, stops⟩ := startReads_left (max store.maxReads 1) (by omega) walk walk.stack
  unfold Repo.treeRound at run
  generalize Repo.startReads (max store.maxReads 1) walk walk.stack = middle at less grows stops run
  dsimp only at run
  unfold TreeWalk.left
  split at run
  · next missing =>
    have noReads : middle.reads = [] := by
      by_contra some
      have bound := Nat.mod_lt (ready middle.turn) (List.length_pos_iff.mpr some)
      rw [List.getElem?_eq_none_iff] at missing
      omega
    have same : next = middle := by simpa using run.symm
    -- no read was in flight, so the walk had a stack, and now has none
    have stack : walk.stack ≠ [] := by
      intro noStack
      rw [noReads] at grows
      simp [TreeWalk.done, noStack, List.length_eq_zero_iff.mp (Nat.le_zero.mp grows)] at going
    rw [same, stops noReads, if_pos rfl, if_neg stack]
    omega
  · next checksum taken =>
    have inside : ready middle.turn % middle.reads.length < middle.reads.length :=
      (List.getElem?_eq_some_iff.mp taken).1
    have erased := List.length_eraseIdx_of_lt inside
    obtain ⟨loaded, -, run⟩ := bind_eq_ok.mp run
    have kept : next.seen = middle.seen ∧
        next.reads = middle.reads.eraseIdx (ready middle.turn % middle.reads.length) := by
      cases loaded <;> cases run <;> exact ⟨rfl, rfl⟩
    have nextStacked : (if next.stack = [] then 0 else 1) ≤ 1 := by split <;> omega
    rw [kept.1, kept.2, erased]
    omega

/-- **`walk_tree` returns**, however the trees share subtrees. -/
theorem walkTree_returns (ready : Nat → Nat) (root : Checksum) (seen : Finset Checksum)
    (reachable : Finset ObjectName) {fuel : Nat} (enough : 4 * Fintype.card Checksum + 1 < fuel) :
    ∃ result, walkTree store ready fuel root seen reachable = some result := by
  refine @Search.loop_returns _ _ _ _ (fun _ => True) _ _ TreeWalk.left
    (fun state _ going => ⟨_, rfl, fun next step => ?_⟩) trivial ?_
  · exact ⟨trivial, treeRound_left going step⟩
  · have most : seenᶜ.card ≤ Fintype.card Checksum := Finset.card_le_univ _
    simp only [TreeWalk.left, List.length_nil, Nat.add_zero]
    split <;> omega

end Ostrya.Repo
