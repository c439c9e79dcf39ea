/-
**The completeness walk of a push** (`receive/walk.rs`).

The walk reads each dirtree that the roots reach and probes each other object, every object once. Its round takes one
dirtree off a stack and probes the objects that wait. `completeness_spec` says what it finds: the absent ones among the
objects that the roots reach through the dirtrees that are there, each once. `completeness_returns` says that it ends,
whatever the dirtrees share.
-/

import Ostrya.Receive.Session
import Ostrya.Search.Loop

namespace Ostrya.Receive

open ByteFormat Gvariant Ostrya.Core Repo Delta

/-! ### The walk -/

/-- `Walk`; the stack has its top first. -/
structure Walk where
  seen : Finset ObjectName
  trees : List Checksum
  probes : List ObjectName
  missing : Missing

variable (session : Session)

/-- `Walk::visit`. -/
def visit (walk : Walk) (name : ObjectName) : Walk :=
  if name ∈ walk.seen then walk
  else
    let walk := { walk with seen := insert name walk.seen }
    if name.ty = .dirTree then { walk with trees := name.checksum :: walk.trees }
    else if session.isStaged name.checksum name.ty then walk
    else { walk with probes := walk.probes ++ [name] }

/-- The objects of a dirtree, in the order in which the walk visits them. -/
def objectsOf (dirtree : DirTree) : List ObjectName :=
  dirtree.files.map (fun file => ⟨file.2, .file⟩) ++
    dirtree.dirs.flatMap fun dir => [⟨dir.2.2, .dirMeta⟩, ⟨dir.2.1, .dirTree⟩]

/-- The read of one dirtree: nothing for a stored one that is not there. -/
def readTree (checksum : Checksum) : Except Fault (Option (Except Core.Error DirTree)) :=
  if session.isStaged checksum .dirTree then
    (session.readStaged ⟨checksum, .dirTree⟩).map fun bytes => some (DirTree.parse bytes)
  else (session.objects.read ⟨checksum, .dirTree⟩).map fun bytes => bytes.map DirTree.parse

/-- The failure of a dirtree that does not parse. -/
def treeFailure (checksum : Checksum) (fault : Core.Error) : Failure :=
  let message := "dirtree " ++ toHex checksum ++ " does not parse: " ++ coreText fault
  if session.isStaged checksum .dirTree then protocol message else .internal (.invalidFormat message)

/-- The probed objects that are not there. -/
def addAbsent (missing : Missing) (probed : List (ObjectName × Bool)) : Missing :=
  probed.foldl (fun missing probe => if probe.2 then missing else missing.add probe.1) missing

/-- The end of a round, after its read. -/
def settleTree (walk : Walk) (checksum : Checksum) : Option (Except Core.Error DirTree) → Except Failure Walk
  | none => .ok { walk with missing := walk.missing.add ⟨checksum, .dirTree⟩ }
  | some (.error fault) => .error (treeFailure session checksum fault)
  | some (.ok dirtree) => .ok ((objectsOf dirtree).foldl (visit session) walk)

/-- One round of `Walk::run`. -/
def walkRound (walk : Walk) : Except Failure Walk :=
  match walk.probes.mapM session.objects.has with
  | .error fault => .error (.internal fault)
  | .ok present =>
    let missing := addAbsent walk.missing (walk.probes.zip present)
    match walk.trees with
    | [] => .ok { walk with probes := [], missing }
    | checksum :: trees =>
      match readTree session checksum with
      | .error fault => .error (.internal fault)
      | .ok read => settleTree session { walk with trees, probes := [], missing } checksum read

def Walk.done (walk : Walk) : Bool := walk.trees.isEmpty && walk.probes.isEmpty

/-- The names of roots, in the order in which the walk visits them. A root is a dirtree and a
dirmeta. -/
def rootNames (roots : List (Checksum × Checksum)) : List ObjectName :=
  roots.flatMap fun root => [⟨root.2, .dirMeta⟩, ⟨root.1, .dirTree⟩]

/-- The walk with the roots visited. -/
def startWalk (roots : List (Checksum × Checksum)) : Walk :=
  (rootNames roots).foldl (visit session) ⟨∅, [], [], .empty⟩

/-- `completeness`. -/
def completeness (fuel : Nat) (roots : List (Checksum × Checksum)) : Option (Except Failure Missing) :=
  (Search.loop Walk.done (fun walk => some (walkRound session walk)) fuel (startWalk session roots)).map
    fun result => result.map Walk.missing

/-! ### What the roots reach -/

/-- The dirtree that the extended store holds. -/
def TreeAt (checksum : Checksum) (dirtree : DirTree) : Prop :=
  ∃ bytes, session.bytesOf ⟨checksum, .dirTree⟩ = some bytes ∧ DirTree.parse bytes = .ok dirtree

/-- The objects that the roots reach through the dirtrees of the extended store. -/
inductive Reached (roots : List (Checksum × Checksum)) : ObjectName → Prop where
  | rootMeta (member : root ∈ roots) : Reached roots ⟨root.2, .dirMeta⟩
  | rootTree (member : root ∈ roots) : Reached roots ⟨root.1, .dirTree⟩
  | child (parent : Reached roots ⟨checksum, .dirTree⟩)
      (tree : TreeAt session checksum dirtree) (member : name ∈ objectsOf dirtree) : Reached roots name

/-! ### One visit -/

variable {session}

variable {absent hand : List ObjectName} {walk next : Walk} {name : ObjectName} {roots : List (Checksum × Checksum)}

/-- What waits for a read or a probe. -/
def Waits (walk : Walk) (name : ObjectName) : Prop :=
  (name.ty = .dirTree ∧ name.checksum ∈ walk.trees) ∨ name ∈ walk.probes

/-- What the walk has done with an object: it is there or counted, and the objects of a dirtree are
visited. -/
def Settled (session : Session) (absent : List ObjectName) (walk : Walk) (name : ObjectName) : Prop :=
  (session.Present name ∨ name ∈ absent) ∧
    ∀ dirtree, name.ty = .dirTree → TreeAt session name.checksum dirtree →
      ∀ child ∈ objectsOf dirtree, child ∈ walk.seen

/-- **The invariant of the walk.** `absent` is what it counted, and `hand` what it has at hand. -/
structure WalkInv (session : Session) (roots : List (Checksum × Checksum))
    (hand absent : List ObjectName) (walk : Walk) :
    Prop where
  lists : walk.missing.Lists absent
  distinct : absent.Nodup
  counted : ∀ name ∈ absent, name ∈ walk.seen ∧ ¬ session.Present name
  reached : ∀ name ∈ walk.seen, Reached session roots name
  trees : ∀ checksum ∈ walk.trees, ⟨checksum, .dirTree⟩ ∈ walk.seen ∧ ⟨checksum, .dirTree⟩ ∉ absent
  treesDistinct : walk.trees.Nodup
  probes : ∀ name ∈ walk.probes, name ∈ walk.seen ∧ name ∉ absent ∧ name ∉ session.staged ∧ name.ty ≠ .dirTree
  probesDistinct : walk.probes.Nodup
  seen : ∀ name ∈ walk.seen, name ∈ hand ∨ Waits walk name ∨ Settled session absent walk name

theorem seen_visit (walk : Walk) (name : ObjectName) : (visit session walk name).seen = insert name walk.seen := by
  unfold visit
  split_ifs with before tree staged
  · rw [Finset.insert_eq_of_mem before]
  all_goals rfl

theorem Settled.mono
    (settled : Settled session absent walk name) (grows : walk.seen ⊆ next.seen) : Settled session absent next name :=
  ⟨settled.1, fun dirtree isTree tree child member => grows (settled.2 dirtree isTree tree child member)⟩

/-- **A visit of a reached object keeps the invariant.** -/
theorem WalkInv.visit (inv : WalkInv session roots hand absent walk) (reached : Reached session roots name) :
    WalkInv session roots hand absent (visit session walk name) := by
  by_cases before : name ∈ walk.seen
  · rw [Receive.visit, if_pos before]
    exact inv
  have fresh : name ∉ absent := fun member => before (inv.counted name member).1
  have grows : walk.seen ⊆ insert name walk.seen := Finset.subset_insert _ _
  have counted := fun other member => (inv.counted other member).imp_left (@grows other)
  have trees := fun other member => (inv.trees other member).imp_left (@grows _)
  have probes := fun other member => (inv.probes other member).imp_left (@grows other)
  have all : ∀ other ∈ insert name walk.seen, Reached session roots other :=
    (Finset.forall_mem_insert _ _ _).mpr ⟨reached, inv.reached⟩
  have seen : ∀ {next : Walk}, next.seen = insert name walk.seen → (∀ other, Waits walk other → Waits next other) →
      Waits next name ∨ Settled session absent next name →
      ∀ other ∈ insert name walk.seen, other ∈ hand ∨ Waits next other ∨ Settled session absent next other := by
    intro next same waits here other member
    rcases Finset.mem_insert.mp member with rfl | old
    · exact .inr here
    · exact (inv.seen other old).imp id fun rest => rest.imp (waits other) fun settled => settled.mono (same ▸ grows)
  rw [Receive.visit, if_neg before]
  split_ifs with tree staged
  · -- A dirtree waits for its read.
    obtain ⟨checksum, ty⟩ := name
    obtain rfl : ty = .dirTree := tree
    refine ⟨inv.lists, inv.distinct, counted, all, ?_, ?_, probes, inv.probesDistinct,
      seen rfl (fun other => Or.imp_left fun waits => ⟨waits.1, .tail _ waits.2⟩)
        (.inl (.inl ⟨rfl, (.head _)⟩))⟩
    · exact List.forall_mem_cons.mpr ⟨⟨Finset.mem_insert_self _ _, fresh⟩, trees⟩
    · exact List.nodup_cons.mpr ⟨fun member => before (inv.trees checksum member).1, inv.treesDistinct⟩
  · -- A staged object needs no probe.
    refine ⟨inv.lists, inv.distinct, counted, all, trees, inv.treesDistinct, probes, inv.probesDistinct,
      seen rfl (fun _ => id) (.inr ⟨.inl (.inl ?_), fun _ isTree => absurd isTree tree⟩)⟩
    simpa [Session.isStaged] using staged
  · -- Another object waits for its probe.
    refine ⟨inv.lists, inv.distinct, counted, all, trees, inv.treesDistinct, ?_, ?_,
      seen rfl (fun other => Or.imp_right (List.mem_append_left _)) (.inl (.inr (by simp)))⟩
    · intro other member
      rcases List.mem_append.mp member with old | new
      · exact probes other old
      · obtain rfl := List.mem_singleton.mp new
        exact ⟨Finset.mem_insert_self _ _, fresh, by simpa [Session.isStaged] using staged, tree⟩
    · refine List.nodup_append.mpr ⟨inv.probesDistinct, List.nodup_singleton _, ?_⟩
      rintro first old second new rfl
      obtain rfl := List.mem_singleton.mp new
      exact before (inv.probes _ old).1

theorem WalkInv.visits {names : List ObjectName}
    (inv : WalkInv session roots hand absent walk) (reached : ∀ name ∈ names, Reached session roots name) :
    WalkInv session roots hand absent (names.foldl (Receive.visit session) walk) := by
  induction names generalizing walk with
  | nil => exact inv
  | cons name names ih =>
    exact ih (inv.visit (reached name (.head _))) fun other member => reached other (.tail _ member)

theorem seen_visits (names : List ObjectName) (walk : Walk) :
    (names.foldl (visit session) walk).seen = walk.seen ∪ names.toFinset := by
  induction names generalizing walk with
  | nil => simp
  | cons name names ih =>
    rw [List.foldl_cons, ih, seen_visit, List.toFinset_cons, Finset.insert_union, Finset.union_insert]

/-! ### One round -/

/-- The probes of a round count the objects that are not there, in their order. -/
theorem addAbsent_lists {probes : List ObjectName} {present : List Bool}
    (lists : missing.Lists absent) (run : probes.mapM session.objects.has = .ok present) :
    (addAbsent missing (probes.zip present)).Lists
      (absent ++ probes.filter fun name => (session.objects.entry name).isNone) := by
  rw [mapM_eq_ok] at run
  induction run generalizing absent missing with
  | nil => simpa [addAbsent] using lists
  | @cons name here probes rest head _ ih =>
    have same := Disk.has_eq_ok head
    cases here with
    | true =>
      have there : (session.objects.entry name).isNone = false := by
        rw [← Option.not_isSome, same]
        rfl
      rw [List.filter_cons, there]
      exact ih lists
    | false =>
      have gone : (session.objects.entry name).isNone = true := by
        rw [← Option.not_isSome, same]
        rfl
      rw [List.filter_cons, gone]
      have more := ih (lists.add name)
      rwa [List.append_assoc, List.singleton_append] at more

/-- After the probes of a round nothing waits for a probe. -/
theorem WalkInv.probed (inv : WalkInv session roots hand absent walk)
    (run : walk.probes.mapM session.objects.has = .ok present) :
    WalkInv session roots hand (absent ++ walk.probes.filter fun name => (session.objects.entry name).isNone)
      { walk with probes := [], missing := addAbsent walk.missing (walk.probes.zip present) } := by
  have old : ∀ name ∈ walk.probes.filter (fun name => (session.objects.entry name).isNone),
      name ∈ walk.probes ∧ ¬ session.Present name := by
    intro name member
    obtain ⟨probe, gone⟩ := List.mem_filter.mp member
    refine ⟨probe, ?_⟩
    rintro (staged | held)
    · exact (inv.probes name probe).2.2.1 staged
    · simp [Option.isNone_iff_eq_none.mp gone] at held
  refine ⟨addAbsent_lists inv.lists run, ?_, ?_, inv.reached, ?_, inv.treesDistinct, by simp, by simp, ?_⟩
  · refine List.nodup_append.mpr ⟨inv.distinct, inv.probesDistinct.filter _, ?_⟩
    rintro first counted second probe rfl
    exact (inv.probes _ (old _ probe).1).2.1 counted
  · refine List.forall_mem_append.mpr ⟨inv.counted, fun name probe => ?_⟩
    exact ⟨(inv.probes name (old name probe).1).1, (old name probe).2⟩
  · intro checksum waits
    refine ⟨(inv.trees checksum waits).1, fun member => ?_⟩
    rcases List.mem_append.mp member with counted | probe
    · exact (inv.trees checksum waits).2 counted
    · exact (inv.probes _ (old _ probe).1).2.2.2 rfl
  · intro name member
    rcases inv.seen name member with held | (tree | probe) | settled
    · exact .inl held
    · exact .inr (.inl (.inl tree))
    · refine .inr (.inr ⟨?_, fun _ isTree => absurd isTree (inv.probes name probe).2.2.2⟩)
      cases entry : session.objects.entry name with
      | none => exact .inr (List.mem_append_right _ (List.mem_filter.mpr ⟨probe, by rw [entry]; rfl⟩))
      | some bytes => exact .inl (.inr (by rw [entry]; rfl))
    · exact .inr (.inr ⟨settled.1.imp id (List.mem_append_left _), settled.2⟩)

/-- The bytes that the walk reads of a dirtree are those of the extended store. -/
theorem readTree_eq_ok {read : Option (Except Core.Error DirTree)} (run : readTree session checksum = .ok read) :
    (read = none ∧ ¬ session.Present ⟨checksum, .dirTree⟩ ∧ session.bytesOf ⟨checksum, .dirTree⟩ = none) ∨
      ∃ bytes, session.bytesOf ⟨checksum, .dirTree⟩ = some bytes ∧
        session.Present ⟨checksum, .dirTree⟩ ∧ read = some (DirTree.parse bytes) := by
  unfold readTree at run
  split_ifs at run with staged
  · have member : ⟨checksum, .dirTree⟩ ∈ session.staged := by simpa [Session.isStaged] using staged
    cases here : session.readStaged ⟨checksum, .dirTree⟩ with
    | error fault => simp [here, Except.map] at run
    | ok bytes =>
      refine .inr ⟨bytes, ?_, .inl member, by simpa [here, Except.map, eq_comm] using run⟩
      rw [Session.bytesOf, if_pos member]
      exact Session.readStaged_eq_ok here
  · have outside : ⟨checksum, .dirTree⟩ ∉ session.staged := by simpa [Session.isStaged] using staged
    cases here : session.objects.read ⟨checksum, .dirTree⟩ with
    | error fault => simp [here, Except.map] at run
    | ok bytes =>
      have entry := Disk.read_eq_ok here
      rw [here] at run
      cases bytes with
      | none =>
        refine .inl ⟨by simpa [Except.map, eq_comm] using run, ?_, by rw [Session.bytesOf, if_neg outside, entry]⟩
        rintro (member | held)
        · exact outside member
        · simp [entry] at held
      | some bytes =>
        exact .inr ⟨bytes, by rw [Session.bytesOf, if_neg outside, entry], .inr (by rw [entry]; rfl),
          by simpa [Except.map, eq_comm] using run⟩

/-- **One round keeps the invariant.** -/
theorem WalkInv.round (inv : WalkInv session roots [] absent walk) (run : walkRound session walk = .ok next) :
    walk.seen ⊆ next.seen ∧ ∃ absent, WalkInv session roots [] absent next := by
  unfold walkRound at run
  split at run
  · cases run
  next present probed =>
  have settled := inv.probed probed
  split at run
  · next none =>
    cases run
    exact ⟨subset_rfl, _, by simpa [none] using settled⟩
  next checksum trees stack =>
  split at run
  · cases run
  next read readRun =>
  -- The dirtree at hand left the stack.
  have taken : WalkInv session roots [⟨checksum, .dirTree⟩]
      (absent ++ walk.probes.filter fun name => (session.objects.entry name).isNone)
      { walk with trees, probes := [], missing := addAbsent walk.missing (walk.probes.zip present) } := by
    have stackOf : walk.trees = checksum :: trees := stack
    refine ⟨settled.lists, settled.distinct, settled.counted, settled.reached, ?_, ?_, by simp, by simp, ?_⟩
    · intro other member
      exact settled.trees other (by rw [stackOf]; exact .tail _ member)
    · have distinct := settled.treesDistinct
      rw [stackOf] at distinct
      exact (List.nodup_cons.mp distinct).2
    · intro name member
      rcases settled.seen name member with ⟨⟨⟩⟩ | (⟨isTree, waits⟩ | ⟨⟨⟩⟩) | done
      · rw [stackOf] at waits
        rcases List.mem_cons.mp waits with here | waits
        · refine .inl (List.mem_singleton.mpr ?_)
          obtain ⟨_, _⟩ := name
          simp_all
        · exact .inr (.inl (.inl ⟨isTree, waits⟩))
      · exact .inr (.inr done)
  obtain ⟨seenHere, fresh⟩ := settled.trees checksum (by rw [stack]; exact (.head _))
  rcases readTree_eq_ok readRun with ⟨rfl, gone, empty⟩ | ⟨bytes, entry, present, rfl⟩
  · cases run
    refine ⟨subset_rfl, _, ⟨taken.lists.add ⟨checksum, .dirTree⟩, ?_, ?_, taken.reached, ?_,
      taken.treesDistinct, by simp, by simp, ?_⟩⟩
    · refine List.nodup_append.mpr ⟨taken.distinct, List.nodup_singleton _, ?_⟩
      rintro first counted second new rfl
      obtain rfl := List.mem_singleton.mp new
      exact fresh counted
    · intro name member
      rcases List.mem_append.mp member with counted | new
      · exact taken.counted name counted
      · obtain rfl := List.mem_singleton.mp new
        exact ⟨seenHere, gone⟩
    · intro other member
      refine ⟨(taken.trees other member).1, fun counted => ?_⟩
      rcases List.mem_append.mp counted with counted | new
      · exact (taken.trees other member).2 counted
      · grind [Ostrya.Receive.WalkInv.treesDistinct, List.nodup_cons]
    · intro name member
      rcases taken.seen name member with held | waits | done
      · obtain rfl := List.mem_singleton.mp held
        refine .inr (.inr ⟨.inr (List.mem_append_right _ (List.mem_singleton_self _)), ?_⟩)
        rintro dirtree - ⟨bytes, there, -⟩
        rw [empty] at there
        cases there
      · exact .inr (.inl waits)
      · exact .inr (.inr ⟨done.1.imp id (List.mem_append_left _), done.2⟩)
  · cases parsed : DirTree.parse bytes with
    | error fault => simp [parsed, settleTree] at run
    | ok dirtree =>
      rw [parsed] at run
      cases run
      have tree : TreeAt session checksum dirtree := ⟨bytes, entry, parsed⟩
      have visited := taken.visits (show ∀ name ∈ objectsOf dirtree, Reached session roots name from
        fun name member => .child (taken.reached _ seenHere) tree member)
      refine ⟨by rw [seen_visits]; exact Finset.subset_union_left, _, { visited with seen := ?_ }⟩
      intro name member
      rcases visited.seen name member with held | rest
      · obtain rfl := List.mem_singleton.mp held
        refine .inr (.inr ⟨.inl present, ?_⟩)
        rintro other - ⟨bytes', entry', parsed'⟩ child member
        obtain rfl : bytes = bytes' := Option.some.inj (entry.symm.trans entry')
        obtain rfl : dirtree = other := Except.ok.inj (parsed.symm.trans parsed')
        rw [seen_visits]
        exact Finset.mem_union_right _ (List.mem_toFinset.mpr member)
      · exact .inr rest

/-! ### The whole walk -/

theorem reached_of_mem_rootNames (member : name ∈ rootNames roots) :
    Reached session roots name := by
  obtain ⟨root, inside, here⟩ := List.mem_flatMap.mp member
  simp only [List.mem_cons, List.not_mem_nil, or_false] at here
  rcases here with rfl | rfl
  · exact .rootMeta inside
  · exact .rootTree inside

theorem startWalk_inv (roots : List (Checksum × Checksum)) :
    WalkInv session roots [] [] (startWalk session roots) ∧
      ∀ name ∈ rootNames roots, name ∈ (startWalk session roots).seen := by
  have empty : WalkInv session roots [] [] ⟨∅, [], [], .empty⟩ :=
    ⟨Missing.lists_empty, List.nodup_nil, by simp, by simp, by simp, List.nodup_nil, by simp, List.nodup_nil, by simp⟩
  refine ⟨empty.visits fun _ member => reached_of_mem_rootNames member, fun name member => ?_⟩
  rw [startWalk, seen_visits]
  exact Finset.mem_union_right _ (List.mem_toFinset.mpr member)

/-- At the end, every object that the roots reach is settled. -/
theorem WalkInv.settled (inv : WalkInv session roots [] absent walk) (ended : walk.done = true)
    (started : ∀ name ∈ rootNames roots, name ∈ walk.seen) (reached : Reached session roots name) :
    name ∈ walk.seen ∧ Settled session absent walk name := by
  obtain ⟨noTrees, noProbes⟩ : walk.trees = [] ∧ walk.probes = [] := by simpa [Walk.done] using ended
  have done : ∀ {name}, name ∈ walk.seen → name ∈ walk.seen ∧ Settled session absent walk name := by
    intro name member
    rcases inv.seen name member with ⟨⟨⟩⟩ | (⟨-, tree⟩ | probe) | settled
    · rw [noTrees] at tree
      cases tree
    · rw [noProbes] at probe
      cases probe
    · exact ⟨member, settled⟩
  induction reached with
  | rootMeta member | rootTree member => exact done (started _ (List.mem_flatMap.mpr ⟨_, member, by simp⟩))
  | child _ tree member ih => exact done (ih.2.2 _ rfl tree _ member)

/-- **The walk finds the absent objects**: each object that the roots reach through the dirtrees
that are there, and that is neither staged nor stored, once. It counts them all and lists the first
ones. -/
theorem completeness_spec (run : completeness session fuel roots = some (.ok missing)) :
    ∃ absent, missing.Lists absent ∧ absent.Nodup ∧
      ∀ name, name ∈ absent ↔ Reached session roots name ∧ ¬ session.Present name := by
  unfold completeness at run
  cases looped : Search.loop Walk.done (fun walk => some (walkRound session walk)) fuel (startWalk session roots) with
  | none => simp [looped] at run
  | some result =>
    cases result with
    | error fault => simp [looped, Except.map] at run
    | ok last =>
      obtain rfl : last.missing = missing := by simpa [looped, Except.map] using run
      have start := @startWalk_inv session roots
      obtain ⟨⟨started, absent, inv⟩, ended⟩ := @Search.loop_invariant _ _ _ _
        (fun walk => (∀ name ∈ rootNames roots, name ∈ walk.seen) ∧
          ∃ absent, WalkInv session roots [] absent walk) _ _ _
        (by
          rintro state next ⟨started, absent, inv⟩ - round
          obtain ⟨grows, kept⟩ := inv.round (Option.some.inj round)
          exact ⟨fun name member => grows (started name member), kept⟩)
        ⟨start.2, [], start.1⟩ looped
      refine ⟨absent, inv.lists, inv.distinct, fun name => ⟨fun member => ?_, fun ⟨reached, gone⟩ => ?_⟩⟩
      · exact ⟨inv.reached name (inv.counted name member).1, (inv.counted name member).2⟩
      · exact ((inv.settled ended started reached).2.1).resolve_left gone

/-! ### The walk ends -/

instance finite_objectType : Finite ObjectType :=
  Finite.of_injective (fun ty : ObjectType => Fin.ofNat 10 ty.asU32.toNat) (by
    intro first second
    cases first <;> cases second <;> decide)

instance finite_objectName : Finite ObjectName :=
  Finite.of_injective (fun name : ObjectName => (name.checksum, name.ty)) (by
    rintro ⟨first, one⟩ ⟨second, two⟩ same
    simpa using same)

noncomputable instance fintype_objectName : Fintype ObjectName := Fintype.ofFinite _

/-- What a visit does not raise: the objects that were not met, the dirtrees to read and the objects
to probe. -/
noncomputable def Walk.left (walk : Walk) : Nat := walk.seenᶜ.card + walk.trees.length

theorem left_visit (walk : Walk) (name : ObjectName) :
    (visit session walk name).left + (visit session walk name).probes.length ≤ walk.left + walk.probes.length := by
  unfold visit
  split_ifs with before tree staged
  · exact le_rfl
  all_goals
    have one := card_compl_insert before
    simp only [Walk.left, List.length_cons, List.length_append, List.length_nil]
    omega

theorem left_visits (names : List ObjectName) (walk : Walk) :
    (names.foldl (visit session) walk).left + (names.foldl (visit session) walk).probes.length ≤
      walk.left + walk.probes.length := by
  induction names generalizing walk with
  | nil => exact le_rfl
  | cons name names ih => exact (ih _).trans (left_visit walk name)

/-- **Every round of the walk lowers its measure.** -/
theorem left_round (going : walk.done = false) (run : walkRound session walk = .ok next) :
    2 * next.left + next.probes.length < 2 * walk.left + walk.probes.length := by
  unfold walkRound at run
  split at run
  · cases run
  next present probed =>
  split at run
  · next none =>
    cases run
    have some_probe : 0 < walk.probes.length := by
      refine List.length_pos_of_ne_nil fun noProbes => ?_
      simp [Walk.done, none, noProbes] at going
    simp only [Walk.left, List.length_nil]
    omega
  next checksum trees stack =>
  split at run
  · cases run
  next read readRun =>
  have popped : walk.trees.length = trees.length + 1 := by rw [stack, List.length_cons]
  unfold settleTree at run
  split at run
  · cases run
    simp only [Walk.left, List.length_nil]
    omega
  · cases run
  · next dirtree =>
    cases run
    have less := @left_visits session (objectsOf dirtree)
      ⟨walk.seen, trees, [], addAbsent walk.missing (walk.probes.zip present)⟩
    have before : (⟨walk.seen, trees, [], addAbsent walk.missing (walk.probes.zip present)⟩ : Walk).left + 1
        = walk.left := by
      simp only [Walk.left]
      omega
    simp only [List.length_nil] at less
    omega

/-- **The walk ends**, on dirtrees that share subtrees in any way. -/
theorem completeness_returns (roots : List (Checksum × Checksum)) :
    ∃ bound, ∀ fuel, bound < fuel → ∃ result, completeness session fuel roots = some result := by
  refine ⟨2 * (startWalk session roots).left + (startWalk session roots).probes.length, fun fuel enough => ?_⟩
  obtain ⟨result, looped⟩ := @Search.loop_returns _ _ Walk.done (fun walk => some (walkRound session walk))
    (fun _ => True) _ _ (fun walk => 2 * walk.left + walk.probes.length)
    (by
      rintro walk - going
      exact ⟨_, rfl, fun next made => ⟨trivial, left_round going made⟩⟩)
    trivial enough
  exact ⟨_, by rw [completeness, looped]; rfl⟩

end Ostrya.Receive
