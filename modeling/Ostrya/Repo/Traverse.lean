/-
**The reachability walk** (`traverse.rs`).

`collectReachable` pops one arrival at a commit in each round, and keeps for each commit how far it was
expanded. `walkTree` reads up to `max_reads` dirtrees at a time; which read is ready first is not in the
program's hand, so it is a parameter (`ready`). Both are loops without a bound of their own, so they take
fuel and return `none` where it runs out.
-/

import Mathlib.Data.Finset.Insert
import Ostrya.Repo.Related
import Ostrya.Search.Loop

namespace Ostrya.Repo

open ByteFormat Gvariant Ostrya.Core

/-- `ParentBound`. -/
inductive ParentBound where
  | depth (depth : Int)
  | since (since : Nat)
  deriving DecidableEq

/-- `reaches_at_least`. -/
def reachesAtLeast (prev depth : Int) : Bool :=
  if prev < 0 then true
  else if depth < 0 then false
  else decide (prev ≥ depth)

/-- A held depth after a new one: the one that reaches further. -/
def furtherDepth (held : Option Int) (depth : Int) : Option Int :=
  if held.any (reachesAtLeast · depth) then held else some depth

/-- A held time after a new one: the earlier one. -/
def earlierSince (held : Option Nat) (since : Nat) : Option Nat :=
  if held.all (· > since) then some since else held

/-- `WeakBounds`. -/
structure WeakBounds where
  depth : Option Int
  since : Option Nat
  deriving DecidableEq

namespace WeakBounds

/-- `WeakBounds::seeds`. -/
def seeds (bounds : WeakBounds) : List ParentBound :=
  (bounds.depth.map ParentBound.depth).toList ++ (bounds.since.map ParentBound.since).toList

end WeakBounds

/-- `Arrival`. -/
inductive Arrival where
  | root
  | parent
  | timedParent
  deriving DecidableEq

/-- `Arrival::inherited`. -/
def Arrival.inherited (arrival : Arrival) : Bool := arrival ≠ .root

/-- `Read`. -/
inductive Read where
  | unread
  | absent
  | present (parent : Option Checksum) (timestamp : Nat)

/-- `Expanded`. -/
structure Expanded where
  depth : Option Int
  since : Option Nat
  rejectedSince : Option Nat
  read : Read

namespace Expanded

/-- `Expanded::default`. -/
def empty : Expanded := ⟨none, none, none, .unread⟩

/-- `Expanded::expanded`. -/
def expanded (entry : Expanded) : Bool := entry.depth.isSome || entry.since.isSome

/-- `Expanded::covers`. -/
def covers (entry : Expanded) (bound : ParentBound) : Bool :=
  if entry.depth = some (-1) then true
  else
    match bound with
    | .depth depth => if depth = 0 then entry.expanded else entry.depth.any (reachesAtLeast · depth)
    | .since since => entry.since.any (· ≤ since)

/-- `Expanded::rejects`. -/
def rejects (entry : Expanded) : ParentBound → Bool
  | .since since => entry.rejectedSince.any (since ≥ ·)
  | .depth _ => false

/-- `Expanded::record`. -/
def record (entry : Expanded) : ParentBound → Expanded
  | .depth depth => { entry with depth := furtherDepth entry.depth depth }
  | .since since => { entry with since := earlierSince entry.since since }

/-- `Expanded::reject`. -/
def reject (entry : Expanded) (since : Nat) : Expanded :=
  { entry with rejectedSince := earlierSince entry.rejectedSince since }

end Expanded

/-- `GcRoots`. -/
structure GcRoots where
  dependencies : Bool
  buildSources : Bool
  traverseParent : Bool
  traverseTree : Bool
  weakRoots : Checksum → Option WeakBounds

/-! ### The tree of a commit -/

/-- The state of `walk_tree`. `turn` counts the reads that were taken. -/
structure TreeWalk where
  stack : List Checksum
  reads : List Checksum
  turn : Nat
  seen : Finset Checksum
  reachable : Finset ObjectName

/-- The inner loop of `walk_tree`: it starts reads while there is room. -/
def startReads (limit : Nat) (walk : TreeWalk) : List Checksum → TreeWalk
  | [] => { walk with stack := [] }
  | checksum :: stack =>
    if walk.reads.length < limit then
      if checksum ∈ walk.seen then startReads limit walk stack
      else
        startReads limit
          { walk with
            seen := insert checksum walk.seen
            reachable := insert ⟨checksum, .dirTree⟩ walk.reachable
            reads := walk.reads ++ [checksum] } stack
    else { walk with stack := checksum :: stack }

/-- The names of one dirtree. -/
def addDirtree (dirtree : DirTree) (reachable : Finset ObjectName) : Finset ObjectName :=
  dirtree.dirs.foldl (fun names entry => insert ⟨entry.2.2, .dirMeta⟩ names)
    (dirtree.files.foldl (fun names entry => insert ⟨entry.2, .file⟩ names) reachable)

/-- One turn of the outer loop of `walk_tree`: it takes the read that is ready. -/
def treeRound (store : MetadataSource) (ready : Nat → Nat) (walk : TreeWalk) : Except Error TreeWalk :=
  let walk := startReads (max store.maxReads 1) walk walk.stack
  let index := ready walk.turn % walk.reads.length
  match walk.reads[index]? with
  | none => .ok walk
  | some checksum => do
    let walk := { walk with reads := walk.reads.eraseIdx index, turn := walk.turn + 1 }
    match ← store.tryLoadDirtree checksum with
    | none => .ok walk
    | some dirtree =>
      .ok { walk with
        stack := dirtree.dirs.foldl (fun stack entry => entry.2.1 :: stack) walk.stack
        reachable := addDirtree dirtree walk.reachable }

def TreeWalk.done (walk : TreeWalk) : Bool := walk.stack.isEmpty && walk.reads.isEmpty

/-- `walk_tree`. -/
def walkTree (store : MetadataSource) (ready : Nat → Nat) (fuel : Nat) (rootDirtree : Checksum)
    (seen : Finset Checksum) (reachable : Finset ObjectName) : Option (Except Error TreeWalk) :=
  Search.loop TreeWalk.done (fun walk => some (treeRound store ready walk)) fuel
    ⟨[rootDirtree], [], 0, seen, reachable⟩

/-! ### The commits -/

/-- An entry of `commit_stack`. -/
structure Visit where
  commit : Checksum
  bound : ParentBound
  arrival : Arrival
  deriving DecidableEq

/-- The state of `collect_reachable`. The head of `stack` is its top. -/
structure Walk where
  stack : List Visit
  seenCommits : Checksum → Expanded
  seenDirtrees : Finset Checksum
  weakSeeded : Finset Checksum
  seeded : Finset Checksum
  edgesRead : Finset Checksum
  reachable : Finset ObjectName
  warnings : List RelatedWarning

/-- The arguments of `collect_reachable`. `ready` says, for the tree of each commit, which read is
ready first. -/
structure WalkArgs where
  store : MetadataSource
  rootBound : ParentBound
  gc : GcRoots
  boundedRoots : Finset Checksum
  pendingDelete : Option Checksum
  ready : Checksum → Nat → Nat

/-- `push_parent`: the arrival at the parent, if the bound leaves one. -/
def parentVisit (parent : Checksum) : ParentBound → Option Visit
  | .depth depth =>
    if depth = 0 then none
    else some ⟨parent, .depth (if depth < 0 then -1 else depth - 1), .parent⟩
  | .since since => some ⟨parent, .since since, .timedParent⟩

/-- The timestamp that the walk knows of a commit is below the bound of a conditional arrival. -/
def tooOld (arrival : Arrival) (bound : ParentBound) (timestamp : Nat) : Option Nat :=
  match arrival, bound with
  | .timedParent, .since since => if timestamp < since then some since else none
  | _, _ => none

namespace WalkArgs

variable (args : WalkArgs)

/-- A commit as the walk loads it. The build sources come along where the arrival cannot be
rejected. -/
def loadCommit (visit : Visit) (edgesRead : Finset Checksum) :
    Except Error (Option Commit × Option (Except String (Option (List RelatedEntry)))) :=
  if args.pendingDelete = some visit.commit then .ok (none, none)
  else if args.gc.buildSources ∧ visit.arrival ≠ .timedParent ∧ visit.commit ∉ edgesRead then do
    match ← args.store.loadCommitWithBuildSourceDict visit.commit with
    | some (bytes, detached) => do
      let commit ← (Commit.parse bytes).mapError .core
      .ok (some commit, some (buildSources detached))
    | none => .ok (none, none)
  else do
    let commit ← args.store.tryLoadCommit visit.commit
    .ok (commit, none)

/-- The seeds of a weak root, at its first arrival. -/
def seedWeak (commit : Checksum) (walk : Walk) : Walk :=
  match args.gc.weakRoots commit with
  | some bounds =>
    if commit ∈ walk.weakSeeded then walk
    else
      { walk with
        weakSeeded := insert commit walk.weakSeeded
        stack := bounds.seeds.foldl (fun stack bound => ⟨commit, bound, .root⟩ :: stack) walk.stack }
  | none => walk

/-- The `push` closure of the related edges, for each target in turn. -/
def pushRelated (targets : List Checksum) (walk : Walk) : Walk :=
  targets.foldl (fun walk target =>
    if target ∈ walk.seeded then walk
    else
      { walk with
        seeded := insert target walk.seeded
        stack := ⟨target, args.rootBound, .root⟩ :: walk.stack }) walk

/-- The push of the parent. -/
def pushParent (parent : Option Checksum) (bound : ParentBound) (walk : Walk) : Walk :=
  match parent with
  | some parent =>
    if args.gc.traverseParent then { walk with stack := (parentVisit parent bound).toList ++ walk.stack } else walk
  | none => walk

/-- The warnings of one field of one commit. -/
def warn (commit : Checksum) (field : RelatedField) (defects : List String) (walk : Walk) : Walk :=
  { walk with warnings := walk.warnings ++ defects.map fun reason => ⟨commit, field, reason⟩ }

/-- The build sources of a commit, its targets and its defects. -/
def sourcesOf (commit : Checksum) (prefetched : Option (Except String (Option (List RelatedEntry)))) :
    Except Error (List Checksum × List String) := do
  let sources ← match prefetched with
    | some sources => Except.ok sources
    | none => (args.store.loadBuildSourceDict commit).map buildSources
  match sources with
  | .ok entries => .ok (splitEntries (entries.getD []))
  | .error reason => .ok ([], [reason])

/-- The edges of a commit other than `parent`, at its first expansion. -/
def readEdges (checksum : Checksum) (commit : Commit)
    (prefetched : Option (Except String (Option (List RelatedEntry)))) (walk : Walk) : Except Error Walk :=
  if (args.gc.dependencies || args.gc.buildSources) ∧ checksum ∉ walk.edgesRead then do
    let walk := { walk with edgesRead := insert checksum walk.edgesRead }
    let walk :=
      if args.gc.dependencies then
        let (targets, defects) := splitEntries (entriesOf commit.related)
        args.pushRelated targets (warn checksum .dependencies defects walk)
      else walk
    if args.gc.buildSources then do
      let (targets, defects) ← args.sourcesOf checksum prefetched
      .ok (args.pushRelated targets (warn checksum .buildSources defects walk))
    else .ok walk
  else .ok walk

/-- The entry of a commit after a change. -/
def setSeen (commit : Checksum) (entry : Expanded) (walk : Walk) : Walk :=
  { walk with seenCommits := Function.update walk.seenCommits commit entry }

/-- What `Read` keeps of a commit. -/
def readOf : Option Commit → Read
  | some commit => .present commit.parent commit.timestamp.toNat
  | none => .absent

/-- The first expansion of a commit, after its load. -/
def expand (treeFuel : Nat) (visit : Visit) (commit : Option Commit)
    (prefetched : Option (Except String (Option (List RelatedEntry)))) (walk : Walk) : Option (Except Error Walk) :=
  let entry := { walk.seenCommits visit.commit with read := readOf commit }
  match commit.bind fun commit => tooOld visit.arrival visit.bound commit.timestamp.toNat with
  | some since => some (.ok (setSeen visit.commit (entry.reject since) walk))
  | none =>
    let walk := setSeen visit.commit (entry.record visit.bound) walk
    let walk := { walk with reachable := insert ⟨visit.commit, .commit⟩ walk.reachable }
    match commit with
    | none => some (.ok walk)
    | some commit =>
      let finish (walk : Walk) : Except Error Walk := do
        let walk ← args.readEdges visit.commit commit prefetched walk
        .ok (args.pushParent commit.parent visit.bound walk)
      if args.gc.traverseTree then
        match walkTree args.store (args.ready visit.commit) treeFuel commit.rootDirtree walk.seenDirtrees
            (insert ⟨commit.rootDirmeta, .dirMeta⟩ walk.reachable) with
        | none => none
        | some (.error fault) => some (.error fault)
        | some (.ok tree) => some (finish { walk with seenDirtrees := tree.seen, reachable := tree.reachable })
      else some (finish walk)

/-- The rest of a round, for an arrival that is not dropped. -/
def arrive (treeFuel : Nat) (visit : Visit) (walk : Walk) : Option (Except Error Walk) :=
  let seen := walk.seenCommits visit.commit
  if seen.covers visit.bound then some (.ok walk)
  else if visit.arrival = .timedParent ∧ seen.rejects visit.bound then some (.ok walk)
  else
    let old := match seen.read with
      | .present _ timestamp => tooOld visit.arrival visit.bound timestamp
      | _ => none
    match old with
    | some since => some (.ok (setSeen visit.commit (seen.reject since) walk))
    | none =>
      if seen.expanded then
        let walk := setSeen visit.commit (seen.record visit.bound) walk
        match seen.read with
        | .present parent _ => some (.ok (args.pushParent parent visit.bound walk))
        | _ => some (.ok walk)
      else
        match args.loadCommit visit walk.edgesRead with
        | .error fault => some (.error fault)
        | .ok (commit, prefetched) => args.expand treeFuel visit commit prefetched walk

/-- A commit with bounds of its own. -/
def bounded (commit : Checksum) : Bool := commit ∈ args.boundedRoots || (args.gc.weakRoots commit).isSome

/-- One round of the loop, after the pop of `visit`. -/
def round (treeFuel : Nat) (walk : Walk) : Option (Except Error Walk) :=
  match walk.stack with
  | [] => some (.ok walk)
  | visit :: stack =>
    let walk := args.seedWeak visit.commit { walk with stack := stack }
    if visit.arrival.inherited && args.bounded visit.commit then some (.ok walk)
    else args.arrive treeFuel visit walk

/-- `collect_reachable`. -/
def collectReachable (fuel : Nat) (seeds : List (Checksum × ParentBound)) : Option (Except Error Walk) :=
  Search.loop (fun walk => walk.stack.isEmpty) (args.round fuel) fuel
    ⟨(seeds.map fun seed => ⟨seed.1, seed.2, .root⟩).reverse, fun _ => .empty, ∅, ∅, ∅, ∅, ∅, []⟩

end WalkArgs

end Ostrya.Repo
