/-
**The end of a push session** (`finish` of `receive/finish.rs`, for a `Commit` with no server commit).

The checks of the session run before anything is queued in its transaction: the names, the rules of the policy, the
commits, their trees and dependencies, then, under the update lock, the state of each ref. `Run` is
a computation that can
fail and that sees the transaction, so that a failure leaves in view what was queued before it.

`finish_acts` says that a session that queues anything, or reaches its publication, passed every check. What this means
for the refs is `push_keeps_ref_rules`, and for the commits `push_publishes_complete_commits`.
-/

import Ostrya.Receive.Walk
import Ostrya.Receive.Commits
import Ostrya.Receive.Refs

namespace Ostrya.Receive

open ByteFormat Gvariant Ostrya.Core Repo Delta Remote

/-! ### The transaction -/

/-- What a session did to its transaction: the edits of detached metadata and the ref writes that it
queued, and whether it went on to the publication. -/
structure Txn (Edit : Type) where
  edits : List Edit
  refs : List (String × Option Checksum)
  published : Bool

def Txn.start {Edit : Type} : Txn Edit := ⟨[], [], false⟩

/-- A step of a session: nothing while it has not ended, else a result or a failure, and the
transaction after it. -/
def Run (Edit α : Type) : Type := Txn Edit → Option (Except Failure α × Txn Edit)

namespace Run

variable {Edit α β : Type}

def andThen (step : Run Edit α) (next : α → Run Edit β) : Run Edit β := fun txn =>
  match step txn with
  | none => none
  | some (.error failure, after) => some (.error failure, after)
  | some (.ok value, after) => next value after

instance : Monad (Run Edit) where
  pure value := fun txn => some (.ok value, txn)
  bind := andThen

/-- A check that may not have ended. It does not touch the transaction. -/
def wait (result : Option (Except Failure α)) : Run Edit α := fun txn => result.map (·, txn)

/-- A check. -/
def check (result : Except Failure α) : Run Edit α := wait (some result)

/-- A change of the transaction. -/
def change (f : Txn Edit → Txn Edit) : Run Edit Unit := fun txn => some (.ok (), f txn)

theorem bind_eq (step : Run Edit α) (next : α → Run Edit β) (txn : Txn Edit) :
    (step >>= next) txn = match step txn with
      | none => none
      | some (.error failure, after) => some (.error failure, after)
      | some (.ok value, after) => next value after := rfl

theorem bind_eq_some {step : Run Edit α} (run : (step >>= next) txn = some (final, after)) :
    (∃ failure, step txn = some (.error failure, after) ∧ final = .error failure) ∨
      ∃ value middle, step txn = some (.ok value, middle) ∧ next value middle = some (final, after) := by
  rw [bind_eq] at run
  split at run
  · cases run
  · next failure _ found =>
    cases run
    exact .inl ⟨failure, found, rfl⟩
  · next value middle found => exact .inr ⟨value, middle, found, run⟩

/-- A run that changes the transaction passed the check that it starts with. -/
theorem wait_bind (run : (wait result >>= next) txn = some (final, after)) (changed : after ≠ txn) :
    ∃ value, result = some (.ok value) ∧ next value txn = some (final, after) := by
  obtain ⟨failure, stopped, -⟩ | ⟨value, middle, found, rest⟩ := bind_eq_some run
  · obtain ⟨_, -, pair⟩ := Option.map_eq_some_iff.mp stopped
    exact absurd (Prod.mk.inj pair).2.symm changed
  · obtain ⟨_, passed, pair⟩ := Option.map_eq_some_iff.mp found
    obtain ⟨rfl, rfl⟩ := Prod.mk.inj pair
    exact ⟨value, passed, rest⟩

theorem check_bind (run : (check result >>= next) txn = some (final, after)) (changed : after ≠ txn) :
    ∃ value, result = .ok value ∧ next value txn = some (final, after) := by
  obtain ⟨value, passed, rest⟩ := wait_bind run changed
  exact ⟨value, Option.some.inj passed, rest⟩

theorem check_ok_bind (passed : result = .ok value) (next : α → Run Edit β)
    (txn : Txn Edit) : (check result >>= next) txn = next value txn := by
  rw [passed]
  rfl

/-- Every end of a run that is not a failure lies behind the publication. -/
def Ends (step : Run Edit α) : Prop :=
  ∀ txn result after, step txn = some (result, after) → (∃ failure, result = .error failure) ∨ after.published = true

variable {step : Run Edit α}

theorem ends_bind (each : ∀ value, Ends (next value)) :
    Ends (step >>= next) := by
  intro txn result after run
  obtain ⟨failure, -, rfl⟩ | ⟨value, middle, -, rest⟩ := bind_eq_some run
  · exact .inl ⟨failure, rfl⟩
  · exact each value middle result after rest

/-- Once the publication is reached, it stays reached. -/
def Keeps (step : Run Edit α) : Prop :=
  ∀ txn result after, step txn = some (result, after) → txn.published = true → after.published = true

theorem keeps_bind (first : Keeps step) (rest : ∀ value, Keeps (next value)) :
    Keeps (step >>= next) := by
  intro txn result after run reached
  obtain ⟨failure, found, -⟩ | ⟨value, middle, found, run⟩ := bind_eq_some run
  · exact first txn _ after found reached
  · exact rest value middle result after run (first txn _ middle found reached)

theorem keeps_of_unchanged (same : ∀ txn result after, step txn = some (result, after) → after = txn) :
    Keeps step := fun txn result after run reached => by rwa [same txn result after run]

theorem keeps_check (result : Except Failure α) : Keeps (check result : Run Edit α) :=
  keeps_of_unchanged fun txn final after run => by simpa [check, wait] using (congrArg (Option.map Prod.snd) run).symm

theorem ends_change {f : Txn Edit → Txn Edit} (reached : ∀ txn, (f txn).published = true)
    (rest : Keeps (next ())) : Ends (change f >>= next) :=
  fun txn result after run => .inr (rest (f txn) result after run (reached txn))

end Run

/-! ### The checks before the commits are read -/

/-- `Named`: the refs of `Hello` with their paths, and the collection of the session, if it is
one. -/
structure Named where
  collection : Option String
  names : List String
  paths : List String

/-- The path of a ref of `Hello`. The map of the source keeps the last path of a name. -/
def Named.path (named : Named) (name : String) : Option String := (named.names.zip named.paths).reverse.lookup name

/-- `is_checksum_shaped`. -/
def isChecksumShaped (name : String) : Bool :=
  name.toList.length = 64 && name.toList.all fun char => char.isDigit || ('a' ≤ char && char ≤ 'f')

def invalidRef (name : String) : Failure := .wire (.invalidRef ("invalid ref name '" ++ name ++ "'"))

/-- The path of each update; `seen` holds the names before it. -/
def updatePaths (named : Named) : List RefUpdate → List String → Except Failure (List String)
  | [], _ => .ok []
  | update :: updates, seen =>
    match named.path update.name with
    | none => .error (protocol ("ref '" ++ update.name ++ "' was not named in Hello"))
    | some path =>
      if update.name ∈ seen then .error (protocol ("ref '" ++ update.name ++ "' is updated more than once"))
      else (updatePaths named updates (update.name :: seen)).map (path :: ·)

/-- `check_names`, over the rule of ref names. -/
def checkNames (isRefspec : String → Bool) (named : Named) (updates : List RefUpdate) :
    Except Failure (List String) := do
  checkEach (fun update =>
    if ¬ isRefspec update.name then .error (invalidRef update.name)
    else if update.new.isSome && isChecksumShaped update.name then .error (invalidRef update.name)
    else .ok ()) updates
  if updates.isEmpty then .error (protocol "the Commit message holds no ref update")
  else updatePaths named updates []

/-- `MAX_FRAME`. -/
def maxFrame : Nat := 1048576

/-- `check_reply_fits`. -/
def checkReplyFits (updates : List RefUpdate) : Except Failure Unit :=
  let anyCommit := Checksum.filled 0
  match (Message.commitReply (updates.map fun update => ⟨update.name, some anyCommit, update.new⟩)).encodeBody with
  | .error error => .error (.wire error)
  | .ok body =>
    if maxFrame < body.length + 1 then
      .error (.wire (.limitExceeded ("the reply to the " ++ toString updates.length ++
        " ref updates of Commit can need a frame of " ++ toString (body.length + 1) ++ " bytes, over the limit " ++
        toString maxFrame)))
    else .ok ()

/-- `outside_commits`. -/
def outsideCommits (session : Session) (updates : List RefUpdate)
    (commitMeta : List (Checksum × Bytes)) : List Checksum :=
  ((commitMeta.map Prod.fst).filter fun commit =>
    ¬(commit ∈ updates.filterMap RefUpdate.new ∨ session.isStaged commit .commit)).mergeSort
      fun left right => left.bytes ≤ right.bytes

/-- `check_commit_meta_commits`. -/
def checkCommitMetaCommits (session : Session) (updates : List RefUpdate)
    (commitMeta : List (Checksum × Bytes)) : Except Failure (List Checksum) := do
  let outside := outsideCommits session updates commitMeta
  let held ← (outside.mapM fun commit => session.objects.has ⟨commit, .commit⟩).mapError .internal
  match (outside.zip held).find? fun entry => !entry.2 with
  | some (commit, _) =>
    .error (protocol ("detached metadata for commit " ++ toHex commit ++
      ", which the session did not stage, no ref update names, and the repository does not hold"))
  | none => .ok outside

/-- `drop_dependency_meta`. -/
def dropDependencyMeta (fields : List (Checksum × List (String × Bytes))) :
    List Checksum → List (Checksum × Bytes) → Except Failure (List (Checksum × Bytes))
  | [], commitMeta => .ok commitMeta
  | commit :: outside, commitMeta =>
    if commit.bytes ∈ (fields.flatMap Prod.snd).filterMap fun entry => if entry.1 = "" then none else some entry.2 then
      dropDependencyMeta fields outside (commitMeta.filter fun entry => entry.1 ≠ commit)
    else
      .error (protocol ("detached metadata for commit " ++ toHex commit ++
        ", which the session did not stage, no ref update names, and no commit of the session names as a dependency"))

/-- `OSTREE_METADATA_REF`. -/
def ostreeMetadataRef : String := "ostree-metadata"

/-- The rule of one update. `anchored` is set for the local refs of a repository with a collection
id. -/
def selectRule (policy : ReceivePolicy) (anchored : Bool) (update : RefUpdate) : Except Failure UpdateRule :=
  if anchored && update.name = ostreeMetadataRef then
    .error (refDenied ("ref '" ++ update.name ++ "' holds the collection anchor commit, which the server writes"))
  else policy.rule update

/-- `select_rules`. -/
def selectRules (policy : ReceivePolicy) (anchored : Bool) (updates : List RefUpdate) :
    Except Failure (List UpdateRule) :=
  updates.mapM (selectRule policy anchored)

/-! ### The refs -/

section

variable (later : Nat → Disk) (fuel : Nat) (force : Bool)

/-- The walk of one update before the lock, if it needs one. -/
def walkBefore (update : RefUpdate) (tip : Option Checksum) (rule : UpdateRule) (walks : Walks) :
    Option (Except Failure (Option Nat × Walks)) :=
  if (force && rule.allowNonFastForward) || rule.createOnly then some (.ok (none, walks))
  else
    match update.new, tip with
    | some new, some tip =>
      if new = tip then some (.ok (none, walks))
      else (walks.chain later fuel new tip).map fun result => result.map fun found => (some found.1, found.2)
    | _, _ => some (.ok (none, walks))

/-- The walks of the updates before the lock. -/
def walksBefore : List RefUpdate → List (Option Checksum) → List UpdateRule → Walks →
    Option (Except Failure (List (Option Nat) × Walks))
  | update :: updates, tip :: tips, rule :: rules, walks =>
    match walkBefore later fuel force update tip rule walks with
    | none => none
    | some (.error failure) => some (.error failure)
    | some (.ok (chain, walks)) =>
      (walksBefore updates tips rules walks).map fun result => result.map fun rest => (chain :: rest.1, rest.2)
  | _, _, _, walks => some (.ok ([], walks))

/-- The updates against the states of their refs, and whether each one changes its ref. -/
def checkRefs : List RefUpdate → List UpdateRule → List (Option Checksum) → List (Option Nat) →
    Walks → Option (Except Failure (List Bool))
  | update :: updates, rule :: rules, current :: currents, chain :: chains, walks =>
    match checkRef later fuel update rule force current chain walks with
    | none => none
    | some (.error failure) => some (.error failure)
    | some (.ok (changed, walks)) =>
      (checkRefs updates rules currents chains walks).map fun result => result.map (changed :: ·)
  | _, _, _, _, _ => some (.ok [])

end

/-! ### The session -/

/-- What `finish` reads and calls beyond the tables of the session: the configuration, the steps
over bindings, signatures and images, the host, and the files of the refs, which other writers
change until the lock is held. -/
structure Host (Edit : Type) where
  isRefspec : String → Bool
  collectionId : Option String
  /-- `check_bindings`. -/
  bindings : List Target → Except Failure Unit
  /-- `read_stored_for`, `check_signatures`, `filter_detached` and `plan`. -/
  plan : List UpdateRule → List Target → List (Checksum × Bytes) → Except Failure (List Edit)
  /-- `build_images`. -/
  images : List Checksum → Except Failure Unit
  /-- `sync_staged`. -/
  sync : Except Fault Unit
  /-- `prepare_signatures`. -/
  prepare : List Edit → Except Failure (List Edit)
  /-- The tip of a ref, read before the lock. -/
  tip : String → Except Fault (Option Checksum)
  /-- `before_update` of the hooks and `add_host_entries`. -/
  beforeUpdate : List RefUpdate → List Edit → Except Failure (List Edit)
  /-- `lock_update`. -/
  lock : Except Fault Unit
  /-- The state of a ref file, read under the lock. -/
  state : String → Except Fault RefFileState
  /-- `objects/` at each read of the fast-forward walks. -/
  later : Nat → Disk
  /-- The second read of the stored dicts, under the lock. -/
  restored : List Edit → Except Failure Unit
  /-- An edit after the second check of its dict. -/
  settle : Edit → Except Failure Edit
  /-- `publish`, from the queued transaction on. -/
  publish : Txn Edit → Except Failure Unit
  /-- `after_update` of the hooks. -/
  afterUpdate : Except Failure Unit

section

variable {Edit : Type} (host : Host Edit)

/-- `queue_detached`: each edit is checked again and queued. -/
def queueEdits : List Edit → Run Edit Unit
  | [] => pure ()
  | edit :: edits => do
    let edit ← Run.check (host.settle edit)
    Run.change fun txn => { txn with edits := txn.edits ++ [edit] }
    queueEdits edits

/-- The ref writes of the updates that change their ref. -/
def queueRefs (updates : List RefUpdate) (changes : List Bool) : Run Edit Unit :=
  Run.change fun txn =>
    { txn with
      refs := txn.refs ++ ((updates.zip changes).filter Prod.snd).map fun entry => (entry.1.name, entry.1.new) }

variable (session : Session) (policy : ReceivePolicy) (named : Named)

/-- `finish` for a `Commit` with no server commit. The fuel is that of the walks. -/
def finish (fuel : Nat) (commitMeta : List (Checksum × Bytes)) (updates : List RefUpdate)
    (force : Bool) : Run Edit (List RefOutcome) := do
  let paths ← Run.check (checkNames host.isRefspec named updates)
  Run.check (checkReplyFits updates)
  let outside ← Run.check (checkCommitMetaCommits session updates commitMeta)
  let rules ← Run.check (selectRules policy (named.collection.isNone && host.collectionId.isSome) updates)
  let loaded ← Run.check (loadCommits session updates)
  let commitMeta ← Run.check (dropDependencyMeta loaded.fields outside commitMeta)
  let missing ← Run.wait (completeness session fuel loaded.roots)
  Run.check (if 0 < missing.total then .error (missingObjects missing "the trees of the commits reach") else .ok ())
  Run.check (checkDependencies session loaded)
  Run.check (host.bindings loaded.targets)
  let edits ← Run.check (host.plan rules loaded.targets commitMeta)
  Run.check (host.images loaded.sessionCommits)
  Run.check (host.sync.mapError .internal)
  let edits ← Run.check (host.prepare edits)
  let tips ← Run.check ((paths.mapM host.tip).mapError .internal)
  let (chains, walks) ← Run.wait (walksBefore host.later fuel force updates tips rules (Walks.new loaded.parents))
  let edits ← Run.check (host.beforeUpdate updates edits)
  Run.check (host.lock.mapError .internal)
  let states ← Run.check ((paths.mapM host.state).mapError .internal)
  let refs := (updates.zip paths).map fun entry => ⟨entry.1.name, entry.2, entry.1.new.isSome⟩
  let current ← Run.check (checkRefPaths refs states)
  let changes ← Run.wait (checkRefs host.later fuel force updates rules current chains walks)
  Run.check (host.restored edits)
  queueEdits host edits
  queueRefs updates changes
  Run.change fun txn => { txn with published := true }
  (fun txn => some (host.publish txn, txn))
  Run.check host.afterUpdate
  pure ((updates.zip current).map fun entry => ⟨entry.1.name, entry.2, entry.1.new⟩)

end

/-! ### What a session passed -/

/-- The checks that a session passed before it queued anything, and their results. -/
structure Passed {Edit : Type} (host : Host Edit) (session : Session) (policy : ReceivePolicy)
    (named : Named) (fuel : Nat)
    (updates : List RefUpdate) (force : Bool) where
  paths : List String
  rules : List UpdateRule
  loaded : Loaded
  missing : Missing
  tips : List (Option Checksum)
  chains : List (Option Nat)
  walks : Walks
  states : List RefFileState
  current : List (Option Checksum)
  changes : List Bool
  names : checkNames host.isRefspec named updates = .ok paths
  allowed : selectRules policy (named.collection.isNone && host.collectionId.isSome) updates = .ok rules
  commits : loadCommits session updates = .ok loaded
  walked : completeness session fuel loaded.roots = some (.ok missing)
  complete : missing.total = 0
  dependencies : checkDependencies session loaded = .ok ()
  tipsRead : paths.mapM host.tip = .ok tips
  before : walksBefore host.later fuel force updates tips rules (Walks.new loaded.parents) = some (.ok (chains, walks))
  statesRead : paths.mapM host.state = .ok states
  refPaths : checkRefPaths ((updates.zip paths).map fun entry => ⟨entry.1.name, entry.2, entry.1.new.isSome⟩) states =
    .ok current
  refsChecked : checkRefs host.later fuel force updates rules current chains walks = some (.ok changes)

section

variable {Edit : Type} {host : Host Edit} {session : Session} {policy : ReceivePolicy} {named : Named} {fuel : Nat}
  {commitMeta : List (Checksum × Bytes)} {updates : List RefUpdate} {force : Bool} {paths : List String}

/-- **A session acts only after its checks**: if its transaction is not as it was at the start,
every check passed. -/
theorem finish_acts (run : finish host session policy named fuel commitMeta updates force .start = some (result, after))
    (acted : after ≠ .start) : Nonempty (Passed host session policy named fuel updates force) := by
  obtain ⟨paths, names, run⟩ := Run.check_bind run acted
  obtain ⟨_, -, run⟩ := Run.check_bind run acted
  obtain ⟨outside, -, run⟩ := Run.check_bind run acted
  obtain ⟨rules, allowed, run⟩ := Run.check_bind run acted
  obtain ⟨loaded, commits, run⟩ := Run.check_bind run acted
  obtain ⟨kept, -, run⟩ := Run.check_bind run acted
  obtain ⟨missing, walked, run⟩ := Run.wait_bind run acted
  obtain ⟨_, complete, run⟩ := Run.check_bind run acted
  obtain ⟨_, dependencies, run⟩ := Run.check_bind run acted
  obtain ⟨_, -, run⟩ := Run.check_bind run acted
  obtain ⟨edits, -, run⟩ := Run.check_bind run acted
  obtain ⟨_, -, run⟩ := Run.check_bind run acted
  obtain ⟨_, -, run⟩ := Run.check_bind run acted
  obtain ⟨prepared, -, run⟩ := Run.check_bind run acted
  obtain ⟨tips, tipsRead, run⟩ := Run.check_bind run acted
  obtain ⟨⟨chains, walks⟩, before, run⟩ := Run.wait_bind run acted
  obtain ⟨hosted, -, run⟩ := Run.check_bind run acted
  obtain ⟨_, -, run⟩ := Run.check_bind run acted
  obtain ⟨states, statesRead, run⟩ := Run.check_bind run acted
  obtain ⟨current, refPaths, run⟩ := Run.check_bind run acted
  obtain ⟨changes, refsChecked, -⟩ := Run.wait_bind run acted
  have total : missing.total = 0 := by
    split_ifs at complete with some_missing
    omega
  exact ⟨⟨paths, rules, loaded, missing, tips, chains, walks, states, current, changes, names, allowed, commits, walked,
    total, dependencies, mapError_eq_ok.mp tipsRead, before, mapError_eq_ok.mp statesRead, refPaths, refsChecked⟩⟩

/-- The missing-objects error of the tree walk ends the session before it queues anything. -/
theorem finish_of_missing
    (names : checkNames host.isRefspec named updates = .ok paths) (fits : checkReplyFits updates = .ok ())
    (metadata : checkCommitMetaCommits session updates commitMeta = .ok outside)
    (allowed : selectRules policy (named.collection.isNone && host.collectionId.isSome) updates = .ok rules)
    (commits : loadCommits session updates = .ok loaded)
    (dropped : dropDependencyMeta loaded.fields outside commitMeta = .ok kept)
    (walked : completeness session fuel loaded.roots = some (.ok missing)) (some_missing : 0 < missing.total) :
    finish host session policy named fuel commitMeta updates force .start =
      some (.error (missingObjects missing "the trees of the commits reach"), .start) := by
  unfold finish
  rw [Run.check_ok_bind names, Run.check_ok_bind fits, Run.check_ok_bind metadata, Run.check_ok_bind allowed,
    Run.check_ok_bind commits, Run.check_ok_bind dropped, Run.bind_eq, walked]
  change (Run.check _ >>= _) Txn.start = _
  rw [if_pos some_missing]
  rfl

/-- A session that does not reach its publication fails. -/
theorem finish_ends : Run.Ends (finish host session policy named fuel commitMeta updates force) := by
  -- the checks and the queue, up to the change that publishes
  repeat first
    | refine Run.ends_change (fun _ => rfl) (Run.keeps_bind ?_ fun _ => Run.keeps_bind (Run.keeps_check _) fun _ => ?_)
    | refine Run.ends_bind fun _ => ?_
  · exact Run.keeps_of_unchanged fun txn final after run => (Prod.mk.inj (Option.some.inj run)).2.symm
  · exact Run.keeps_of_unchanged fun txn final after run => (Prod.mk.inj (Option.some.inj run)).2.symm

/-! ### The refs of a session that acts -/

theorem updatePaths_eq_ok (run : updatePaths named updates seen = .ok paths) :
    List.Forall₂ (fun update path => named.path update.name = some path) updates paths := by
  induction updates generalizing seen paths with
  | nil =>
    obtain rfl : [] = paths := by simpa [updatePaths] using run
    exact .nil
  | cons update updates ih =>
    rw [updatePaths] at run
    split at run
    · cases run
    · next path found =>
      split_ifs at run with again
      obtain ⟨rest, more, rfl⟩ := map_eq_ok.mp run
      exact .cons found (ih more)

theorem checkNames_eq_ok (run : checkNames isRefspec named updates = .ok paths) :
    List.Forall₂ (fun update path => named.path update.name = some path) updates paths := by
  simp only [checkNames, bind_eq_ok] at run
  obtain ⟨_, -, found⟩ := run
  split_ifs at found
  exact updatePaths_eq_ok found

variable {rules : List UpdateRule}

theorem selectRules_eq_ok (run : selectRules policy anchored updates = .ok rules) :
    List.Forall₂ (fun update rule => policy.rule update = .ok rule) updates rules := by
  refine (mapM_eq_ok.mp run).imp fun update rule selected => ?_
  unfold selectRule at selected
  split_ifs at selected
  exact selected

variable {parents : Parents} {later : Nat → Disk}

/-- The owners of the walks: a chain of an update is one of its new commit. -/
def Owns (owners : List Checksum) (update : RefUpdate) (chain : Option Nat) : Prop :=
  ∀ position, chain = some position → ∃ new, update.new = some new ∧ owners[position]? = some new

variable {owners : List Checksum}

theorem Owns.append (owns : Owns owners update chain)
    (more : List Checksum) : Owns (owners ++ more) update chain := by
  intro position isChain
  obtain ⟨new, written, owner⟩ := owns position isChain
  exact ⟨new, written, by rw [List.getElem?_append_left (List.getElem?_eq_some_iff.mp owner).1, owner]⟩

variable {walks : Walks}

section

variable (sound : WalksSound parents later owners walks)

include sound

theorem walkBefore_spec (run : walkBefore later fuel force update tip rule walks = some (.ok (chain, last))) :
    ∃ more, WalksSound parents later (owners ++ more) last ∧ Owns (owners ++ more) update chain := by
  have stays : ∃ more, WalksSound parents later (owners ++ more) walks ∧ Owns (owners ++ more) update none :=
    ⟨[], by simpa using sound, nofun⟩
  unfold walkBefore at run
  split_ifs at run with unneeded
  · cases run
    exact stays
  · split at run
    · next new tip isNew =>
      split_ifs at run with same
      · cases run
        exact stays
      · obtain ⟨found, walked, made⟩ := Option.map_eq_some_iff.mp run
        obtain ⟨⟨position, after⟩, rfl, pair⟩ := map_eq_ok.mp made
        obtain ⟨rfl, rfl⟩ := Prod.mk.inj pair
        obtain ⟨more, final, owner⟩ := Walks.chain_spec sound walked
        exact ⟨more, final, fun other isChain => ⟨new, isNew, Option.some.inj isChain ▸ owner⟩⟩
    · cases run
      exact stays

/-- The walks before the lock are sound, and each chain is one of the new commit of its update. -/
theorem walksBefore_spec (eachTip : updates.length = tips.length) (eachRule : updates.length = rules.length)
    (run : walksBefore later fuel force updates tips rules walks = some (.ok (chains, last))) :
    ∃ more, WalksSound parents later (owners ++ more) last ∧ List.Forall₂ (Owns (owners ++ more)) updates chains := by
  induction updates generalizing tips rules chains owners walks with
  | nil =>
    obtain ⟨rfl, rfl⟩ : [] = chains ∧ walks = last := by simpa [walksBefore] using run
    exact ⟨[], by simpa using sound, .nil⟩
  | cons update updates ih =>
    match tips, rules, eachTip, eachRule with
    | tip :: tips, rule :: rules, eachTip, eachRule =>
      rw [walksBefore] at run
      split at run
      · cases run
      · cases run
      · next chain middle first =>
        obtain ⟨rest, walked, made⟩ := Option.map_eq_some_iff.mp run
        obtain ⟨⟨others, after⟩, rfl, pair⟩ := map_eq_ok.mp made
        obtain ⟨rfl, rfl⟩ := Prod.mk.inj pair
        obtain ⟨more, kept, owns⟩ := walkBefore_spec sound first
        obtain ⟨further, final, each⟩ := ih kept (by simpa using eachTip) (by simpa using eachRule) walked
        rw [List.append_assoc] at final each
        refine ⟨more ++ further, final, .cons ?_ each⟩
        rw [← List.append_assoc]
        exact owns.append further

/-- Each update that passes under the lock obeys the rules. -/
theorem checkRefs_spec (allowed : List.Forall₂ (fun update rule => policy.rule update = .ok rule) updates rules)
    (eachCurrent : updates.length = currents.length) (owns : List.Forall₂ (Owns owners) updates chains)
    (run : checkRefs later fuel force updates rules currents chains walks = some (.ok changes)) :
    List.Forall₂ (fun update current => RefRules (OnChain parents later) (policy.rights update.name)
      force update current)
      updates currents := by
  induction updates generalizing rules currents chains changes owners walks with
  | nil =>
    obtain rfl : currents = [] := List.length_eq_zero_iff.mp eachCurrent.symm
    exact .nil
  | cons update updates ih =>
    match rules, allowed, currents, eachCurrent, chains, owns with
    | rule :: rules, .cons allowedFirst allowed, current :: currents, eachCurrent, chain :: chains,
        .cons ownsFirst owns =>
      rw [checkRefs] at run
      split at run
      · cases run
      · cases run
      · next changed middle first =>
        obtain ⟨rest, checked, made⟩ := Option.map_eq_some_iff.mp run
        obtain ⟨others, rfl, -⟩ := map_eq_ok.mp made
        obtain ⟨⟨more, kept⟩, rulesHold⟩ := checkRef_spec allowedFirst sound ownsFirst first
        exact .cons rulesHold (ih kept allowed (by simpa using eachCurrent)
          (owns.imp fun _ _ owned => owned.append more) checked)

end

/-- The update, its path, the state of its file and the commit of its ref, put together. -/
theorem each_ref {states : List RefFileState} {current : List (Option Checksum)}
    {Path : RefUpdate → String → Prop} {State : String → RefFileState → Prop}
    {Rule : RefUpdate → Option Checksum → Prop}
    (named : List.Forall₂ Path updates paths) (read : List.Forall₂ State paths states)
    (checked : List.Forall₂ (fun (entry : MessageRef × RefFileState) value =>
      currentOf entry.1.name entry.2 = .ok value)
      (((updates.zip paths).map fun entry => ⟨entry.1.name, entry.2, entry.1.new.isSome⟩).zip states) current)
    (rules : List.Forall₂ Rule updates current) :
    ∀ update ∈ updates, ∃ path value, Path update path ∧ State path (value.elim .absent .commit) ∧
      Rule update value := by
  induction named generalizing states current with
  | nil => simp
  | @cons update path updates paths isPath _ ih =>
    match states, read, current, checked, rules with
    | state :: states, .cons isState read, value :: current, .cons isValue checked, .cons rule rules =>
      intro other member
      rcases List.mem_cons.mp member with rfl | later
      · exact ⟨path, value, isPath, currentOf_eq_ok isValue ▸ isState, rule⟩
      · exact ih read checked rules other later

/-- A commit of the session: a new commit of an update, or a staged one. -/
def SessionCommit (session : Session) (updates : List RefUpdate) (commit : Checksum) : Prop :=
  (∃ update ∈ updates, update.new = some commit) ∨ session.isStaged commit .commit = true

/-- The parent of a commit: that of the commit of the session, else that of the stored commit. -/
def ParentOf (session : Session) (updates : List RefUpdate) (later : Nat → Disk) (child parent : Checksum) : Prop :=
  (SessionCommit session updates child ∧ ∃ commit, CommitAt session child commit ∧ commit.parent = some parent) ∨
    (¬ SessionCommit session updates child ∧ StoredParent later child (some parent))

/-- The old commit is on the parent chain of the new one. -/
def Descends (session : Session) (updates : List RefUpdate) (later : Nat → Disk) (new old : Checksum) : Prop :=
  Relation.ReflTransGen (ParentOf session updates later) new old

theorem descends_of_onChain (run : loadCommits session updates = .ok loaded)
    (on : OnChain loaded.parents later new old) : Descends session updates later new old := by
  obtain ⟨commits, records, members, -⟩ := loadCommits_spec run
  refine Relation.ReflTransGen.mono (fun child parent edge => ?_) _ _ on
  rcases edge with known | ⟨unknown, stored⟩
  · have inside := mem_of_lookup known
    rw [records.parents] at inside
    obtain ⟨entry, member, same⟩ := List.mem_map.mp inside
    obtain ⟨rfl, isParent⟩ := Prod.mk.inj same
    exact .inl ⟨(members _).mp (List.mem_map_of_mem member), entry.2, records.held entry member, isParent⟩
  · refine .inr ⟨fun isSession => ?_, stored⟩
    obtain ⟨entry, member, rfl⟩ := List.mem_map.mp ((members child).mpr isSession)
    have inside : (entry.1, entry.2.parent) ∈ loaded.parents := by
      rw [records.parents]
      exact List.mem_map.mpr ⟨entry, member, rfl⟩
    obtain ⟨found, search⟩ := lookup_of_mem inside
    rw [unknown] at search
    cases search

end

/-- **A push never breaks the ref rules.** Whatever other writers did before the update lock, a
session that queues a ref write or an edit of detached metadata, or that reaches its publication,
has every update within the rules, against the states of the refs under the lock; so if one update
breaks a rule, nothing of any update is queued. -/
theorem push_keeps_ref_rules {Edit : Type} (host : Host Edit) (session : Session)
    (policy : ReceivePolicy) (named : Named)
    (fuel : Nat) (commitMeta : List (Checksum × Bytes)) (updates : List RefUpdate) (force : Bool)
    (result : Except Failure (List RefOutcome)) (after : Txn Edit)
    (run : finish host session policy named fuel commitMeta updates force .start = some (result, after))
    (acted : after.published = true ∨ after.refs ≠ [] ∨ after.edits ≠ []) :
    (∀ update ∈ updates, ∃ path current, named.path update.name = some path ∧
      host.state path = .ok (current.elim .absent .commit) ∧
      RefRules (Descends session updates host.later) (policy.rights update.name) force update current) ∧
    ∀ first ∈ updates, ∀ second ∈ updates, first.new.isSome = true → second.new.isSome = true →
      ∀ firstPath secondPath, named.path first.name = some firstPath →
        named.path second.name = some secondPath → ¬ DirectoryOf firstPath secondPath := by
  have changed : after ≠ .start := by
    rintro rfl
    simp [Txn.start] at acted
  obtain ⟨passed⟩ := finish_acts run changed
  have paths := checkNames_eq_ok passed.names
  have allowed := selectRules_eq_ok passed.allowed
  have states := mapM_eq_ok.mp passed.statesRead
  obtain ⟨current, directories⟩ := checkRefPaths_spec passed.refPaths
  constructor
  · have tips : updates.length = passed.tips.length := by
      rw [paths.length_eq, (mapM_eq_ok.mp passed.tipsRead).length_eq]
    obtain ⟨more, sound, owns⟩ :=
      walksBefore_spec (WalksSound.new passed.loaded.parents host.later) tips allowed.length_eq passed.before
    have currents : updates.length = passed.current.length := by
      rw [← current.length_eq]
      simp [paths.length_eq, states.length_eq]
    have rules := checkRefs_spec sound allowed currents owns passed.refsChecked
    refine each_ref paths states current (rules.imp fun update value hold => ?_)
    exact hold.mono fun new old => descends_of_onChain passed.commits
  · intro first firstMember second secondMember firstWrites secondWrites firstPath secondPath isFirst isSecond
    have inside : ∀ update ∈ updates, ∀ path, named.path update.name = some path →
        (⟨update.name, path, update.new.isSome⟩ : MessageRef) ∈
          (updates.zip passed.paths).map fun entry => ⟨entry.1.name, entry.2, entry.1.new.isSome⟩ := by
      intro update member path isPath
      obtain ⟨other, found, isOther⟩ := exists_zip_of_forall₂ paths member
      obtain rfl : path = other := Option.some.inj (isPath.symm.trans isOther)
      exact List.mem_map.mpr ⟨_, found, rfl⟩
    exact directories _ (inside first firstMember firstPath isFirst) _
      (inside second secondMember secondPath isSecond) firstWrites secondWrites

/-! ### A session -/

namespace Sample

/-- A commit with the parent of ones, the root dirtree of twos and the root dirmeta of threes. -/
def commit (related : List (String × Bytes)) : Option Bytes :=
  (Commit.serialize ⟨.array [], some (.filled 1), related, "s", "", 5, .filled 2, .filled 3⟩).toOption

/-- The session staged the commit of fours, which names the commit of fives, with a file and a
subdirectory. -/
def staging (name : ObjectName) : Option Bytes :=
  if name = ⟨.filled 4, .commit⟩ then commit [("lib", List.replicate 32 5)]
  else if name = ⟨.filled 2, .dirTree⟩ then
    (DirTree.serialize ⟨[("a", .filled 6)], [("d", .filled 7, .filled 3)]⟩).toOption
  else if name = ⟨.filled 7, .dirTree⟩ then some [0]
  else if name = ⟨.filled 3, .dirMeta⟩ ∨ name = ⟨.filled 6, .file⟩ then some []
  else none

/-- The commit of fives is in the repository. -/
def committed (name : ObjectName) : Option Bytes := if name = ⟨.filled 5, .commit⟩ then commit [] else none

def session : Session :=
  ⟨[⟨.filled 4, .commit⟩, ⟨.filled 2, .dirTree⟩, ⟨.filled 7, .dirTree⟩, ⟨.filled 3, .dirMeta⟩, ⟨.filled 6, .file⟩],
    ⟨staging, fun _ => none, fun _ => none⟩, ⟨committed, fun _ => none, fun _ => none⟩, fun _ => .ok false⟩

/-- The ref is at the commit of ones, before the lock and under it. -/
def host : Host Unit where
  isRefspec := fun _ => true
  collectionId := none
  bindings := fun _ => .ok ()
  plan := fun _ _ _ => .ok [()]
  images := fun _ => .ok ()
  sync := .ok ()
  prepare := .ok
  tip := fun _ => .ok (some (.filled 1))
  beforeUpdate := fun _ edits => .ok edits
  lock := .ok ()
  state := fun _ => .ok (.commit (.filled 1))
  later := fun _ => session.objects
  restored := fun _ => .ok ()
  settle := .ok
  publish := fun _ => .ok ()
  afterUpdate := .ok ()

def policy : ReceivePolicy := ⟨fun _ => ⟨true, true, false, false, false⟩, false⟩

def named : Named := ⟨none, ["main"], ["refs/heads/main"]⟩

def update : RefUpdate := ⟨"main", .commit (.filled 1), some (.filled 4)⟩

/-- The session moves the ref to a child of its commit and reaches the publication. -/
theorem finishes : ((finish host session policy named 8 [] [update] false .start).map fun run => run.2.published) =
    some true := by
  decide +kernel

end Sample

/-- The rules hold of a session that moves a ref to a child of its commit. -/
theorem push_keeps_ref_rules_sample :
    ∃ path current, Sample.named.path "main" = some path ∧
      Sample.host.state path = .ok (current.elim .absent .commit) ∧
      RefRules (Descends Sample.session [Sample.update] Sample.host.later) (Sample.policy.rights "main") false
        Sample.update current := by
  obtain ⟨⟨result, after⟩, run, reached⟩ := Option.map_eq_some_iff.mp Sample.finishes
  exact (push_keeps_ref_rules Sample.host Sample.session Sample.policy Sample.named 8 []
    [Sample.update] false result after
    run (.inl reached)).1 Sample.update (by simp)

/-! ### The commits of a session that publishes -/

variable {session : Session}

theorem Reached.mono (subset : roots ⊆ more) (reached : Reached session roots name) : Reached session more name := by
  induction reached with
  | rootMeta member => exact .rootMeta (subset member)
  | rootTree member => exact .rootTree (subset member)
  | child _ tree member ih => exact .child ih tree member

theorem DependencyMet.mono (subset : news ⊆ more)
    (met : DependencyMet session news entry) : DependencyMet session more entry := by
  obtain ⟨nonempty, dependency, read, present, held, leaf⟩ := met
  exact ⟨nonempty, dependency, read, present, held.imp_right fun rest => rest.imp_left (subset ·), leaf⟩

/-- A commit of a push is whole: it is in the extended store and parses, its root dirmeta and
everything that its root dirtree reaches is there, and if it was staged or marked partial, its
dependencies are met. -/
def Whole (session : Session) (updates : List RefUpdate) (checksum : Checksum) : Prop :=
  ∃ commit, CommitAt session checksum commit ∧ session.Present ⟨commit.rootDirmeta, .dirMeta⟩ ∧
    (∀ name, Reached session [(commit.rootDirtree, commit.rootDirmeta)] name → session.Present name) ∧
    (session.isStaged checksum .commit = true ∨ session.marker checksum = .ok true →
      ∀ entry ∈ commit.related, DependencyMet session (updates.filterMap RefUpdate.new) entry)

theorem Passed.whole {Edit : Type} {host : Host Edit} {named : Named} {updates : List RefUpdate}
    (passed : Passed host session policy named fuel updates force) {checksum : Checksum}
    (isSession : SessionCommit session updates checksum) : Whole session updates checksum := by
  obtain ⟨commits, records, members, targets, staged⟩ := loadCommits_spec passed.commits
  obtain ⟨entry, member, rfl⟩ := List.mem_map.mp ((members checksum).mpr isSession)
  obtain ⟨absent, lists, -, exact_⟩ := completeness_spec passed.walked
  have nothing : absent = [] := List.length_eq_zero_iff.mp (lists.1.symm.trans passed.complete)
  have present : ∀ name, Reached session passed.loaded.roots name → session.Present name := by
    intro name reached
    by_contra missing
    have listed := (exact_ name).mpr ⟨reached, missing⟩
    simp [nothing] at listed
  have root : (entry.2.rootDirtree, entry.2.rootDirmeta) ∈ passed.loaded.roots := by
    rw [records.roots]
    exact List.mem_map.mpr ⟨entry, member, rfl⟩
  have covered : ∀ commit, commit ∈ commits.map Prod.fst ↔
      commit ∈ passed.loaded.targets.map Target.checksum ∨ session.isStaged commit .commit = true := by
    intro commit
    rw [members, targets]
  refine ⟨entry.2, records.held entry member, present _ (.rootMeta root), ?_, ?_⟩
  · intro name reached
    exact present name (reached.mono (by simpa using root))
  · intro checked dependency inside
    have met := checkDependencies_spec records covered staged passed.dependencies entry member checked dependency inside
    refine met.mono fun commit isTarget => ?_
    obtain ⟨update, written, isNew⟩ := (targets commit).mp isTarget
    exact List.mem_filterMap.mpr ⟨update, written, isNew⟩

/-- **A push publishes only complete commits.** If a session reaches its publication, every commit
that it staged and every new commit of its updates is whole. Otherwise it fails. The tree walk ends
whatever the trees share, and its missing-objects error counts exactly the distinct absent objects
that the roots reach through present dirtrees and lists the first of them. -/
theorem push_publishes_complete_commits {Edit : Type} (host : Host Edit) (session : Session) (policy : ReceivePolicy)
    (named : Named) (commitMeta : List (Checksum × Bytes)) (updates : List RefUpdate) (force : Bool) :
    (∀ fuel result after,
      finish host session policy named fuel commitMeta updates force .start = some (result, after) →
      (after.published = true → ∀ checksum, SessionCommit session updates checksum → Whole session updates checksum) ∧
      (after.published = false → ∃ failure, result = .error failure)) ∧
    (∀ roots, ∃ bound, ∀ fuel, bound < fuel → ∃ result, completeness session fuel roots = some result) ∧
    (∀ fuel roots missing, completeness session fuel roots = some (.ok missing) →
      ∃ absent : List ObjectName, missing.total = absent.length ∧ missing.listed = absent.take maxHave ∧ absent.Nodup ∧
        ∀ name, name ∈ absent ↔ Reached session roots name ∧ ¬ session.Present name) ∧
    (∀ fuel paths outside rules loaded kept missing, checkNames host.isRefspec named updates = .ok paths →
      checkReplyFits updates = .ok () → checkCommitMetaCommits session updates commitMeta = .ok outside →
      selectRules policy (named.collection.isNone && host.collectionId.isSome) updates = .ok rules →
      loadCommits session updates = .ok loaded → dropDependencyMeta loaded.fields outside commitMeta = .ok kept →
      completeness session fuel loaded.roots = some (.ok missing) → 0 < missing.total →
      finish host session policy named fuel commitMeta updates force .start =
        some (.error (missingObjects missing "the trees of the commits reach"), .start)) := by
  refine ⟨fun fuel result after run => ⟨fun reached checksum isSession => ?_, fun unreached => ?_⟩, ?_, ?_, ?_⟩
  · have acted : after ≠ .start := by
      rintro rfl
      cases reached
    obtain ⟨passed⟩ := finish_acts run acted
    exact passed.whole isSession
  · rcases finish_ends _ _ _ run with failed | reached
    · exact failed
    · rw [unreached] at reached
      cases reached
  · exact completeness_returns
  · intro fuel roots missing walked
    obtain ⟨absent, ⟨total, listed⟩, distinct, exact_⟩ := completeness_spec walked
    exact ⟨absent, total, listed, distinct, exact_⟩
  · grind [finish_of_missing]

/-- The commit of a session that reaches its publication is whole. -/
theorem push_publishes_complete_commits_sample :
    Sample.session.isStaged (.filled 4) .commit = true ∧
      Whole Sample.session [Sample.update] (.filled 4) := by
  obtain ⟨⟨result, after⟩, run, reached⟩ := Option.map_eq_some_iff.mp Sample.finishes
  obtain ⟨published, -⟩ := push_publishes_complete_commits Sample.host Sample.session Sample.policy
    Sample.named [] [Sample.update] false
  have staged : Sample.session.isStaged (.filled 4) .commit = true := by decide
  exact ⟨staged, (published 8 result after run).1 reached _ (.inr staged)⟩

end Ostrya.Receive
