/-
**The commits of a push and their dependencies** (`load_commits` and `check_dependencies` of `receive/finish.rs`).

The commits of a session are the new commits of its updates and the commits that it staged. `loadCommits_spec` says that
each of them is read and parsed, and what the session then knows of it. `checkDependencies_spec` says what holds of the
dependencies that field 2 of a checked commit names.
-/

import Ostrya.Receive.Session
import Ostrya.Gvariant.Denotes
import Ostrya.ByteFormat.Table

namespace Ostrya.Receive

open ByteFormat Gvariant Ostrya.Core Repo Delta Remote

/-! ### Field 2 -/

/-- `COMMIT_TYPE`: `(a{sv}aya(say)sstayay)`. -/
def commitType : Ty :=
  .tuple [.array (.dictEntry .str .variant), .array .byte, .array (.tuple [.str, .array .byte]),
    .str, .str, .u64, .array .byte, .array .byte]

/-- `has_dependencies`. -/
def hasDependencies (bytes : Bytes) : Except Fault Bool :=
  match tupleFieldFromBytes commitType bytes 2 with
  | .error fault => .error (.core (.gvariant fault))
  | .ok field => .ok (field.asArray.any fun entries => !entries.isEmpty)

/-! ### The commits of the session -/

/-- `Target`: a new commit, and the indices of the updates that name it. -/
structure Target where
  checksum : Checksum
  bytes : Bytes
  commit : Commit
  updates : List Nat

/-- `Loaded`. The maps of the source have each commit once; they are the lists of their entries
here. -/
structure Loaded where
  targets : List Target
  sessionCommits : List Checksum
  roots : List (Checksum × Checksum)
  parents : List (Checksum × Option Checksum)
  staged : List Checksum
  fields : List (Checksum × List (String × Bytes))

def Loaded.empty : Loaded := ⟨[], [], [], [], [], []⟩

/-- What the session records of each of its commits. -/
def Loaded.add (loaded : Loaded) (checksum : Checksum) (commit : Commit) : Loaded :=
  { loaded with
    sessionCommits := loaded.sessionCommits ++ [checksum]
    roots := loaded.roots ++ [(commit.rootDirtree, commit.rootDirmeta)]
    parents := loaded.parents ++ [(checksum, commit.parent)]
    fields := if commit.related.isEmpty then loaded.fields else loaded.fields ++ [(checksum, commit.related)] }

/-- One update of the new commits: each commit once, with the indices of its updates. -/
def addNew (news : List (Checksum × List Nat)) (new : Checksum) (index : Nat) : List (Checksum × List Nat) :=
  if new ∈ news.map Prod.fst then
    news.map fun entry => if entry.1 = new then (entry.1, entry.2 ++ [index]) else entry
  else news ++ [(new, [index])]

/-- The new commits of the updates from an index on. -/
def newCommits : (index : Nat) → List RefUpdate → List (Checksum × List Nat) → List (Checksum × List Nat)
  | _, [], news => news
  | index, update :: updates, news =>
    newCommits (index + 1) updates (update.new.elim news fun new => addNew news new index)

variable (session : Session)

/-- The staged commits that no update names. -/
def otherCommits (news : List Checksum) : List Checksum :=
  (session.stagedOfType .commit).filter fun commit => commit ∉ news

/-- The read of a new commit; nothing for one that neither the session nor the repository holds. -/
def readTarget (checksum : Checksum) : Except Fault (Option (Bytes × Except Core.Error Commit)) :=
  if session.isStaged checksum .commit then
    (session.readStaged ⟨checksum, .commit⟩).map fun bytes => some (bytes, Commit.parse bytes)
  else (session.objects.read ⟨checksum, .commit⟩).map fun bytes => bytes.map fun bytes => (bytes, Commit.parse bytes)

/-- The read of a staged commit that no update names. -/
def readOther (checksum : Checksum) : Except Fault (Except Core.Error Commit) :=
  (session.readStaged ⟨checksum, .commit⟩).map Commit.parse

/-- The failure of a commit that does not parse. -/
def commitFailure (checksum : Checksum) (fault : Core.Error) : Failure :=
  let message := "commit " ++ toHex checksum ++ " does not parse: " ++ coreText fault
  if session.isStaged checksum .commit then protocol message else .internal (.invalidFormat message)

/-- The new commits that were read, and those that are absent. -/
def loadTargets : List ((Checksum × List Nat) × Option (Bytes × Except Core.Error Commit)) →
    Loaded → Missing → Except Failure (Loaded × Missing)
  | [], loaded, absent => .ok (loaded, absent)
  | ((checksum, _), none) :: rest, loaded, absent => loadTargets rest loaded (absent.add ⟨checksum, .commit⟩)
  | ((checksum, _), some (_, .error fault)) :: _, _, _ => .error (commitFailure session checksum fault)
  | ((checksum, updates), some (bytes, .ok commit)) :: rest, loaded, absent =>
    loadTargets rest
      { loaded.add checksum commit with
        targets := loaded.targets ++ [⟨checksum, bytes, { commit with related := [] }, updates⟩] } absent

/-- The other commits that were read. -/
def loadOthers : List (Checksum × Except Core.Error Commit) → Loaded → Except Failure Loaded
  | [], loaded => .ok loaded
  | (checksum, .error fault) :: _, _ => .error (commitFailure session checksum fault)
  | (checksum, .ok commit) :: rest, loaded => loadOthers rest (loaded.add checksum commit)

/-- `load_commits`. -/
def loadCommits (updates : List RefUpdate) : Except Failure Loaded := do
  let news := newCommits 0 updates []
  let others := otherCommits session (news.map Prod.fst)
  let targetReads ← (news.mapM fun new => readTarget session new.1).mapError .internal
  let otherReads ← (others.mapM (readOther session)).mapError .internal
  let (loaded, absent) ← loadTargets session (news.zip targetReads) .empty .empty
  if 0 < absent.total then .error (missingObjects absent "the ref updates name")
  else do
    let loaded ← loadOthers session (others.zip otherReads) loaded
    .ok (if loaded.fields.isEmpty then loaded
      else
        { loaded with
          staged := (news.map Prod.fst ++ others).filter fun commit => session.isStaged commit .commit })

/-! ### What is known of the commits -/

variable {news : List (Checksum × List Nat)} {commit checksum : Checksum} {index : Nat}
  {loaded : Loaded} {commits : List (Checksum × Commit)}

theorem mem_addNew :
    commit ∈ (addNew news new index).map Prod.fst ↔ commit = new ∨ commit ∈ news.map Prod.fst := by
  unfold addNew
  split_ifs with before
  · grind
  · simp [or_comm]

theorem mem_newCommits :
    commit ∈ (newCommits index updates news).map Prod.fst ↔
      commit ∈ news.map Prod.fst ∨ ∃ update ∈ updates, update.new = some commit := by
  induction updates generalizing index news with
  | nil => simp [newCommits]
  | cons update updates ih =>
    rw [newCommits, ih]
    cases written : update.new with
    | none => simp [written]
    | some new =>
      grind [mem_addNew, Option.some.injEq]

variable {session}

/-- A commit that the extended store holds and that parses. -/
def CommitAt (session : Session) (checksum : Checksum) (commit : Commit) : Prop :=
  session.Present ⟨checksum, .commit⟩ ∧
    ∃ bytes, session.bytesOf ⟨checksum, .commit⟩ = some bytes ∧ Commit.parse bytes = .ok commit

/-- The record of the session is that of these commits. -/
structure Records (session : Session) (loaded : Loaded) (commits : List (Checksum × Commit)) : Prop where
  sessionCommits : loaded.sessionCommits = commits.map Prod.fst
  roots : loaded.roots = commits.map fun entry => (entry.2.rootDirtree, entry.2.rootDirmeta)
  parents : loaded.parents = commits.map fun entry => (entry.1, entry.2.parent)
  fields : loaded.fields = (commits.filter fun entry => !entry.2.related.isEmpty).map fun entry =>
    (entry.1, entry.2.related)
  held : ∀ entry ∈ commits, CommitAt session entry.1 entry.2

theorem Records.add (records : Records session loaded commits)
    {commit : Commit} (held : CommitAt session checksum commit) :
    Records session (loaded.add checksum commit) (commits ++ [(checksum, commit)]) := by
  refine ⟨by simp [Loaded.add, records.sessionCommits], by simp [Loaded.add, records.roots],
    by simp [Loaded.add, records.parents], ?_, ?_⟩
  · simp only [Loaded.add, records.fields, List.filter_append, List.map_append]
    cases empty : commit.related.isEmpty <;> simp [empty]
  · intro entry member
    rcases List.mem_append.mp member with old | new
    · exact records.held entry old
    · obtain rfl := List.mem_singleton.mp new
      exact held

theorem readTarget_eq_ok (run : readTarget session checksum = .ok (some (bytes, parsed))) :
    session.Present ⟨checksum, .commit⟩ ∧ session.bytesOf ⟨checksum, .commit⟩ = some bytes ∧
      parsed = Commit.parse bytes := by
  unfold readTarget at run
  split_ifs at run with staged
  · have member : ⟨checksum, .commit⟩ ∈ session.staged := by simpa [Session.isStaged] using staged
    obtain ⟨found, read, made⟩ := map_eq_ok.mp run
    obtain ⟨rfl, rfl⟩ : found = bytes ∧ Commit.parse found = parsed := by simpa using made
    exact ⟨.inl member, by rw [Session.bytesOf, if_pos member]; exact Session.readStaged_eq_ok read, rfl⟩
  · have outside : ⟨checksum, .commit⟩ ∉ session.staged := by simpa [Session.isStaged] using staged
    obtain ⟨found, read, made⟩ := map_eq_ok.mp run
    have entry := Disk.read_eq_ok read
    cases found with
    | none => cases made
    | some found =>
      obtain ⟨rfl, rfl⟩ : found = bytes ∧ Commit.parse found = parsed := by simpa using made
      exact ⟨.inr (by rw [entry]; rfl), by rw [Session.bytesOf, if_neg outside, entry], rfl⟩

theorem readOther_eq_ok
    (staged : session.isStaged checksum .commit = true) (run : readOther session checksum = .ok parsed) :
    session.Present ⟨checksum, .commit⟩ ∧
      ∃ bytes, session.bytesOf ⟨checksum, .commit⟩ = some bytes ∧ parsed = Commit.parse bytes := by
  have member : ⟨checksum, .commit⟩ ∈ session.staged := by simpa [Session.isStaged] using staged
  obtain ⟨bytes, read, rfl⟩ := map_eq_ok.mp run
  exact ⟨.inl member, bytes, by rw [Session.bytesOf, if_pos member]; exact Session.readStaged_eq_ok read, rfl⟩

/-- If no new commit is absent, the new commits are recorded. -/
theorem loadTargets_spec {reads : List (Option (Bytes × Except Core.Error Commit))}
    (each : List.Forall₂ (fun new read => readTarget session new.1 = .ok read) news reads)
    {absent missing : Missing} (records : Records session loaded commits)
    (run : loadTargets session (news.zip reads) loaded absent = .ok (last, missing)) :
    absent.total ≤ missing.total ∧ (missing.total = absent.total → ∃ more,
      Records session last (commits ++ more) ∧ more.map Prod.fst = news.map Prod.fst ∧
      last.targets.map Target.checksum = loaded.targets.map Target.checksum ++ news.map Prod.fst ∧
      last.staged = loaded.staged) := by
  induction each generalizing loaded absent commits with
  | nil =>
    obtain ⟨rfl, rfl⟩ : loaded = last ∧ absent = missing := by simpa [loadTargets] using run
    exact ⟨le_rfl, fun _ => ⟨[], by simpa using records, rfl, by simp, rfl⟩⟩
  | @cons new read news reads head _ ih =>
    obtain ⟨checksum, updates⟩ := new
    match read, head with
    | none, _ =>
      obtain ⟨more, -⟩ := ih records run
      simp only [Missing.add] at more
      exact ⟨by omega, fun same => by omega⟩
    | some (_, .error fault), _ => cases run
    | some (bytes, .ok commit), head =>
      obtain ⟨present, entry, parsed⟩ := readTarget_eq_ok head
      have held : CommitAt session checksum commit := ⟨present, bytes, entry, parsed.symm⟩
      have kept : Records session
          { loaded.add checksum commit with
            targets := loaded.targets ++ [⟨checksum, bytes, { commit with related := [] }, updates⟩] }
          (commits ++ [(checksum, commit)]) := by
        have added := records.add held
        exact ⟨added.1, added.2, added.3, added.4, added.5⟩
      obtain ⟨bound, whole⟩ := ih kept run
      refine ⟨bound, fun same => ?_⟩
      obtain ⟨more, final, names, targets, staged⟩ := whole same
      exact ⟨(checksum, commit) :: more, by simpa using final, by simp [names], by simp [targets], staged⟩

theorem loadOthers_spec {others : List Checksum}
    (each : List.Forall₂ (fun commit read => readOther session commit = .ok read) others reads)
    (staged : ∀ commit ∈ others, session.isStaged commit .commit = true)
    {last : Loaded} (records : Records session loaded commits)
    (run : loadOthers session (others.zip reads) loaded = .ok last) :
    ∃ more, Records session last (commits ++ more) ∧ more.map Prod.fst = others ∧ last.targets = loaded.targets := by
  induction each generalizing loaded commits with
  | nil =>
    obtain rfl : loaded = last := by simpa [loadOthers] using run
    exact ⟨[], by simpa using records, rfl, rfl⟩
  | @cons checksum read others reads head _ ih =>
    cases read with
    | error fault => cases run
    | ok commit =>
      obtain ⟨present, bytes, entry, parsed⟩ := readOther_eq_ok (staged checksum (.head _)) head
      obtain ⟨more, final, names, targets⟩ := ih (fun other member => staged other (.tail _ member))
        (records.add ⟨present, bytes, entry, parsed.symm⟩) run
      exact ⟨(checksum, commit) :: more, by simpa using final, by simp [names], targets⟩

/-- **The commits of the session are read.** Each new commit and each staged commit is in the
extended store and parses, and the session records its root, its parent and its field 2. -/
theorem loadCommits_spec (run : loadCommits session updates = .ok loaded) :
    ∃ commits, Records session loaded commits ∧
      (∀ commit, commit ∈ commits.map Prod.fst ↔
        (∃ update ∈ updates, update.new = some commit) ∨ session.isStaged commit .commit = true) ∧
      (∀ commit, commit ∈ loaded.targets.map Target.checksum ↔ ∃ update ∈ updates, update.new = some commit) ∧
      (loaded.fields ≠ [] → ∀ commit, commit ∈ loaded.staged ↔ session.isStaged commit .commit = true) := by
  simp only [loadCommits, bind_eq_ok, Prod.exists, mapError_eq_ok, mapM_eq_ok] at run
  obtain ⟨targetReads, targetEach, otherReads, otherEach, first, absent, targets, rest⟩ := run
  split_ifs at rest with missing
  simp only [bind_eq_ok] at rest
  obtain ⟨last, others, made⟩ := rest
  have none_yet : Records session .empty [] := ⟨rfl, rfl, rfl, rfl, by simp⟩
  obtain ⟨-, whole⟩ := loadTargets_spec targetEach none_yet targets
  have nothing : absent.total = Missing.empty.total := by simp only [Missing.empty]; omega
  obtain ⟨new, newRecords, newNames, newTargets, -⟩ := whole nothing
  have otherStaged : ∀ commit ∈ otherCommits session ((newCommits 0 updates []).map Prod.fst),
      session.isStaged commit .commit = true := by
    intro commit member
    exact session.mem_stagedOfType.mp (List.mem_filter.mp member).1
  obtain ⟨other, records, otherNames, sameTargets⟩ := loadOthers_spec otherEach otherStaged newRecords others
  have names : ∀ commit, commit ∈ ([] ++ new ++ other).map Prod.fst ↔
      (∃ update ∈ updates, update.new = some commit) ∨ session.isStaged commit .commit = true := by
    grind [mem_newCommits, otherCommits, Ostrya.Receive.Session.mem_stagedOfType, Session.isStaged]
  refine ⟨[] ++ new ++ other, ?_, names, ?_, ?_⟩
  · split_ifs at made with empty
    · cases made
      exact records
    · cases made
      exact ⟨records.1, records.2, records.3, records.4, records.5⟩
  · grind [Loaded.empty, mem_newCommits]
  · grind

/-! ### The dependencies -/

/-- `HeldDependency`. -/
inductive HeldDependency where
  | absent
  | marked
  | complete (nested : Bool)
  deriving DecidableEq

/-- A commit that field 2 of a commit names: the dependency, the commit that first names it, and the
name of the entry. -/
structure NamedDependency where
  dependency : Checksum
  naming : Checksum
  name : String

section

variable (session : Session)

/-- The state of a commit without a partial marker. -/
def heldComplete : Option Bytes → Except Fault HeldDependency
  | none => .ok .absent
  | some bytes => (hasDependencies bytes).map .complete

/-- The state of a commit with a partial marker. -/
def heldMarked (held : Bool) : HeldDependency := if held then .marked else .absent

/-- `held_dependency_blocking` of a commit that is not staged. -/
def heldDependency (checksum : Checksum) : Except Fault HeldDependency :=
  match session.marker checksum with
  | .error fault => .error fault
  | .ok true => (session.objects.has ⟨checksum, .commit⟩).map heldMarked
  | .ok false =>
    match session.objects.read ⟨checksum, .commit⟩ with
    | .error fault => .error fault
    | .ok bytes => heldComplete bytes

/-- The text of `Error::InvalidRelated` for field 2 of a commit. -/
def invalidRelated (commit : Checksum) (reason : String) : String :=
  "related commits in field 2 of commit " ++ toHex commit ++ ": " ++ reason

/-- `dependency_reason`. -/
def dependencyReason (name : String) (dependency : Checksum) (ending : String) : String :=
  "dependency " ++ name ++ " names commit " ++ toHex dependency ++ ", " ++ ending

/-- `nested_dependency`. -/
def nestedDependency (named : NamedDependency) : Failure :=
  protocol (invalidRelated named.naming
    (dependencyReason named.name named.dependency "which has dependencies of its own"))

/-- `partial_dependency`. -/
def markedDependency (named : NamedDependency) : Failure :=
  .wire (.missingObjects
    (invalidRelated named.naming (dependencyReason named.name named.dependency "which is partial")) [])

/-- `borrowed_dependencies`, from the entry with an index on. -/
def borrowedDependencies (commit : Checksum) : Nat → List (String × Bytes) → Except Failure (List (String × Checksum))
  | _, [] => .ok []
  | index, (name, bytes) :: rest =>
    match Checksum.fromAy bytes, (RelatedEntry.ofPair name bytes).defect index with
    | .ok checksum, none => (borrowedDependencies commit (index + 1) rest).map ((name, checksum) :: ·)
    | _, reason => .error (protocol (invalidRelated commit (reason.getD "")))

/-- The dependencies of one commit that no commit before it names. -/
def addNamed (commit : Checksum) (named : List NamedDependency)
    (entries : List (String × Checksum)) : List NamedDependency :=
  entries.foldl (fun named entry =>
    if entry.2 ∈ named.map NamedDependency.dependency then named else named ++ [⟨entry.2, commit, entry.1⟩]) named

/-- The dependencies that these commits name. -/
def nameDependencies (fields : List (Checksum × List (String × Bytes))) :
    List Checksum → List NamedDependency → Except Failure (List NamedDependency)
  | [], named => .ok named
  | commit :: rest, named =>
    match fields.lookup commit with
    | none => nameDependencies fields rest named
    | some field =>
      match borrowedDependencies commit 0 field with
      | .error failure => .error failure
      | .ok entries => nameDependencies fields rest (addNamed commit named entries)

/-- The dependencies that are neither staged nor held. -/
def absentDependencies (states : List (Checksum × HeldDependency)) (named : List NamedDependency) : Missing :=
  named.foldl (fun absent named =>
    if states.lookup named.dependency = some .absent then absent.add ⟨named.dependency, .commit⟩ else absent) .empty

/-- The last check: each dependency is complete and names no dependency. -/
def checkNamed (fields : List (Checksum × List (String × Bytes)))
    (states : List (Checksum × HeldDependency)) : List NamedDependency → Except Failure Unit
  | [] => .ok ()
  | named :: rest =>
    match states.lookup named.dependency with
    | none =>
      if (fields.lookup named.dependency).isSome then .error (nestedDependency named) else checkNamed fields states rest
    | some (.complete nested) =>
      if nested then .error (nestedDependency named) else checkNamed fields states rest
    | some .marked => .error (markedDependency named)
    -- `unreachable!`: an absent dependency was refused before
    | some .absent => .error (.internal (.other "an absent dependency was refused"))

/-- The new commits that the repository holds with a field 2 and with a partial marker. -/
def markedTargets (loaded : Loaded) : Except Fault (List Checksum) :=
  let held := (loaded.targets.map Target.checksum).filter fun commit =>
    commit ∉ loaded.staged ∧ (loaded.fields.lookup commit).isSome
  (held.mapM session.marker).map fun marks => (held.zip marks).filterMap fun entry =>
    if entry.2 then some entry.1 else none

/-- The checked commits in their order: the new commits, then the other staged commits by
checksum. -/
def namingCommits (loaded : Loaded) (marked : List Checksum) : List Checksum :=
  let news := loaded.targets.map Target.checksum
  let others := (loaded.fields.map Prod.fst).filter fun commit => commit ∉ news
  news.filter (fun commit => commit ∈ loaded.staged ∨ commit ∈ marked) ++
    others.mergeSort fun left right => left.bytes ≤ right.bytes

/-- The states of the dependencies that are not commits of the session. -/
def dependencyStates (loaded : Loaded) (named : List NamedDependency) :
    Except Fault (List (Checksum × HeldDependency)) :=
  let held := (named.map NamedDependency.dependency).filter fun commit =>
    commit ∉ loaded.staged ∧ commit ∉ loaded.targets.map Target.checksum
  (held.mapM (heldDependency session)).map held.zip

/-- `check_dependencies`. -/
def checkDependencies (loaded : Loaded) : Except Failure Unit :=
  if loaded.fields.isEmpty then .ok ()
  else do
    let marked ← (markedTargets session loaded).mapError .internal
    let named ← nameDependencies loaded.fields (namingCommits loaded marked) []
    let states ← (dependencyStates session loaded named).mapError .internal
    let absent := absentDependencies states named
    if 0 < absent.total then .error (missingObjects absent "the staged commits name as dependencies")
    else checkNamed loaded.fields states named

end

/-! ### What the check of the dependencies says -/

variable {named : List NamedDependency} {session : Session}

/-- The object of a commit names no dependency. -/
def NoDependencies (session : Session) (commit : Checksum) : Prop :=
  ∃ bytes, session.bytesOf ⟨commit, .commit⟩ = some bytes ∧
    ((∃ parsed, Commit.parse bytes = .ok parsed ∧ parsed.related = []) ∨ hasDependencies bytes = .ok false)

/-- An entry of field 2 is well formed, and its commit is in the extended store, is complete and
names no dependency. -/
def DependencyMet (session : Session) (news : List Checksum) (entry : String × Bytes) : Prop :=
  entry.1 ≠ "" ∧ ∃ dependency, Checksum.fromAy entry.2 = .ok dependency ∧ session.Present ⟨dependency, .commit⟩ ∧
    (session.isStaged dependency .commit = true ∨ dependency ∈ news ∨ session.marker dependency = .ok false) ∧
    NoDependencies session dependency

theorem borrowedDependencies_eq_ok {field : List (String × Bytes)}
    (run : borrowedDependencies commit index field = .ok entries) :
    ∀ entry ∈ field, entry.1 ≠ "" ∧ ∃ dependency, Checksum.fromAy entry.2 = .ok dependency ∧
      dependency ∈ entries.map Prod.snd := by
  induction field generalizing index entries with
  | nil => simp
  | cons first field ih =>
    obtain ⟨name, bytes⟩ := first
    rw [borrowedDependencies] at run
    split at run
    · next checksum read fine =>
      obtain ⟨rest, more, rfl⟩ := map_eq_ok.mp run
      have nonempty : name ≠ "" := by
        rintro rfl
        simp [RelatedEntry.defect, RelatedEntry.ofPair] at fine
      intro entry member
      rcases List.mem_cons.mp member with rfl | later
      · exact ⟨nonempty, checksum, read, by simp⟩
      · obtain ⟨named, dependency, readLater, inside⟩ := ih more entry later
        exact ⟨named, dependency, readLater, .tail _ inside⟩
    · cases run

theorem mem_addNamed :
    dependency ∈ (addNamed commit named entries).map NamedDependency.dependency ↔
      dependency ∈ named.map NamedDependency.dependency ∨ dependency ∈ entries.map Prod.snd := by
  induction entries generalizing named with
  | nil => simp [addNamed]
  | cons entry entries ih =>
    rw [addNamed, List.foldl_cons, ← addNamed, ih, List.map_cons, List.mem_cons]
    split_ifs with before
    · grind
    · simp only [List.map_append, List.mem_append, List.map_cons, List.map_nil, List.mem_singleton, or_assoc]

/-- Every entry of the field of a naming commit is well formed and its commit is listed. -/
theorem nameDependencies_spec {commits : List Checksum} (run : nameDependencies fields commits named = .ok last) :
    (∀ dependency ∈ named.map NamedDependency.dependency, dependency ∈ last.map NamedDependency.dependency) ∧
      ∀ commit ∈ commits, ∀ field, fields.lookup commit = some field → ∀ entry ∈ field,
        entry.1 ≠ "" ∧ ∃ dependency, Checksum.fromAy entry.2 = .ok dependency ∧
          dependency ∈ last.map NamedDependency.dependency := by
  induction commits generalizing named with
  | nil =>
    obtain rfl : named = last := by simpa [nameDependencies] using run
    exact ⟨fun _ => id, by simp⟩
  | cons commit commits ih =>
    rw [nameDependencies] at run
    split at run
    · grind
    · next field there =>
      split at run
      · cases run
      · next entries borrowed =>
        obtain ⟨grows, rest⟩ := ih run
        refine ⟨fun dependency known => grows dependency (mem_addNamed.mpr (.inl known)), ?_⟩
        intro other member found search entry inside
        rcases List.mem_cons.mp member with rfl | later
        · obtain rfl : field = found := Option.some.inj (there.symm.trans search)
          obtain ⟨nonempty, dependency, read, listed⟩ := borrowedDependencies_eq_ok borrowed entry inside
          exact ⟨nonempty, dependency, read, grows dependency (mem_addNamed.mpr (.inr listed))⟩
        · exact rest other later found search entry inside

theorem checkNamed_eq_ok (run : checkNamed fields states named = .ok ()) :
    ∀ entry ∈ named, (states.lookup entry.dependency = none ∧ fields.lookup entry.dependency = none) ∨
      states.lookup entry.dependency = some (.complete false) := by
  induction named with
  | nil => simp
  | cons first named ih =>
    rw [checkNamed] at run
    intro entry member
    split at run
    · grind [Option.not_isSome_iff_eq_none]
    · grind
    · cases run
    · cases run

theorem heldDependency_complete (run : heldDependency session commit = .ok (.complete nested)) :
    session.marker commit = .ok false ∧
      ∃ bytes, session.objects.entry ⟨commit, .commit⟩ = some bytes ∧ hasDependencies bytes = .ok nested := by
  unfold heldDependency at run
  split at run
  · cases run
  · obtain ⟨held, -, made⟩ := map_eq_ok.mp run
    cases held <;> cases made
  · next unmarked =>
    split at run
    · cases run
    · next found read =>
      cases found with
      | none => cases run
      | some bytes =>
        obtain ⟨answer, fine, made⟩ := map_eq_ok.mp run
        obtain rfl : answer = nested := by simpa using made
        exact ⟨unmarked, bytes, Disk.read_eq_ok read, fine⟩

theorem markedTargets_eq_ok (run : markedTargets session loaded = .ok marked)
    (target : commit ∈ loaded.targets.map Target.checksum) (unstaged : commit ∉ loaded.staged)
    (named : (loaded.fields.lookup commit).isSome) (mark : session.marker commit = .ok true) : commit ∈ marked := by
  obtain ⟨marks, each, rfl⟩ := map_eq_ok.mp run
  rw [mapM_eq_ok] at each
  obtain ⟨value, found, read⟩ := lookup_zip_of_mem each
    (show commit ∈ _ from List.mem_filter.mpr ⟨target, by simp [unstaged, named]⟩)
  obtain rfl : true = value := by simpa using mark.symm.trans read
  exact List.mem_filterMap.mpr ⟨(commit, true), mem_of_lookup found, rfl⟩

theorem CommitAt.unique {first second : Commit}
    (left : CommitAt session checksum first) (right : CommitAt session checksum second) : first = second := by
  obtain ⟨-, bytes, found, parsed⟩ := left
  obtain ⟨-, others, alsoFound, alsoParsed⟩ := right
  obtain rfl : bytes = others := Option.some.inj (found.symm.trans alsoFound)
  exact Except.ok.inj (parsed.symm.trans alsoParsed)

/-- The session keeps field 2 of exactly those of its commits that have one. -/
theorem Records.lookup_fields (records : Records session loaded commits) (member : entry ∈ commits) :
    loaded.fields.lookup entry.1 = if entry.2.related.isEmpty then none else some entry.2.related := by
  have sound : ∀ field, loaded.fields.lookup entry.1 = some field → field = entry.2.related ∧ ¬ field.isEmpty := by
    intro field found
    have inside := mem_of_lookup found
    rw [records.fields] at inside
    obtain ⟨other, kept, same⟩ := List.mem_map.mp inside
    obtain ⟨among, nonempty⟩ := List.mem_filter.mp kept
    obtain ⟨sameKey, rfl⟩ := Prod.mk.inj same
    have held := records.held other among
    rw [sameKey] at held
    rw [held.unique (records.held entry member)] at nonempty ⊢
    exact ⟨rfl, by simpa using nonempty⟩
  split_ifs with empty
  · cases found : loaded.fields.lookup entry.1 with
    | none => rfl
    | some field =>
      obtain ⟨rfl, nonempty⟩ := sound field found
      exact absurd empty nonempty
  · have inside : (entry.1, entry.2.related) ∈ loaded.fields := by
      rw [records.fields]
      exact List.mem_map.mpr ⟨entry, List.mem_filter.mpr ⟨member, by simpa using empty⟩, rfl⟩
    obtain ⟨field, found⟩ := lookup_of_mem inside
    rw [found, (sound field found).1]

/-- A checked commit with a field 2 is among the naming commits. -/
theorem mem_namingCommits (named : (loaded.fields.lookup commit).isSome)
    (checked : commit ∈ loaded.targets.map Target.checksum → commit ∈ loaded.staged ∨ commit ∈ marked) :
    commit ∈ namingCommits loaded marked := by
  unfold namingCommits
  rw [List.mem_append, List.mem_mergeSort, List.mem_filter, List.mem_filter]
  by_cases new : commit ∈ loaded.targets.map Target.checksum
  · exact .inl ⟨new, by simpa using checked new⟩
  · obtain ⟨field, found⟩ := Option.isSome_iff_exists.mp named
    exact .inr ⟨List.mem_map.mpr ⟨_, mem_of_lookup found, rfl⟩, by simpa using new⟩

/-- **The dependencies of the checked commits.** If the check passes, each entry of field 2 of each
commit of the session that is staged or has a partial marker is met. -/
theorem checkDependencies_spec (records : Records session loaded commits)
    (covered : ∀ commit, commit ∈ commits.map Prod.fst ↔
      commit ∈ loaded.targets.map Target.checksum ∨ session.isStaged commit .commit = true)
    (staged : loaded.fields ≠ [] → ∀ commit, commit ∈ loaded.staged ↔ session.isStaged commit .commit = true)
    (run : checkDependencies session loaded = .ok ()) :
    ∀ entry ∈ commits, session.isStaged entry.1 .commit = true ∨ session.marker entry.1 = .ok true →
      ∀ dependency ∈ entry.2.related, DependencyMet session (loaded.targets.map Target.checksum) dependency := by
  intro entry member checked dependency inside
  have some_related : entry.2.related.isEmpty = false := by
    cases empty : entry.2.related with
    | nil => simp [empty] at inside
    | cons => rfl
  have field : loaded.fields.lookup entry.1 = some entry.2.related := by
    rw [records.lookup_fields member, some_related]
    rfl
  have some_field : loaded.fields ≠ [] := fun none_there => by simp [none_there] at field
  unfold checkDependencies at run
  rw [if_neg (by simpa using some_field)] at run
  simp only [bind_eq_ok, mapError_eq_ok] at run
  obtain ⟨marked, marks, named, naming, states, held, rest⟩ := run
  split_ifs at rest with absent
  have isNaming : entry.1 ∈ namingCommits loaded marked := by
    grind [mem_namingCommits, field, markedTargets_eq_ok]
  obtain ⟨nonempty, commit, read, listed⟩ := (nameDependencies_spec naming).2 _ isNaming _ field dependency inside
  obtain ⟨first, among, rfl⟩ := List.mem_map.mp listed
  refine ⟨nonempty, first.dependency, read, ?_⟩
  obtain ⟨values, each, rfl⟩ := map_eq_ok.mp held
  rw [mapM_eq_ok] at each
  by_cases ofSession : first.dependency ∈ commits.map Prod.fst
  · -- A commit of the session: the walk covers its tree, and its own field 2 is known.
    have outside : first.dependency ∉ ((named.map NamedDependency.dependency).filter fun commit =>
        commit ∉ loaded.staged ∧ commit ∉ loaded.targets.map Target.checksum) := by
      grind
    obtain ⟨unknown, unnamed⟩ := (checkNamed_eq_ok rest first among).resolve_right
      fun known => outside (mem_of_lookup_zip each known).1
    obtain ⟨own, ownMember, sameKey⟩ := List.mem_map.mp ofSession
    rw [← sameKey] at unnamed ⊢
    have noField : own.2.related = [] := by
      rw [records.lookup_fields ownMember] at unnamed
      split_ifs at unnamed with empty
      exact List.isEmpty_iff.mp empty
    obtain ⟨present, bytes, found, parsed⟩ := records.held own ownMember
    refine ⟨present, ?_, bytes, found, .inl ⟨own.2, parsed, noField⟩⟩
    rcases (covered _).mp (sameKey ▸ ofSession) with target | isStaged
    · exact .inr (.inl target)
    · exact .inl isStaged
  · have notStaged : ¬ session.isStaged first.dependency .commit = true := fun is =>
      ofSession ((covered _).mpr (.inr is))
    have notNew : first.dependency ∉ loaded.targets.map Target.checksum := fun is =>
      ofSession ((covered _).mpr (.inl is))
    obtain ⟨state, known, -⟩ := lookup_zip_of_mem each
      (show first.dependency ∈ _ from List.mem_filter.mpr ⟨listed, by simp [staged some_field, notStaged, notNew]⟩)
    have complete := (checkNamed_eq_ok rest first among).resolve_left fun unknown => by
      rw [known] at unknown
      cases unknown.1
    obtain ⟨unmarked, bytes, found, fine⟩ := heldDependency_complete (mem_of_lookup_zip each complete).2
    have outside : ⟨first.dependency, .commit⟩ ∉ session.staged := by simpa [Session.isStaged] using notStaged
    exact ⟨.inr (by rw [found]; rfl), .inr (.inr unmarked), bytes,
      by rw [Session.bytesOf, if_neg outside, found], .inr fine⟩

end Ostrya.Receive
