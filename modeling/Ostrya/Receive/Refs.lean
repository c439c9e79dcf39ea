/-
**The rules of a ref update** (`check_ref_paths` and `check_ref` of `receive/finish.rs`, `rule` of `receive/policy.rs`).

The policy gives each update a rule. Under the update lock the state of each ref is read, the paths of the message are
checked against each other, and each update is checked against its ref. `RefRules` says what holds of an update that
passes, and `checkRef_spec` that it holds.
-/

import Ostrya.Receive.Ancestry

namespace Ostrya.Receive

open ByteFormat Gvariant Ostrya.Core Repo Delta Remote

/-! ### The policy -/

/-- `AccessModes`. -/
structure AccessModes where
  read : Bool
  write : Bool
  commit : Bool
  tag : Bool
  delete : Bool
  deriving DecidableEq

/-- `ReceivePolicy`, as far as the rules of an update read it: the rights that its access rules give
a plain ref, and whether the session regenerates the summary. -/
structure ReceivePolicy where
  refRights : String → AccessModes
  regeneratesSummary : Bool

/-- `ReceivePolicy::rights`. A remote ref has no right. -/
def ReceivePolicy.rights (policy : ReceivePolicy) (refspec : String) : AccessModes :=
  if ':' ∈ refspec.toList then ⟨false, false, false, false, false⟩ else policy.refRights refspec

/-- `UpdateRule`, without the keys of its signatures. -/
structure UpdateRule where
  createOnly : Bool
  allowDelete : Bool
  allowNonFastForward : Bool
  deriving DecidableEq

/-- `ReceivePolicy::rule`. -/
def ReceivePolicy.rule (policy : ReceivePolicy) (update : RefUpdate) : Except Failure UpdateRule :=
  if ':' ∈ update.name.toList then
    .error (refDenied ("ref '" ++ update.name ++ "' is a remote ref, which a push session does not write"))
  else
    let rights := policy.rights update.name
    if update.new.isSome ∧ ¬ rights.write ∧ ¬ rights.tag then
      .error (refDenied ("the policy gives no w or t on ref '" ++ update.name ++ "'"))
    else .ok ⟨rights.tag && !rights.write, rights.delete, rights.write && rights.delete⟩

/-! ### The paths of the refs -/

/-- `RefFileState`. -/
inductive RefFileState where
  | absent
  | commit (checksum : Checksum)
  | alias
  | notARef
  deriving DecidableEq

/-- A ref of the message: its name, its path under `refs/`, and whether the message writes a commit
to it. -/
structure MessageRef where
  name : String
  path : String
  writes : Bool

/-- The commit that a ref names, or the refusal of what a ref write cannot replace. -/
def currentOf (name : String) : RefFileState → Except Failure (Option Checksum)
  | .absent => .ok none
  | .commit commit => .ok (some commit)
  | .alias => .error (refDenied ("ref '" ++ name ++ "' is an alias of another ref"))
  | .notARef =>
    .error (refDenied ("ref '" ++ name ++
      "' names a directory or a path below a ref file, which a ref write cannot replace"))

/-- The part of a path before its last slash. -/
def rsplitOnce : List Char → Option (List Char)
  | [] => none
  | char :: rest =>
    match rsplitOnce rest with
    | some parent => some (char :: parent)
    | none => if char = '/' then some [] else none

/-- The directories of a path, the longest first. Each one is shorter than the path, which bounds
the loop. -/
def checkAbove (written : List (String × String)) (name : String) : Nat → List Char → Except Failure Unit
  | 0, _ => .ok ()
  | fuel + 1, path =>
    match rsplitOnce path with
    | none => .ok ()
    | some parent =>
      match written.lookup (String.ofList parent) with
      | some other =>
        .error (refDenied ("ref '" ++ name ++ "' names a path below ref '" ++ other ++ "' of the same message"))
      | none => checkAbove written name fuel parent

/-- `check_ref_paths`. -/
def checkRefPaths (refs : List MessageRef) (states : List RefFileState) : Except Failure (List (Option Checksum)) := do
  let current ← (refs.zip states).mapM fun entry => currentOf entry.1.name entry.2
  let writes := refs.filter MessageRef.writes
  -- a later ref of a path replaces an earlier one
  let written := writes.reverse.map fun ref => (ref.path, ref.name)
  checkEach (fun ref => checkAbove written ref.name ref.path.toList.length ref.path.toList) writes
  .ok current

/-! ### One update under the lock -/

/-- Whether a ref is in the state that an update expects. -/
def Expected.met (expected : Expected) (current : Option Checksum) : Bool :=
  match expected with
  | .absent => current.isNone
  | .commit commit => current = some commit
  | .any => true

section

variable (later : Nat → Disk) (fuel : Nat)

/-- The chain of a move: the walk before the lock, else a new one. -/
def chainFor (walks : Walks) (chain : Option Nat) (new current : Checksum) : Option (Except Failure (Nat × Walks)) :=
  match chain with
  | some position => some (.ok (position, walks))
  | none => walks.chain later fuel new current

/-- The check of a move to a commit that must descend from the current one. -/
def checkMove (name : String) (walks : Walks) (chain : Option Nat) (new current : Checksum) :
    Option (Except Failure (Bool × Walks)) :=
  match chainFor later fuel walks chain new current with
  | none => none
  | some (.error failure) => some (.error failure)
  | some (.ok (position, walks)) =>
    match walks.reaches later fuel position current with
    | none => none
    | some (.error failure) => some (.error failure)
    | some (.ok (true, walks)) => some (.ok (true, walks))
    | some (.ok (false, _)) =>
      some (.error (.wire (.nonFastForward ("commit " ++ toHex new ++ " does not descend from " ++ toHex current ++
        ", the commit of ref '" ++ name ++ "'"))))

/-- The check of an update whose ref is in the expected state. -/
def checkChange (update : RefUpdate) (rule : UpdateRule) (force : Bool) (current : Option Checksum)
    (chain : Option Nat) (walks : Walks) : Option (Except Failure (Bool × Walks)) :=
  match current, update.new with
  | none, none => some (.ok (false, walks))
  | none, some _ => some (.ok (true, walks))
  | some _, none =>
    if rule.allowDelete then some (.ok (true, walks))
    else some (.error (.wire (.deleteDenied ("the policy does not allow a delete of ref '" ++ update.name ++ "'"))))
  | some current, some new =>
    if rule.createOnly then
      some (.error (.wire (.refMismatch
        ("ref '" ++ update.name ++ "' is at " ++ toHex current ++
          ", and the policy lets an update create the ref and not write to it") update.name (some current))))
    else if current = new then some (.ok (false, walks))
    else if force && rule.allowNonFastForward then some (.ok (true, walks))
    else checkMove later fuel update.name walks chain new current

/-- `check_ref`. -/
def checkRef (update : RefUpdate) (rule : UpdateRule) (force : Bool) (current : Option Checksum)
    (chain : Option Nat) (walks : Walks) : Option (Except Failure (Bool × Walks)) :=
  if Expected.met update.expected current then checkChange later fuel update rule force current chain walks
  else
    let state := current.elim "absent" fun commit => "at " ++ toHex commit
    some (.error (.wire (.refMismatch ("ref '" ++ update.name ++ "' is " ++ state) update.name current)))

end

/-! ### What an update that passes obeys -/

/-- The rules of a push for one update: the ref is in the expected state; a write has `w`, or has
`t` and the ref is absent; a delete of a ref that is present has `d`; a move stays on the parent
chain of the new commit, unless it is forced on a ref with `w` and `d`. -/
structure RefRules (onChain : Checksum → Checksum → Prop) (rights : AccessModes) (force : Bool)
    (update : RefUpdate) (current : Option Checksum) : Prop where
  expected : Expected.met update.expected current = true
  write : update.new.isSome = true → rights.write = true ∨ (rights.tag = true ∧ current = none)
  delete : update.new = none → current.isSome = true → rights.delete = true
  move : ∀ old new, current = some old → update.new = some new → old ≠ new →
    onChain new old ∨ (force = true ∧ rights.write = true ∧ rights.delete = true)

variable {current : Option Checksum} {update : RefUpdate} {name : String}

theorem RefRules.mono (rules : RefRules first rights force update current)
    (weaker : ∀ new old, first new old → second new old) : RefRules second rights force update current :=
  ⟨rules.expected, rules.write, rules.delete,
    fun old new isOld isNew differ => (rules.move old new isOld isNew differ).imp_left (weaker new old)⟩

theorem rule_eq_ok {policy : ReceivePolicy} (run : policy.rule update = .ok rule) :
    let rights := policy.rights update.name
    (update.new.isSome = true → rights.write = true ∨ rights.tag = true) ∧
      rule = ⟨rights.tag && !rights.write, rights.delete, rights.write && rights.delete⟩ := by
  unfold ReceivePolicy.rule at run
  dsimp only at run
  split_ifs at run with remote denied
  refine ⟨fun writes => ?_, (Except.ok.inj run).symm⟩
  by_contra neither
  push Not at neither
  exact denied ⟨writes, by simpa using neither⟩

section

variable {session : Parents} {later : Nat → Disk} {fuel : Nat}

theorem checkMove_spec {owners : List Checksum} {walks last : Walks} {chain : Option Nat}
    {new current : Checksum} {changed : Bool} (sound : WalksSound session later owners walks)
    (owner : ∀ position, chain = some position → owners[position]? = some new)
    (run : checkMove later fuel name walks chain new current = some (.ok (changed, last))) :
    ∃ more, WalksSound session later (owners ++ more) last ∧ OnChain session later new current := by
  unfold checkMove at run
  split at run
  · cases run
  · cases run
  next position walks' chosen =>
  have started : ∃ more, WalksSound session later (owners ++ more) walks' ∧ (owners ++ more)[position]? = some new := by
    unfold chainFor at chosen
    split at chosen
    · next known =>
      cases chosen
      exact ⟨[], by simpa using sound, by simpa using owner position rfl⟩
    · exact Walks.chain_spec sound chosen
  obtain ⟨more, sound, owner⟩ := started
  split at run
  · cases run
  · cases run
  · next reached =>
    cases run
    obtain ⟨final, on⟩ := Walks.reaches_spec sound owner reached
    exact ⟨more, final, on rfl⟩
  · cases run

/-- **An update that passes obeys the rules**, and the walks stay sound. -/
theorem checkRef_spec {policy : ReceivePolicy} {owners : List Checksum} {walks last : Walks}
    {rule : UpdateRule} {force changed : Bool} {chain : Option Nat}
    (allowed : policy.rule update = .ok rule) (sound : WalksSound session later owners walks)
    (owner : ∀ position, chain = some position → ∃ new, update.new = some new ∧ owners[position]? = some new)
    (run : checkRef later fuel update rule force current chain walks = some (.ok (changed, last))) :
    (∃ more, WalksSound session later (owners ++ more) last) ∧
      RefRules (OnChain session later) (policy.rights update.name) force update current := by
  obtain ⟨written, rfl⟩ := rule_eq_ok allowed
  unfold checkRef at run
  by_cases expected : Expected.met update.expected current = true
  swap
  · rw [if_neg expected] at run
    cases run
  rw [if_pos expected] at run
  have stays : ∃ more, WalksSound session later (owners ++ more) walks := ⟨[], by simpa using sound⟩
  unfold checkChange at run
  split at run
  · next isAbsent isDelete =>
    cases run
    exact ⟨stays, expected, by simp [isDelete], by simp, by simp⟩
  · next isAbsent new isWrite =>
    cases run
    refine ⟨stays, expected, fun writes => ?_, by simp, by simp⟩
    exact (written writes).imp_right fun tag => ⟨tag, rfl⟩
  · next old isDelete =>
    split_ifs at run with mayDelete
    · cases run
      exact ⟨stays, expected, by simp [isDelete], fun _ _ => mayDelete, by simp [isDelete]⟩
    · cases run
  · next old new isWrite =>
    have isNew : ∀ other, update.new = some other → other = new := fun other same => by simpa [isWrite] using same.symm
    by_cases createOnly : ((policy.rights update.name).tag && !(policy.rights update.name).write) = true
    · rw [if_pos createOnly] at run
      cases run
    rw [if_neg createOnly] at run
    have writes : (policy.rights update.name).write = true := by
      rcases written (by simp [isWrite]) with write | tag
      · exact write
      · simpa [tag] using createOnly
    split_ifs at run with same forced
    · cases run
      refine ⟨stays, expected, fun _ => .inl writes, by simp [isWrite], fun first second isFirst isSecond differ => ?_⟩
      cases isFirst
      exact absurd (same.trans (isNew second isSecond).symm) differ
    · cases run
      exact ⟨stays, expected, fun _ => .inl writes, by simp [isWrite], fun _ _ _ _ _ => .inr (by simpa using forced)⟩
    · have ownChain : ∀ position, chain = some position → owners[position]? = some new := by
        intro position known
        obtain ⟨other, isOther, isOwner⟩ := owner position known
        rwa [isNew other isOther] at isOwner
      obtain ⟨more, final, on⟩ := checkMove_spec sound ownChain run
      refine ⟨⟨more, final⟩, expected,
        fun _ => .inl writes, by simp [isWrite], fun first second isFirst isSecond _ => ?_⟩
      cases isFirst
      rw [isNew second isSecond]
      exact .inl on

end

/-! ### Paths -/

theorem rsplitOnce_eq_none (run : rsplitOnce path = none) : '/' ∉ path := by
  induction path with
  | nil => simp
  | cons char rest ih =>
    grind [rsplitOnce]

theorem rsplitOnce_eq_some (run : rsplitOnce path = some parent) :
    ∃ tail, path = parent ++ '/' :: tail ∧ '/' ∉ tail := by
  induction path generalizing parent with
  | nil => cases run
  | cons char rest ih =>
    grind [rsplitOnce, rsplitOnce_eq_none]

/-- A directory of a path is the part before the last slash, or a directory of that part. -/
theorem directory_cases (same : directory ++ '/' :: rest = parent ++ '/' :: tail)
    (last : '/' ∉ tail) : directory = parent ∨ ∃ more, parent = directory ++ '/' :: more := by
  rcases List.append_eq_append_iff.mp same with ⟨between, rfl, cut⟩ | ⟨between, rfl, cut⟩
  · cases between with
    | nil => exact .inl (by simp)
    | cons char between =>
      obtain ⟨rfl, -⟩ := List.cons.inj cut
      exact .inr ⟨between, rfl⟩
  · cases between with
    | nil => exact .inl (by simp)
    | cons char between =>
      obtain ⟨-, rfl⟩ := List.cons.inj cut
      exact absurd (by simp) last

theorem checkAbove_eq_ok (enough : path.length ≤ fuel) (run : checkAbove written name fuel path = .ok ())
    (below : path = directory ++ '/' :: rest) : written.lookup (String.ofList directory) = none := by
  induction fuel generalizing path rest with
  | zero =>
    rw [below, List.length_append] at enough
    simp at enough
  | succ fuel ih =>
    rw [checkAbove] at run
    split at run
    · next none_left => exact absurd (by simp [below]) (rsplitOnce_eq_none none_left)
    · grind [rsplitOnce_eq_some, directory_cases, List.length_append, List.length_cons]

/-- One path is a directory of another. -/
def DirectoryOf (directory path : String) : Prop := ∃ rest, path.toList = directory.toList ++ '/' :: rest

/-- **The paths of a message that passes**: each ref is absent or names a commit, and no written
path is a directory of another. -/
theorem checkRefPaths_spec {refs : List MessageRef} {current : List (Option Checksum)}
    (run : checkRefPaths refs states = .ok current) :
    List.Forall₂ (fun entry value => currentOf entry.1.name entry.2 = .ok value) (refs.zip states) current ∧
      ∀ first ∈ refs, ∀ second ∈ refs, first.writes = true → second.writes = true →
        ¬ DirectoryOf first.path second.path := by
  simp only [checkRefPaths, bind_eq_ok, mapM_eq_ok] at run
  obtain ⟨values, each, ⟨⟩, above, same⟩ := run
  cases same
  rw [checkEach_eq_ok] at above
  refine ⟨each, fun first firstMember second secondMember firstWrites secondWrites ⟨rest, below⟩ => ?_⟩
  have free := checkAbove_eq_ok le_rfl (above second (List.mem_filter.mpr ⟨secondMember, secondWrites⟩)) below
  have inside : (first.path, first.name) ∈ (refs.filter MessageRef.writes).reverse.map fun ref =>
      (ref.path, ref.name) :=
    List.mem_map.mpr ⟨first, List.mem_reverse.mpr (List.mem_filter.mpr ⟨firstMember, firstWrites⟩), rfl⟩
  obtain ⟨other, found⟩ := lookup_of_mem inside
  rw [String.ofList_toList, found] at free
  cases free

theorem currentOf_eq_ok (run : currentOf name state = .ok current) :
    state = current.elim .absent .commit := by
  cases state <;> cases run <;> rfl

end Ostrya.Receive
