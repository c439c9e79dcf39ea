/-
**The fast-forward walk** (`receive/ancestry.rs`).

A walk follows the parents of a new commit to the commit that it looks for, to a commit that is not there, or to a
commit with no parent, and can go on later from where it stopped. The walks of one `Commit` share the parents that they
read. Between two reads of `objects/` other writers can change it, so each read has its own state of the directory.
`Walks.reaches_spec` says that a commit that a walk reports is on the parent chain of the new commit.
-/

import Ostrya.Receive.Session
import Ostrya.ByteFormat.Table
import Ostrya.ByteFormat.Results
import Mathlib.Logic.Relation

namespace Ostrya.Receive

open ByteFormat Gvariant Ostrya.Core Repo Delta

/-- `Parents`. An entry with no value is a commit with no parent. -/
abbrev Parents := List (Checksum × Option Checksum)

/-- `End`. -/
inductive Stop where
  | target (commit : Checksum)
  | absent (commit : Checksum)
  | root
  deriving DecidableEq

/-- `Chain`. -/
structure Chain where
  seen : List Checksum
  stop : Stop

/-- `Walks`, and how many commits the walks read from `objects/`. -/
structure Walks where
  parents : Parents
  chains : List Chain
  index : List ((Checksum × Checksum) × Nat)
  reads : Nat

/-- `Walks::new`. -/
def Walks.new (parents : Parents) : Walks := ⟨parents, [], [], 0⟩

/-- `stored_parent`. Nothing is a commit that the directory does not hold. -/
def storedParent (disk : Disk) (commit : Checksum) : Except Fault (Option (Option Checksum)) :=
  match disk.read ⟨commit, .commit⟩ with
  | .error fault => .error fault
  | .ok none => .ok none
  | .ok (some bytes) =>
    match Commit.parse bytes with
    | .error fault => .error (.invalidFormat ("commit " ++ toHex commit ++ " does not parse: " ++ coreText fault))
    | .ok parsed => .ok (some parsed.parent)

section

-- `objects/` at each read of the walks
variable (later : Nat → Disk)

/-- The parent of a commit of a walk: from the parents that are known, else from `objects/`. -/
def Walks.parent (walks : Walks) (commit : Checksum) : Except Failure (Option (Option Checksum) × Walks) :=
  match walks.parents.lookup commit with
  | some parent => .ok (some parent, walks)
  | none =>
    match storedParent (later walks.reads) commit with
    | .error fault => .error (.internal fault)
    | .ok none => .ok (none, { walks with reads := walks.reads + 1 })
    | .ok (some parent) =>
      .ok (some parent, { walks with parents := (commit, parent) :: walks.parents, reads := walks.reads + 1 })

/-- `Chain::extend`. Without fuel the walk has not ended. -/
def extend (target : Checksum) : Nat → Walks → Chain → Checksum → Option (Except Failure (Chain × Walks))
  | 0, _, _, _ => none
  | fuel + 1, walks, chain, next =>
    let seen := next :: chain.seen
    if next = target then some (.ok (⟨seen, .target next⟩, walks))
    else
      match walks.parent later next with
      | .error failure => some (.error failure)
      | .ok (none, walks) => some (.ok (⟨seen, .absent next⟩, walks))
      | .ok (some none, walks) => some (.ok (⟨seen, .root⟩, walks))
      | .ok (some (some parent), walks) => extend target fuel walks ⟨seen, chain.stop⟩ parent

variable (fuel : Nat)

/-- `Walks::chain`. -/
def Walks.chain (walks : Walks) (new target : Checksum) : Option (Except Failure (Nat × Walks)) :=
  match walks.index.lookup (new, target) with
  | some position => some (.ok (position, walks))
  | none =>
    match extend later target fuel walks ⟨[], .root⟩ new with
    | none => none
    | some (.error failure) => some (.error failure)
    | some (.ok (chain, walks)) =>
      some (.ok (walks.chains.length,
        { walks with
          chains := walks.chains ++ [chain]
          index := ((new, target), walks.chains.length) :: walks.index }))

/-- A walk that goes on from where it stopped. -/
def Walks.resume (walks : Walks) (position : Nat) (chain : Chain) (start current : Checksum) :
    Option (Except Failure (Bool × Walks)) :=
  match extend later current fuel walks chain start with
  | none => none
  | some (.error failure) => some (.error failure)
  | some (.ok (chain, walks)) =>
    some (.ok (current ∈ chain.seen, { walks with chains := walks.chains.set position chain }))

/-- `Walks::reaches`. -/
def Walks.reaches (walks : Walks) (position : Nat) (current : Checksum) : Option (Except Failure (Bool × Walks)) :=
  match walks.chains[position]? with
  -- the source indexes the chains with a position that `chain` gave
  | none => none
  | some chain =>
    if current ∈ chain.seen then some (.ok (true, walks))
    else
      match chain.stop with
      | .root => some (.ok (false, walks))
      | .target start => walks.resume later fuel position chain start current
      | .absent start => walks.resume later fuel position chain start current

end

/-! ### The parent chain -/

section

variable (session : Parents) (later : Nat → Disk)

/-- The commit is stored, at one of the reads, with this parent. -/
def StoredParent (commit : Checksum) (parent : Option Checksum) : Prop :=
  ∃ read bytes parsed, (later read).entry ⟨commit, .commit⟩ = some bytes ∧
    Commit.parse bytes = .ok parsed ∧ parsed.parent = parent

/-- The parent of a commit: that of the session, else that of the stored commit. -/
def HasParent (commit : Checksum) (parent : Option Checksum) : Prop :=
  session.lookup commit = some parent ∨ session.lookup commit = none ∧ StoredParent later commit parent

/-- The commit is on the parent chain of a new commit, or is the new commit. -/
def OnChain (new commit : Checksum) : Prop :=
  Relation.ReflTransGen (fun child parent => HasParent session later child (some parent)) new commit

/-- What the walks know of parents is right, and the commits of the session keep their parents. -/
structure ParentsSound (walks : Walks) : Prop where
  sound : ∀ commit parent, walks.parents.lookup commit = some parent → HasParent session later commit parent
  kept : ∀ commit parent, session.lookup commit = some parent → walks.parents.lookup commit = some parent

/-- What a walk passed is on the parent chain of its new commit, and so is the commit where it
stopped. -/
structure ChainSound (new : Checksum) (chain : Chain) : Prop where
  seen : ∀ commit ∈ chain.seen, OnChain session later new commit
  target : ∀ commit, chain.stop = .target commit → OnChain session later new commit
  absent : ∀ commit, chain.stop = .absent commit → OnChain session later new commit

/-- The walks of a session, whose chains are those of the commits `owners`. -/
structure WalksSound (owners : List Checksum) (walks : Walks) : Prop where
  parents : ParentsSound session later walks
  chains : List.Forall₂ (ChainSound session later) owners walks.chains
  index : ∀ new target position, walks.index.lookup (new, target) = some position → owners[position]? = some new

end

variable {session : Parents} {later : Nat → Disk} {fuel : Nat}

theorem storedParent_eq_ok (run : storedParent disk commit = .ok (some parent)) :
    ∃ bytes parsed, disk.entry ⟨commit, .commit⟩ = some bytes ∧ Commit.parse bytes = .ok parsed ∧
      parsed.parent = parent := by
  unfold storedParent at run
  split at run
  · cases run
  · cases run
  · next bytes read =>
    split at run
    · cases run
    · next parsed fine =>
      exact ⟨bytes, parsed, Disk.read_eq_ok read, fine, by simpa using run⟩

/-- A known parent stands, and a stored parent is added; the chains do not change. -/
theorem Walks.parent_spec {walks last : Walks} {parent : Option (Option Checksum)}
    (sound : ParentsSound session later walks) (run : walks.parent later commit = .ok (parent, last)) :
    ParentsSound session later last ∧ last.chains = walks.chains ∧ last.index = walks.index ∧
      ∀ found, parent = some found → HasParent session later commit found := by
  unfold Walks.parent at run
  split at run
  · next known found =>
    obtain ⟨rfl, rfl⟩ : some known = parent ∧ walks = last := by simpa using run
    exact ⟨sound, rfl, rfl, fun other same => Option.some.inj same ▸ sound.sound commit known found⟩
  · next unknown =>
    have outside : session.lookup commit = none := by
      cases held : session.lookup commit with
      | none => rfl
      | some parent => rw [sound.kept commit parent held] at unknown; cases unknown
    split at run
    · cases run
    · obtain ⟨rfl, rfl⟩ : none = parent ∧ { walks with reads := walks.reads + 1 } = last := by simpa using run
      exact ⟨⟨sound.sound, sound.kept⟩, rfl, rfl, by simp⟩
    · next found read =>
      cases run
      have stored : HasParent session later commit found := by
        obtain ⟨bytes, parsed, entry, fine, same⟩ := storedParent_eq_ok read
        exact .inr ⟨outside, walks.reads, bytes, parsed, entry, fine, same⟩
      refine ⟨⟨fun other parent search => ?_, fun other parent held => ?_⟩, rfl, rfl,
        fun other same => Option.some.inj same ▸ stored⟩
      · rw [List.lookup_cons] at search
        split at search
        · next same =>
          obtain rfl := eq_of_beq same
          exact Option.some.inj search ▸ stored
        · exact sound.sound other parent search
      · rw [List.lookup_cons]
        split
        · next same =>
          obtain rfl := eq_of_beq same
          rw [outside] at held
          cases held
        · exact sound.kept other parent held

/-- **A walk stays on the parent chain.** -/
theorem extend_spec {new target next : Checksum} {chain result : Chain}
    (sound : ParentsSound session later walks) (passed : ChainSound session later new chain)
    (on : OnChain session later new next)
    (run : extend later target fuel walks chain next = some (.ok (result, last))) :
    ParentsSound session later last ∧ last.chains = walks.chains ∧ last.index = walks.index ∧
      ChainSound session later new result := by
  induction fuel generalizing walks chain next with
  | zero => cases run
  | succ fuel ih =>
    have seen : ∀ commit ∈ next :: chain.seen, OnChain session later new commit :=
      List.forall_mem_cons.mpr ⟨on, passed.seen⟩
    rw [extend] at run
    split_ifs at run with arrived
    · cases run
      exact ⟨sound, rfl, rfl, seen, fun commit same => Stop.target.inj same ▸ on, by simp⟩
    · split at run
      · cases run
      · next walks' step =>
        cases run
        obtain ⟨kept, chains, index, -⟩ := Walks.parent_spec sound step
        exact ⟨kept, chains, index, seen, by simp, fun commit same => Stop.absent.inj same ▸ on⟩
      · next walks' step =>
        cases run
        obtain ⟨kept, chains, index, -⟩ := Walks.parent_spec sound step
        exact ⟨kept, chains, index, seen, by simp, by simp⟩
      · next parent walks' step =>
        obtain ⟨kept, chains, index, edge⟩ := Walks.parent_spec sound step
        have further : ChainSound session later new ⟨next :: chain.seen, chain.stop⟩ :=
          ⟨seen, passed.target, passed.absent⟩
        obtain ⟨final, sameChains, sameIndex, whole⟩ := ih kept further (on.tail (edge _ rfl)) run
        exact ⟨final, sameChains.trans chains, sameIndex.trans index, whole⟩

theorem WalksSound.new (session : Parents) (later : Nat → Disk) : WalksSound session later [] (Walks.new session) :=
  ⟨⟨fun _ _ found => .inl found, fun _ _ => id⟩, .nil, by simp [Walks.new]⟩

theorem Walks.chain_spec {owners : List Checksum} {new target : Checksum}
    (sound : WalksSound session later owners walks)
    (run : walks.chain later fuel new target = some (.ok (position, last))) :
    ∃ more, WalksSound session later (owners ++ more) last ∧ (owners ++ more)[position]? = some new := by
  unfold Walks.chain at run
  split at run
  · next known found =>
    obtain ⟨rfl, rfl⟩ : known = position ∧ walks = last := by simpa using run
    exact ⟨[], by simpa using sound, by simpa using sound.index new target known found⟩
  · split at run
    · cases run
    · cases run
    · next chain walks' walked =>
      obtain ⟨kept, chains, index, whole⟩ :=
        extend_spec sound.parents ⟨by simp, by simp, by simp⟩ Relation.ReflTransGen.refl walked
      cases run
      have length : owners.length = walks'.chains.length := by rw [chains, sound.chains.length_eq]
      have last : (owners ++ [new])[walks'.chains.length]? = some new := by
        rw [← length, List.getElem?_concat_length]
      refine ⟨[new], ⟨⟨kept.sound, kept.kept⟩, ?_, ?_⟩, last⟩
      · exact List.rel_append (chains ▸ sound.chains) (.cons whole .nil)
      · intro other goal at_position search
        rw [List.lookup_cons] at search
        split at search
        · next same =>
          obtain ⟨rfl, rfl⟩ := Prod.mk.inj (eq_of_beq same)
          exact Option.some.inj search ▸ last
        · rw [index] at search
          have before := sound.index other goal at_position search
          rw [List.getElem?_append_left (List.getElem?_eq_some_iff.mp before).1]
          exact before

/-- **A commit that a walk reaches is on the parent chain** of the new commit of the walk. -/
theorem Walks.reaches_spec {owners : List Checksum} {new current : Checksum} {position : Nat}
    (sound : WalksSound session later owners walks) (owner : owners[position]? = some new)
    (run : walks.reaches later fuel position current = some (.ok (answer, last))) :
    WalksSound session later owners last ∧ (answer = true → OnChain session later new current) := by
  unfold Walks.reaches at run
  split at run
  · cases run
  next chain found =>
  have own : ChainSound session later new chain := by
    obtain ⟨bound, isOwner⟩ := List.getElem?_eq_some_iff.mp owner
    obtain ⟨within, isChain⟩ := List.getElem?_eq_some_iff.mp found
    rw [← isOwner, ← isChain]
    exact sound.chains.get bound within
  have resumed : ∀ start, OnChain session later new start →
      walks.resume later fuel position chain start current = some (.ok (answer, last)) →
      WalksSound session later owners last ∧ (answer = true → OnChain session later new current) := by
    intro start on resume
    unfold Walks.resume at resume
    split at resume
    · cases resume
    · cases resume
    · next result walks' walked =>
      obtain ⟨kept, chains, index, whole⟩ := extend_spec sound.parents own on walked
      obtain ⟨rfl, rfl⟩ : decide (current ∈ result.seen) = answer ∧
          { walks' with chains := walks'.chains.set position result } = last := by simpa using resume
      refine ⟨⟨⟨kept.sound, kept.kept⟩, ?_, fun other goal => by rw [index]; exact sound.index other goal⟩, ?_⟩
      · rw [chains]
        exact forall₂_set sound.chains owner whole
      · intro reached
        exact whole.seen current (by simpa using reached)
  split_ifs at run with passed
  · obtain ⟨rfl, rfl⟩ : true = answer ∧ walks = last := by simpa using run
    exact ⟨sound, fun _ => own.seen current passed⟩
  · split at run
    · obtain ⟨rfl, rfl⟩ : false = answer ∧ walks = last := by simpa using run
      exact ⟨sound, by simp⟩
    · next start stopped => exact resumed start (own.target start stopped) run
    · next start stopped => exact resumed start (own.absent start stopped) run

end Ostrya.Receive
