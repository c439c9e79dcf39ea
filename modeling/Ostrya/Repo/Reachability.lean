/-
**The declared closure of the reachability walk** (`traverse.rs`).

The rules of the walk without its memory (`Arrives`): which arrivals there are, which of them are dropped or
refused, and what an accepted arrival adds. The walk skips an arrival at a commit that an earlier expansion
covers; `ParentBound.Within` is the order of bounds that makes this harmless: a bound within another passes a
bound within the other's on to the parent (`parentVisit_within`).
-/

import Ostrya.Repo.TreeNames

namespace Ostrya.Repo

open ByteFormat Gvariant Ostrya.Core

/-! ### The order of bounds -/

/-- The second bound reaches at least as far as the first. -/
def ParentBound.Within : ParentBound → ParentBound → Prop
  | .depth near, .depth far => reachesAtLeast far near = true
  | .since late, .since early => early ≤ late
  | .since _, .depth far => far < 0
  | .depth near, .since _ => near = 0

theorem reachesAtLeast_iff :
    reachesAtLeast prev depth = true ↔ prev < 0 ∨ (0 ≤ depth ∧ depth ≤ prev) := by
  unfold reachesAtLeast
  split_ifs with negative whole
  · simp [negative]
  · simp
    omega
  · simp
    omega

theorem ParentBound.Within.refl (bound : ParentBound) : bound.Within bound := by
  cases bound with
  | depth depth =>
    show reachesAtLeast depth depth = true
    rw [reachesAtLeast_iff]
    omega
  | since since => exact Nat.le_refl since

theorem ParentBound.Within.trans {first second third : ParentBound} (one : first.Within second)
    (two : second.Within third) : first.Within third := by
  cases first <;> cases second <;> cases third <;>
    simp only [ParentBound.Within, reachesAtLeast_iff] at one two ⊢ <;> omega

/-- **The parents of a bound within another** are within the other's, and no more of them are
refused. -/
theorem parentVisit_within (within : bound.Within further) (passes : parentVisit parent bound = some visit) :
    ∃ next, parentVisit parent further = some next ∧ next.commit = visit.commit ∧ visit.bound.Within next.bound ∧
      next.arrival.inherited = true ∧ visit.arrival.inherited = true ∧
      ∀ timestamp since, tooOld next.arrival next.bound timestamp = some since →
        ∃ since, tooOld visit.arrival visit.bound timestamp = some since := by
  cases bound with
  | depth depth =>
    simp only [parentVisit] at passes
    split at passes
    · cases passes
    next whole =>
    cases passes
    cases further with
    | since since => exact absurd within whole
    | depth further =>
      have within : reachesAtLeast further depth = true := within
      rw [reachesAtLeast_iff] at within
      have nonzero : further ≠ 0 := by omega
      refine ⟨_, if_neg nonzero, rfl, ?_, rfl, rfl, nofun⟩
      show reachesAtLeast _ _ = true
      rw [reachesAtLeast_iff]
      split_ifs <;> omega
  | since since =>
    cases passes
    cases further with
    | depth further =>
      have negative : further < 0 := within
      refine ⟨_, if_neg (by omega), rfl, ?_, rfl, rfl, nofun⟩
      show (if further < 0 then (-1 : Int) else further - 1) < 0
      rw [if_pos negative]
      decide
    | since further =>
      have within : further ≤ since := within
      refine ⟨_, rfl, rfl, within, rfl, rfl, fun timestamp old refused => ?_⟩
      have less : timestamp < further := by
        unfold tooOld at refused
        dsimp only at refused
        split_ifs at refused
        assumption
      exact ⟨since, by simp [tooOld, show timestamp < since by omega]⟩

/-! ### What an entry covers -/

namespace Expanded

variable {entry : Expanded} {bound other : ParentBound}

/-- The bounds that an entry holds. -/
def held (entry : Expanded) : List ParentBound :=
  (entry.depth.map ParentBound.depth).toList ++ (entry.since.map ParentBound.since).toList

/-- One of the bounds that the entry holds reaches at least as far. -/
def Covered (entry : Expanded) (bound : ParentBound) : Prop := ∃ further ∈ entry.held, bound.Within further

theorem mem_held : bound ∈ entry.held ↔
    (∃ depth, entry.depth = some depth ∧ bound = .depth depth) ∨ ∃ since, entry.since = some since ∧
      bound = .since since := by
  unfold held
  simp [eq_comm]

theorem expanded_iff : entry.expanded = true ↔ ∃ bound, bound ∈ entry.held := by
  unfold expanded held
  cases entry.depth <;> cases entry.since <;> simp

theorem Covered.expanded (covered : entry.Covered bound) : entry.expanded = true := by
  obtain ⟨further, member, -⟩ := covered
  exact expanded_iff.mpr ⟨further, member⟩

theorem Covered.within (covered : entry.Covered other) (within : bound.Within other) : entry.Covered bound := by
  obtain ⟨further, member, reaches⟩ := covered
  exact ⟨further, member, within.trans reaches⟩

theorem covered_of_covers (skips : entry.covers bound = true) : entry.Covered bound := by
  unfold covers at skips
  split at skips
  · next whole =>
    refine ⟨.depth (-1), mem_held.mpr (.inl ⟨-1, whole, rfl⟩), ?_⟩
    cases bound with
    | depth depth => rfl
    | since since => exact (by decide : (-1 : Int) < 0)
  · cases bound with
    | depth depth =>
      dsimp only at skips
      split at skips
      · next zero =>
        obtain ⟨further, member⟩ := expanded_iff.mp skips
        refine ⟨further, member, ?_⟩
        cases further with
        | depth further =>
          show reachesAtLeast further depth = true
          rw [reachesAtLeast_iff]
          omega
        | since since => exact zero
      · cases held : entry.depth with
        | none =>
          rw [held] at skips
          cases skips
        | some further =>
          rw [held] at skips
          exact ⟨.depth further, mem_held.mpr (.inl ⟨further, held, rfl⟩), skips⟩
    | since since =>
      cases held : entry.since with
      | none =>
        rw [held] at skips
        cases skips
      | some further =>
        rw [held] at skips
        have earlier : further ≤ since := by simpa using skips
        exact ⟨.since further, mem_held.mpr (.inr ⟨further, held, rfl⟩), earlier⟩

/-- A held depth after a new one: one of the two, and neither reaches further. -/
theorem furtherDepth_spec (own : Option Int) (depth : Int) : ∃ best, furtherDepth own depth = some best ∧
    (best = depth ∨ own = some best) ∧ reachesAtLeast best depth = true ∧
      ∀ prev, own = some prev → reachesAtLeast best prev = true := by
  cases own with
  | none => exact ⟨depth, rfl, .inl rfl, ParentBound.Within.refl (.depth depth), nofun⟩
  | some held =>
    simp only [furtherDepth, Option.any_some, Option.some.injEq, forall_eq']
    split
    · next further => exact ⟨held, rfl, .inr rfl, further, ParentBound.Within.refl (.depth held)⟩
    · next nearer =>
      refine ⟨depth, rfl, .inl rfl, ParentBound.Within.refl (.depth depth), ?_⟩
      rw [reachesAtLeast_iff] at nearer ⊢
      omega

/-- A held time after a new one, likewise. -/
theorem earlierSince_spec (own : Option Nat) (since : Nat) : ∃ best, earlierSince own since = some best ∧
    (best = since ∨ own = some best) ∧ best ≤ since ∧ ∀ prev, own = some prev → best ≤ prev := by
  cases own with
  | none => exact ⟨since, rfl, .inl rfl, le_rfl, nofun⟩
  | some held =>
    simp only [earlierSince, Option.all_some, decide_eq_true_eq, Option.some.injEq, forall_eq']
    split
    · next later => exact ⟨since, rfl, .inl rfl, le_rfl, le_of_lt later⟩
    · next earlier => exact ⟨held, rfl, .inr rfl, not_lt.mp earlier, le_rfl⟩

/-- **A record holds one bound in place of its own and the held one of its kind**, and both are
within it. -/
theorem held_record (entry : Expanded) (bound : ParentBound) : ∃ best ∈ (entry.record bound).held,
    (best = bound ∨ best ∈ entry.held) ∧ bound.Within best ∧
      (∀ other ∈ (entry.record bound).held, other = best ∨ other ∈ entry.held) ∧
      ∀ other ∈ entry.held, other.Within best ∨ other ∈ (entry.record bound).held := by
  simp only [mem_held]
  cases bound with
  | depth depth =>
    obtain ⟨best, made, own, within, reaches⟩ := furtherDepth_spec entry.depth depth
    simp only [record, made]
    refine ⟨.depth best, .inl ⟨best, rfl, rfl⟩, ?_, within, ?_, ?_⟩
    · exact own.imp (congrArg _) fun same => .inl ⟨best, same, rfl⟩
    · rintro other (⟨_, ⟨⟩, rfl⟩ | same)
      · exact .inl rfl
      · exact .inr (.inr same)
    · rintro other (⟨prev, same, rfl⟩ | same)
      · exact .inl (reaches prev same)
      · exact .inr (.inr same)
  | since since =>
    obtain ⟨best, made, own, within, earlier⟩ := earlierSince_spec entry.since since
    simp only [record, made]
    refine ⟨.since best, .inr ⟨best, rfl, rfl⟩, ?_, within, ?_, ?_⟩
    · exact own.imp (congrArg _) fun same => .inr ⟨best, same, rfl⟩
    · rintro other (same | ⟨_, ⟨⟩, rfl⟩)
      · exact .inr (.inl same)
      · exact .inl rfl
    · rintro other (same | ⟨prev, same, rfl⟩)
      · exact .inr (.inl same)
      · exact .inl (earlier prev same)

/-- A record adds nothing but its bound. -/
theorem mem_held_record (member : other ∈ (entry.record bound).held) : other = bound ∨ other ∈ entry.held := by
  obtain ⟨best, -, own, -, only, -⟩ := held_record entry bound
  obtain rfl | before := only other member
  · exact own
  · exact .inr before

/-- It covers its bound and what was covered. -/
theorem covered_record (covered : other = bound ∨ entry.Covered other) : (entry.record bound).Covered other := by
  obtain ⟨best, here, -, within, -, kept⟩ := held_record entry bound
  obtain rfl | ⟨further, member, reaches⟩ := covered
  · exact ⟨best, here, within⟩
  · obtain below | stays := kept further member
    · exact ⟨best, here, reaches.trans below⟩
    · exact ⟨further, stays, reaches⟩

end Expanded

/-! ### The rules -/

namespace WalkArgs

variable (args : WalkArgs)

/-- A commit as the walk reads it: the commit that the caller is about to delete reads as absent. -/
def readCommit (checksum : Checksum) : Except Error (Option Commit) :=
  if args.pendingDelete = some checksum then .ok none else args.store.tryLoadCommit checksum

/-- The commits that the related edges of a commit name. -/
def relatedOf (checksum : Checksum) (commit : Commit) : Except Error (List Checksum) := do
  let dependencies := if args.gc.dependencies then (splitEntries (entriesOf commit.related)).1 else []
  let sources ← if args.gc.buildSources then (args.sourcesOf checksum none).map Prod.fst else .ok []
  .ok (dependencies ++ sources)

/-- An arrival over a `parent` edge at a commit with bounds of its own. -/
def Dropped (visit : Visit) : Prop := visit.arrival.inherited = true ∧ args.bounded visit.commit = true

end WalkArgs

/-- The timestamp of the commit is below the bound of a conditional arrival. -/
def Refused (dates : Checksum → Option Nat) (visit : Visit) : Prop :=
  ∃ timestamp since, dates visit.commit = some timestamp ∧ tooOld visit.arrival visit.bound timestamp = some since

/-- The timestamp of a commit that was loaded. -/
def dateOf : Except Error (Option Commit) → Option Nat
  | .ok (some commit) => some commit.timestamp.toNat
  | _ => none

/-- The timestamps of the commits that the store holds. -/
def WalkArgs.storedDates (args : WalkArgs) (checksum : Checksum) : Option Nat :=
    dateOf (args.store.tryLoadCommit checksum)

/-- The timestamps of the commits as the walk reads them. -/
def WalkArgs.readDates (args : WalkArgs) (checksum : Checksum) : Option Nat := dateOf (args.readCommit checksum)

section Rules

variable (args : WalkArgs) (dates : Checksum → Option Nat) (seeds : List (Checksum × ParentBound))

/-- **The arrivals of the walk without its memory.** -/
inductive Arrives : Visit → Prop
  /-- A seed arrives as a root. -/
  | seed (member : seed ∈ seeds) : Arrives ⟨seed.1, seed.2, .root⟩
  /-- Any arrival at a weak root seeds it with each of its bounds. -/
  | weak (arrives : Arrives visit)
      (named : args.gc.weakRoots visit.commit = some bounds) (member : bound ∈ bounds.seeds) :
      Arrives ⟨visit.commit, bound, .root⟩
  /-- An accepted commit seeds its related commits. -/
  | related (arrives : Arrives visit)
      (kept : ¬ args.Dropped visit) (young : ¬ Refused dates visit)
      (read : args.readCommit visit.commit = .ok (some commit))
      (edges : args.relatedOf visit.commit commit = .ok targets) (member : target ∈ targets) :
      Arrives ⟨target, args.rootBound, .root⟩
  /-- An accepted commit passes its bound to its parent. -/
  | parent (arrives : Arrives visit)
      (kept : ¬ args.Dropped visit) (young : ¬ Refused dates visit)
      (read : args.readCommit visit.commit = .ok (some commit)) (follows : args.gc.traverseParent = true)
      (named : commit.parent = some parent) (passes : parentVisit parent visit.bound = some next) : Arrives next

/-- An accepted arrival. -/
structure Accepts (visit : Visit) : Prop where
  arrives : Arrives args dates seeds visit
  kept : ¬ args.Dropped visit
  young : ¬ Refused dates visit

/-- The names that an accepted commit adds. -/
def CommitName (checksum : Checksum) (name : ObjectName) : Prop :=
  name = ⟨checksum, .commit⟩ ∨ ∃ commit, args.readCommit checksum = .ok (some commit) ∧ args.gc.traverseTree = true ∧
    (name = ⟨commit.rootDirmeta, .dirMeta⟩ ∨ TreeName args.store commit.rootDirtree name)

/-- **The declared closure.** -/
def Declared (name : ObjectName) : Prop :=
  ∃ visit, Accepts args dates seeds visit ∧ CommitName args visit.commit name

/-- Every read that the rules ask for succeeds. -/
def Readable : Prop :=
  ∀ visit, Arrives args dates seeds visit → ¬ args.Dropped visit →
    ∃ loaded, args.readCommit visit.commit = .ok loaded ∧ (¬ Refused dates visit → ∀ commit,
      loaded = some commit → (∃ targets, args.relatedOf visit.commit commit = .ok targets) ∧
        (args.gc.traverseTree = true → ∀ tree, TreeReach args.store commit.rootDirtree tree →
          ∃ dirtree, args.store.tryLoadDirtree tree = .ok dirtree))

end Rules

end Ostrya.Repo
