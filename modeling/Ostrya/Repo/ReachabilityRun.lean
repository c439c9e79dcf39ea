/-
**Whole runs of the reachability walk** (`traverse.rs`, `collect_reachable`).

* `collectReachable_returns` — **the walk ends on every store**, cycles included: each round lowers a measure
  of the bounds that a commit can still be expanded under, the commits that can still be seeded, and the stack.
* `collectReachable_eq_ok` — a successful walk has the names of the rules, and every read that they ask for
  succeeds; `collectReachable_succeeds` — where every such read does, the walk succeeds.
* `collectReachable_closure` — its names are the declared closure, whatever the order of the seeds.
-/

import Mathlib.Algebra.Order.BigOperators.Group.Finset
import Ostrya.Repo.ReachabilityWalk

namespace Ostrya.Repo

open ByteFormat Gvariant Ostrya.Core

variable {args : WalkArgs} {seeds : List (Checksum × ParentBound)} {walk next : Walk}
  {visit : Visit} {dates : Checksum → Option Nat}

/-! ### The measure -/

/-- The size of a bound. -/
def ParentBound.size : ParentBound → Nat
  | .depth n => n.toNat
  | .since n => n

/-- The expansions that are left for an entry, if no bound is larger than `most`. -/
def Expanded.left (most : Nat) (entry : Expanded) : Nat :=
  (match entry.depth with
    | none => most + 2
    | some depth => if depth < 0 then 0 else most + 1 - depth.toNat) +
  (match entry.since with
    | none => most + 1
    | some since => since)

/-- An expansion under a bound that the entry does not cover leaves fewer. -/
theorem left_record {entry : Expanded} {bound : ParentBound} (fits : bound.size ≤ most)
    (small : ∀ held ∈ entry.held, held.size ≤ most) (further : entry.covers bound = false) :
    (entry.record bound).left most < entry.left most := by
  cases bound with
  | depth depth =>
    have further : ∀ prev, entry.depth = some prev → ¬ reachesAtLeast prev depth = true := by
      grind [Expanded.covers, Expanded.expanded]
    have after : (entry.record (.depth depth)).depth = some depth := by
      show furtherDepth entry.depth depth = some depth
      unfold furtherDepth
      cases held : entry.depth with
      | none => rfl
      | some prev => simp [further prev held]
    have same : (entry.record (.depth depth)).since = entry.since := rfl
    unfold Expanded.left
    rw [after, same]
    cases held : entry.depth with
    | none =>
      dsimp only
      split_ifs <;> omega
    | some prev =>
      have prevSmall : prev.toNat ≤ most := small (.depth prev) (Expanded.mem_held.mpr (.inl ⟨prev, held, rfl⟩))
      have nearer := further prev held
      rw [reachesAtLeast_iff] at nearer
      dsimp only
      split_ifs <;> omega
  | since since =>
    have fits : since ≤ most := fits
    have later : ∀ prev, entry.since = some prev → since < prev := by
      intro prev same
      rw [Expanded.covers] at further
      split_ifs at further
      simpa [same] using further
    have after : (entry.record (.since since)).since = some since := by
      show earlierSince entry.since since = some since
      unfold earlierSince
      cases held : entry.since with
      | none => rfl
      | some prev => simp [later prev held]
    have same : (entry.record (.since since)).depth = entry.depth := rfl
    unfold Expanded.left
    rw [after, same]
    cases held : entry.since with
    | none =>
      dsimp only
      omega
    | some prev =>
      have := later prev held
      dsimp only
      omega

/-- What is left to do for a walk. -/
noncomputable def Walk.left (most : Nat) (walk : Walk) : Nat :=
  walk.stack.length + 2 * ∑ checksum, (walk.seenCommits checksum).left most + 2 * walk.seededᶜ.card +
    3 * walk.weakSeededᶜ.card

theorem sum_update (most : Nat) (seen : Checksum → Expanded) (checksum : Checksum) (entry : Expanded) :
    ∑ other, (Function.update seen checksum entry other).left most + (seen checksum).left most =
      ∑ other, (seen other).left most + entry.left most := by
  have rest : ∑ other ∈ Finset.univ.erase checksum, (Function.update seen checksum entry other).left most =
      ∑ other ∈ Finset.univ.erase checksum, (seen other).left most := by
    refine Finset.sum_congr rfl fun other member => ?_
    rw [Function.update_of_ne (Finset.ne_of_mem_erase member)]
  rw [← Finset.add_sum_erase _ _ (Finset.mem_univ checksum),
    ← Finset.add_sum_erase _ (fun other => (seen other).left most)
    (Finset.mem_univ checksum), rest, Function.update_self]
  omega

/-- No bound of the walk is larger than `most`. -/
structure Fits (args : WalkArgs) (seeds : List (Checksum × ParentBound)) (most : Nat) : Prop where
  seeds : ∀ seed ∈ seeds, seed.2.size ≤ most
  root : args.rootBound.size ≤ most
  weak : ∀ checksum bounds, args.gc.weakRoots checksum = some bounds → ∀ bound ∈ bounds.seeds, bound.size ≤ most

theorem parentVisit_size (passes : parentVisit parent bound = some visit) :
    visit.bound.size ≤ bound.size := by
  cases bound with
  | depth depth =>
    simp only [parentVisit] at passes
    split at passes
    · cases passes
    · cases passes
      show (if depth < 0 then (-1 : Int) else depth - 1).toNat ≤ depth.toNat
      split <;> omega
  | since since =>
    cases passes
    exact Nat.le_refl since

theorem Arrives.size_le (fits : Fits args seeds most)
    (arrives : Arrives args dates seeds visit) : visit.bound.size ≤ most := by
  induction arrives with
  | seed member => exact fits.seeds _ member
  | weak _ named member _ => exact fits.weak _ _ named _ member
  | related _ _ _ _ _ _ _ => exact fits.root
  | parent _ _ _ _ _ _ passes ih => exact (parentVisit_size passes).trans ih

theorem exists_fits (args : WalkArgs) (seeds : List (Checksum × ParentBound)) : ∃ most, Fits args seeds most := by
  let sizes (bounds : List ParentBound) : Nat := (bounds.map ParentBound.size).sum
  have among : ∀ {bounds}, ∀ bound ∈ bounds, bound.size ≤ sizes bounds := fun _ member =>
    List.single_le_sum (fun _ _ => Nat.zero_le _) _ (List.mem_map_of_mem member)
  let weakSize (checksum : Checksum) : Nat := ((args.gc.weakRoots checksum).map (sizes ·.seeds)).getD 0
  refine ⟨sizes (seeds.map Prod.snd) + args.rootBound.size + ∑ other, weakSize other,
    fun seed member => ?_, by omega, fun checksum bounds named bound member => ?_⟩
  · have small := among _ (List.mem_map_of_mem (f := Prod.snd) member)
    omega
  · have small : bound.size ≤ weakSize checksum := by
      simpa [weakSize, named] using among bound member
    have inSum := Finset.single_le_sum (fun _ _ => Nat.zero_le _) (Finset.mem_univ checksum) (f := weakSize)
    omega

/-! ### One round lowers the measure -/

variable {most treeFuel : Nat} {prefetched : Option (Except String (Option (List RelatedEntry)))}
  {other : List (Checksum × ParentBound)} {checksum : Checksum} {commit : Commit}

/-- Every bound that was recorded is small. -/
def Small (most : Nat) (walk : Walk) : Prop := ∀ checksum, ∀ bound ∈ (walk.seenCommits checksum).held, bound.size ≤ most

/-- What one round does to the measure. -/
def Lowers (most : Nat) (walk next : Walk) : Prop := Small most next ∧ next.left most ≤ walk.left most

theorem length_pushParent (parent : Option Checksum) (bound : ParentBound) (walk : Walk) :
    (args.pushParent parent bound walk).stack.length ≤ walk.stack.length + 1 := by
  unfold WalkArgs.pushParent
  cases parent with
  | none => simp
  | some checksum =>
    dsimp only
    split
    · cases parentVisit checksum bound <;> simp
    · simp

/-- The seeds of a weak root cost less than the root. -/
theorem seedWeak_left (checksum : Checksum) (walk : Walk) :
    (args.seedWeak checksum walk).left most ≤ walk.left most ∧
      (args.seedWeak checksum walk).seenCommits = walk.seenCommits := by
  unfold WalkArgs.seedWeak
  cases args.gc.weakRoots checksum with
  | none => exact ⟨le_refl _, rfl⟩
  | some bounds =>
    dsimp only
    split
    · exact ⟨le_refl _, rfl⟩
    · next fresh =>
      refine ⟨?_, rfl⟩
      have two : bounds.seeds.length ≤ 2 := by
        unfold WeakBounds.seeds
        cases bounds.depth <;> cases bounds.since <;> simp
      have one := card_compl_insert fresh
      simp only [Walk.left, List.foldl_flip_cons_eq_append, List.length_append, List.length_reverse, List.length_map]
      omega

theorem Small.update (small : Small most walk) (fits : ∀ bound ∈ entry.held, bound.size ≤ most)
    (seen : next.seenCommits = Function.update walk.seenCommits checksum entry) : Small most next := by
  unfold Small
  rw [seen, Function.forall_update_iff walk.seenCommits fun _ entry => ∀ bound ∈ entry.held, bound.size ≤ most]
  exact ⟨fits, fun other _ => small other⟩

/-- A rejection changes nothing that counts. -/
theorem lowers_reject (small : Small most walk)
    (held : entry.held = (walk.seenCommits checksum).held)
    (left : entry.left most = (walk.seenCommits checksum).left most) :
    Lowers most walk (WalkArgs.setSeen checksum entry walk) := by
  refine ⟨small.update (held ▸ small checksum) rfl, ?_⟩
  have sum := sum_update most walk.seenCommits checksum entry
  unfold Walk.left WalkArgs.setSeen
  dsimp only
  omega

/-- An expansion pays for its parent. -/
theorem lowers_record (read : Read) {middle : Walk} {parent : Option Checksum} {targets : List Checksum}
    {dirtrees : Finset Checksum} {reachable : Finset ObjectName} (small : Small most walk)
    (fits : visit.bound.size ≤ most)
    (further : (walk.seenCommits visit.commit).covers visit.bound = false)
    (made : Seeds args targets { WalkArgs.setSeen visit.commit
      ({ walk.seenCommits visit.commit with read := read }.record visit.bound) walk with
      reachable := reachable, seenDirtrees := dirtrees } middle) :
    Lowers most walk (args.pushParent parent visit.bound middle) := by
  have less : ({ walk.seenCommits visit.commit with read := read }.record visit.bound).left most <
      (walk.seenCommits visit.commit).left most := left_record fits (small visit.commit) further
  have length := @length_pushParent args parent visit.bound middle
  have sum := sum_update most walk.seenCommits visit.commit
    ({ walk.seenCommits visit.commit with read := read }.record visit.bound)
  have commits : middle.seenCommits = Function.update walk.seenCommits visit.commit
    ({ walk.seenCommits visit.commit with read := read }.record visit.bound) := made.seenCommits
  rw [pushParent_fields]
  refine ⟨small.update (fun bound member => ?_) commits, ?_⟩
  · rcases Expanded.mem_held_record member with rfl | before
    · exact fits
    · exact small visit.commit bound before
  · have left : middle.stack.length + 2 * middle.seededᶜ.card ≤ walk.stack.length + 2 * walk.seededᶜ.card := made.left
    have weak : middle.weakSeeded = walk.weakSeeded := made.weakSeeded
    unfold Walk.left
    dsimp only
    rw [commits, weak]
    omega

theorem expand_lowers {commit : Option Commit} (inv : WalkInv args seeds [visit] walk)
    (small : Small most walk) (fits : visit.bound.size ≤ most)
    (further : (walk.seenCommits visit.commit).covers visit.bound = false)
    (fresh : (walk.seenCommits visit.commit).expanded = false) (right : Prefetched args visit.commit prefetched)
    (run : args.expand treeFuel visit commit prefetched walk = some (.ok next)) : Lowers most walk next := by
  unfold WalkArgs.expand at run
  split at run
  · cases run
    exact lowers_reject small rfl rfl
  · cases commit with
    | none =>
      cases run
      exact @lowers_record args walk visit most .absent _ none _ _ _ small fits further (.refl _)
    | some commit =>
      dsimp only at run
      have edges : ∀ {dirtrees : Finset Checksum} {reachable : Finset ObjectName},
          (do
            let walk ← args.readEdges visit.commit commit prefetched { WalkArgs.setSeen visit.commit
              ({ walk.seenCommits visit.commit with read := WalkArgs.readOf (some commit) }.record
                visit.bound) walk with
              reachable := reachable, seenDirtrees := dirtrees }
            .ok (args.pushParent commit.parent visit.bound walk)) = .ok next → Lowers most walk next := by
        intro dirtrees reachable run
        obtain ⟨middle, edgesRun, ends⟩ := bind_eq_ok.mp run
        cases ends
        obtain ⟨targets, -, made, -⟩ := seeds_readEdges right (by exact inv.unread fresh) edgesRun
        exact lowers_record _ small fits further made
      split at run
      · split at run
        · cases run
        · cases run
        · exact edges (Option.some.inj run)
      · exact edges (Option.some.inj run)

/-- **One round lowers the measure.** -/
theorem round_lowers (inv : WalkInv args seeds [] walk) (small : Small most walk)
    (fits : Fits args seeds most) (going : walk.stack ≠ []) (run : args.round treeFuel walk = some (.ok next)) :
    Small most next ∧ next.left most < walk.left most := by
  unfold WalkArgs.round at run
  split at run
  · next empty => exact absurd empty going
  · next visit stack top =>
    have arrives := inv.arrives visit (by rw [top]; exact (.head _))
    have size := arrives.size_le fits
    -- the pop pays for the round
    have popped : ({ walk with stack := stack } : Walk).left most + 1 = walk.left most := by
      unfold Walk.left
      rw [top, List.length_cons]
      dsimp only
      omega
    obtain ⟨weakLeft, weakSeen⟩ := @seedWeak_left args most visit.commit { walk with stack := stack }
    obtain ⟨inv, -⟩ := (inv.pop top).seedWeak arrives
    have small : Small most (args.seedWeak visit.commit { walk with stack := stack }) := by
      intro checksum bound member
      rw [weakSeen] at member
      exact small checksum bound member
    suffices lowers : Lowers most (args.seedWeak visit.commit { walk with stack := stack }) next from
      ⟨lowers.1, by have := lowers.2; omega⟩
    generalize args.seedWeak visit.commit { walk with stack := stack } = walk at inv small run
    have same : walk = next → Lowers most walk next := by
      rintro rfl
      exact ⟨small, le_refl _⟩
    split at run
    · exact same (by simpa using run)
    · unfold WalkArgs.arrive at run
      dsimp only at run
      split at run
      · exact same (by simpa using run)
      next further =>
      split at run
      · exact same (by simpa using run)
      split at run
      · cases run
        exact lowers_reject small rfl rfl
      · split at run
        · have recorded : ∀ parent, Lowers most walk (args.pushParent parent visit.bound
              (WalkArgs.setSeen visit.commit ((walk.seenCommits visit.commit).record visit.bound) walk)) :=
            fun parent => lowers_record (walk.seenCommits visit.commit).read small size
              (by simpa using further) (.refl _)
          split at run
          · cases run
            exact recorded _
          · cases run
            exact recorded none
        · next fresh =>
          split at run
          · cases run
          · next commit prefetched loaded =>
            exact expand_lowers inv small size (by simpa using further) (by simpa using fresh)
              (loadCommit_eq_ok loaded).2 run

theorem expand_returns (enough : 4 * Fintype.card Checksum + 1 < treeFuel) (commit : Option Commit)
    (prefetched : Option (Except String (Option (List RelatedEntry)))) (walk : Walk) :
    ∃ result, args.expand treeFuel visit commit prefetched walk = some result := by
  unfold WalkArgs.expand
  split
  · exact ⟨_, rfl⟩
  cases commit with
  | none => exact ⟨_, rfl⟩
  | some commit =>
    dsimp only
    split
    · obtain ⟨tree, walked⟩ := @walkTree_returns args.store (args.ready visit.commit)
        commit.rootDirtree walk.seenDirtrees (insert ⟨commit.rootDirmeta, .dirMeta⟩
          (insert ⟨visit.commit, .commit⟩ walk.reachable)) _ enough
      simp only [WalkArgs.setSeen, walked]
      cases tree <;> exact ⟨_, rfl⟩
    · exact ⟨_, rfl⟩

theorem round_returns (enough : 4 * Fintype.card Checksum + 1 < treeFuel) (walk : Walk) :
    ∃ result, args.round treeFuel walk = some result := by
  unfold WalkArgs.round
  split
  · exact ⟨_, rfl⟩
  split
  · exact ⟨_, rfl⟩
  unfold WalkArgs.arrive
  dsimp only
  split
  · exact ⟨_, rfl⟩
  split
  · exact ⟨_, rfl⟩
  split
  · exact ⟨_, rfl⟩
  split
  · split <;> exact ⟨_, rfl⟩
  split
  · exact ⟨_, rfl⟩
  exact expand_returns enough _ _ _

/-! ### A round fails only where a read fails -/

theorem sourcesOf_of_related
    (related : args.relatedOf checksum commit = .ok targets) (on : args.gc.buildSources = true) :
    ∃ sources, args.sourcesOf checksum none = .ok sources := by
  unfold WalkArgs.relatedOf at related
  rw [if_pos on] at related
  obtain ⟨_, split, -⟩ := bind_eq_ok.mp related
  obtain ⟨sources, split, -⟩ := map_eq_ok.mp split
  exact ⟨sources, split⟩

theorem loadCommit_succeeds (readable : Readable args args.readDates seeds)
    (arrives : Arrives args args.readDates seeds visit)
    (kept : ¬ args.Dropped visit) (edgesRead : Finset Checksum) :
    ∃ loaded, args.loadCommit visit edgesRead = .ok loaded := by
  obtain ⟨commit, read, rest⟩ := readable visit arrives kept
  unfold WalkArgs.readCommit at read
  unfold WalkArgs.loadCommit
  split
  · exact ⟨_, rfl⟩
  next other =>
    rw [if_neg other] at read
    split
    · next along =>
      -- an arrival that is not conditional is not refused, so its build sources are read too
      have young : ¬ Refused args.readDates visit := by
        rintro ⟨timestamp, since, -, old⟩
        unfold tooOld at old
        split at old
        · next timed _ => exact along.2.1 timed
        · cases old
      obtain ⟨bytes, stored, read⟩ := bind_eq_ok.mp read
      unfold MetadataSource.loadCommitWithBuildSourceDict
      rw [stored]
      cases bytes with
      | none => exact ⟨_, rfl⟩
      | some bytes =>
        obtain ⟨parsed, parse, rfl⟩ := map_eq_ok.mp read
        obtain ⟨⟨targets, edges⟩, -⟩ := rest young parsed rfl
        obtain ⟨sources, split⟩ := sourcesOf_of_related edges along.1
        obtain ⟨found, dict, -⟩ := bind_eq_ok.mp split
        obtain ⟨detached, dict, -⟩ := map_eq_ok.mp dict
        simp only [ok_bind, dict, parse]
        exact ⟨_, rfl⟩
    · rw [read]
      exact ⟨_, rfl⟩

theorem readEdges_succeeds (right : Prefetched args checksum prefetched)
    (related : args.relatedOf checksum commit = .ok targets) (walk : Walk) :
    ∃ next, args.readEdges checksum commit prefetched walk = .ok next := by
  unfold WalkArgs.readEdges
  rw [right.sourcesOf]
  split
  · dsimp only
    split
    · next on =>
      obtain ⟨sources, split⟩ := sourcesOf_of_related related on
      rw [split]
      exact ⟨_, rfl⟩
    · exact ⟨_, rfl⟩
  · exact ⟨_, rfl⟩

theorem expand_succeeds {commit : Option Commit} (inv : WalkInv args seeds [visit] walk)
    (readable : Readable args args.readDates seeds) (arrives : Arrives args args.readDates seeds visit)
    (kept : ¬ args.Dropped visit) (read : args.readCommit visit.commit = .ok commit)
    (right : Prefetched args visit.commit prefetched)
    (run : args.expand treeFuel visit commit prefetched walk = some result) : ∃ next, result = .ok next := by
  unfold WalkArgs.expand at run
  split at run
  · cases run
    exact ⟨_, rfl⟩
  next young =>
  obtain ⟨_, same, rest⟩ := readable visit arrives kept
  rw [read] at same
  cases same
  cases commit with
  | none =>
    cases run
    exact ⟨_, rfl⟩
  | some commit =>
    obtain ⟨⟨targets, related⟩, trees⟩ := rest (not_refused read young) commit rfl
    have edges : ∀ walk, ∃ next, (do
        let walk ← args.readEdges visit.commit commit prefetched walk
        .ok (args.pushParent commit.parent visit.bound walk)) = Except.ok next := by
      intro walk
      obtain ⟨next, ok⟩ := readEdges_succeeds right related walk
      rw [ok]
      exact ⟨_, rfl⟩
    dsimp only at run
    split at run
    · next on =>
      split at run
      · cases run
      · next fault walked =>
        have names : walk.reachable ⊆ insert ⟨commit.rootDirmeta, .dirMeta⟩
            (insert ⟨visit.commit, .commit⟩ walk.reachable) :=
          (Finset.subset_insert ..).trans (Finset.subset_insert ..)
        obtain ⟨tree, impossible⟩ := walkTree_succeeds (inv.trees.mono names) (trees on) walked
        cases impossible
      · next tree walked =>
        obtain ⟨next, ok⟩ := edges _
        cases run
        exact ⟨next, ok⟩
    · obtain ⟨next, ok⟩ := edges _
      cases run
      exact ⟨next, ok⟩

/-- **A round over readable objects does not fail.** -/
theorem round_succeeds (inv : WalkInv args seeds [] walk) (readable : Readable args args.readDates seeds)
    (run : args.round treeFuel walk = some result) : ∃ next, result = .ok next := by
  unfold WalkArgs.round at run
  split at run
  · cases run
    exact ⟨_, rfl⟩
  next visit stack top =>
  have arrives := inv.arrives visit (by rw [top]; exact (.head _))
  obtain ⟨inv, -⟩ := (inv.pop top).seedWeak arrives
  generalize args.seedWeak visit.commit { walk with stack := stack } = walk at inv run
  split at run
  · cases run
    exact ⟨_, rfl⟩
  next keeps =>
  have kept : ¬ args.Dropped visit := fun dropped => keeps (by simp [dropped.1, dropped.2])
  unfold WalkArgs.arrive at run
  dsimp only at run
  split at run
  · cases run
    exact ⟨_, rfl⟩
  split at run
  · cases run
    exact ⟨_, rfl⟩
  split at run
  · cases run
    exact ⟨_, rfl⟩
  split at run
  · split at run <;> cases run <;> exact ⟨_, rfl⟩
  split at run
  · next fault failed =>
    obtain ⟨loaded, ok⟩ := loadCommit_succeeds readable arrives kept walk.edgesRead
    rw [failed] at ok
    cases ok
  · next commit prefetched loaded =>
    obtain ⟨read, right⟩ := loadCommit_eq_ok loaded
    exact expand_succeeds inv readable arrives kept read right run

/-! ### Whole runs -/

theorem WalkInv.begin (args : WalkArgs) (seeds : List (Checksum × ParentBound)) :
    WalkInv args seeds [] ⟨(seeds.map fun seed => ⟨seed.1, seed.2, .root⟩).reverse, fun _ => .empty,
      ∅, ∅, ∅, ∅, ∅, []⟩ where
  knows checksum := ⟨nofun, nofun, nofun⟩
  arrives visit member := by
    obtain ⟨seed, inside, rfl⟩ := List.mem_map.mp (List.mem_reverse.mp member)
    exact .seed inside
  names := by simp
  seeds seed member := .inr (.inl (List.mem_reverse.mpr (List.mem_map_of_mem member)))
  weak := by simp
  parents checksum bound held := by simp [Expanded.held, Expanded.empty] at held
  seeded := by simp
  edges := by simp
  collected := nofun
  trees := by simp [TreeClosed]

/-- **The walk ends on every store.** -/
theorem collectReachable_returns (args : WalkArgs) (seeds : List (Checksum × ParentBound)) :
    ∃ enough, ∀ fuel, enough < fuel → ∃ result, args.collectReachable fuel seeds = some result := by
  obtain ⟨most, fits⟩ := exists_fits args seeds
  let start : Walk := ⟨(seeds.map fun seed => ⟨seed.1, seed.2, .root⟩).reverse, fun _ => .empty, ∅, ∅, ∅, ∅, ∅, []⟩
  refine ⟨max (4 * Fintype.card Checksum + 1) (start.left most), fun fuel enough => ?_⟩
  obtain ⟨treeEnough, runEnough⟩ := max_lt_iff.mp enough
  refine @Search.loop_returns _ _ _ _ (fun walk => WalkInv args seeds [] walk ∧ Small most walk)
    start fuel (Walk.left most)
    (fun walk inv going => ?_) ⟨WalkInv.begin args seeds, ?_⟩ runEnough
  · obtain ⟨result, run⟩ := @round_returns args fuel treeEnough walk
    refine ⟨result, run, ?_⟩
    rintro next rfl
    obtain ⟨small, less⟩ := round_lowers inv.1 inv.2 fits (by simpa using going) run
    exact ⟨⟨inv.1.round run, small⟩, less⟩
  · intro checksum bound member
    simp [start, Expanded.held, Expanded.empty] at member

/-- A run that succeeded computed the declared closure, and every read of the rules succeeded. -/
theorem collectReachable_eq_ok (run : args.collectReachable fuel seeds = some (.ok walk)) :
    (∀ name, name ∈ walk.reachable ↔ Declared args args.readDates seeds name) ∧ Readable args args.readDates seeds := by
  obtain ⟨inv, ended⟩ := Search.loop_invariant (fun _ _ inv _ step => WalkInv.round inv step)
    (WalkInv.begin args seeds) run
  have ended : walk.stack = [] := by simpa using ended
  exact ⟨inv.reachable_iff ended, inv.readable ended⟩

theorem collectReachable_succeeds (readable : Readable args args.readDates seeds)
    (run : args.collectReachable fuel seeds = some result) : ∃ walk, result = .ok walk := by
  refine Search.loop_succeeds (fun walk inv _ result step => ?_) (WalkInv.begin args seeds) run
  obtain ⟨next, rfl⟩ := round_succeeds inv readable step
  exact ⟨next, rfl, inv.round step⟩

/-- The rules see the seeds as a set, and not which read was ready first. -/
theorem Arrives.congr
    (ready : Checksum → Nat → Nat) (subset : ∀ seed ∈ seeds, seed ∈ other) (arrives : Arrives args dates seeds visit) :
    Arrives { args with ready := ready } dates other visit := by
  induction arrives with
  | seed member => exact .seed (subset _ member)
  | weak _ named member ih => exact .weak ih named member
  | related _ kept young read edges member ih => exact .related ih kept young read edges member
  | parent _ kept young read follows named passes ih => exact .parent ih kept young read follows named passes

theorem Declared.congr {name : ObjectName}
    (ready : Checksum → Nat → Nat) (subset : ∀ seed ∈ seeds, seed ∈ other) (declared : Declared args dates seeds name) :
    Declared { args with ready := ready } dates other name := by
  obtain ⟨visit, accepts, here⟩ := declared
  exact ⟨visit, ⟨accepts.arrives.congr ready subset, accepts.kept, accepts.young⟩, here⟩

theorem Readable.congr
    (ready : Checksum → Nat → Nat) (subset : ∀ seed ∈ other, seed ∈ seeds) (readable : Readable args dates seeds) :
    Readable { args with ready := ready } dates other := by
  intro visit arrives kept
  have back := @Arrives.congr { args with ready := ready } other visit dates seeds args.ready subset arrives
  exact readable visit back kept

/-- **The reachability walk computes the declared closure.** For every store, every seeds, bounds
and weak roots, the walk ends, cycles of the store included. If it succeeds, its names are those of
the rules without memory; and for every order of the seeds, and every order in which the reads of
the trees are ready, it succeeds too, with the same names. -/
theorem collectReachable_closure (args : WalkArgs) (seeds : List (Checksum × ParentBound)) :
    ∃ enough, ∀ fuel, enough < fuel → ∃ result, args.collectReachable fuel seeds = some result ∧
      ∀ walk, result = .ok walk →
        (∀ name, name ∈ walk.reachable ↔ Declared args args.readDates seeds name) ∧
        ∀ (other : List (Checksum × ParentBound)) (ready : Checksum → Nat → Nat), seeds.Perm other →
          ∃ enough, ∀ fuel, enough < fuel → ∃ again,
            { args with ready := ready }.collectReachable fuel other = some (.ok again) ∧
              again.reachable = walk.reachable := by
  obtain ⟨enough, returns⟩ := collectReachable_returns args seeds
  refine ⟨enough, fun fuel more => ?_⟩
  obtain ⟨result, run⟩ := returns fuel more
  refine ⟨result, run, ?_⟩
  rintro walk rfl
  obtain ⟨names, readable⟩ := collectReachable_eq_ok run
  refine ⟨names, fun other ready perm => ?_⟩
  obtain ⟨enough, returns⟩ := collectReachable_returns { args with ready := ready } other
  refine ⟨enough, fun fuel more => ?_⟩
  obtain ⟨result, run⟩ := returns fuel more
  have readableToo : Readable { args with ready := ready } args.readDates other :=
    readable.congr ready fun seed member => perm.mem_iff.mpr member
  obtain ⟨again, rfl⟩ := collectReachable_succeeds readableToo run
  refine ⟨again, run, Finset.ext fun name => ?_⟩
  rw [names, (collectReachable_eq_ok run).1]
  exact ⟨fun declared => @Declared.congr { args with ready := ready } other args.readDates seeds
      name args.ready (fun seed member => perm.mem_iff.mpr member) declared,
    fun declared => declared.congr ready fun seed member => perm.mem_iff.mp member⟩

section

variable {first second : List (Checksum × ParentBound)}

/-- An arrival from two lists of seeds is one from either list. -/
theorem Arrives.split (arrives : Arrives args dates (first ++ second) visit) :
    Arrives args dates first visit ∨ Arrives args dates second visit := by
  induction arrives with
  | seed member => exact (List.mem_append.mp member).imp .seed .seed
  | weak _ named member ih => exact ih.imp (.weak · named member) (.weak · named member)
  | related _ kept young read edges member ih =>
    exact ih.imp (.related · kept young read edges member) (.related · kept young read edges member)
  | parent _ kept young read follows named passes ih =>
    exact ih.imp (.parent · kept young read follows named passes) (.parent · kept young read follows named passes)

end

/-- **The walk distributes over its seeds.** If a walk over two lists of seeds succeeds, so does the
walk over each of them, and it reaches what one of the two reaches. -/
theorem collectReachable_append (args : WalkArgs) (first second : List (Checksum × ParentBound)) :
    ∃ enough, ∀ fuel, enough < fuel → ∀ walk, args.collectReachable fuel (first ++ second) = some (.ok walk) →
      ∃ left right, args.collectReachable fuel first = some (.ok left) ∧
        args.collectReachable fuel second = some (.ok right) ∧ walk.reachable = left.reachable ∪ right.reachable := by
  obtain ⟨enough, ends⟩ := collectReachable_returns args first
  obtain ⟨enough', ends'⟩ := collectReachable_returns args second
  refine ⟨max enough enough', fun fuel large walk run => ?_⟩
  obtain ⟨declared, readable⟩ := collectReachable_eq_ok run
  have part : ∀ {seeds result}, (∀ seed ∈ seeds, seed ∈ first ++ second) →
      args.collectReachable fuel seeds = some result → ∃ walk, result = .ok walk :=
    fun subset run => collectReachable_succeeds (readable.congr args.ready subset) run
  obtain ⟨_, run⟩ := ends fuel (by omega)
  obtain ⟨left, rfl⟩ := part (fun _ => List.mem_append_left _) run
  obtain ⟨_, run'⟩ := ends' fuel (by omega)
  obtain ⟨right, rfl⟩ := part (fun _ => List.mem_append_right _) run'
  refine ⟨left, right, run, run', Finset.ext fun name => ?_⟩
  rw [Finset.mem_union, declared, (collectReachable_eq_ok run).1, (collectReachable_eq_ok run').1]
  constructor
  · rintro ⟨visit, ⟨arrives, kept, young⟩, named⟩
    exact arrives.split.imp (⟨visit, ⟨·, kept, young⟩, named⟩) (⟨visit, ⟨·, kept, young⟩, named⟩)
  · rintro (declared | declared)
    · exact declared.congr args.ready fun _ => List.mem_append_left _
    · exact declared.congr args.ready fun _ => List.mem_append_right _

namespace Sample

def emptyCommit (parent : Option Checksum) (timestamp : UInt64) : Commit :=
  ⟨.array [], parent, [], "", "", timestamp, .filled 4, .filled 5⟩

def childSum : Checksum := .filled 1

def oldSum : Checksum := .filled 2

/-- A commit of the time 100 and its parent of the time 10. -/
def child : Commit := emptyCommit (some oldSum) 100

def old : Commit := emptyCommit none 10

def commitBytes (commit : Commit) : Bytes := (commit.serialize).toOption.getD []

theorem parse_commitBytes (written : commit.serialize.isOk = true)
    (plain : commit.metadata.ParsedTypes) (fits : Addressable (commitBytes commit)) :
    Commit.parse (commitBytes commit) = .ok commit := by
  obtain ⟨bytes, ok⟩ := eq_ok_of_isOk written
  have same : commitBytes commit = bytes := by
    unfold commitBytes
    rw [ok]
    rfl
  rw [same] at fits ⊢
  exact Commit.parse_of_serialize ok plain fits

def twoCommits : MetadataSource where
  loadMetadata ty checksum :=
    if ty = .commit ∧ checksum = childSum then .ok (some (commitBytes child))
    else if ty = .commit ∧ checksum = oldSum then .ok (some (commitBytes old))
    else .ok none
  maxReads := 1

/-- A walk over the commits alone, with the parent about to be deleted. -/
def deleteParent : WalkArgs where
  store := twoCommits
  rootBound := .depth (-1)
  gc := ⟨false, false, true, false, fun _ => none⟩
  boundedRoots := ∅
  pendingDelete := some oldSum
  ready := fun _ _ => 0

theorem parse_emptyCommit (written : (emptyCommit parent timestamp).serialize.isOk = true)
    (fits : Addressable (commitBytes (emptyCommit parent timestamp))) :
    Commit.parse (commitBytes (emptyCommit parent timestamp)) = .ok (emptyCommit parent timestamp) :=
  parse_commitBytes written (parsedTypes_array.mpr (by simp)) fits

theorem tryLoadCommit_child : twoCommits.tryLoadCommit childSum = .ok (some child) := by
  have parsed : Commit.parse (commitBytes child) = .ok child :=
    parse_emptyCommit (by decide +kernel) (by decide +kernel)
  unfold MetadataSource.tryLoadCommit twoCommits
  simp [parsed, Except.mapError]

theorem tryLoadCommit_old : twoCommits.tryLoadCommit oldSum = .ok (some old) := by
  have parsed : Commit.parse (commitBytes old) = .ok old := parse_emptyCommit (by decide +kernel) (by decide +kernel)
  have differs : oldSum ≠ childSum := by decide
  unfold MetadataSource.tryLoadCommit twoCommits
  simp [parsed, differs, Except.mapError]

/-- The seed: the child, with every parent of the time 50 or later. -/
def childSeed : List (Checksum × ParentBound) := [(childSum, .since 50)]

theorem readCommit_child : deleteParent.readCommit childSum = .ok (some child) := by
  unfold WalkArgs.readCommit
  rw [if_neg (by decide)]
  exact tryLoadCommit_child

theorem readCommit_old : deleteParent.readCommit oldSum = .ok none := if_pos rfl

theorem not_dropped (visit : Visit) : ¬ deleteParent.Dropped visit := by
  rintro ⟨-, bounded⟩
  simp [WalkArgs.bounded, deleteParent] at bounded

/-- The two arrivals. -/
theorem arrives_deleteParent (arrives : Arrives deleteParent dates childSeed visit) :
    visit = ⟨childSum, .since 50, .root⟩ ∨ visit = ⟨oldSum, .since 50, .timedParent⟩ := by
  induction arrives with
  | seed member =>
    cases List.mem_singleton.mp member
    exact .inl rfl
  | weak _ named _ _ => cases named
  | related _ _ _ _ edges member _ =>
    cases edges
    cases member
  | parent _ _ _ read _ named passes ih =>
    rcases ih with rfl | rfl
    · rw [readCommit_child] at read
      cases read
      cases named
      cases passes
      exact .inr rfl
    · rw [readCommit_old] at read
      cases read

theorem readable_deleteParent : Readable deleteParent deleteParent.readDates childSeed := by
  intro visit arrives _
  rcases arrives_deleteParent arrives with rfl | rfl
  · refine ⟨_, readCommit_child, fun _ commit _ => ⟨⟨[], rfl⟩, nofun⟩⟩
  · exact ⟨_, readCommit_old, fun _ => nofun⟩

end Sample

open Sample in
/-- A conditional arrival at the commit `pending_delete` names is accepted, although the store holds
the commit and its timestamp is below the bound: the walk reads it as absent. -/
theorem collectReachable_accepts_pending :
    twoCommits.tryLoadCommit oldSum = .ok (some old) ∧ old.timestamp.toNat < 50 ∧
      (∃ fuel walk, deleteParent.collectReachable fuel childSeed = some (.ok walk) ∧
        ⟨oldSum, .commit⟩ ∈ walk.reachable) ∧
      ¬ Declared deleteParent deleteParent.storedDates childSeed ⟨oldSum, .commit⟩ := by
  refine ⟨tryLoadCommit_old, by decide, ?_, ?_⟩
  · obtain ⟨enough, returns⟩ := collectReachable_returns deleteParent childSeed
    obtain ⟨result, run⟩ := returns (enough + 1) (Nat.lt_succ_self _)
    obtain ⟨walk, rfl⟩ := collectReachable_succeeds readable_deleteParent run
    refine ⟨enough + 1, walk, run, ((collectReachable_eq_ok run).1 _).mpr ?_⟩
    have first : Arrives deleteParent deleteParent.readDates childSeed ⟨childSum, .since 50, .root⟩ :=
      .seed (List.mem_singleton_self _)
    have root : ∀ dates, ¬ Refused dates ⟨childSum, .since 50, .root⟩ := by
      rintro dates ⟨_, _, -, ⟨⟩⟩
    refine ⟨⟨oldSum, .since 50, .timedParent⟩, ⟨.parent first (not_dropped _) (root _) readCommit_child rfl rfl rfl,
      not_dropped _, ?_⟩, .inl rfl⟩
    rintro ⟨_, _, date, -⟩
    cases date
  · rintro ⟨visit, ⟨arrives, -, young⟩, here⟩
    rcases arrives_deleteParent arrives with rfl | rfl
    · rcases here with same | ⟨_, _, noTree, _⟩
      · exact absurd same (by decide)
      · cases noTree
    · refine young ⟨old.timestamp.toNat, 50, ?_, by decide⟩
      show dateOf (twoCommits.tryLoadCommit oldSum) = _
      rw [tryLoadCommit_old]
      rfl

end Ostrya.Repo
