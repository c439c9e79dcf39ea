/-
**The walk computes the declared closure** (`traverse.rs`, `collect_reachable`).

An arrival is done with (`Done`) where it is dropped, refused, or within a bound under which its commit was
expanded. The invariant says that every arrival that the rules ask for is on the stack or done with; one
round keeps it, whatever the order of the stack. At the end the stack is empty, and an induction over the
rules shows that every arrival is done with.
-/

import Ostrya.Repo.Reachability

namespace Ostrya.Repo

open ByteFormat Gvariant Ostrya.Core

variable {args : WalkArgs} {seeds : List (Checksum × ParentBound)} {walk next : Walk} {visit : Visit}

/-! ### Done with an arrival -/

/-- Nothing is left to do for an arrival. -/
def Done (args : WalkArgs) (walk : Walk) (visit : Visit) : Prop :=
  ((args.gc.weakRoots visit.commit).isSome → visit.commit ∈ walk.weakSeeded) ∧
    (args.Dropped visit ∨ Refused args.readDates visit ∨ (walk.seenCommits visit.commit).Covered visit.bound)

/-- An arrival is on the stack, is the one at hand, or is done with. -/
def Pending (args : WalkArgs) (hand : List Visit) (walk : Walk) (visit : Visit) : Prop :=
  visit ∈ hand ∨ visit ∈ walk.stack ∨ Done args walk visit

/-- What an entry says about its commit is right. -/
structure Knows (args : WalkArgs) (checksum : Checksum) (entry : Expanded) : Prop where
  read : entry.expanded = true → ∃ commit, args.readCommit checksum = .ok commit ∧ entry.read = WalkArgs.readOf commit
  present : ∀ parent timestamp, entry.read = .present parent timestamp →
    ∃ commit, args.readCommit checksum = .ok (some commit) ∧ commit.parent = parent ∧ commit.timestamp.toNat = timestamp
  rejected : ∀ since, entry.rejectedSince = some since →
    ∃ commit, args.readCommit checksum = .ok (some commit) ∧ commit.timestamp.toNat < since

/-- A commit passes a bound on to its parent. -/
def Follows (args : WalkArgs) (checksum : Checksum) (bound : ParentBound) (visit : Visit) : Prop :=
  ∃ commit parent, args.readCommit checksum = .ok (some commit) ∧ args.gc.traverseParent = true ∧
    commit.parent = some parent ∧ parentVisit parent bound = some visit

/-- What an expansion leaves behind: the names of the commit, and its related commits as seeds. -/
def Collected (args : WalkArgs) (walk : Walk) (checksum : Checksum) : Prop :=
  ⟨checksum, .commit⟩ ∈ walk.reachable ∧ ∀ commit, args.readCommit checksum = .ok (some commit) →
    (∃ targets, args.relatedOf checksum commit = .ok targets ∧ ∀ target ∈ targets, target ∈ walk.seeded) ∧
    (args.gc.traverseTree = true →
      ⟨commit.rootDirmeta, .dirMeta⟩ ∈ walk.reachable ∧ commit.rootDirtree ∈ walk.seenDirtrees)

/-- **The invariant of the walk.** -/
structure WalkInv (args : WalkArgs) (seeds : List (Checksum × ParentBound)) (hand : List Visit)
    (walk : Walk) : Prop where
  knows : ∀ checksum, Knows args checksum (walk.seenCommits checksum)
  arrives : ∀ visit ∈ walk.stack, Arrives args args.readDates seeds visit
  names : ∀ name ∈ walk.reachable, Declared args args.readDates seeds name
  seeds : ∀ seed ∈ seeds, Pending args hand walk ⟨seed.1, seed.2, .root⟩
  weak : ∀ checksum ∈ walk.weakSeeded, ∀ bounds, args.gc.weakRoots checksum = some bounds → ∀ bound ∈ bounds.seeds,
    Pending args hand walk ⟨checksum, bound, .root⟩
  parents : ∀ checksum, ∀ bound ∈ (walk.seenCommits checksum).held, ∀ visit,
    Follows args checksum bound visit → Pending args hand walk visit
  seeded : ∀ target ∈ walk.seeded, Pending args hand walk ⟨target, args.rootBound, .root⟩
  edges : ∀ checksum ∈ walk.edgesRead, (walk.seenCommits checksum).expanded = true
  collected : ∀ checksum, (walk.seenCommits checksum).expanded = true → Collected args walk checksum
  trees : TreeClosed args.store walk.seenDirtrees walk.reachable

/-! ### At the end -/

/-- **With an empty stack, every arrival of the rules is done with**, by induction over the
rules. -/
theorem WalkInv.done (inv : WalkInv args seeds [] walk) (ended : walk.stack = [])
    (arrives : Arrives args args.readDates seeds visit) : Done args walk visit := by
  have settled : ∀ {visit}, Pending args [] walk visit → Done args walk visit := by
    rintro visit (⟨⟨⟩⟩ | waiting | done)
    · rw [ended] at waiting
      cases waiting
    · exact done
  have covered : ∀ {visit}, Done args walk visit → ¬ args.Dropped visit →
      ¬ Refused args.readDates visit → (walk.seenCommits visit.commit).Covered visit.bound :=
    fun done kept young => (done.2.resolve_left kept).resolve_left young
  induction arrives with
  | seed member => exact settled (inv.seeds _ member)
  | weak _ named member ih =>
    have taken := ih.1 (by rw [named]; rfl)
    exact settled (inv.weak _ taken _ named _ member)
  | related _ kept young read edges member ih =>
    obtain ⟨targets, same, all⟩ := ((inv.collected _ (covered ih kept young).expanded).2 _ read).1
    rw [edges] at same
    cases same
    exact settled (inv.seeded _ (all _ member))
  | parent _ kept young read follows named passes ih =>
    obtain ⟨further, held, within⟩ := covered ih kept young
    obtain ⟨next, passesToo, same, reaches, inherits, inherited, refuses⟩ := parentVisit_within within passes
    obtain ⟨seeded, dropped | ⟨timestamp, since, date, old⟩ | taken⟩ :=
      settled (inv.parents _ further held next ⟨_, _, read, follows, named, passesToo⟩)
    · rw [same] at seeded
      exact ⟨seeded, .inl ⟨inherited, same ▸ dropped.2⟩⟩
    · rw [same] at seeded date
      obtain ⟨since, old⟩ := refuses timestamp since old
      exact ⟨seeded, .inr (.inl ⟨timestamp, since, date, old⟩)⟩
    · rw [same] at seeded taken
      exact ⟨seeded, .inr (.inr (taken.within reaches))⟩

/-- **At the end the names are the declared closure.** -/
theorem WalkInv.reachable_iff (inv : WalkInv args seeds [] walk) (ended : walk.stack = [])
    (name : ObjectName) : name ∈ walk.reachable ↔ Declared args args.readDates seeds name := by
  refine ⟨inv.names name, ?_⟩
  rintro ⟨visit, ⟨arrives, kept, young⟩, here⟩
  have covered := ((inv.done ended arrives).2.resolve_left kept).resolve_left young
  obtain ⟨commitIn, rest⟩ := inv.collected visit.commit covered.expanded
  obtain rfl | ⟨commit, read, trees, named⟩ := here
  · exact commitIn
  · obtain ⟨dirmeta, tree⟩ := (rest commit read).2 trees
    obtain rfl | named := named
    · exact dirmeta
    · exact inv.trees.names tree named

/-- At the end every read of the rules succeeded. -/
theorem WalkInv.readable (inv : WalkInv args seeds [] walk) (ended : walk.stack = []) :
    Readable args args.readDates seeds := by
  intro visit arrives kept
  rcases (inv.done ended arrives).2.resolve_left kept with refused | covered
  · obtain ⟨timestamp, since, date, old⟩ := refused
    cases read : args.readCommit visit.commit with
    | error fault =>
      rw [WalkArgs.readDates, read] at date
      cases date
    | ok loaded => exact ⟨loaded, rfl, fun young => absurd ⟨timestamp, since, date, old⟩ young⟩
  · obtain ⟨loaded, read, -⟩ := (inv.knows visit.commit).read covered.expanded
    refine ⟨loaded, read, ?_⟩
    rintro - commit rfl
    obtain ⟨⟨targets, edges, -⟩, rest⟩ := (inv.collected _ covered.expanded).2 commit read
    exact ⟨⟨targets, edges⟩, fun trees tree reach => inv.trees.loads (rest trees).2 reach⟩

/-! ### One change -/

variable {checksum : Checksum}

theorem Done.mono (done : Done args walk visit) (weak : walk.weakSeeded ⊆ next.weakSeeded)
    (covered : ∀ bound, (walk.seenCommits visit.commit).Covered bound → (next.seenCommits visit.commit).Covered bound) :
    Done args next visit :=
  ⟨fun isWeak => weak (done.1 isWeak), done.2.imp_right fun rest => rest.imp_right (covered _)⟩

/-- What a round does with the commit of its arrival: everything that it adds is asked for by the
rules. -/
structure Extends (args : WalkArgs) (seeds : List (Checksum × ParentBound)) (checksum : Checksum)
    (walk next : Walk) : Prop where
  stack : ∀ visit ∈ walk.stack, visit ∈ next.stack
  arrives : ∀ visit ∈ next.stack, visit ∈ walk.stack ∨ Arrives args args.readDates seeds visit
  weakSeeded : next.weakSeeded = walk.weakSeeded
  others : ∀ other, other ≠ checksum → next.seenCommits other = walk.seenCommits other
  knows : Knows args checksum (next.seenCommits checksum)
  covered : ∀ bound, (walk.seenCommits checksum).Covered bound → (next.seenCommits checksum).Covered bound
  parents : ∀ bound ∈ (next.seenCommits checksum).held, bound ∈ (walk.seenCommits checksum).held ∨
    ∀ visit, Follows args checksum bound visit → visit ∈ next.stack
  seededKept : walk.seeded ⊆ next.seeded
  seeded : ∀ target ∈ next.seeded, target ∈ walk.seeded ∨ (⟨target, args.rootBound, .root⟩ : Visit) ∈ next.stack
  edges : ∀ other ∈ next.edgesRead, other ∈ walk.edgesRead ∨ other = checksum ∧
    (next.seenCommits checksum).expanded = true
  namesKept : walk.reachable ⊆ next.reachable
  names : ∀ name ∈ next.reachable, name ∈ walk.reachable ∨ Declared args args.readDates seeds name
  dirtreesKept : walk.seenDirtrees ⊆ next.seenDirtrees
  collected : (next.seenCommits checksum).expanded = true →
    (walk.seenCommits checksum).expanded = true ∨ Collected args next checksum
  trees : TreeClosed args.store next.seenDirtrees next.reachable

theorem Extends.collected_of (ext : Extends args seeds checksum walk next)
    (before : Collected args walk other) : Collected args next other := by
  refine ⟨ext.namesKept before.1, fun commit read => ?_⟩
  obtain ⟨⟨targets, edges, all⟩, tree⟩ := before.2 commit read
  exact ⟨⟨targets, edges, fun target member => ext.seededKept (all target member)⟩,
    fun trees => ⟨ext.namesKept (tree trees).1, ext.dirtreesKept (tree trees).2⟩⟩

/-- **A change that the rules ask for keeps the invariant.** -/
theorem WalkInv.extends (inv : WalkInv args seeds hand walk)
    (ext : Extends args seeds checksum walk next) : WalkInv args seeds hand next := by
  have same : ∀ other, other = checksum ∨ next.seenCommits other = walk.seenCommits other := by
    intro other
    by_cases at_ : other = checksum
    · exact .inl at_
    · exact .inr (ext.others other at_)
  have pending : ∀ {visit}, Pending args hand walk visit → Pending args hand next visit := by
    rintro visit (inHand | waiting | done)
    · exact .inl inHand
    · exact .inr (.inl (ext.stack _ waiting))
    · refine .inr (.inr (done.mono (by rw [ext.weakSeeded]) fun bound covered => ?_))
      obtain rfl | unchanged := same visit.commit
      · exact ext.covered bound covered
      · rw [unchanged]
        exact covered
  refine ⟨fun other => ?_, fun visit member => (ext.arrives visit member).elim (inv.arrives visit) id,
    fun name member => (ext.names name member).elim (inv.names name) id, fun seed member =>
      pending (inv.seeds seed member),
    fun other member bounds named bound inside => ?_, fun other bound held visit follows => ?_,
    fun target member => ?_, fun other member => ?_, fun other expanded => ?_, ext.trees⟩
  · obtain rfl | unchanged := same other
    · exact ext.knows
    · rw [unchanged]
      exact inv.knows other
  · rw [ext.weakSeeded] at member
    exact pending (inv.weak other member bounds named bound inside)
  · obtain rfl | unchanged := same other
    · rcases ext.parents bound held with before | pushed
      · exact pending (inv.parents _ bound before visit follows)
      · exact .inr (.inl (pushed visit follows))
    · rw [unchanged] at held
      exact pending (inv.parents _ bound held visit follows)
  · rcases ext.seeded target member with before | waiting
    · exact pending (inv.seeded target before)
    · exact .inr (.inl waiting)
  · rcases ext.edges other member with before | ⟨rfl, expanded⟩
    · have expanded := inv.edges other before
      obtain rfl | unchanged := same other
      · obtain ⟨bound, held⟩ := Expanded.expanded_iff.mp expanded
        exact (ext.covered bound ⟨bound, held, .refl _⟩).expanded
      · rw [unchanged]
        exact expanded
    · exact expanded
  · obtain rfl | unchanged := same other
    · exact (ext.collected expanded).elim (fun before => ext.collected_of (inv.collected _ before)) id
    · rw [unchanged] at expanded
      exact ext.collected_of (inv.collected other expanded)

theorem WalkInv.restack (inv : WalkInv args seeds hand walk) (pending : ∀ {visit}, Pending args hand walk visit →
      Pending args others { walk with stack := stack, weakSeeded := weakSeeded } visit)
    (arrives : ∀ visit ∈ stack, Arrives args args.readDates seeds visit)
    (weak : ∀ checksum ∈ weakSeeded, ∀ bounds, args.gc.weakRoots checksum = some bounds → ∀ bound ∈ bounds.seeds,
      Pending args others { walk with stack := stack, weakSeeded := weakSeeded } ⟨checksum, bound, .root⟩) :
    WalkInv args seeds others { walk with stack := stack, weakSeeded := weakSeeded } :=
  ⟨inv.knows, arrives, inv.names, fun seed member => pending (inv.seeds seed member), weak,
    fun checksum bound held visit follows => pending (inv.parents checksum bound held visit follows),
    fun target member => pending (inv.seeded target member), inv.edges, inv.collected, inv.trees⟩

theorem WalkInv.close (inv : WalkInv args seeds [visit] walk) (done : Done args walk visit) :
    WalkInv args seeds [] walk := by
  have pending : ∀ {other}, Pending args [visit] walk other → Pending args [] walk other := by
    rintro other (inHand | waiting | finished)
    · cases List.mem_singleton.mp inHand
      exact .inr (.inr done)
    · exact .inr (.inl waiting)
    · exact .inr (.inr finished)
  exact inv.restack pending inv.arrives fun checksum member bounds named bound inside =>
    pending (inv.weak checksum member bounds named bound inside)

/-! ### The related edges -/

variable {prefetched : Option (Except String (Option (List RelatedEntry)))}

/-- The effect of the related edges: the targets are seeded, and those that were not are on the
stack. -/
structure Seeds (args : WalkArgs) (targets : List Checksum) (walk next : Walk) : Prop where
  seenCommits : next.seenCommits = walk.seenCommits
  weakSeeded : next.weakSeeded = walk.weakSeeded
  reachable : next.reachable = walk.reachable
  seenDirtrees : next.seenDirtrees = walk.seenDirtrees
  stack : ∀ visit ∈ walk.stack, visit ∈ next.stack
  pushed : ∀ visit ∈ next.stack, visit ∈ walk.stack ∨ ∃ target ∈ targets, visit = ⟨target, args.rootBound, .root⟩
  seeded : ∀ target, target ∈ next.seeded ↔ target ∈ walk.seeded ∨ target ∈ targets
  waiting : ∀ target ∈ next.seeded, target ∈ walk.seeded ∨ (⟨target, args.rootBound, .root⟩ : Visit) ∈ next.stack
  left : next.stack.length + 2 * next.seededᶜ.card ≤ walk.stack.length + 2 * walk.seededᶜ.card

theorem Seeds.refl (walk : Walk) : Seeds args [] walk walk :=
  ⟨rfl, rfl, rfl, rfl, fun _ member => member,
    fun _ member => .inl member, by simp, fun _ member => .inl member, le_refl _⟩

theorem Seeds.trans (one : Seeds args first walk middle)
    (two : Seeds args second middle next) : Seeds args (first ++ second) walk next := by
  refine ⟨two.seenCommits.trans one.seenCommits, two.weakSeeded.trans one.weakSeeded,
    two.reachable.trans one.reachable, two.seenDirtrees.trans one.seenDirtrees,
    fun visit member => two.stack visit (one.stack visit member), fun visit member => ?_, fun target => ?_,
    fun target member => ?_, two.left.trans one.left⟩
  · grind [Ostrya.Repo.Seeds.pushed, List.mem_append_left, List.mem_append_right]
  · rw [two.seeded, one.seeded, List.mem_append, or_assoc]
  · rcases two.waiting target member with before | waits
    · exact (one.waiting target before).imp_right (two.stack _)
    · exact .inr waits

theorem seeds_pushRelated (targets : List Checksum) (walk : Walk) :
    Seeds args targets walk (args.pushRelated targets walk) ∧
      (args.pushRelated targets walk).edgesRead = walk.edgesRead := by
  induction targets generalizing walk with
  | nil => exact ⟨.refl walk, rfl⟩
  | cons target targets ih =>
    -- one push
    have one : Seeds args [target] walk (args.pushRelated [target] walk) ∧
        (args.pushRelated [target] walk).edgesRead = walk.edgesRead := by
      unfold WalkArgs.pushRelated
      rw [List.foldl_cons, List.foldl_nil]
      split
      · next known =>
        refine ⟨⟨rfl, rfl, rfl, rfl, fun _ member => member, fun _ member => .inl member,
          fun other => ?_, fun _ member => .inl member, le_refl _⟩, rfl⟩
        rw [List.mem_singleton]
        exact ⟨.inl, fun either => either.elim id fun same => same ▸ known⟩
      · next fresh =>
        refine ⟨⟨rfl, rfl, rfl, rfl, fun _ member => .tail _ member, fun visit member => ?_,
          fun other => ?_, fun other member => ?_, ?_⟩, rfl⟩
        · grind
        · rw [Finset.mem_insert, List.mem_singleton, or_comm]
        · obtain rfl | before := Finset.mem_insert.mp member
          · exact .inr (.head _)
          · exact .inl before
        · have one := card_compl_insert fresh
          simp only [List.length_cons]
          omega
    obtain ⟨rest, edges⟩ := ih (args.pushRelated [target] walk)
    exact ⟨one.1.trans rest, edges.trans one.2⟩

/-- The build sources that a load brought along are those of the store. -/
def Prefetched (args : WalkArgs) (checksum : Checksum)
    (prefetched : Option (Except String (Option (List RelatedEntry)))) :
    Prop :=
  ∀ sources, prefetched = some sources → (args.store.loadBuildSourceDict checksum).map buildSources = .ok sources

theorem Prefetched.sourcesOf
    (right : Prefetched args checksum prefetched) : args.sourcesOf checksum prefetched =
      args.sourcesOf checksum none := by
  cases prefetched with
  | none => rfl
  | some sources =>
    unfold WalkArgs.sourcesOf
    rw [right sources rfl]

/-- The targets of one field, after its warnings. -/
theorem seeds_field (field : RelatedField) (defects : List String) (targets : List Checksum) (walk : Walk) :
    Seeds args targets walk (args.pushRelated targets (WalkArgs.warn checksum field defects walk)) ∧
      (args.pushRelated targets (WalkArgs.warn checksum field defects walk)).edgesRead = walk.edgesRead := by
  obtain ⟨made, edges⟩ := @seeds_pushRelated args targets (WalkArgs.warn checksum field defects walk)
  exact ⟨{ made with }, edges⟩

/-- **The edges of a first expansion** seed exactly the related commits. -/
theorem seeds_readEdges (right : Prefetched args checksum prefetched)
    (fresh : checksum ∉ walk.edgesRead) (run : args.readEdges checksum commit prefetched walk = .ok next) :
    ∃ targets, args.relatedOf checksum commit = .ok targets ∧ Seeds args targets walk next ∧
      ∀ other ∈ next.edgesRead, other ∈ walk.edgesRead ∨ other = checksum := by
  unfold WalkArgs.readEdges at run
  rw [right.sourcesOf] at run
  unfold WalkArgs.relatedOf
  -- from the walk that has marked the edges as read
  have marked : ∀ {targets}, Seeds args targets { walk with edgesRead := insert checksum walk.edgesRead } next →
      next.edgesRead = insert checksum walk.edgesRead → Seeds args targets walk next ∧
        ∀ other ∈ next.edgesRead, other ∈ walk.edgesRead ∨ other = checksum := by
    intro targets made edges
    rw [edges]
    exact ⟨{ made with }, fun other member => (Finset.mem_insert.mp member).symm⟩
  split at run
  · cases deps : args.gc.dependencies <;> cases sources : args.gc.buildSources <;>
      simp only [deps, sources, Bool.false_eq_true, if_false, if_true] at run ⊢
    · cases run
      exact ⟨[], rfl, marked (.refl _) rfl⟩
    · obtain ⟨⟨targets, defects⟩, split, run⟩ := bind_eq_ok.mp run
      cases run
      obtain ⟨made, edges⟩ := seeds_field .buildSources defects targets _
      exact ⟨targets, by rw [split]; rfl, marked made edges⟩
    · cases run
      obtain ⟨made, edges⟩ := seeds_field .dependencies _ _ _
      exact ⟨_, rfl, by rw [List.append_nil]; exact marked made edges⟩
    · obtain ⟨⟨targets, defects⟩, split, run⟩ := bind_eq_ok.mp run
      cases run
      obtain ⟨first, firstEdges⟩ := seeds_field .dependencies _ _ _
      obtain ⟨second, secondEdges⟩ := seeds_field .buildSources defects targets _
      exact ⟨_, by rw [split]; rfl, marked (first.trans second) (secondEdges.trans firstEdges)⟩
  · next none =>
    cases run
    have off : args.gc.dependencies = false ∧ args.gc.buildSources = false := by
      simpa [fresh, not_or] using none
    rw [off.1, off.2]
    exact ⟨[], rfl, .refl walk, fun _ member => .inl member⟩

/-! ### The entry of a commit -/

variable {commit : Option Commit}

theorem mem_pushParent :
    visit ∈ (args.pushParent parent bound walk).stack ↔ visit ∈ walk.stack ∨
      args.gc.traverseParent = true ∧ ∃ checksum, parent = some checksum ∧ parentVisit checksum bound = some visit := by
  unfold WalkArgs.pushParent
  cases parent with
  | none => simp
  | some checksum =>
    grind

theorem pushParent_fields (parent : Option Checksum) (bound : ParentBound) (walk : Walk) :
    args.pushParent parent bound walk = { walk with stack := (args.pushParent parent bound walk).stack } := by
  unfold WalkArgs.pushParent
  cases parent with
  | none => rfl
  | some checksum =>
    dsimp only
    split <;> rfl

theorem readOf_present (same : WalkArgs.readOf commit = .present parent timestamp) :
    ∃ held, commit = some held ∧ held.parent = parent ∧ held.timestamp.toNat = timestamp := by
  cases commit with
  | none => cases same
  | some held =>
    cases same
    exact ⟨held, rfl, rfl, rfl⟩

/-- A rejection that the timestamp bears out. -/
theorem Knows.reject (knows : Knows args checksum entry) {commit : Commit}
    (read : args.readCommit checksum = .ok (some commit)) (old : commit.timestamp.toNat < since) :
    Knows args checksum (entry.reject since) := by
  refine ⟨knows.read, knows.present, fun bound same => ?_⟩
  have same : earlierSince entry.rejectedSince since = some bound := same
  unfold earlierSince at same
  split at same
  · cases same
    exact ⟨commit, read, old⟩
  · exact knows.rejected bound same

/-- An expansion, once the commit was read. -/
theorem Knows.record (knows : Knows args checksum entry)
    (read : args.readCommit checksum = .ok commit) (same : entry.read = WalkArgs.readOf commit) (bound : ParentBound) :
    Knows args checksum (entry.record bound) := by
  have fields : (entry.record bound).read = entry.read ∧ (entry.record bound).rejectedSince = entry.rejectedSince := by
    cases bound <;> exact ⟨rfl, rfl⟩
  refine ⟨fun _ => ⟨commit, read, fields.1.trans same⟩, ?_, ?_⟩
  · rw [fields.1]
    exact knows.present
  · rw [fields.2]
    exact knows.rejected

/-- The entry after a read. -/
theorem Knows.readAs (knows : Knows args checksum entry)
    (read : args.readCommit checksum = .ok commit) :
      Knows args checksum { entry with read := WalkArgs.readOf commit } := by
  refine ⟨fun _ => ⟨commit, read, rfl⟩, fun parent timestamp same => ?_, knows.rejected⟩
  obtain ⟨held, rfl, named, time⟩ := readOf_present same
  exact ⟨held, read, named, time⟩

theorem tooOld_eq_some (old : tooOld arrival bound timestamp = some since) : timestamp < since := by
  unfold tooOld at old
  split at old
  · split_ifs at old
    cases old
    assumption
  · cases old

/-- An entry that holds no new bound, with everything else as it was. -/
theorem Extends.entry {entry : Expanded} (inv : WalkInv args seeds [visit] walk)
    (knows : Knows args checksum entry) (same : entry.held = (walk.seenCommits checksum).held) :
    Extends args seeds checksum walk (WalkArgs.setSeen checksum entry walk) := by
  have now : (WalkArgs.setSeen checksum entry walk).seenCommits checksum = entry := Function.update_self ..
  have expanded : entry.expanded = true → (walk.seenCommits checksum).expanded = true := by
    rw [Expanded.expanded_iff, Expanded.expanded_iff, same]
    exact id
  refine ⟨fun _ member => member, fun _ member => .inl member, rfl, fun other differs =>
    Function.update_of_ne differs ..,
    by rw [now]; exact knows, fun bound covered => ?_, fun bound held => ?_, Finset.Subset.refl _,
    fun _ member => .inl member, fun _ member => .inl member, Finset.Subset.refl _, fun _ member => .inl member,
    Finset.Subset.refl _, fun set => ?_, inv.trees⟩
  · rw [now]
    obtain ⟨further, held, within⟩ := covered
    exact ⟨further, same ▸ held, within⟩
  · rw [now, same] at held
    exact .inl held
  · rw [now] at set
    exact .inl (expanded set)

/-! ### One round -/

theorem WalkInv.pop (inv : WalkInv args seeds [] walk) (top : walk.stack = visit :: stack) :
    WalkInv args seeds [visit] { walk with stack := stack } := by
  have pending : ∀ {other}, Pending args [] walk other → Pending args [visit] { walk with stack := stack } other := by
    rintro other (⟨⟨⟩⟩ | waiting | finished)
    · rw [top] at waiting
      obtain rfl | later := List.mem_cons.mp waiting
      · exact .inl (List.mem_singleton_self _)
      · exact .inr (.inl later)
    · exact .inr (.inr finished)
  exact inv.restack pending (fun other member => inv.arrives other (top ▸ .tail _ member))
    fun checksum member bounds named bound inside => pending (inv.weak checksum member bounds named bound inside)

theorem WalkInv.seedWeak (inv : WalkInv args seeds [visit] walk) (arrives : Arrives args args.readDates seeds visit) :
    WalkInv args seeds [visit] (args.seedWeak visit.commit walk) ∧
      ((args.gc.weakRoots visit.commit).isSome → visit.commit ∈ (args.seedWeak visit.commit walk).weakSeeded) := by
  unfold WalkArgs.seedWeak
  cases named : args.gc.weakRoots visit.commit with
  | none => exact ⟨inv, nofun⟩
  | some bounds =>
    dsimp only
    split
    · next before => exact ⟨inv, fun _ => before⟩
    · have pushed : ∀ other, other ∈ bounds.seeds.foldl
          (fun stack bound => ⟨visit.commit, bound, .root⟩ :: stack) walk.stack ↔
          other ∈ walk.stack ∨ ∃ bound ∈ bounds.seeds, other = ⟨visit.commit, bound, .root⟩ :=
        mem_pushAll (fun bound => (⟨visit.commit, bound, .root⟩ : Visit)) bounds.seeds walk.stack
      refine ⟨?_, fun _ => Finset.mem_insert_self ..⟩
      have pending : ∀ {other}, Pending args [visit] walk other → Pending args [visit] { walk with
          weakSeeded := insert visit.commit walk.weakSeeded
          stack := bounds.seeds.foldl (fun stack bound => ⟨visit.commit, bound, .root⟩ :: stack)
            walk.stack } other := by
        rintro other (inHand | waiting | finished)
        · exact .inl inHand
        · exact .inr (.inl ((pushed other).mpr (.inl waiting)))
        · exact .inr (.inr (finished.mono (Finset.subset_insert ..) fun _ covered => covered))
      refine inv.restack pending (fun other member => ?_) fun checksum member own same bound inside => ?_
      · rcases (pushed other).mp member with before | ⟨bound, inside, rfl⟩
        · exact inv.arrives other before
        · exact .weak arrives named inside
      · obtain rfl | before := Finset.mem_insert.mp member
        · rw [named] at same
          cases same
          exact .inr (.inl ((pushed _).mpr (.inr ⟨bound, inside, rfl⟩)))
        · exact pending (inv.weak checksum before own same bound inside)

/-- Both ways to load a commit read the same. -/
theorem loadCommit_eq_ok (run : args.loadCommit visit edgesRead = .ok (commit, prefetched)) :
    args.readCommit visit.commit = .ok commit ∧ Prefetched args visit.commit prefetched := by
  unfold WalkArgs.loadCommit at run
  unfold WalkArgs.readCommit
  split at run
  · next pending =>
    cases run
    rw [if_pos pending]
    exact ⟨rfl, nofun⟩
  · next other =>
    rw [if_neg other]
    split at run
    · obtain ⟨loaded, load, run⟩ := bind_eq_ok.mp run
      obtain ⟨bytes, stored, load⟩ := bind_eq_ok.mp load
      unfold MetadataSource.tryLoadCommit
      rw [stored, ok_bind]
      cases bytes with
      | none =>
        cases load
        cases run
        exact ⟨rfl, nofun⟩
      | some bytes =>
        obtain ⟨detached, dict, load⟩ := bind_eq_ok.mp load
        cases load
        obtain ⟨parsed, parse, run⟩ := bind_eq_ok.mp run
        cases run
        refine ⟨by dsimp only; rw [parse]; rfl, ?_⟩
        rintro _ ⟨⟩
        rw [dict]
        rfl
    · obtain ⟨loaded, load, run⟩ := bind_eq_ok.mp run
      cases run
      exact ⟨load, nofun⟩

/-- **An expansion** adds what the rules ask for and ends the round. -/
theorem WalkInv.advance (inv : WalkInv args seeds [visit] walk)
    (taken : (args.gc.weakRoots visit.commit).isSome → visit.commit ∈ walk.weakSeeded)
    (accepts : Accepts args args.readDates seeds visit) (read : args.readCommit visit.commit = .ok commit)
    (made : Seeds args targets { WalkArgs.setSeen visit.commit
      ({ walk.seenCommits visit.commit with read := WalkArgs.readOf commit }.record visit.bound) walk with
      reachable := reachable, seenDirtrees := dirtrees } middle)
    (arrive : ∀ target ∈ targets, Arrives args args.readDates seeds ⟨target, args.rootBound, .root⟩)
    (edgesRead : ∀ other ∈ middle.edgesRead, other ∈ walk.edgesRead ∨ other = visit.commit)
    (namesKept : walk.reachable ⊆ reachable)
    (names : ∀ name ∈ reachable, name ∈ walk.reachable ∨ CommitName args visit.commit name)
    (dirtreesKept : walk.seenDirtrees ⊆ dirtrees)
    (collected : (walk.seenCommits visit.commit).expanded = true ∨ ⟨visit.commit, .commit⟩ ∈ reachable ∧
      ∀ held, commit = some held → args.relatedOf visit.commit held = .ok targets ∧ (args.gc.traverseTree = true →
        ⟨held.rootDirmeta, .dirMeta⟩ ∈ reachable ∧ held.rootDirtree ∈ dirtrees))
    (trees : TreeClosed args.store dirtrees reachable) :
    WalkInv args seeds [] (args.pushParent (commit.bind (·.parent)) visit.bound middle) := by
  have stack : ∀ other, other ∈ (args.pushParent (commit.bind (·.parent)) visit.bound middle).stack ↔ _ :=
    fun other => mem_pushParent
  have reachableNow : middle.reachable = reachable := made.reachable
  have dirtreesNow : middle.seenDirtrees = dirtrees := made.seenDirtrees
  have now : middle.seenCommits visit.commit =
      { walk.seenCommits visit.commit with read := WalkArgs.readOf commit }.record visit.bound := by
    rw [made.seenCommits]
    exact Function.update_self ..
  have covers : (middle.seenCommits visit.commit).Covered visit.bound := by
    rw [now]
    exact Expanded.covered_record (.inl rfl)
  rw [pushParent_fields]
  refine (inv.extends (?_ : Extends args seeds visit.commit walk _)).close
    ⟨fun isWeak => made.weakSeeded ▸ taken isWeak, .inr (.inr covers)⟩
  refine ⟨fun other member => (stack other).mpr (.inl (made.stack other member)), fun other member => ?_,
    made.weakSeeded, fun other differs => ?_, ?_, fun bound covered => ?_, fun bound held => ?_,
    fun target member => (made.seeded target).mpr (.inl member), fun target member => ?_, fun other member => ?_, ?_,
    fun name member => ?_, ?_, fun _ => collected.imp_right fun collected => ?_, ?_⟩
  · rcases (stack other).mp member with before | ⟨follows, parent, named, passes⟩
    · rcases made.pushed other before with before | ⟨target, inside, rfl⟩
      · exact .inl before
      · exact .inr (arrive target inside)
    · cases commit with
      | none => cases named
      | some held => exact .inr (.parent accepts.arrives accepts.kept accepts.young read follows named passes)
  · rw [made.seenCommits]
    exact Function.update_of_ne differs ..
  · rw [now]
    exact ((inv.knows visit.commit).readAs read).record read rfl visit.bound
  · rw [now]
    exact Expanded.covered_record (.inr covered)
  · rw [now] at held
    refine (Expanded.mem_held_record held).symm.imp_right ?_
    rintro rfl other ⟨commit, parent, same, follows, named, passes⟩
    rw [read] at same
    cases same
    exact (stack other).mpr (.inr ⟨follows, parent, named, passes⟩)
  · exact (made.waiting target member).imp_right fun waits => (stack _).mpr (.inl waits)
  · exact (edgesRead other member).imp_right fun same => ⟨same, covers.expanded⟩
  · rw [reachableNow]
    exact namesKept
  · rw [reachableNow] at member
    exact (names name member).imp_right fun given => ⟨visit, accepts, given⟩
  · rw [dirtreesNow]
    exact dirtreesKept
  · subst reachableNow dirtreesNow
    refine ⟨collected.1, fun held same => ?_⟩
    rw [read] at same
    cases same
    obtain ⟨edges, tree⟩ := collected.2 held rfl
    exact ⟨⟨targets, edges, fun target member => (made.seeded target).mpr (.inr member)⟩, tree⟩
  · rw [reachableNow, dirtreesNow]
    exact trees

/-- The edges of a commit that was not expanded were not read. -/
theorem WalkInv.unread (inv : WalkInv args seeds hand walk)
    (fresh : (walk.seenCommits checksum).expanded = false) : checksum ∉ walk.edgesRead :=
  fun before => Bool.false_ne_true (fresh.symm.trans (inv.edges _ before))

/-- An arrival that the timestamp of its commit does not refuse. -/
theorem not_refused (read : args.readCommit visit.commit = .ok commit)
    (young : (commit.bind fun commit => tooOld visit.arrival visit.bound commit.timestamp.toNat) = none) :
    ¬ Refused args.readDates visit := by
  rintro ⟨timestamp, since, date, old⟩
  rw [WalkArgs.readDates, read] at date
  cases commit with
  | none => cases date
  | some held =>
    cases date
    rw [Option.bind_some, old] at young
    cases young

/-- **The expansion of a commit that was just loaded.** -/
theorem WalkInv.expand {treeFuel : Nat} (inv : WalkInv args seeds [visit] walk)
    (arrives : Arrives args args.readDates seeds visit) (kept : ¬ args.Dropped visit)
    (taken : (args.gc.weakRoots visit.commit).isSome → visit.commit ∈ walk.weakSeeded)
    (fresh : (walk.seenCommits visit.commit).expanded = false) (read : args.readCommit visit.commit = .ok commit)
    (right : Prefetched args visit.commit prefetched)
    (run : args.expand treeFuel visit commit prefetched walk = some (.ok next)) : WalkInv args seeds [] next := by
  have knows := (inv.knows visit.commit).readAs read
  unfold WalkArgs.expand at run
  split at run
  · next since old =>
    cases run
    obtain ⟨held, rfl, old⟩ := Option.bind_eq_some_iff.mp old
    have ext := Extends.entry inv (knows.reject read (tooOld_eq_some old)) rfl
    exact (inv.extends ext).close ⟨taken, .inr (.inl ⟨_, since, by rw [WalkArgs.readDates, read]; rfl, old⟩)⟩
  · next young =>
    have accepts : Accepts args args.readDates seeds visit := ⟨arrives, kept, not_refused read young⟩
    have commitKept : walk.reachable ⊆ insert ⟨visit.commit, .commit⟩ walk.reachable := Finset.subset_insert ..
    have commitName : ∀ name ∈ insert ⟨visit.commit, .commit⟩ walk.reachable,
        name ∈ walk.reachable ∨ CommitName args visit.commit name := by
      intro name member
      exact (Finset.mem_insert.mp member).symm.imp_right fun same => .inl same
    cases commit with
    | none =>
      cases run
      exact inv.advance taken accepts read (.refl _) nofun (fun _ member => .inl member) commitKept
        commitName (Finset.Subset.refl _) (.inr ⟨Finset.mem_insert_self .., nofun⟩) (inv.trees.mono commitKept)
    | some commit =>
      -- the edges and the parent, after the tree
      have edges : ∀ {dirtrees : Finset Checksum} {reachable : Finset ObjectName}, walk.reachable ⊆ reachable →
          (∀ name ∈ reachable, name ∈ walk.reachable ∨ CommitName args visit.commit name) →
          walk.seenDirtrees ⊆ dirtrees → (⟨visit.commit, .commit⟩ ∈ reachable ∧ (args.gc.traverseTree = true →
            ⟨commit.rootDirmeta, .dirMeta⟩ ∈ reachable ∧ commit.rootDirtree ∈ dirtrees)) →
          TreeClosed args.store dirtrees reachable →
          (do
            let walk ← args.readEdges visit.commit commit prefetched { WalkArgs.setSeen visit.commit
              ({ walk.seenCommits visit.commit with read := WalkArgs.readOf (some commit) }.record
                visit.bound) walk with
              reachable := reachable, seenDirtrees := dirtrees }
            .ok (args.pushParent commit.parent visit.bound walk)) = .ok next →
          WalkInv args seeds [] next := by
        intro dirtrees reachable namesKept names dirtreesKept collected trees run
        obtain ⟨middle, edgesRun, ends⟩ := bind_eq_ok.mp run
        cases ends
        obtain ⟨targets, related, made, edgesRead⟩ := seeds_readEdges right (by exact inv.unread fresh) edgesRun
        refine inv.advance taken accepts read made (fun target inside => ?_) edgesRead namesKept names
          dirtreesKept (.inr ⟨collected.1, ?_⟩) trees
        · exact .related arrives kept accepts.young read related inside
        · rintro held ⟨⟩
          exact ⟨related, collected.2⟩
      dsimp only at run
      split at run
      · next trees =>
        split at run
        · cases run
        · cases run
        · next tree walked =>
          obtain ⟨closed, rootIn, dirtreesKept, names⟩ := walkTree_spec
            (inv.trees.mono (commitKept.trans (Finset.subset_insert ⟨commit.rootDirmeta, .dirMeta⟩ _))) walked
          have dirmetaIn : ⟨commit.rootDirmeta, .dirMeta⟩ ∈ tree.reachable :=
            (names _).mpr (.inl (Finset.mem_insert_self ..))
          have keeps : insert ⟨visit.commit, .commit⟩ walk.reachable ⊆ tree.reachable :=
            fun name member => (names name).mpr (.inl (Finset.mem_insert_of_mem member))
          refine edges (commitKept.trans keeps) (fun name member => ?_) dirtreesKept
            ⟨keeps (Finset.mem_insert_self ..), fun _ => ⟨dirmetaIn, rootIn⟩⟩ closed (Option.some.inj run)
          rcases (names name).mp member with before | given
          · obtain rfl | before := Finset.mem_insert.mp before
            · exact .inr (.inr ⟨commit, read, trees, .inl rfl⟩)
            · exact commitName name before
          · exact .inr (.inr ⟨commit, read, trees, .inr given⟩)
      · next noTrees =>
        exact edges commitKept commitName (Finset.Subset.refl _)
          ⟨Finset.mem_insert_self .., fun trees => absurd trees noTrees⟩ (inv.trees.mono commitKept)
            (Option.some.inj run)

/-- **One round keeps the invariant.** -/
theorem WalkInv.round {treeFuel : Nat} (inv : WalkInv args seeds [] walk)
    (run : args.round treeFuel walk = some (.ok next)) : WalkInv args seeds [] next := by
  unfold WalkArgs.round at run
  split at run
  · cases run
    exact inv
  · next visit stack top =>
    have arrives := inv.arrives visit (by rw [top]; exact (.head _))
    obtain ⟨inv, taken⟩ := (inv.pop top).seedWeak arrives
    generalize args.seedWeak visit.commit { walk with stack := stack } = walk at inv taken run
    split at run
    · next dropped =>
      obtain rfl : walk = next := by simpa using run
      exact inv.close ⟨taken, .inl (show _ ∧ _ by simpa using dropped)⟩
    · next keeps =>
      have kept : ¬ args.Dropped visit := fun dropped => keeps (by simp [dropped.1, dropped.2])
      unfold WalkArgs.arrive at run
      dsimp only at run
      split at run
      · next covers =>
        obtain rfl : walk = next := by simpa using run
        exact inv.close ⟨taken, .inr (.inr (Expanded.covered_of_covers covers))⟩
      split at run
      · next rejects =>
        obtain rfl : walk = next := by simpa using run
        refine inv.close ⟨taken, .inr (.inl ?_)⟩
        obtain ⟨timed, rejects⟩ := rejects
        cases bound : visit.bound with
        | depth depth =>
          rw [bound] at rejects
          cases rejects
        | since since =>
          rw [bound] at rejects
          cases known : (walk.seenCommits visit.commit).rejectedSince with
          | none => simp [Expanded.rejects, known] at rejects
          | some earlier =>
            have later : earlier ≤ since := by simpa [Expanded.rejects, known] using rejects
            obtain ⟨commit, read, old⟩ := (inv.knows visit.commit).rejected earlier known
            refine ⟨_, since, by rw [WalkArgs.readDates, read]; rfl, ?_⟩
            rw [timed, bound]
            simp [tooOld, show commit.timestamp.toNat < since by omega]
      split at run
      · next since old =>
        cases run
        cases present : (walk.seenCommits visit.commit).read with
        | present parent timestamp =>
          rw [present] at old
          obtain ⟨commit, read, -, rfl⟩ := (inv.knows visit.commit).present parent timestamp present
          have ext := Extends.entry inv ((inv.knows visit.commit).reject read (tooOld_eq_some old)) rfl
          exact (inv.extends ext).close ⟨taken, .inr (.inl ⟨_, since, by rw [WalkArgs.readDates, read]; rfl, old⟩)⟩
        | unread | absent =>
          rw [present] at old
          cases old
      · next young =>
        split at run
        · next before =>
          obtain ⟨commit, read, same⟩ := (inv.knows visit.commit).read before
          have accepts : Accepts args args.readDates seeds visit := by
            refine ⟨arrives, kept, not_refused read ?_⟩
            rw [same] at young
            cases commit with
            | none => rfl
            | some commit => exact young
          have ends : next = args.pushParent (commit.bind (·.parent)) visit.bound
              (WalkArgs.setSeen visit.commit ((walk.seenCommits visit.commit).record visit.bound) walk) := by
            rw [same] at run
            cases commit <;> exact (Except.ok.inj (Option.some.inj run)).symm
          have entry : { walk.seenCommits visit.commit with read := WalkArgs.readOf commit } =
              walk.seenCommits visit.commit := by rw [← same]
          have inv := inv.advance taken accepts read (.refl _) (fun _ none => absurd none List.not_mem_nil)
            (fun _ member => .inl member) (Finset.Subset.refl _) (fun _ member => .inl member) (Finset.Subset.refl _)
            (.inl before) inv.trees
          rw [entry] at inv
          subst ends
          exact inv
        · next fresh =>
          split at run
          · cases run
          · next commit prefetched loaded =>
            obtain ⟨read, right⟩ := loadCommit_eq_ok loaded
            exact inv.expand arrives kept taken (by simpa using fresh) read right run

end Ostrya.Repo
