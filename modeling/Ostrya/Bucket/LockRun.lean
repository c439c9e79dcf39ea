/-
**Every run of the writers.**

`Invariant` says at each moment what each writer knows by its outline. Every step keeps it
(`Invariant.step`), so every state of a run has it, and the main theorem reads it off: at most one writer
holds the lock, and the key holds its body (`lock_excludes`). On a server that ignores `If-None-Match` the
probe finds that out, and no writer gets a lock.
-/

import Ostrya.Bucket.LockOutline

namespace Ostrya.Bucket

open ByteFormat Ostrya.Core Gvariant Network

variable {ι : Type} {setup : Setup ι} {req : Request} {world : Bench ι}

/-! ### The invariant -/

/-- What holds between any two steps: of the requests on the wire, of the server and of each
writer. -/
structure Kept (asked : ι → Request → Prop) (sound : Server ι → Prop)
    (knows : Bench ι → ι → Life → Prop) (state : State ι) : Prop where
  asked : ∀ place sender req, state.world.wire place = .flying sender req → asked sender req
  sound : sound state.world.server
  lives : ∀ w, knows state.world w (state.life w)

/-- A writer moves on, with or without a request of its own sent. -/
theorem Kept.moves [DecidableEq ι] {may : ι → Request → Prop} {fine : Server ι → Prop}
    {knows : Bench ι → ι → Life → Prop} {state : State ι} (kept : Kept may fine knows state)
    (sends : state.world.Sends (may w) w world')
    (others : ∀ place req v life, state.world.wire place = .unsent → may w req → v ≠ w →
      knows state.world v life → knows (state.world.send place w req) v life)
    (own : knows world' w life) : Kept may fine knows (state.moves world' w life) := by
  obtain ⟨asked, sound, rest⟩ : (∀ place sender req, world'.wire place = .flying sender req → may sender req) ∧
      fine world'.server ∧ ∀ v, v ≠ w → knows world' v (state.life v) := by
    obtain rfl | ⟨place, req, free, asked, rfl⟩ := sends
    · exact ⟨kept.asked, kept.sound, fun v _ => kept.lives v⟩
    · refine ⟨fun other sender req flies => ?_, kept.sound,
        fun v apart => others place req v _ free asked apart (kept.lives v)⟩
      obtain ⟨-, rfl, rfl⟩ | ⟨-, before⟩ := World.flying_of_send flies
      · exact asked
      · exact kept.asked other sender req before
  exact ⟨asked, sound, (Function.forall_update_iff state.life (knows world')).mpr ⟨own, rest⟩⟩

theorem Kept.at {may : ι → Request → Prop} {fine : Server ι → Prop} {knows : Bench ι → ι → Life → Prop}
    {state : State ι} (kept : Kept may fine knows state) (here : state.life w = life) : knows state.world w life :=
  here ▸ kept.lives w

/-- What a writer knows. -/
def Life.Knows (setup : Setup ι) (world : Bench ι) (w : ι) : Life → Prop
  | .idle => Quiet setup w world
  | .taking call => call.Knows (setup.own w) w (takePost setup w) world
  | .holding lock checks => Holds setup w world ∧ lock.id = (setup.runs w).id ∧
      ∀ call ∈ checks, call.Knows (setup.setting w fun req => req.isRead = true) w checkPost world
  | .releasing call => call.Knows (setup.own w) w (releasePost setup w) world
  | .dropped => True

/-- What holds on a server that honors `If-None-Match`. -/
abbrev Invariant (setup : Setup ι) : State ι → Prop := Kept setup.Owned (Sane setup) (Life.Knows setup)

section Run

variable (honors : setup.rules.honors = true) (distinct : setup.Distinct)
include honors distinct

variable {w : ι} {life : Life}

theorem Life.Knows.send {sender : ι} (knows : life.Knows setup world w)
    {place : Nat} (free : world.wire place = .unsent) (owned : setup.Owned sender req)
    (other : sender = w → req.isRead = true) : life.Knows setup (world.send place sender req) w := by
  have beside : (setup.own w).others sender req := ⟨owned, other⟩
  cases life with
  | idle => exact (Quiet.stable honors distinct w (setup.Owned w)).send _ _ _ _ free beside knows
  | taking call | releasing call => exact Call.Knows.send knows free beside
  | holding lock checks =>
    obtain ⟨holds, named, checked⟩ := knows
    exact ⟨(Holds.stable honors distinct w (setup.Owned w)).send _ _ _ _ free beside holds, named,
      fun call member => (checked call member).send free ⟨owned, other⟩⟩
  | dropped => trivial

theorem Life.Knows.effect {sender : ι} (knows : life.Knows setup world w)
    {place : Nat} (flies : world.wire place = .flying sender req) (owned : setup.Owned sender req) :
    life.Knows setup (world.effect setup.rules.serve place sender req) w := by
  cases life with
  | idle => exact (Quiet.stable honors distinct w (setup.Owned w)).effect _ _ _ _ flies owned knows
  | taking call | releasing call => exact Call.Knows.effect knows flies owned
  | holding lock checks =>
    obtain ⟨holds, named, checked⟩ := knows
    exact ⟨(Holds.stable honors distinct w (setup.Owned w)).effect _ _ _ _ flies owned holds, named,
      fun call member => (checked call member).effect flies owned⟩
  | dropped => trivial

variable [DecidableEq ι]

variable {state : State ι}

theorem Invariant.moves (invariant : Invariant setup state) (sends : state.world.Sends (setup.Owned w) w world')
    (knows : life.Knows setup world' w) : Invariant setup (state.moves world' w life) :=
  Kept.moves invariant sends (fun _ _ _ _ free owned apart knows =>
    knows.send honors distinct free owned fun same => absurd same.symm apart) knows

/-- **Every step keeps the invariant.** -/
theorem Invariant.step (invariant : Invariant setup state)
    (step : Step setup state state') : Invariant setup state' := by
  cases step with
  | effect flies =>
    have owned := invariant.asked _ _ _ flies
    refine ⟨fun other v sent now => invariant.asked other v sent (World.flying_of_effect now).2, ?_, ?_⟩
    · exact invariant.sound.step (lockEffect honors distinct owned invariant.sound.inPlay)
    · exact fun w => (invariant.lives w).effect honors distinct flies owned
  | take here =>
    exact invariant.moves honors distinct (.inl rfl) ⟨Quiet setup _, invariant.at here, take_outline honors distinct⟩
  | takes here run | releases here run =>
    have knows := invariant.at here
    exact invariant.moves honors distinct (Call.Knows.step_sends knows run) (Call.Knows.step knows run)
  | dropTake here | dropRelease here => exact invariant.moves honors distinct (.inl rfl) trivial
  | returned here =>
    obtain ⟨holds, named⟩ := Call.Knows.ended (invariant.at here) _ rfl
    exact invariant.moves honors distinct (.inl rfl) ⟨holds, named, fun call member => by cases member⟩
  | check here =>
    obtain ⟨holds, named, checked⟩ := invariant.at here
    refine invariant.moves honors distinct (.inl rfl) ⟨holds, named, ?_⟩
    rw [List.forall_mem_cons]
    exact ⟨⟨Holds setup _, holds, check_outline honors distinct named rfl⟩, checked⟩
  | @checks w call _ world' _ lock before after here run =>
    have knows := invariant.at here
    have own : Call.Knows _ w checkPost state.world call := knows.2.2 call (by simp)
    have sends : state.world.Sends (fun req => req.isRead = true) w world' := own.step_sends run
    have still : (Life.holding lock (before ++ call :: after)).Knows setup world' w := by
      obtain rfl | ⟨place, req, free, reads, rfl⟩ := sends
      · exact knows
      · exact knows.send honors distinct free (setup.owned_of_isRead w reads) fun _ => reads
    obtain ⟨holds, named, checked⟩ := still
    refine invariant.moves honors distinct ?_ ⟨holds, named, fun other member => ?_⟩
    · obtain rfl | ⟨place, req, free, reads, rfl⟩ := sends
      · exact .inl rfl
      · exact .inr ⟨place, req, free, setup.owned_of_isRead w reads, rfl⟩
    · rw [List.mem_append, List.mem_cons] at member
      obtain first | rfl | last := member
      · exact checked other (by simp [first])
      · exact own.step run
      · exact checked other (by simp [last])
  | endCheck here =>
    obtain ⟨holds, named, checked⟩ := invariant.at here
    refine invariant.moves honors distinct (.inl rfl) ⟨holds, named, fun other member => checked other ?_⟩
    rw [List.mem_append] at member
    rw [List.mem_append, List.mem_cons]
    exact member.imp_right .inr
  | release here =>
    obtain ⟨holds, named, -⟩ := invariant.at here
    exact invariant.moves honors distinct (.inl rfl) ⟨Holds setup _, holds, release_outline honors distinct named⟩

theorem Setup.Reaches.invariant (reaches : setup.Reaches state) : Invariant setup state := by
  induction reaches with
  | refl =>
    have sane : Sane setup setup.init.world.server :=
      ⟨fun content holds => .inl holds, fun event member => by cases member⟩
    refine ⟨?_, sane, fun w => ⟨sane, ?_⟩⟩
    · intro place sender req flies
      cases flies
    · intro place etag flies
      cases flies
  | tail _ step ih => exact ih.step honors distinct step

end Run

/-! ### What the writers see -/

variable {state : State ι}

/-- No `PUT` of a writer's own take landed after a delete of its release removed the lock. The log
has the last event first. -/
def Setup.Punctual (setup : Setup ι) (w : ι) (log : List (Event ι)) : Prop :=
  log.Pairwise fun later earlier => later = setup.written w → earlier ≠ setup.removed w

/-- What the writer lock promises of a state. -/
structure Excludes (setup : Setup ι) (state : State ι) : Prop where
  /-- At most one `WriterLock` is returned and not yet in `release`. -/
  one : ∀ v w, state.Held v → state.Held w → v = w
  /-- While it is held, the key holds its body. -/
  body : ∀ w, state.Held w → state.world.server.lock = some (setup.body w)
  /-- While it is held, a check gives `Ok` or the error of its read. -/
  check : ∀ w lock checks result, state.life w = .holding lock checks →
    .ready (.done result) ∈ checks → result = .ok () ∨ ∃ loss, result = .error (.remote loss)
  /-- Each delete that took effect removed the body of its sender. -/
  release : ∀ event ∈ state.world.server.log, event.req.key = .lock → event.before ≠ none →
    event.after = none → event.before = some (setup.body event.sender)
  /-- A release that reports a lost lock had removed it, and the key was written after that. -/
  lost : ∀ w address holder,
    state.life w = .releasing (.ready (.done (.error (.bucketLockLost address holder)))) →
    ∃ later earlier, state.world.server.log = later ++ setup.removed w :: earlier ∧
      ∃ v, setup.written v ∈ later
  /-- Another writer took it, unless a `PUT` of the own take landed late. -/
  another : ∀ w address holder, setup.Punctual w state.world.server.log →
    state.life w = .releasing (.ready (.done (.error (.bucketLockLost address holder)))) →
    ∃ later earlier, state.world.server.log = later ++ setup.removed w :: earlier ∧
      ∃ v, v ≠ w ∧ setup.written v ∈ later

theorem Invariant.holds_of_held (invariant : Invariant setup state)
    (held : state.Held w) : Holds setup w state.world := by
  have knows := invariant.lives w
  obtain ⟨lock, here⟩ | ⟨lock, checks, here⟩ := held
  · rw [here] at knows
    exact (Call.Knows.ended knows lock rfl).1
  · rw [here] at knows
    exact knows.1

theorem Invariant.lost (invariant : Invariant setup state)
    (here : state.life w = .releasing (.ready (.done (.error (.bucketLockLost address holder))))) :
    ∃ later earlier, state.world.server.log = later ++ setup.removed w :: earlier ∧
      ∃ v, setup.written v ∈ later := by
  have knows := invariant.lives w
  rw [here] at knows
  exact Call.Knows.ended knows address holder rfl

theorem Invariant.excludes (distinct : setup.Distinct)
    (invariant : Invariant setup state) : Excludes setup state where
  one := by
    intro v w heldV heldW
    have first := (invariant.holds_of_held heldV).own
    have second := (invariant.holds_of_held heldW).own
    exact distinct.body v w (Option.some.inj (first.symm.trans second))
  body := fun w held => (invariant.holds_of_held held).own
  check := by
    intro w lock checks result here member
    have knows := invariant.lives w
    rw [here] at knows
    exact (knows.2.2 _ member).ended
  release := by
    intro event member key before after
    obtain same | ⟨v, rfl | rfl⟩ := invariant.sound.genuine event member key
    · exact absurd (same.symm.trans after) before
    · cases after
    · rfl
  lost := fun w address holder here => invariant.lost here
  another := by
    intro w address holder punctual here
    obtain ⟨later, earlier, log, v, taken⟩ := invariant.lost here
    refine ⟨later, earlier, log, v, ?_, taken⟩
    rintro rfl
    rw [Setup.Punctual, log, List.pairwise_append] at punctual
    exact punctual.2.2 _ taken _ (.head _) rfl rfl

/-! ### A server that ignores `If-None-Match` -/

/-- A request that leaves nothing but the probe body at the probe key. -/
def CleanRequest : Request → Prop
  | .put .probe body => body = probeBody
  | .deleteIfMatch .probe _ => False
  | .delete .probe => False
  | _ => True

/-- The probe key holds nothing but the probe body. -/
def Clean (world : Bench ι) : Prop := world.server.probe = none ∨ world.server.probe = some probeBody

/-- What a proof about a take on such a server assumes. -/
def Setup.probing (setup : Setup ι) : Setting ι (Server ι) Request Answer where
  serve := setup.rules.serve
  allowed := fun _ req => CleanRequest req
  others := fun _ req => CleanRequest req
  mine := CleanRequest

theorem Clean.effect (clean : Clean world) {sender : ι}
    (asked : CleanRequest req) (place : Nat) : Clean (world.effect setup.rules.serve place sender req) := by
  cases req with
  | put key body =>
    cases key with
    | lock => exact clean
    | probe =>
      obtain rfl : body = probeBody := asked
      have after : (world.effect setup.rules.serve place sender (.put .probe probeBody)).server.probe =
          (setup.rules.respond world.server.probe (.put .probe probeBody)).2 := rfl
      unfold Clean
      rw [after, Rules.respond_put]
      split
      · exact clean
      · exact .inr rfl
  | get key | find key => cases key <;> exact clean
  | deleteIfMatch key etag | delete key =>
    cases key with
    | lock => exact clean
    | probe => exact asked.elim

theorem Clean.stable : Stable setup.probing Clean where
  send := fun _ _ _ _ _ _ clean => clean
  effect := fun _ place _ _ _ asked clean => clean.effect asked place

/-- What a `PUT` of the probe tells: it is never refused. -/
def probeLearnt : PutReply → Bench ι → Prop
  | .created _, world => Clean world
  | .refused, _ => False

/-- What `compare` finds at the probe key: no other bytes. -/
def probeFound : Except Error Compared → Bench ι → Prop
  | .ok .other, _ => False
  | _, world => Clean world

/-- What `put_if_absent` of the probe gives. -/
def probePut : Except Error PutIfAbsent → Bench ι → Prop
  | .ok .present, _ => False
  | .ok (.refused _), _ => False
  | _, world => Clean world

variable {w : ι}

theorem compare_probe : Outline setup.probing w probeFound Clean
    (compare setup.client .probe probeBody) := by
  have stable : ∀ result, Stable setup.probing (probeFound result : Bench ι → Prop) := by
    intro result
    cases result with
    | error fault => exact Clean.stable
    | ok found =>
      cases found with
      | same etag => exact Clean.stable
      | other => exact .never
      | absent => exact Clean.stable
  refine .call Clean (fun (ans : Option Object) => probeFound (.ok (compared setup.client probeBody ans)))
    Clean.stable Clean.stable (fun ans => stable _) (fun _ _ => trivial) (fun _ _ _ clean => clean) ?_
    (fun ans => .done (stable _) fun _ holds => holds) fun loss => .done Clean.stable fun _ holds => holds
  intro world place flies clean
  have asked : CleanRequest (.get .probe) := trivial
  have still : Clean (world.effect setup.rules.serve place w (.get .probe)) := clean.effect asked place
  show probeFound (.ok (compared setup.client probeBody (world.server.probe.map _))) _
  obtain absent | there := clean
  · rw [absent]
    exact still
  · rw [there]
    simp only [Option.map_some, compared, ne_eq, not_true, if_false, if_true]
    exact still

theorem putIfAbsent_ignored (ignores : setup.rules.honors = false) :
    Outline setup.probing w probePut Clean (putIfAbsent setup.client .probe probeBody) := by
  have clean : ∀ result, (∀ world : Bench ι, Clean world → probePut result world) →
      Outline setup.probing w probePut Clean (.done result : Act PutIfAbsent) :=
    fun result ends => .done Clean.stable ends
  refine putRounds_rule probeLearnt ?_ (fun etag => clean _ fun _ holds => holds)
    (fun unsure again => .unreached _) compare_probe (fun etag => clean _ fun _ holds => holds) (.unreached _)
    (fun prog outline => outline) (fun fault => clean _ fun _ holds => holds)
    (fun loss => clean _ fun _ holds => holds) _ _
  intro next answered lost
  refine .call Clean probeLearnt Clean.stable Clean.stable ?_ (fun _ _ => rfl)
    (fun _ _ _ holds => holds) ?_ answered lost
  · intro ans
    cases ans with
    | created etag => exact Clean.stable
    | refused => exact .never
  · intro world place flies holds
    have asked : CleanRequest (.put .probe probeBody) := rfl
    have still : Clean (world.effect setup.rules.serve place w (.put .probe probeBody)) :=
      holds.effect asked place
    show probeLearnt (setup.rules.respond world.server.probe (.put .probe probeBody)).1 _
    rw [Rules.respond_put, if_neg (by simp [ignores])]
    exact still

/-- What the probe gives: no success. -/
def probeFails : Except Error Unit → Bench ι → Prop
  | .ok _, _ => False
  | .error _, world => Clean world

theorem probe_ignored (ignores : setup.rules.honors = false) :
    Outline setup.probing w probeFails Clean (probeExclusion setup.client) := by
  have fails : ∀ fault, Outline setup.probing w probeFails Clean
      (.done (.error fault) : Act Unit) := fun fault => .done Clean.stable fun _ clean => clean
  -- a put that is served anyway never finds its key present
  have served : ∀ next : PutIfAbsent → Act Unit,
      (∀ tag, Outline setup.probing w probeFails Clean (next (.created tag))) →
      (∀ tag, Outline setup.probing w probeFails Clean (next (.matches tag))) →
      Outline setup.probing w probeFails Clean
        ((putIfAbsent setup.client .probe probeBody).andThen next) := by
    intro next created matched
    refine (putIfAbsent_ignored ignores).bind fun result => ?_
    cases result with
    | error fault => exact fails fault
    | ok put =>
      cases put with
      | present => exact .unreached _
      | refused => exact .unreached _
      | created tag => exact created tag
      | «matches» tag => exact matched tag
  refine served _ (fun _ => ?_) fun _ => ?_
  · exact served _ (fun _ => fails _) fun _ => fails _
  · exact served _ (fun _ => fails _) fun _ => fails _

/-- A take that returns no lock. -/
def noLock (result : Except Error WriterLock) (_ : Bench ι) : Prop := ∀ lock, result ≠ .ok lock

/-- **The probe finds out that the server ignores the header.** -/
theorem take_ignored (ignores : setup.rules.honors = false) :
    Outline setup.probing w noLock Clean (takeLock setup.client (setup.runs w) false) := by
  refine (probe_ignored ignores).bind fun result => ?_
  cases result with
  | ok => exact .unreached _
  | error fault =>
    refine .done Clean.stable fun _ _ lock absurd => ?_
    cases absurd

/-- No writer gets past its take. -/
def Life.Fails (setup : Setup ι) (world : Bench ι) (w : ι) : Life → Prop
  | .idle | .dropped => True
  | .taking call => call.Knows setup.probing w noLock world
  | .holding _ _ | .releasing _ => False

/-- What holds on such a server. -/
abbrev Ignored (setup : Setup ι) : State ι → Prop :=
  Kept (fun _ => CleanRequest) (fun server => server.probe = none ∨ server.probe = some probeBody) (Life.Fails setup)

variable [DecidableEq ι]

theorem Ignored.moves (ignored : Ignored setup state)
    (sends : state.world.Sends CleanRequest w world')
    (fails : Life.Fails setup world' w life) : Ignored setup (state.moves world' w life) := by
  refine Kept.moves ignored sends (fun place req v life free clean _ fails => ?_) fails
  cases life with
  | taking call => exact Call.Knows.send fails free clean
  | idle | dropped | holding | releasing => exact fails

theorem Ignored.step (ignores : setup.rules.honors = false)
    (ignored : Ignored setup state) (step : Step setup state state') : Ignored setup state' := by
  cases step with
  | @effect _ place _ _ flies =>
    have clean := ignored.asked _ _ _ flies
    refine ⟨fun other v sent now => ignored.asked other v sent (World.flying_of_effect now).2,
      Clean.effect ignored.sound clean place, fun w => ?_⟩
    have fails := ignored.lives w
    show Life.Fails setup _ w (state.life w)
    cases here : state.life w with
    | taking call =>
      rw [here] at fails
      exact Call.Knows.effect fails flies clean
    | idle | dropped | holding | releasing =>
      rw [here] at fails
      exact fails
  | take here => exact ignored.moves (.inl rfl) ⟨Clean, ignored.sound, take_ignored ignores⟩
  | dropTake here => exact ignored.moves (.inl rfl) trivial
  | takes here run =>
    have own := ignored.at here
    exact ignored.moves (Call.Knows.step_sends own run) (Call.Knows.step own run)
  | returned here => exact absurd rfl (Call.Knows.ended (ignored.at here) _)
  | check here | checks here | endCheck here | release here | releases here | dropRelease here =>
    exact False.elim ((congrArg (Life.Fails setup state.world _) here).mp (ignored.lives _))

theorem Setup.Reaches.ignored (ignores : setup.rules.honors = false)
    (clean : setup.probe = none ∨ setup.probe = some probeBody)
    (reaches : setup.Reaches state) : Ignored setup state := by
  induction reaches with
  | refl =>
    refine ⟨?_, clean, fun w => trivial⟩
    intro place sender req flies
    cases flies
  | tail _ step ih => exact ih.step ignores step

/-- **The writer lock excludes.** On a server that honors `If-None-Match` it gives what `Excludes`
says; on one that ignores it, with nothing but the probe body at the probe key, no writer gets a
lock. -/
theorem lock_excludes (setup : Setup ι) (state : State ι) (reaches : setup.Reaches state) :
    (setup.rules.honors = true → setup.Distinct → Excludes setup state) ∧
      (setup.rules.honors = false → (setup.probe = none ∨ setup.probe = some probeBody) →
        ∀ w, ¬ state.Held w) := by
  refine ⟨fun honors distinct => (reaches.invariant honors distinct).excludes distinct, ?_⟩
  intro ignores clean w held
  have own := (reaches.ignored ignores clean).lives w
  obtain ⟨lock, here⟩ | ⟨lock, checks, here⟩ := held
  · rw [here] at own
    exact Call.Knows.ended own lock rfl
  · rwa [here] at own

/-! ### Two runs that end in a lost lock -/

namespace Sample

section Run

variable {α : Type} {slot : Running α → Life} {next : Except Loss (Answer req) → Act α} {life : Life}

/-- A place where a call runs: the take or the release. -/
def Slot (setup : Setup ι) (slot : Running α → Life) : Prop :=
  ∀ (state : State ι) w call call' world', state.life w = slot call →
    Call.Step w call state.world call' world' → Step setup state (state.moves world' w (slot call'))

theorem slot_taking : Slot setup .taking := fun _ _ _ _ _ => .takes

theorem slot_releasing : Slot setup .releasing := fun _ _ _ _ _ => .releases

theorem runs (stepping : Slot setup slot) (run : Call.Step w call world call' world')
    (reaches : setup.Reaches (state.moves world w (slot call))) :
    setup.Reaches (state.moves world' w (slot call')) := by
  have step := stepping (state.moves world w (slot call)) w _ _ _ (Function.update_self ..) run
  rw [State.moves, State.moves, Function.update_idem] at step
  exact reaches.tail step

/-- A request on the wire takes effect. -/
theorem lands {sender : ι} (place : Nat) (flies : world.wire place = .flying sender req)
    (reaches : setup.Reaches (state.moves world w life)) :
    setup.Reaches (state.moves (world.effect setup.rules.serve place sender req) w life) := by
  have acted : Step setup (state.moves world w life) { state.moves world w life with
      world := world.effect setup.rules.serve place sender req } := .effect flies
  exact reaches.tail acted

variable {reply : Answer req} {server : Server ι} (stepping : Slot setup slot) (place : Nat)
  (free : world.wire place = .unsent)
  (reaches : setup.Reaches (state.moves world w (slot (.ready (.call req next)))))
  (serves : setup.rules.serve w req world.server = (reply, server))

include stepping free reaches

/-- A request is taken for lost, and stays on the wire. -/
theorem delayed (loss : Loss) :
    setup.Reaches (state.moves (world.send place w req) w (slot (.ready (next (.error loss))))) :=
  runs stepping (.lose loss) (runs stepping (.send free) reaches)

include serves

/-- A request takes effect. -/
theorem acted : setup.Reaches (state.moves ⟨server, Function.update world.wire place (.answered req reply)⟩ w
    (slot (.waiting place req next))) := by
  have acted := lands place (Function.update_self ..) (runs stepping (.send free) reaches)
  rwa [World.effect, World.send, serves, Function.update_idem] at acted

/-- A request takes effect, and its answer arrives. -/
theorem exchange : setup.Reaches (state.moves ⟨server, Function.update world.wire place (.answered req reply)⟩ w
    (slot (.ready (next (.ok reply))))) :=
  runs stepping (.receive (Function.update_self ..)) (acted stepping place free reaches serves)

/-- A request takes effect, and its answer is lost. -/
theorem unanswered (loss : Loss) :
    setup.Reaches (state.moves ⟨server, Function.update world.wire place (.answered req reply)⟩ w
      (slot (.ready (next (.error loss))))) :=
  runs stepping (.lose loss) (acted stepping place free reaches serves)

end Run

/-- The writer's own lock, as `take_lock` returns it. -/
def lock (setup : Setup ι) (w : ι) : WriterLock := ⟨(setup.runs w).id, none⟩

theorem takes (setup : Setup ι) (w : ι) (idle : state.life w = .idle) (reaches : setup.Reaches state) :
    setup.Reaches (state.moves state.world w (.taking (.ready (takeLock setup.client (setup.runs w) false)))) :=
  reaches.tail (.take idle)

/-- A read of a writer's lock in a release. -/
theorem reads (v : ι) (place : Nat) (free : world.wire place = .unsent)
    (held : world.server.lock = some (setup.body v)) (next : Option Held → Act Unit)
    (reaches : setup.Reaches (state.moves world w (.releasing (.ready ((readLock false).andThen next))))) :
    setup.Reaches (state.moves ⟨world.server.act w (.get .lock) (some (setup.body v)), Function.update world.wire place
        (.answered (.get .lock) (some ⟨setup.body v, some (setup.tag v)⟩))⟩ w
      (.releasing (.ready (next (some (setup.ownHeld v)))))) := by
  have serves : setup.rules.serve w (.get .lock) world.server =
      (some (⟨setup.body v, some (setup.tag v)⟩ : Object),
        world.server.act w (.get .lock) (some (setup.body v))) := by
    simp [Rules.serve, Rules.respond, Server.held, Request.key, held]
  rw [readLock_andThen] at reaches
  have read := exchange slot_releasing place free reaches serves
  rwa [heldOf_own] at read

/-- The release after its read of the own lock. -/
theorem releases (place : Nat) (free : world.wire place = .unsent)
    (tagged : ¬ (setup.tag w = "" ∨
      (asBytes (setup.tag w)).length > maxUploadToken))
    (own : world.server.lock = some (setup.body w))
    (reaches : setup.Reaches (state.moves world w (.taking (.ready (.done (.ok (lock setup w))))))) :
    setup.Reaches (state.moves ⟨world.server.act w (.get .lock) (some (setup.body w)), Function.update world.wire place
        (.answered (.get .lock) (some ⟨setup.body w, some (setup.tag w)⟩))⟩ w
      (.releasing (.ready ((deleteRounds .lock (setup.tag w) setup.client.maxRetries false).andThen
        (WriterLock.ended setup.client))))) := by
  have returned := (reaches.tail (.returned (Function.update_self ..))).tail (.release (Function.update_self ..))
  simp only [State.moves, Function.update_idem] at returned
  have read := reads w place free own _ returned
  have releasing : (lock setup w).releaseHeld setup.client (some (setup.ownHeld w)) =
      (deleteIfMatch setup.client .lock (setup.tag w)).andThen (WriterLock.ended setup.client) :=
    if_pos (isOwn_ownHeld rfl)
  rwa [releasing, deleteIfMatch, if_neg tagged] at read

omit [DecidableEq ι] in
/-- A delete by the `ETag` of the own lock. -/
theorem serve_delete (content : Bytes) (held : server.lock = some content) :
    setup.rules.serve w (.deleteIfMatch .lock (setup.tag w)) server =
      if setup.rules.etag content = setup.tag w
      then (DeleteReply.deleted, server.act w (.deleteIfMatch .lock (setup.tag w)) none)
      else (DeleteReply.notMatched,
        server.act w (.deleteIfMatch .lock (setup.tag w)) (some content)) := by
  simp only [Rules.serve, Rules.respond, Server.held, Request.key, held, Option.map_some, Option.some.injEq]
  split <;> rfl

/-- A writer moves, and the others stay. -/
theorem life_moves (state : State ι) (world : Bench ι) (life : Life) :
    (state.moves world w life).life w = life ∧ ∀ v ≠ w, (state.moves world w life).life v = state.life v :=
  ⟨Function.update_self .., fun _ apart => Function.update_of_ne apart ..⟩

theorem resumes (w : ι) (here : state.life w = life) (reaches : setup.Reaches state) :
    setup.Reaches (state.moves state.world w life) := by
  rwa [← here, State.moves, Function.update_eq_self]

/-- One writer alone. -/
def lone : Setup Unit where
  client := ⟨1, "s3://bucket/repo", fun _ => .filled 0⟩
  rules := ⟨true, fun _ => "etag"⟩
  runs := fun _ => ⟨.filled 1, "host", 7, .push, 0, by decide⟩
  start := none
  probe := some probeBody

theorem distinct_lone : lone.Distinct where
  body := fun _ _ _ => rfl
  etag := by
    rintro content (start | ⟨writer, same⟩) w -
    · cases start
    · exact same
  sha256 := by
    rintro content (start | ⟨writer, same⟩) w -
    · cases start
    · exact same

/-- The first `PUT` of the take is on the wire while the second one is created. The release removes
the lock with its answer lost, its second delete finds the key absent, and then the first `PUT`
lands. -/
theorem reaches_late : ∃ world holder, lone.Reaches (lone.init.moves world ()
      (.releasing (.ready (.done (.error (.bucketLockLost "s3://bucket/repo" holder)))))) ∧
    ∀ event ∈ world.server.log, event.req = .get .lock → event.before = some (lone.body ()) := by
  have probed := exchange slot_taking 0 rfl (takes lone () rfl .refl) rfl
  have locks : lone.Reaches (lone.init.moves _ ()
    (.taking (.ready (putLock lone.client (lone.runs ()) none)))) := probed
  have late := delayed slot_taking 1 rfl locks .retryable
  have taken := exchange slot_taking 2 rfl late rfl
  have read := releases 3 rfl (by decide) rfl taken
  have removed := unanswered slot_releasing 4 rfl read rfl .interrupted
  have refused := exchange slot_releasing 5 rfl removed rfl
  have landed := lands 1 rfl refused
  have found := exchange slot_releasing 6 rfl landed rfl
  have last := exchange slot_releasing 7 rfl found rfl
  exact ⟨_, _, last, by decide +kernel⟩

theorem host_short (first : Bool) : (asBytes (if first then "host" else "other")).length ≤ maxHost := by
  cases first <;> decide

/-- Two writers on two hosts. The stand-ins for the SHA-256 and the `ETag` tell the lengths
apart. -/
def pair : Setup Bool where
  client := ⟨1, "s3://bucket/repo", fun body => .filled (.ofNat body.length)⟩
  rules := ⟨true, fun body => toString body.length⟩
  runs := fun first => ⟨.filled 1, if first then "host" else "other", 7, .push, 0, host_short first⟩
  start := none
  probe := some probeBody

theorem apart_pair : pair.body true ≠ pair.body false ∧
    pair.rules.etag (pair.body true) ≠ pair.rules.etag (pair.body false) ∧
    pair.client.sha256 (pair.body true) ≠ pair.client.sha256 (pair.body false) := by decide +kernel

theorem eq_of_apart {α : Type} (f : Bytes → α) (apart : f (pair.body true) ≠ f (pair.body false))
    (v w : Bool) (same : f (pair.body v) = f (pair.body w)) : v = w := by
  cases v <;> cases w <;> simp_all

theorem distinct_pair : pair.Distinct := by
  obtain ⟨bodies, etags, digests⟩ := apart_pair
  refine ⟨eq_of_apart id bodies, ?_, ?_⟩
  · rintro content (start | ⟨v, rfl⟩) w same
    · cases start
    · rw [eq_of_apart _ etags v w same]
  · rintro content (start | ⟨v, rfl⟩) w same
    · cases start
    · rw [eq_of_apart _ digests v w same]

/-- The delete of the first writer's release takes effect with its answer lost, and the second
writer takes the lock before the first one asks again. -/
theorem reaches_pair : ∃ state holder, pair.Reaches state ∧ state.Held false ∧
    pair.Punctual true state.world.server.log ∧
    state.life true = .releasing (.ready (.done (.error (.bucketLockLost "s3://bucket/repo" holder)))) := by
  have probed := exchange slot_taking 0 rfl (takes pair true rfl .refl) rfl
  have locks : pair.Reaches (State.moves _ _ true
    (.taking (.ready (putLock pair.client (pair.runs true) none)))) := probed
  have taken := exchange slot_taking 1 rfl locks rfl
  have read := releases 2 rfl (by decide +kernel) rfl taken
  have removed := unanswered slot_releasing 3 rfl read
    ((serve_delete (pair.body true) rfl).trans (if_pos rfl)) .interrupted
  have probed := exchange slot_taking 4 rfl (takes pair false ((life_moves _ _ _).2 _ (by decide)) removed) rfl
  have locks : pair.Reaches (State.moves _ _ false
    (.taking (.ready (putLock pair.client (pair.runs false) none)))) := probed
  have other := exchange slot_taking 5 rfl locks rfl
  have again := resumes true (((life_moves _ _ _).2 _ (by decide)).trans (life_moves _ _ _).1) other
  have refused := exchange slot_releasing 6 rfl again
    ((serve_delete (pair.body false) rfl).trans (if_neg (Ne.symm apart_pair.2.1)))
  have found := exchange slot_releasing 7 rfl refused rfl
  have last := reads false 8 rfl rfl (fun other => .done (.error (Bucket.lost pair.client other))) found
  exact ⟨_, _, last, .inl ⟨_, ((life_moves _ _ _).2 _ (by decide)).trans (life_moves _ _ _).1⟩,
    by unfold Setup.Punctual; decide +kernel, (life_moves _ _ _).1⟩

end Sample

/-- A release of the only writer reports a lost lock: its delete removed the lock, the late `PUT` of
its own take wrote it again, and both of its reads found its own body. -/
theorem release_lost_alone :
    Sample.lone.rules.honors = true ∧ Sample.lone.Distinct ∧
      ∃ state holder, Sample.lone.Reaches state ∧
        state.life () = .releasing (.ready (.done (.error (.bucketLockLost "s3://bucket/repo" holder)))) ∧
        ∀ event ∈ state.world.server.log, event.req = .get .lock →
          event.before = some (Sample.lone.body ()) := by
  obtain ⟨world, holder, reaches, own⟩ := Sample.reaches_late
  exact ⟨rfl, Sample.distinct_lone, _, holder, reaches, rfl, own⟩

/-- The first of two writers reports a lost lock, and the second one took it. -/
theorem lock_excludes_pair : ∃ state holder, Sample.pair.Reaches state ∧ Sample.pair.Distinct ∧
    state.Held false ∧ state.world.server.lock = some (Sample.pair.body false) ∧
    state.life true = .releasing (.ready (.done (.error (.bucketLockLost "s3://bucket/repo" holder)))) ∧
    ∃ later earlier, state.world.server.log = later ++ Sample.pair.removed true :: earlier ∧
      ∃ v, v ≠ true ∧ Sample.pair.written v ∈ later := by
  obtain ⟨state, holder, reaches, held, punctual, lost⟩ := Sample.reaches_pair
  have excludes := (lock_excludes Sample.pair state reaches).1 rfl Sample.distinct_pair
  exact ⟨state, holder, reaches, Sample.distinct_pair, held, excludes.body _ held, lost,
    excludes.another _ _ _ punctual lost⟩

end Ostrya.Bucket
