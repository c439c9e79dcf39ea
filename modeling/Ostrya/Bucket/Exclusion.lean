/-
**The writer lock excludes over a lossy wire** (`bucket/lock.rs`, `take_lock`, `check` and `release`).

Any number of writers take the lock, check it and release it against one server, in any interleaving. A
request takes effect at most once at some moment after it was sent, also after its client took it for
lost or is gone. What carries the proof is that a lock body is deleted by requests of its own writer
only, and that a writer sends no delete before its release (`Quiet`): so a body that was seen in the key
during the take stays there (`Holds`).
-/

import Ostrya.Bucket.Client

namespace Ostrya.Bucket

open ByteFormat Ostrya.Core Gvariant Network

variable {ι : Type}

/-- The writers of one bucket: one run of `take_lock` each, with its own lock body. The keys hold
`start` and `probe` at first. -/
structure Setup (ι : Type) where
  client : Client
  rules : Rules
  runs : ι → Run
  start : Option Bytes
  probe : Option Bytes

namespace Setup

/-- The lock body of a writer. -/
def body (setup : Setup ι) (writer : ι) : Bytes := (setup.runs writer).body

/-- A content that the lock key can hold: the first one, or the body of a writer. -/
def InPlay (setup : Setup ι) (content : Bytes) : Prop :=
  setup.start = some content ∨ ∃ writer, content = setup.body writer

/-- Every lock body is distinct, and neither its `ETag` nor its SHA-256 is that of another
content. -/
structure Distinct (setup : Setup ι) : Prop where
  body : ∀ v w, setup.body v = setup.body w → v = w
  etag : ∀ content, setup.InPlay content → ∀ w,
    setup.rules.etag content = setup.rules.etag (setup.body w) → content = setup.body w
  sha256 : ∀ content, setup.InPlay content → ∀ w,
    setup.client.sha256 content = setup.client.sha256 (setup.body w) → content = setup.body w

end Setup

/-! ### The runs of the writers -/

/-- A call of a writer that is under way. -/
abbrev Running (α : Type) : Type := Call Request Answer Loss (Except Error α)

/-- What a writer is doing. A lock that is dropped without a release stays `holding`. -/
inductive Life where
  | idle
  | taking (call : Running WriterLock)
  | holding (lock : WriterLock) (checks : List (Running Unit))
  | releasing (call : Running Unit)
  | dropped

/-- The server, the wire and the writers. -/
structure State (ι : Type) where
  world : World ι (Server ι) Request Answer
  life : ι → Life

variable [DecidableEq ι]

/-- A writer moves on. -/
def State.moves (state : State ι) (world : World ι (Server ι) Request Answer) (writer : ι)
    (life : Life) : State ι :=
  ⟨world, Function.update state.life writer life⟩

/-- One step of the system. A future can be dropped while it waits for an answer. -/
inductive Step (setup : Setup ι) : State ι → State ι → Prop where
  | effect (flies : state.world.wire place = .flying sender req) :
      Step setup state { state with world := state.world.effect setup.rules.serve place sender req }
  | take (here : state.life w = .idle) :
      Step setup state
        (state.moves state.world w (.taking (.ready (takeLock setup.client (setup.runs w) false))))
  | takes (here : state.life w = .taking call)
      (run : Call.Step w call state.world call' world') :
      Step setup state (state.moves world' w (.taking call'))
  | dropTake (here : state.life w = .taking (.waiting place req next)) :
      Step setup state (state.moves state.world w .dropped)
  | returned (here : state.life w = .taking (.ready (.done (.ok lock)))) :
      Step setup state (state.moves state.world w (.holding lock []))
  | check (here : state.life w = .holding lock checks) :
      Step setup state
        (state.moves state.world w (.holding lock (.ready (lock.check setup.client) :: checks)))
  | checks (here : state.life w = .holding lock (before ++ call :: after))
      (run : Call.Step w call state.world call' world') :
      Step setup state (state.moves world' w (.holding lock (before ++ call' :: after)))
  | endCheck (here : state.life w = .holding lock (before ++ call :: after)) :
      Step setup state (state.moves state.world w (.holding lock (before ++ after)))
  | release (here : state.life w = .holding lock checks) :
      Step setup state (state.moves state.world w (.releasing (.ready (lock.release setup.client))))
  | releases (here : state.life w = .releasing call)
      (run : Call.Step w call state.world call' world') :
      Step setup state (state.moves world' w (.releasing call'))
  | dropRelease (here : state.life w = .releasing (.waiting place req next)) :
      Step setup state (state.moves state.world w .dropped)

/-- Before the first step: nothing was sent. -/
def Setup.init (setup : Setup ι) : State ι where
  world := ⟨⟨setup.start, setup.probe, []⟩, fun _ => .unsent⟩
  life := fun _ => .idle

/-- The states that the writers reach. -/
def Setup.Reaches (setup : Setup ι) (state : State ι) : Prop :=
  Relation.ReflTransGen (Step setup) setup.init state

/-- `WriterLock` is returned and not yet in `release`. -/
def State.Held (state : State ι) (writer : ι) : Prop :=
  (∃ lock, state.life writer = .taking (.ready (.done (.ok lock)))) ∨
    ∃ lock checks, state.life writer = .holding lock checks

omit [DecidableEq ι]

/-! ### What a request does to the lock -/

variable {setup : Setup ι}

namespace Setup

/-- The requests that a writer sends. -/
def Owned (setup : Setup ι) (writer : ι) : Request → Prop
  | .put .lock body => body = setup.body writer
  | .put .probe body => body = probeBody
  | .get _ | .find _ => True
  | .deleteIfMatch .lock etag => etag = setup.rules.etag (setup.body writer)
  | .deleteIfMatch .probe _ => False
  | .delete _ => False

/-- A `PUT` of a writer's lock body took effect. -/
def written (setup : Setup ι) (writer : ι) : Event ι :=
  ⟨writer, .put .lock (setup.body writer), none, some (setup.body writer)⟩

/-- A `DELETE` of a writer removed the body of that writer. -/
def removed (setup : Setup ι) (writer : ι) : Event ι :=
  ⟨writer, .deleteIfMatch .lock (setup.rules.etag (setup.body writer)), some (setup.body writer), none⟩

end Setup

/-- What a request of a writer does to the lock: nothing, or it writes the absent key, or it removes
its writer's body. -/
inductive LockEffect (setup : Setup ι) (sender : ι) (req : Request) (server server' : Server ι) : Prop where
  | keeps (event : Event ι) (same : server'.lock = server.lock) (logs : server'.log = event :: server.log)
      (idle : event.req.key = .lock → event.after = event.before)
  | writes (free : server.lock = none) (now : server'.lock = some (setup.body sender))
      (logs : server'.log = setup.written sender :: server.log)
  | removes (own : server.lock = some (setup.body sender)) (now : server'.lock = none)
      (sent : req = .deleteIfMatch .lock (setup.rules.etag (setup.body sender)))
      (logs : server'.log = setup.removed sender :: server.log)

/-- **An owned request has no other effect on the lock.** -/
theorem lockEffect (honors : setup.rules.honors = true) (distinct : setup.Distinct) (owned : setup.Owned sender req)
    (inPlay : ∀ content, server.lock = some content → setup.InPlay content) :
    LockEffect setup sender req server (setup.rules.serve sender req server).2 := by
  cases req with
  | put key body =>
    cases key with
    | probe => exact .keeps _ rfl rfl (by simp [Request.key])
    | lock =>
      obtain rfl : body = setup.body sender := owned
      cases content : server.lock with
      | none =>
        refine .writes content ?_ ?_
        · simp [Rules.serve, Rules.respond, Server.act, Server.held, Request.key, content]
        · simp [Rules.serve, Rules.respond, Server.act, Server.held, Request.key, content, Setup.written]
      | some other =>
        refine .keeps _ ?_ rfl fun _ => ?_
        · simp [Rules.serve, Rules.respond, Server.act, Server.held, Request.key, content, honors]
        · simp [Rules.respond, Server.held, Request.key, content, honors]
  | get key | find key =>
    refine .keeps _ ?_ rfl fun _ => rfl
    cases key <;> simp [Rules.serve, Rules.respond, Server.act, Server.held, Request.key]
  | deleteIfMatch key etag =>
    cases key with
    | probe => exact owned.elim
    | lock =>
      obtain rfl : etag = setup.rules.etag (setup.body sender) := owned
      by_cases same : server.lock.map setup.rules.etag = some (setup.rules.etag (setup.body sender))
      · obtain ⟨content, holds, tag⟩ := Option.map_eq_some_iff.mp same
        obtain rfl := distinct.etag content (inPlay content holds) sender tag
        refine .removes holds ?_ rfl ?_
        · simp [Rules.serve, Rules.respond, Server.act, Server.held, Request.key, same]
        · simp [Rules.serve, Rules.respond, Server.act, Server.held, Request.key, holds, Setup.removed]
      · refine .keeps _ ?_ rfl fun _ => ?_
        · simp [Rules.serve, Rules.respond, Server.act, Server.held, Request.key, same]
        · simp [Rules.respond, Server.held, Request.key, same]
  | delete key => exact owned.elim

end Ostrya.Bucket
