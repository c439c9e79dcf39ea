/-
**Proof outlines of the writer lock.**

The assertions of a writer, from its take to its release:

* `Quiet` — no delete of the writer is on the wire: from the start to its release;
* `Holds` — and the key holds its body: once the take saw it there;
* `Removing` — the one delete that the release sent is on the wire and the key holds the body, or that
  delete took effect;
* `Trying` — the key holds the body, or a delete of the writer removed it;
* `Gone` — a delete of the writer removed it, and the key is absent or was written after that;
* `Rewritten` — a delete of the writer removed it, and the key was written after that.

Each is stable under all requests that take effect, and the outlines of `take_lock` (`take_outline`),
`check` (`check_outline`) and `release` (`release_outline`) go along them.
-/

import Ostrya.Bucket.Exclusion

namespace Ostrya.Bucket

open ByteFormat Ostrya.Core Gvariant Network

variable {ι : Type}

/-- The server and the wire of the writers. -/
abbrev Bench (ι : Type) : Type := World ι (Server ι) Request Answer

namespace Setup

/-- What a proof about a call of `writer` assumes: the others send what they own, and other calls of
the writer only read. -/
def setting (setup : Setup ι) (writer : ι) (mine : Request → Prop) : Setting ι (Server ι) Request Answer where
  serve := setup.rules.serve
  allowed := setup.Owned
  others := fun sender req => setup.Owned sender req ∧ (sender = writer → req.isRead = true)
  mine := mine

/-- The setting of a writer that sends what it owns. -/
abbrev own (setup : Setup ι) (w : ι) : Setting ι (Server ι) Request Answer := setup.setting w (setup.Owned w)

/-- The `ETag` of its body. -/
abbrev tag (setup : Setup ι) (w : ι) : String := setup.rules.etag (setup.body w)

end Setup

variable {setup : Setup ι} {w : ι} {mine : Request → Prop}

/-- The lock key holds a content in play, and the log has no event on it but those of
`LockEffect`. -/
structure Sane (setup : Setup ι) (server : Server ι) : Prop where
  inPlay : ∀ content, server.lock = some content → setup.InPlay content
  genuine : ∀ event ∈ server.log, event.req.key = .lock →
    event.after = event.before ∨ ∃ v, event = setup.written v ∨ event = setup.removed v

variable {sender : ι} {req : Request} {server server' : Server ι} {world : Bench ι}

theorem Sane.step (sane : Sane setup server)
    (does : LockEffect setup sender req server server') : Sane setup server' := by
  cases does with
  | keeps event same logs idle =>
    refine ⟨fun content now => sane.inPlay content (same ▸ now), ?_⟩
    rw [logs, List.forall_mem_cons]
    exact ⟨fun key => .inl (idle key), sane.genuine⟩
  | writes free now logs =>
    refine ⟨fun content holds => ?_, ?_⟩
    · rw [now] at holds
      cases holds
      exact .inr ⟨sender, rfl⟩
    · rw [logs, List.forall_mem_cons]
      exact ⟨fun _ => .inr ⟨sender, .inl rfl⟩, sane.genuine⟩
  | removes own now sent logs =>
    refine ⟨fun content holds => ?_, ?_⟩
    · rw [now] at holds
      cases holds
    · rw [logs, List.forall_mem_cons]
      exact ⟨fun _ => .inr ⟨sender, .inr rfl⟩, sane.genuine⟩

/-! ### The assertions -/

/-- No delete of the writer is on the wire. -/
def NoDelete (w : ι) (world : Bench ι) : Prop :=
  ∀ place etag, world.wire place ≠ .flying w (.deleteIfMatch .lock etag)

/-- A writer before its release. -/
structure Quiet (setup : Setup ι) (w : ι) (world : Bench ι) : Prop where
  sane : Sane setup world.server
  noDelete : NoDelete w world

/-- A writer that holds the lock. -/
structure Holds (setup : Setup ι) (w : ι) (world : Bench ι) : Prop extends Quiet setup w world where
  own : world.server.lock = some (setup.body w)

/-- A delete of the writer removed its body, and `P` of what the server did after that. -/
def Removed (setup : Setup ι) (w : ι) (P : List (Event ι) → Prop) (server : Server ι) : Prop :=
  ∃ later earlier, server.log = later ++ setup.removed w :: earlier ∧ P later

/-- The key was written in these events. -/
def Written (setup : Setup ι) (events : List (Event ι)) : Prop := ∃ v, setup.written v ∈ events

/-- The body was removed, and the key is absent or was written after that. -/
def Gone (setup : Setup ι) (w : ι) (server : Server ι) : Prop :=
  Removed setup w (fun later => server.lock = none ∨ Written setup later) server

/-- The body was removed, and the key was written after that. -/
def Rewritten (setup : Setup ι) (w : ι) (server : Server ι) : Prop := Removed setup w (Written setup) server

/-- The first delete of a release is on the wire, or took effect. -/
structure Removing (setup : Setup ι) (w : ι) (world : Bench ι) : Prop where
  sane : Sane setup world.server
  one : (world.server.lock = some (setup.body w) ∧ ∀ place etag place' etag',
      world.wire place = .flying w (.deleteIfMatch .lock etag) →
      world.wire place' = .flying w (.deleteIfMatch .lock etag') → place = place') ∨
    (NoDelete w world ∧ Gone setup w world.server)

/-- Deletes of a release are on the wire. -/
structure Trying (setup : Setup ι) (w : ι) (world : Bench ι) : Prop where
  sane : Sane setup world.server
  now : world.server.lock = some (setup.body w) ∨ Gone setup w world.server

/-! ### They are stable -/

theorem Request.ne_delete_of_isRead (reads : req.isRead = true) (etag : String) :
    req ≠ .deleteIfMatch .lock etag := by
  rintro rfl
  cases reads

theorem NoDelete.send (quiet : NoDelete w world) {place : Nat}
    (apart : sender = w → ∀ etag, req ≠ .deleteIfMatch .lock etag) :
    NoDelete w (world.send place sender req) := by
  intro other etag flies
  obtain ⟨-, rfl, rfl⟩ | ⟨-, before⟩ := World.flying_of_send flies
  · exact apart rfl etag rfl
  · exact quiet other etag before

theorem NoDelete.effect {serve : ι → (req : Request) → Server ι → Answer req × Server ι}
    (quiet : NoDelete w world) (place : Nat) (sender : ι) (req : Request) :
    NoDelete w (world.effect serve place sender req) := by
  intro other etag flies
  exact quiet other etag (World.flying_of_effect flies).2

theorem Removed.log_cons (removed : Removed setup w P server) (logs : server'.log = event :: server.log)
    (grows : ∀ later, P later → Q (event :: later)) : Removed setup w Q server' := by
  obtain ⟨later, earlier, split, holds⟩ := removed
  exact ⟨event :: later, earlier, by rw [logs, split, List.cons_append], grows later holds⟩

theorem Written.cons {events : List (Event ι)} (written : Written setup events) (event : Event ι) :
    Written setup (event :: events) := by
  obtain ⟨v, member⟩ := written
  exact ⟨v, .tail _ member⟩

theorem Rewritten.step (rewritten : Rewritten setup w server)
    (does : LockEffect setup sender req server server') : Rewritten setup w server' := by
  cases does with
  | keeps event _ logs | writes _ _ logs | removes _ _ _ logs =>
    exact rewritten.log_cons logs fun _ written => written.cons _

theorem Gone.step (gone : Gone setup w server)
    (does : LockEffect setup sender req server server') : Gone setup w server' := by
  cases does with
  | keeps event same logs =>
    refine Removed.log_cons gone logs fun later holds => ?_
    rw [same]
    exact holds.imp_right fun written => written.cons _
  | writes free now logs =>
    exact Removed.log_cons gone logs fun later _ => .inr ⟨sender, (.head _)⟩
  | removes own now sent logs => exact Removed.log_cons gone logs fun later _ => .inl now

theorem gone_of_own (distinct : setup.Distinct)
    (own : server.lock = some (setup.body w)) (does : LockEffect setup sender req server server') :
    server'.lock = some (setup.body w) ∨
      (sender = w ∧ req = .deleteIfMatch .lock (setup.tag w) ∧ Gone setup w server') := by
  cases does with
  | keeps event same => exact .inl (same.trans own)
  | writes free => rw [free] at own; cases own
  | removes theirs now sent logs =>
    rw [own] at theirs
    obtain rfl := distinct.body _ _ (Option.some.inj theirs)
    exact .inr ⟨rfl, sent, [], server.log, logs, .inl now⟩

section Stability

variable (honors : setup.rules.honors = true) (distinct : setup.Distinct) (w : ι) (mine : Request → Prop)
include honors distinct

/-- An assertion on the server is stable if no effect falsifies it. -/
theorem stable_server {P : Server ι → Prop}
    (keeps : ∀ sender req server server', LockEffect setup sender req server server' → P server → P server') :
    Stable (setup.setting w mine) fun world => Sane setup world.server ∧ P world.server where
  send := fun world place sender req free other holds => holds
  effect := by
    intro world place sender req flies owned holds
    obtain ⟨sane, own⟩ := holds
    have does := lockEffect honors distinct owned sane.inPlay
    exact ⟨sane.step does, keeps sender req _ _ does own⟩

/-- Before a release it is enough that no effect falsifies it but a delete of the writer. -/
theorem stable_quiet {P : Server ι → Prop}
    (keeps : ∀ sender req server server', LockEffect setup sender req server server' →
      (sender = w → ∀ etag, req ≠ .deleteIfMatch .lock etag) → P server → P server') :
    Stable (setup.setting w mine) fun world => Quiet setup w world ∧ P world.server where
  send := by
    intro world place sender req free other holds
    exact ⟨⟨holds.1.sane, holds.1.noDelete.send fun self => Request.ne_delete_of_isRead (other.2 self)⟩, holds.2⟩
  effect := by
    intro world place sender req flies owned holds
    obtain ⟨⟨sane, noDelete⟩, own⟩ := holds
    have does := lockEffect honors distinct owned sane.inPlay
    refine ⟨⟨sane.step does, noDelete.effect place sender req⟩, keeps sender req _ _ does ?_ own⟩
    rintro rfl etag rfl
    exact noDelete place etag flies

theorem Quiet.stable : Stable (setup.setting w mine) (Quiet setup w) := by
  have both := stable_quiet honors distinct w mine fun _ _ _ _ _ _ (_ : True) => trivial
  simpa using both

theorem Holds.stable : Stable (setup.setting w mine) (Holds setup w) := by
  have both : Stable (setup.setting w mine)
      fun world => Quiet setup w world ∧ world.server.lock = some (setup.body w) := by
    refine stable_quiet honors distinct w mine (P := fun server => server.lock = some (setup.body w)) ?_
    intro sender req server server' does apart own
    obtain still | ⟨self, sent, -⟩ := gone_of_own distinct own does
    · exact still
    · exact absurd sent (apart self _)
  constructor
  · intro world place sender req free other holds
    obtain ⟨quiet, own⟩ := both.send world place sender req free other ⟨holds.toQuiet, holds.own⟩
    exact ⟨quiet, own⟩
  · intro world place sender req flies owned holds
    obtain ⟨quiet, own⟩ := both.effect world place sender req flies owned ⟨holds.toQuiet, holds.own⟩
    exact ⟨quiet, own⟩

theorem stable_gone :
    Stable (setup.setting w mine) fun world => Sane setup world.server ∧ Gone setup w world.server :=
  stable_server honors distinct w mine fun _ _ _ _ does gone => gone.step does

theorem stable_rewritten :
    Stable (setup.setting w mine) fun world => Sane setup world.server ∧ Rewritten setup w world.server :=
  stable_server honors distinct w mine fun _ _ _ _ does rewritten => rewritten.step does

theorem stable_gone_or (fact : Prop) : Stable (setup.setting w mine)
    fun world => Sane setup world.server ∧ (fact ∨ Gone setup w world.server) := by
  refine stable_server honors distinct w mine (P := fun server => fact ∨ Gone setup w server) ?_
  intro sender req server server' does holds
  exact holds.imp_right fun gone => gone.step does

theorem stable_rewritten_if (fact : Prop) : Stable (setup.setting w mine)
    fun world => Sane setup world.server ∧ (fact → Rewritten setup w world.server) := by
  refine stable_server honors distinct w mine (P := fun server => fact → Rewritten setup w server) ?_
  intro sender req server server' does holds given
  exact (holds given).step does

theorem stable_sane : Stable (setup.setting w mine) fun world => Sane setup world.server := by
  have both := stable_server honors distinct w mine fun _ _ _ _ _ (_ : True) => trivial
  simpa using both

theorem Trying.stable : Stable (setup.setting w mine) (Trying setup w) where
  send := fun world place sender req free other holds => ⟨holds.sane, holds.now⟩
  effect := by
    intro world place sender req flies owned holds
    have does := lockEffect honors distinct owned holds.sane.inPlay
    refine ⟨holds.sane.step does, ?_⟩
    obtain own | gone := holds.now
    · exact (gone_of_own distinct own does).imp_right fun ⟨_, _, gone⟩ => gone
    · exact .inr (gone.step does)

theorem Removing.stable : Stable (setup.setting w mine) (Removing setup w) where
  send := by
    intro world place sender req free other holds
    refine ⟨holds.sane, ?_⟩
    obtain ⟨own, one⟩ | ⟨noDelete, gone⟩ := holds.one
    · refine .inl ⟨own, fun first etag second etag' flies flies' => ?_⟩
      obtain ⟨-, rfl, rfl⟩ | ⟨-, before⟩ := World.flying_of_send flies
      · exact absurd rfl (Request.ne_delete_of_isRead (other.2 rfl) _)
      · obtain ⟨-, rfl, rfl⟩ | ⟨-, before'⟩ := World.flying_of_send flies'
        · exact absurd rfl (Request.ne_delete_of_isRead (other.2 rfl) _)
        · exact one _ _ _ _ before before'
    · exact .inr ⟨noDelete.send fun self => Request.ne_delete_of_isRead (other.2 self), gone⟩
  effect := by
    intro world place sender req flies owned holds
    have does := lockEffect honors distinct owned holds.sane.inPlay
    refine ⟨holds.sane.step does, ?_⟩
    obtain ⟨own, one⟩ | ⟨noDelete, gone⟩ := holds.one
    · obtain still | ⟨rfl, rfl, gone⟩ := gone_of_own distinct own does
      · refine .inl ⟨still, fun first etag second etag' now now' => ?_⟩
        exact one _ _ _ _ (World.flying_of_effect now).2 (World.flying_of_effect now').2
      · -- the one delete on the wire took effect
        refine .inr ⟨fun other etag now => ?_, gone⟩
        obtain ⟨apart, before⟩ := World.flying_of_effect now
        exact apart (one _ _ _ _ before flies)
    · exact .inr ⟨noDelete.effect place sender req, gone.step does⟩

end Stability

/-! ### Reads -/

theorem Setup.owned_of_isRead (setup : Setup ι) (w : ι) (reads : req.isRead = true) :
    setup.Owned w req := by
  cases req with
  | get | find => trivial
  | put | deleteIfMatch | delete => cases reads

/-- A program that only reads once. The writer knows then what it knew, and what the answer
tells. -/
theorem read_outline {α : Type} (req : Request)
    {result : Except Loss (Answer req) → Except Error α} {post : Except Error α → Bench ι → Prop}
    (learnt : Answer req → Bench ι → Prop) (reads : req.isRead = true) (may : mine req)
    (stable : Stable (setup.setting w mine) P) (stableLearnt : ∀ ans, Stable (setup.setting w mine) (learnt ans))
    (learns : ∀ world place, P world → P (world.effect setup.rules.serve place w req) →
      learnt (setup.rules.respond (world.server.held req.key) req).1
        (world.effect setup.rules.serve place w req))
    (answered : ∀ ans world, learnt ans world → post (result (.ok ans)) world)
    (lost : ∀ loss world, P world → post (result (.error loss)) world) :
    Outline (setup.setting w mine) w post P (.call req fun reply => .done (result reply)) := by
  have owned := setup.owned_of_isRead w reads
  refine .call P learnt stable stable stableLearnt (fun _ _ => may) ?_ ?_ ?_ ?_
  · intro world place free holds
    exact stable.send world place w req free ⟨owned, fun _ => reads⟩ holds
  · intro world place flies holds
    exact learns world place holds (stable.effect world place w req flies owned holds)
  · exact fun ans => .done (stableLearnt ans) (answered ans)
  · exact fun loss => .done stable (lost loss)

/-- The result of `read_lock` by the reply to its `GET`. -/
def heldOf : Except Loss (Option Object) → Except Error (Option Held)
  | .error loss => .error (.remote loss)
  | .ok none => .ok none
  | .ok (some object) =>
    if object.bytes.length > maxLock then .ok (some ⟨.default, none⟩)
    else .ok (some ⟨parseHolder object.bytes, object.etag⟩)

theorem readLock_eq : readLock false = .call (.get .lock) fun reply => .done (heldOf reply) := by
  unfold readLock get Prog.bind
  congr 1
  funext reply
  cases reply with
  | error loss => rfl
  | ok found =>
    cases found with
    | none => rfl
    | some object =>
      unfold heldOf
      dsimp only
      split
      · rfl
      · rfl

theorem readLock_andThen {α : Type} (next : Option Held → Act α) :
    (readLock false).andThen next = .call (.get .lock) fun reply => Act.andThen (.done (heldOf reply)) next := by
  rw [readLock_eq]
  rfl

/-- The result of `compare` by the reply to its `GET`. -/
def comparedOf (client : Client) (body : Bytes) : Except Loss (Option Object) → Except Error Compared
  | .ok found => .ok (compared client body found)
  | .error loss => .error (.remote loss)

theorem compare_eq (client : Client) (key : Key) (body : Bytes) :
    compare client key body = .call (.get key) fun reply => .done (comparedOf client body reply) := by
  unfold compare
  congr 1
  funext reply
  cases reply <;> rfl

/-- What a read of the lock finds while the writer holds it. -/
def Setup.ownHeld (setup : Setup ι) (w : ι) : Held :=
  ⟨parseHolder (setup.body w), some (setup.tag w)⟩

theorem heldOf_own (setup : Setup ι) (w : ι) :
    heldOf (.ok (some ⟨setup.body w, some (setup.tag w)⟩)) =
      .ok (some (setup.ownHeld w)) := by
  have short : ¬ (setup.body w).length > maxLock := Nat.not_lt.mpr (setup.runs w).length_body
  unfold heldOf Setup.ownHeld
  dsimp only
  rw [if_neg short]

theorem owned_delete (setup : Setup ι) (w : ι) :
    setup.Owned w (.deleteIfMatch .lock (setup.tag w)) := rfl

theorem owned_put (setup : Setup ι) (w : ι) : setup.Owned w (.put .lock (setup.body w)) := rfl

theorem owned_probe (setup : Setup ι) (w : ι) : setup.Owned w (.put .probe probeBody) := rfl

theorem owned_find (setup : Setup ι) (w : ι) : setup.Owned w (.find .lock) := trivial

section Programs

variable (honors : setup.rules.honors = true) (distinct : setup.Distinct)
include honors distinct

/-- While the writer holds the lock, a read that is answered finds its own body. -/
theorem readLock_holds (may : mine (.get .lock)) :
    Outline (setup.setting w mine) w
      (fun result world => Holds setup w world ∧
        (result = .ok (some (setup.ownHeld w)) ∨ ∃ loss, result = .error (.remote loss)))
      (Holds setup w) (readLock false) := by
  have stable := Holds.stable honors distinct w mine
  rw [readLock_eq]
  refine read_outline (.get .lock)
    (fun ans world => Holds setup w world ∧
      ans = some (⟨setup.body w, some (setup.tag w)⟩ : Object)) rfl may stable
    (fun ans => stable.and_fact _) ?_ ?_ ?_
  · intro world place holds still
    refine ⟨still, ?_⟩
    show Option.map _ world.server.lock = _
    rw [holds.own]
    rfl
  · rintro ans world ⟨holds, rfl⟩
    exact ⟨holds, .inl (heldOf_own setup w)⟩
  · intro loss world holds
    exact ⟨holds, .inr ⟨loss, rfl⟩⟩

variable {P : Bench ι → Prop}

omit honors distinct in
theorem readLock_keeps (may : mine (.get .lock)) (stable : Stable (setup.setting w mine) P) :
    Outline (setup.setting w mine) w (fun _ => P) P (readLock false) := by
  rw [readLock_eq]
  exact read_outline _ (fun _ => P) rfl may stable (fun _ => stable) (fun _ _ _ still => still)
    (fun _ _ holds => holds) fun _ _ holds => holds

theorem holding_outline {α : Type} {next : Option Held → Act α}
    {post : Except Error α → Bench ι → Prop} (may : mine (.get .lock))
    (found : Outline (setup.setting w mine) w post (Holds setup w) (next (some (setup.ownHeld w))))
    (lost : ∀ loss world, post (.error (.remote loss)) world) :
    Outline (setup.setting w mine) w post (Holds setup w) ((readLock false).andThen next) := by
  have stable := Holds.stable honors distinct w mine
  refine (readLock_holds honors distinct may).bind fun result => .of_fact stable fun reads => ?_
  obtain rfl | ⟨loss, rfl⟩ := reads
  · exact found
  · exact .done stable fun world _ => lost loss world

variable {lock : WriterLock}

omit honors distinct in
theorem isOwn_ownHeld (named : lock.id = (setup.runs w).id) :
    lock.isOwn (setup.ownHeld w) = true := by
  unfold WriterLock.isOwn Setup.ownHeld namesId Setup.body
  rw [Run.parseHolder_body, named]
  simp

/-- A check finds the own lock, or its read fails. -/
def checkPost (result : Except Error Unit) (_ : Bench ι) : Prop :=
  result = .ok () ∨ ∃ loss, result = .error (.remote loss)

/-- **`check`**: while the writer holds the lock, a check whose read is answered finds it. -/
theorem check_outline (named : lock.id = (setup.runs w).id) (may : mine (.get .lock)) :
    Outline (setup.setting w mine) w checkPost (Holds setup w) (lock.check setup.client) := by
  refine holding_outline honors distinct may ?_ fun loss _ => .inr ⟨loss, rfl⟩
  rw [Option.any_some, isOwn_ownHeld named, if_pos rfl]
  exact .done (Holds.stable honors distinct w mine) fun _ _ => .inl rfl

/-! ### `release` -/

/-- What a writer knows after `delete_if_match` of its own `ETag`. -/
def deletePost (setup : Setup ι) (w : ι) : Except Error DeleteReply → Bench ι → Prop
  | .ok .deleted, world => Sane setup world.server
  | .ok .notMatched, world => Sane setup world.server ∧ Rewritten setup w world.server
  | .error fault, world => Sane setup world.server ∧ ∃ loss, fault = .remote loss

/-- The answer to a delete of the own `ETag`: it is a 2xx while the key holds the own body. -/
theorem respond_delete (sane : Sane setup world.server)
    (now : world.server.lock = some (setup.body w) ∨ Gone setup w world.server) :
    (setup.rules.respond world.server.lock
        (.deleteIfMatch .lock (setup.tag w))).1 = DeleteReply.deleted ∨
      Gone setup w (world.effect setup.rules.serve place w
        (.deleteIfMatch .lock (setup.tag w))).server := by
  obtain own | gone := now
  · refine .inl ?_
    rw [Rules.respond_deleteIfMatch, own, Option.map_some, if_pos rfl]
  · have does : LockEffect setup w (.deleteIfMatch .lock (setup.tag w)) world.server _ :=
      lockEffect honors distinct (owned_delete setup w) sane.inPlay
    exact .inr (gone.step does)

/-- The read after a 412 with an unknown outcome before it: an object in the key was written after
the removal. -/
theorem exists_outline :
    Outline (setup.own w) w (deletePost setup w)
      (fun world => Sane setup world.server ∧ Gone setup w world.server)
      ((«exists» .lock).andThen fun found =>
        .done (.ok (if found then DeleteReply.notMatched else .deleted))) := by
  have stable := stable_gone honors distinct w (setup.Owned w)
  have asks : ((«exists» .lock).andThen fun found =>
      (.done (.ok (if found then DeleteReply.notMatched else .deleted)) : Act DeleteReply)) =
      .call (.find .lock) fun (reply : Except Loss Bool) => .done (match reply with
        | .ok found => .ok (if found then DeleteReply.notMatched else .deleted)
        | .error loss => .error (.remote loss)) := by
    unfold «exists» Act.andThen Prog.bind
    congr 1
    funext reply
    cases reply <;> rfl
  rw [asks]
  refine read_outline (.find .lock) (fun (found : Bool) world => Sane setup world.server ∧
    (found = true → Rewritten setup w world.server)) rfl trivial stable ?_ ?_ ?_ ?_
  · intro found
    exact stable_rewritten_if honors distinct w _ (found = true)
  · intro world place holds still
    refine ⟨still.1, fun there => ?_⟩
    obtain ⟨later, earlier, split, absent | written⟩ := holds.2
    · have found : world.server.lock.isSome = true := there
      rw [absent] at found
      cases found
    · have does : LockEffect setup w (.find .lock) world.server _ :=
        lockEffect honors distinct (owned_find setup w) holds.1.inPlay
      have before : Rewritten setup w world.server := ⟨later, earlier, split, written⟩
      exact before.step does
  · intro found world holds
    cases found with
    | true => exact ⟨holds.1, holds.2 rfl⟩
    | false => exact holds.1
  · exact fun loss world holds => ⟨holds.1, loss, rfl⟩

omit honors distinct in
theorem delete_lost
    (stable : Stable (setup.own w) P) (sane : ∀ world, P world → Sane setup world.server)
    (rest : ∀ rounds, again = some rounds →
      Outline (setup.own w) w (deletePost setup w) P rounds) (unsure : Bool) (loss : Loss) :
    Outline (setup.own w) w (deletePost setup w) P
      (deleteReplied .lock unsure again (.error loss)) := by
  have fails : ∀ loss, Outline (setup.own w) w (deletePost setup w) P
      (.done (.error (.remote loss)) : Act DeleteReply) := fun loss =>
    .done stable fun world holds => ⟨sane world holds, loss, rfl⟩
  cases loss with
  | conflict => exact fails .conflict
  | failed => exact fails .failed
  | interrupted =>
    cases again with
    | some rounds => exact rest rounds rfl
    | none => exact fails .interrupted
  | retryable =>
    cases again with
    | some rounds => exact rest rounds rfl
    | none => exact fails .retryable

/-- A round after a delete with an unknown outcome. -/
theorem deleteRound_trying
    (rest : ∀ rounds, again = some rounds → Outline (setup.own w) w (deletePost setup w)
      (Trying setup w) rounds) :
    Outline (setup.own w) w (deletePost setup w) (Trying setup w)
      (deleteRound .lock (setup.tag w) true again) := by
  have stable := Trying.stable honors distinct w (setup.Owned w)
  refine .call (Trying setup w) (fun ans world => Sane setup world.server ∧
      (ans = DeleteReply.deleted ∨ Gone setup w world.server)) stable stable ?_
    (fun _ _ => owned_delete setup w) ?_ ?_ ?_ ?_
  · exact fun ans => stable_gone_or honors distinct w _ (ans = DeleteReply.deleted)
  · exact fun world place free holds => ⟨holds.sane, holds.now⟩
  · intro world place flies holds
    exact ⟨(stable.effect world place w _ flies (owned_delete setup w) holds).sane,
      respond_delete honors distinct holds.sane holds.now⟩
  · intro ans
    cases ans with
    | deleted =>
      exact .done (stable_gone_or honors distinct w _ _) fun world holds => holds.1
    | notMatched =>
      refine (exists_outline honors distinct).weaken (stable_gone_or honors distinct w _ _) ?_
      rintro world ⟨sane, absurd | gone⟩
      · cases absurd
      · exact ⟨sane, gone⟩
  · exact delete_lost stable (fun _ holds => holds.sane) rest true

theorem deleteRounds_trying (left : Nat) :
    Outline (setup.own w) w (deletePost setup w) (Trying setup w)
      (deleteRounds .lock (setup.tag w) left true) := by
  induction left with
  | zero => exact deleteRound_trying honors distinct fun rounds absurd => by cases absurd
  | succ left ih =>
    refine deleteRound_trying honors distinct fun rounds more => ?_
    cases more
    exact ih

/-- The first round: its delete is the only one on the wire, so an answer to it is a 2xx. -/
theorem deleteRounds_outline (left : Nat) :
    Outline (setup.own w) w (deletePost setup w) (Holds setup w)
      (deleteRounds .lock (setup.tag w) left false) := by
  have stable := Removing.stable honors distinct w (setup.Owned w)
  have sane := stable_sane honors distinct w (setup.Owned w)
  have later : ∀ left, Outline (setup.own w) w (deletePost setup w) (Removing setup w)
      (deleteRounds .lock (setup.tag w) left true) := fun left =>
    (deleteRounds_trying honors distinct left).weaken stable fun world holds =>
      ⟨holds.sane, holds.one.imp And.left And.right⟩
  have round : ∀ again : Option (Act DeleteReply), (∀ rounds, again = some rounds →
      Outline (setup.own w) w (deletePost setup w) (Removing setup w) rounds) →
      Outline (setup.own w) w (deletePost setup w) (Holds setup w)
        (deleteRound .lock (setup.tag w) false again) := by
    intro again rest
    refine .call (Removing setup w) (fun ans world => Sane setup world.server ∧ ans = DeleteReply.deleted)
      (Holds.stable honors distinct w _) stable (fun ans => sane.and_fact _)
      (fun _ _ => owned_delete setup w) ?_ ?_ ?_ ?_
    · intro world place free holds
      refine ⟨holds.sane, .inl ⟨holds.own, fun first etag second etag' flies flies' => ?_⟩⟩
      obtain ⟨rfl, -, -⟩ | ⟨-, before⟩ := World.flying_of_send flies
      · obtain ⟨rfl, -, -⟩ | ⟨-, before⟩ := World.flying_of_send flies'
        · rfl
        · exact absurd before (holds.noDelete _ _)
      · exact absurd before (holds.noDelete _ _)
    · intro world place flies holds
      refine ⟨(stable.effect world place w _ flies (owned_delete setup w) holds).sane, ?_⟩
      obtain ⟨own, -⟩ | ⟨noDelete, -⟩ := holds.one
      · show (setup.rules.respond world.server.lock (.deleteIfMatch .lock _)).1 = _
        rw [Rules.respond_deleteIfMatch, own, Option.map_some, if_pos rfl]
      · exact absurd flies (noDelete _ _)
    · intro ans
      refine .of_fact sane fun deleted => ?_
      subst deleted
      exact .done sane fun world holds => holds
    · exact delete_lost stable (fun _ holds => holds.sane) rest false
  cases left with
  | zero => exact round none fun rounds absurd => by cases absurd
  | succ left =>
    refine round _ fun rounds more => ?_
    cases more
    exact later left

/-- A lost lock was removed by the writer itself, and the key was written after that. -/
def releasePost (setup : Setup ι) (w : ι) (result : Except Error Unit) (world : Bench ι) : Prop :=
  ∀ address holder, result = .error (.bucketLockLost address holder) → Rewritten setup w world.server

/-- **`release`** reports a lost lock only if a delete of its own removed the body, and the key was
written after that. -/
theorem release_outline (named : lock.id = (setup.runs w).id) :
    Outline (setup.own w) w (releasePost setup w) (Holds setup w)
      (lock.release setup.client) := by
  refine holding_outline honors distinct trivial ?_ fun loss world address holder absurd => by cases absurd
  unfold WriterLock.releaseHeld
  dsimp only
  rw [isOwn_ownHeld named, if_pos rfl]
  show Outline _ _ _ _ ((deleteIfMatch setup.client .lock _).andThen _)
  unfold deleteIfMatch
  split
  · refine .done (Holds.stable honors distinct w _) fun world _ address holder absurd => by cases absurd
  · have stable := stable_rewritten honors distinct w (setup.Owned w)
    have sane := stable_sane honors distinct w (setup.Owned w)
    refine (deleteRounds_outline honors distinct setup.client.maxRetries).bind fun result => ?_
    cases result with
    | error fault =>
      refine .of_fact sane fun ⟨loss, remote⟩ => .done sane fun world _ address holder lost => ?_
      subst remote
      cases lost
    | ok reply =>
      cases reply with
      | deleted => exact .done sane fun world _ address holder lost => by cases lost
      | notMatched =>
        refine (readLock_keeps trivial stable).bind fun result => ?_
        cases result with
        | error fault | ok other => exact .done stable fun world holds address holder _ => holds.2

/-! ### `take_lock` -/

variable {key : Key} {body : Bytes}

/-- What a writer knows after `put_if_absent`: `Good` if the key holds its body. -/
def putPost (setup : Setup ι) (w : ι) (Good : Bench ι → Prop) : Except Error PutIfAbsent → Bench ι → Prop
  | .ok .present, world => Quiet setup w world
  | .ok _, world => Good world
  | .error _, world => Quiet setup w world

omit honors distinct in
theorem quiet_send_put (quiet : Quiet setup w world) (place : Nat) (key : Key) (body : Bytes) :
    Quiet setup w (world.send place w (.put key body)) := by
  refine ⟨quiet.sane, quiet.noDelete.send ?_⟩
  rintro - etag absurd
  cases absurd

omit honors distinct in
theorem held_effect_get (world : Bench ι) (place : Nat) (key : Key) :
    (world.effect setup.rules.serve place w (.get key)).server.held key = world.server.held key := by
  cases key <;> rfl

/-- What a writer knows after `compare`. -/
def comparePost (setup : Setup ι) (w : ι) (Good : Bench ι → Prop) : Except Error Compared → Bench ι → Prop
  | .ok (.same _), world => Good world
  | _, world => Quiet setup w world

/-- What a writer knows after its `PUT` took effect. -/
def repliedPost (setup : Setup ι) (w : ι) (Good : Bench ι → Prop) : PutReply → Bench ι → Prop
  | .created _, world => Good world
  | .refused, world => Quiet setup w world

omit honors distinct in
theorem compare_outline {Good : Bench ι → Prop} (quiet : Stable (setup.own w) (Quiet setup w))
    (good : Stable (setup.own w) Good)
    (seen : ∀ world content, Quiet setup w world → world.server.held key = some content →
      setup.client.sha256 content = setup.client.sha256 body → Good world) :
    Outline (setup.own w) w (comparePost setup w Good) (Quiet setup w)
      (compare setup.client key body) := by
  have stable : ∀ found, Stable (setup.own w) (comparePost setup w Good (.ok found)) := by
    intro found
    cases found with
    | same => exact good
    | other => exact quiet
    | absent => exact quiet
  rw [compare_eq]
  refine read_outline (.get key) (fun (ans : Option Object) =>
    comparePost setup w Good (.ok (compared setup.client body ans))) rfl trivial quiet (fun ans => stable _) ?_
    (fun ans world holds => holds) fun loss world holds => holds
  intro world place _ still
  show comparePost setup w Good (.ok (compared setup.client body ((world.server.held key).map _))) _
  cases content : world.server.held key with
  | none => exact still
  | some bytes =>
    simp only [Option.map_some, compared]
    split
    · exact still
    · split
      · next same => exact seen _ bytes still ((held_effect_get world place key).trans content) same
      · exact still

omit honors distinct in
/-- The rounds of `put_if_absent`, from what its two requests tell: `learnt` by the `PUT`, `found`
by the read of `compare`. -/
theorem putRounds_rule (learnt : PutReply → Bench ι → Prop) (round : ∀ next : Except Loss PutReply → Act PutIfAbsent,
      (∀ ans, Outline setting w post (learnt ans) (next (.ok ans))) →
      (∀ loss, Outline setting w post P (next (.error loss))) →
      Outline setting w post P (.call (.put key body) next))
    (created : ∀ etag, Outline setting w post (learnt (.created etag))
      (.done (.ok (.created etag)) : Act PutIfAbsent))
    (refused : ∀ unsure again, Outline setting w post (learnt .refused)
      (putReplied client key body unsure again (.ok .refused)))
    (looks : Outline setting w found P (compare client key body))
    (same : ∀ etag, Outline setting w post (found (.ok (.same etag)))
      (.done (.ok (.matches etag)) : Act PutIfAbsent))
    (other : Outline setting w post (found (.ok .other)) (.done (.ok .present) : Act PutIfAbsent))
    (absent : ∀ prog : Act PutIfAbsent, Outline setting w post P prog →
      Outline setting w post (found (.ok .absent)) prog)
    (broken : ∀ fault, Outline setting w post (found (.error fault))
      (.done (.error fault) : Act PutIfAbsent))
    (fails : ∀ loss, Outline setting w post P (.done (.error (.remote loss)) : Act PutIfAbsent)) (left : Nat)
    (unsure : Bool) : Outline setting w post P (putRounds client key body left unsure) := by
  have one : ∀ (again : Option (Bool → Act PutIfAbsent)) (unsure : Bool), (∀ rounds,
      again = some rounds → ∀ unsure, Outline setting w post P (rounds unsure)) →
      Outline setting w post P (putRound client key body unsure again) := by
    intro again unsure rest
    refine round _ (fun ans => ?_) fun loss => ?_
    · cases ans with
      | created etag => exact created etag
      | refused => exact refused unsure again
    · cases loss with
      | failed => exact fails .failed
      | conflict =>
        cases again with
        | some rounds => exact rest rounds rfl unsure
        | none => exact fails .conflict
      | retryable =>
        cases again with
        | some rounds => exact rest rounds rfl true
        | none => exact fails .retryable
      | interrupted =>
        refine looks.bind fun result => ?_
        cases result with
        | error fault => exact broken fault
        | ok seen =>
          cases seen with
          | same etag => exact same etag
          | other => exact other
          | absent =>
            refine absent _ ?_
            cases again with
            | some rounds => exact rest rounds rfl true
            | none => exact fails .interrupted
  induction left generalizing unsure with
  | zero => exact one none unsure fun rounds none_ => by cases none_
  | succ left ih =>
    refine one _ unsure fun rounds more => ?_
    cases more
    exact ih

omit honors distinct in
/-- Every try of `put_if_absent`, between requests of other writers. -/
theorem putIfAbsent_outline (quiet : Stable (setup.own w) (Quiet setup w))
    (good : Stable (setup.own w) Good) (owned : setup.Owned w (.put key body))
    (created : ∀ world place etag, Quiet setup w world →
      Quiet setup w (world.effect setup.rules.serve place w (.put key body)) →
      (setup.rules.respond (world.server.held key) (.put key body)).1 = PutReply.created etag →
      Good (world.effect setup.rules.serve place w (.put key body)))
    (seen : ∀ world content, Quiet setup w world → world.server.held key = some content →
      setup.client.sha256 content = setup.client.sha256 body → Good world) :
    Outline (setup.own w) w (putPost setup w Good) (Quiet setup w)
      (putIfAbsent setup.client key body) := by
  have fails : ∀ fault, Outline (setup.own w) w (putPost setup w Good) (Quiet setup w)
      (.done (.error fault) : Act PutIfAbsent) := fun loss => .done quiet fun world holds => holds
  have present : Outline (setup.own w) w (putPost setup w Good) (Quiet setup w)
      (.done (.ok .present) : Act PutIfAbsent) := .done quiet fun world holds => holds
  have looks := compare_outline quiet good seen
  refine putRounds_rule (repliedPost setup w Good) ?_ ?_ ?_ looks ?_ present
    (fun prog outline => outline) fails (fun loss => fails _) _ _
  · intro next answered lost
    refine .call (Quiet setup w) (repliedPost setup w Good) quiet quiet ?_ (fun _ _ => owned) ?_ ?_ answered lost
    · intro ans
      cases ans with
      | created => exact good
      | refused => exact quiet
    · exact fun world place free holds => quiet_send_put holds place key body
    · intro world place flies holds
      have still := quiet.effect world place w _ flies owned holds
      show repliedPost setup w Good (setup.rules.respond (world.server.held key) (.put key body)).1 _
      cases reply : (setup.rules.respond (world.server.held key) (.put key body)).1 with
      | created etag => exact created world place etag holds still reply
      | refused => exact still
  · exact fun etag => .done good fun world holds => holds
  · intro unsure again
    cases unsure with
    | false => exact present
    | true =>
      refine looks.bind fun result => ?_
      cases result with
      | error fault => exact fails fault
      | ok found =>
        cases found with
        | same etag => exact .done good fun world holds => holds
        | other => exact present
        | absent => exact present
  · exact fun etag => .done good fun world holds => holds

/-- A put-if-absent of the own body: the key holds it, or the writer found another object. -/
theorem putIfAbsent_lock :
    Outline (setup.own w) w (putPost setup w (Holds setup w)) (Quiet setup w)
      (putIfAbsent setup.client .lock (setup.body w)) := by
  refine putIfAbsent_outline (Quiet.stable honors distinct w _) (Holds.stable honors distinct w _)
    (owned_put setup w) ?_ ?_
  · intro world place etag quiet still wrote
    refine ⟨still, ?_⟩
    have absent : world.server.lock.isSome = false := by
      cases there : world.server.lock.isSome with
      | false => rfl
      | true =>
        rw [Rules.respond_put, if_pos (by rw [honors, Bool.true_and]; exact there)] at wrote
        cases wrote
    show ((setup.rules.respond (world.server.held .lock) (.put .lock (setup.body w))).2) = _
    rw [Rules.respond_put, if_neg (by simp [Server.held, absent])]
  · intro world content quiet holds same
    obtain rfl := distinct.sha256 content (quiet.sane.inPlay content holds) w same
    exact ⟨quiet, holds⟩

theorem putIfAbsent_probe :
    Outline (setup.own w) w (putPost setup w (Quiet setup w)) (Quiet setup w)
      (putIfAbsent setup.client .probe probeBody) := by
  have stable := Quiet.stable honors distinct w (setup.Owned w)
  exact putIfAbsent_outline stable stable (owned_probe setup w) (fun _ _ _ _ still _ => still)
    fun _ _ quiet _ _ => quiet

theorem probe_outline :
    Outline (setup.own w) w (fun _ => Quiet setup w) (Quiet setup w)
      (probeExclusion setup.client) := by
  have stable := Quiet.stable honors distinct w (setup.Owned w)
  have ends : ∀ result : Except Error Unit, Outline (setup.own w) w (fun _ => Quiet setup w)
      (Quiet setup w) (.done result : Act Unit) := fun result => .done stable fun world holds => holds
  refine (putIfAbsent_probe honors distinct).bind fun result => ?_
  cases result with
  | error fault => exact ends _
  | ok first =>
    cases first with
    | present | refused => exact ends _
    | created | «matches» =>
      refine (putIfAbsent_probe honors distinct).bind fun result => ?_
      cases result with
      | error fault => exact ends _
      | ok second => cases second <;> exact ends _

/-- A writer that gets the lock holds it. -/
def takePost (setup : Setup ι) (w : ι) (result : Except Error WriterLock) (world : Bench ι) : Prop :=
  ∀ lock, result = .ok lock → Holds setup w world ∧ lock.id = (setup.runs w).id

/-- **`take_lock`**: a writer that gets the lock holds it, under the id of its run. -/
theorem take_outline :
    Outline (setup.own w) w (takePost setup w) (Quiet setup w)
      (takeLock setup.client (setup.runs w) false) := by
  have quiet := Quiet.stable honors distinct w (setup.Owned w)
  have holds := Holds.stable honors distinct w (setup.Owned w)
  have fails : ∀ fault : Error, Outline (setup.own w) w (takePost setup w) (Quiet setup w)
      (.done (.error fault) : Act WriterLock) := fun fault =>
    .done quiet fun world _ lock absurd => by cases absurd
  refine (probe_outline honors distinct).bind fun result => ?_
  cases result with
  | error fault => exact fails fault
  | ok =>
    show Outline _ _ _ _ (putLock setup.client (setup.runs w) none)
    rw [putLock_eq]
    refine (putIfAbsent_lock honors distinct).bind fun result => ?_
    cases result with
    | error fault => exact fails fault
    | ok put =>
      cases put with
      | present =>
        refine (readLock_keeps trivial quiet).bind fun result => ?_
        cases result with
        | error fault => exact fails fault
        | ok held => exact fails _
      | created | «matches» | refused =>
        refine .done holds fun world own lock taken => ?_
        cases taken
        exact ⟨own, rfl⟩

end Programs

end Ostrya.Bucket
