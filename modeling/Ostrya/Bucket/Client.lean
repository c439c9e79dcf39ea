/-
**The conditional requests of the bucket client and the writer lock over them** (`s3/bucket.rs`,
`put_if_absent` and `delete_if_match`; `bucket/lock.rs`).

The programs are those of the source, with the requests as calls on a wire that can lose them
(`Network.Prog`). A read is one request here: the retries of the fetcher change nothing that a reader can
see. The time between two rounds is not kept.

`serve` is the server that the doc comments of the client assume: a request takes effect at one moment,
a `PUT` with `If-None-Match: *` writes an absent key only, and a `DELETE` with `If-Match` deletes the
object of that `ETag` only. A server with `honors = false` ignores `If-None-Match`. The log of the server
is no part of the source; it is what the theorems about a run speak of.
-/

import Ostrya.Bucket.LockBody
import Ostrya.Network.Lossy

namespace Ostrya.Bucket

open ByteFormat Ostrya.Core Gvariant Network

/-- The two keys of the writer lock, `LOCK_KEY` and `PROBE_KEY`. -/
inductive Key where
  | lock
  | probe
  deriving DecidableEq

/-- The text of a key. -/
def Key.path : Key → String
  | .lock => "extensions/ostrya/lock"
  | .probe => "extensions/ostrya/lock-probe"

/-- `PROBE_BODY`. -/
def probeBody : Bytes := asBytes "ostrya lock probe\n"

/-- `Object`: a body and the `ETag` of the response. -/
structure Object where
  bytes : Bytes
  etag : Option String
  deriving DecidableEq

/-- A request. `find` is the `GET` of the first byte that `exists` sends. -/
inductive Request where
  | put (key : Key) (body : Bytes)
  | get (key : Key)
  | find (key : Key)
  | deleteIfMatch (key : Key) (etag : String)
  | delete (key : Key)
  deriving DecidableEq

/-- The answer to a `PUT` with `If-None-Match: *`: a 2xx or a 412. -/
inductive PutReply where
  | created (etag : Option String)
  | refused
  deriving DecidableEq

/-- The answer to a `DELETE` with `If-Match`: a 2xx, or a 412 or 404. -/
inductive DeleteReply where
  | deleted
  | notMatched
  deriving DecidableEq

/-- The answers by request. -/
@[reducible] def Answer : Request → Type
  | .put .. => PutReply
  | .get _ => Option Object
  | .find _ => Bool
  | .deleteIfMatch .. => DeleteReply
  | .delete _ => Unit

/-- What a client sees in place of an answer: an interrupted request, a 408, 429 or 5xx, a 409 with
`ConditionalRequestConflict`, and any other failure. -/
inductive Loss where
  | interrupted
  | retryable
  | conflict
  | failed
  deriving DecidableEq

/-- The errors of the lock and of the client under it. -/
inductive Error where
  | remote (loss : Loss)
  | limitExceeded (key : Key)
  | invalidInput (reason : String)
  | transport (reason : String)
  | keyFile (fault : Core.Error)
  | bucketLocked (address : String) (holder : Option LockHolder)
  | bucketLockLost (address : String) (holder : Option LockHolder)
  | bucketNoExclusion (address : String)
  deriving DecidableEq

/-- A call of the client that can fail. -/
abbrev Act (α : Type) : Type := Prog Request Answer Loss (Except Error α)

/-- `?`. -/
def Act.andThen {α β : Type} (act : Act α) (next : α → Act β) : Act β :=
  Prog.bind act fun
    | .ok value => next value
    | .error fault => .done (.error fault)

/-- What the client reads of its configuration. -/
structure Client where
  maxRetries : Nat
  address : String
  sha256 : Bytes → Checksum

/-! ### The bucket client -/

/-- `get`. -/
def get (key : Key) (maxSize : Nat) : Act (Option Object) :=
  .call (.get key) fun (reply : Except Loss (Option Object)) =>
    match reply with
    | .error loss => .done (.error (.remote loss))
    | .ok none => .done (.ok none)
    | .ok (some object) =>
      if object.bytes.length > maxSize then .done (.error (.limitExceeded key))
      else .done (.ok (some object))

/-- `get_stream`, of which the lock reads the `ETag` only. -/
def getStream (key : Key) : Act (Option (Option String)) :=
  .call (.get key) fun (reply : Except Loss (Option Object)) =>
    match reply with
    | .error loss => .done (.error (.remote loss))
    | .ok found => .done (.ok (found.map Object.etag))

/-- `exists`. -/
def «exists» (key : Key) : Act Bool :=
  .call (.find key) fun (reply : Except Loss Bool) =>
    match reply with
    | .error loss => .done (.error (.remote loss))
    | .ok found => .done (.ok found)

/-- `Compared`. -/
inductive Compared where
  | same (etag : Option String)
  | other
  | absent

/-- What `compare` makes of the object that the key holds. -/
def compared (client : Client) (body : Bytes) : Option Object → Compared
  | none => .absent
  | some object =>
    if object.bytes.length ≠ body.length then .other
    else if client.sha256 object.bytes = client.sha256 body then .same object.etag
    else .other

/-- `compare`. -/
def compare (client : Client) (key : Key) (body : Bytes) : Act Compared :=
  .call (.get key) fun (reply : Except Loss (Option Object)) =>
    match reply with
    | .error loss => .done (.error (.remote loss))
    | .ok found => .done (.ok (compared client body found))

/-- `PutIfAbsent`. -/
inductive PutIfAbsent where
  | created (etag : Option String)
  | «matches» (etag : Option String)
  | refused (etag : Option String)
  | present

/-- What `put_if_absent` does with a reply. `again` is the next round, if the retry count leaves
one. -/
def putReplied (client : Client) (key : Key) (body : Bytes) (unsure : Bool)
    (again : Option (Bool → Act PutIfAbsent)) : Except Loss PutReply → Act PutIfAbsent
  | .ok (.created etag) => .done (.ok (.created etag))
  | .ok .refused =>
    if !unsure then .done (.ok .present)
    else (compare client key body).andThen fun
      | .same etag => .done (.ok (.refused etag))
      | .other | .absent => .done (.ok .present)
  | .error .interrupted =>
    (compare client key body).andThen fun
      | .same etag => .done (.ok (.matches etag))
      | .other => .done (.ok .present)
      | .absent =>
        match again with
        | some rounds => rounds true
        | none => .done (.error (.remote .interrupted))
  | .error .conflict =>
    match again with
    | some rounds => rounds unsure
    | none => .done (.error (.remote .conflict))
  | .error .retryable =>
    match again with
    | some rounds => rounds true
    | none => .done (.error (.remote .retryable))
  | .error .failed => .done (.error (.remote .failed))

/-- One round of `put_if_absent`. -/
def putRound (client : Client) (key : Key) (body : Bytes) (unsure : Bool)
    (again : Option (Bool → Act PutIfAbsent)) : Act PutIfAbsent :=
  .call (.put key body) (putReplied client key body unsure again)

/-- The loop of `put_if_absent`, by the retries that are left. -/
def putRounds (client : Client) (key : Key) (body : Bytes) : Nat → Bool → Act PutIfAbsent
  | 0, unsure => putRound client key body unsure none
  | left + 1, unsure => putRound client key body unsure (some (putRounds client key body left))

/-- `put_if_absent`. -/
def putIfAbsent (client : Client) (key : Key) (body : Bytes) : Act PutIfAbsent :=
  putRounds client key body client.maxRetries false

/-- `MAX_UPLOAD_TOKEN`. -/
def maxUploadToken : Nat := 1024

/-- What `delete_if_match` does with a reply. -/
def deleteReplied (key : Key) (unsure : Bool) (again : Option (Act DeleteReply)) :
    Except Loss DeleteReply → Act DeleteReply
  | .ok .deleted => .done (.ok .deleted)
  | .ok .notMatched =>
    if !unsure then .done (.ok .notMatched)
    else («exists» key).andThen fun found => .done (.ok (if found then .notMatched else .deleted))
  | .error .interrupted =>
    match again with
    | some rounds => rounds
    | none => .done (.error (.remote .interrupted))
  | .error .retryable =>
    match again with
    | some rounds => rounds
    | none => .done (.error (.remote .retryable))
  | .error .conflict => .done (.error (.remote .conflict))
  | .error .failed => .done (.error (.remote .failed))

/-- One round of `delete_if_match`. -/
def deleteRound (key : Key) (etag : String) (unsure : Bool) (again : Option (Act DeleteReply)) :
    Act DeleteReply :=
  .call (.deleteIfMatch key etag) (deleteReplied key unsure again)

/-- The loop of `delete_if_match`, by the retries that are left. -/
def deleteRounds (key : Key) (etag : String) : Nat → Bool → Act DeleteReply
  | 0, unsure => deleteRound key etag unsure none
  | left + 1, unsure => deleteRound key etag unsure (some (deleteRounds key etag left true))

/-- `delete_if_match`. -/
def deleteIfMatch (client : Client) (key : Key) (etag : String) : Act DeleteReply :=
  if etag = "" ∨ (asBytes etag).length > maxUploadToken then
    .done (.error (.invalidInput ("S3: the ETag of a conditional delete of " ++ key.path ++
      " is empty or longer than 1024 bytes")))
  else deleteRounds key etag client.maxRetries false

/-- `delete`, by the retries that are left. -/
def deleteAlways (key : Key) : Nat → Act Unit
  | 0 => .call (.delete key) fun (reply : Except Loss Unit) =>
    match reply with
    | .ok () => .done (.ok ())
    | .error loss => .done (.error (.remote loss))
  | left + 1 => .call (.delete key) fun (reply : Except Loss Unit) =>
    match reply with
    | .ok () => .done (.ok ())
    | .error .interrupted => deleteAlways key left
    | .error .retryable => deleteAlways key left
    | .error loss => .done (.error (.remote loss))

/-! ### The writer lock -/

/-- `Held`. -/
structure Held where
  holder : LockHolder
  etag : Option String

/-- `WriterLock`. -/
structure WriterLock where
  id : String
  broken : Option LockHolder

/-- `read_lock`: a body over `MAX_LOCK` names no writer, and its `ETag` needs a second `GET`. -/
def readLock (etag : Bool) : Act (Option Held) :=
  Prog.bind (get .lock maxLock) fun
    | .ok (some object) => .done (.ok (some ⟨parseHolder object.bytes, object.etag⟩))
    | .ok none => .done (.ok none)
    | .error (.limitExceeded _) =>
      if etag then (getStream .lock).andThen fun stream =>
        .done (.ok (stream.map fun etag => ⟨.default, etag⟩))
      else .done (.ok (some ⟨.default, none⟩))
    | .error fault => .done (.error fault)

/-- `locked`. -/
def locked (client : Client) (held : Option Held) : Error :=
  .bucketLocked client.address (held.map Held.holder)

/-- `lost`. -/
def lost (client : Client) (held : Option Held) : Error :=
  .bucketLockLost client.address (held.map Held.holder)

/-- `unknown_probe`. -/
def unknownProbe (client : Client) : Error :=
  .transport ("the probe of the writer lock of " ++ client.address ++ " had an unknown outcome, so it is " ++
    "not known if the server honors If-None-Match; the run wrote no lock; run the operation again")

/-- `probe_exclusion`. -/
def probeExclusion (client : Client) : Act Unit :=
  (putIfAbsent client .probe probeBody).andThen fun
    | .present | .refused _ => .done (.ok ())
    | .created _ | .matches _ =>
      (putIfAbsent client .probe probeBody).andThen fun
        | .present | .refused _ => .done (.ok ())
        | .created _ => .done (.error (.bucketNoExclusion client.address))
        | .matches _ => .done (.error (unknownProbe client))

/-- `break_lock`. -/
def breakLock (client : Client) : Act (Option LockHolder) :=
  (readLock true).andThen fun
    | none => .done (.ok none)
    | some held =>
      match held.etag with
      | none => .done (.error (.transport ("the read of the writer lock of " ++ client.address ++
          " gave no ETag, so the break of the lock cannot delete it with If-Match; the call deleted no lock")))
      | some etag =>
        (deleteIfMatch client .lock etag).andThen fun
          | .deleted => .done (.ok (some held.holder))
          | .notMatched =>
            (readLock false).andThen fun
              | none => .done (.ok none)
              | some other => .done (.error (locked client (some other)))

/-- The end of `take_lock`, by what `put_if_absent` of the lock body gave. -/
def took (client : Client) (run : Run) (broken : Option LockHolder) : PutIfAbsent → Act WriterLock
  | .created _ | .matches _ | .refused _ => .done (.ok ⟨run.id, broken⟩)
  | .present => (readLock false).andThen fun held => .done (.error (locked client held))

/-- `take_lock` after the probe and the break of the lock. -/
def putLock (client : Client) (run : Run) (broken : Option LockHolder) : Act WriterLock :=
  match lockBody run.id run.host run.pid run.operation run.started with
  | .error fault => .done (.error (.keyFile fault))
  | .ok body => (putIfAbsent client .lock (asBytes body)).andThen (took client run broken)

/-- `take_lock`. -/
def takeLock (client : Client) (run : Run) (breaks : Bool) : Act WriterLock :=
  (probeExclusion client).andThen fun _ =>
    (if breaks then breakLock client else .done (.ok none)).andThen (putLock client run)

theorem putLock_eq (client : Client) (run : Run) (broken : Option LockHolder) :
    putLock client run broken = (putIfAbsent client .lock run.body).andThen (took client run broken) := by
  unfold putLock
  rw [run.lockBody_eq]
  rfl

/-- `WriterLock::is_own`. -/
def WriterLock.isOwn (lock : WriterLock) (held : Held) : Bool := namesId held.holder lock.id

/-- `WriterLock::check`. -/
def WriterLock.check (lock : WriterLock) (client : Client) : Act Unit :=
  (readLock false).andThen fun held =>
    if held.any lock.isOwn then .done (.ok ()) else .done (.error (lost client held))

/-- `WriterLock::release` after its delete. -/
def WriterLock.ended (client : Client) : DeleteReply → Act Unit
  | .deleted => .done (.ok ())
  | .notMatched => (readLock false).andThen fun other => .done (.error (lost client other))

/-- `WriterLock::release` after its read found the own lock. -/
def WriterLock.remove (client : Client) (held : Held) : Act Unit :=
  match held.etag with
  | some etag => (deleteIfMatch client .lock etag).andThen (WriterLock.ended client)
  | none => deleteAlways .lock client.maxRetries

/-- `WriterLock::release` after its read. -/
def WriterLock.releaseHeld (lock : WriterLock) (client : Client) : Option Held → Act Unit
  | some held =>
    if lock.isOwn held then WriterLock.remove client held else .done (.error (lost client (some held)))
  | none => .done (.error (lost client none))

/-- `WriterLock::release`. -/
def WriterLock.release (lock : WriterLock) (client : Client) : Act Unit :=
  (readLock false).andThen (lock.releaseHeld client)

/-! ### The server -/

/-- A request that took effect, with what its key held before and after. -/
structure Event (ι : Type) where
  sender : ι
  req : Request
  before : Option Bytes
  after : Option Bytes
  deriving DecidableEq

/-- The server's keys, and its log, the last event first. -/
structure Server (ι : Type) where
  lock : Option Bytes
  probe : Option Bytes
  log : List (Event ι)

/-- How the server acts: whether it honors `If-None-Match`, and the `ETag` of a body. -/
structure Rules where
  honors : Bool
  etag : Bytes → String

variable {ι : Type}

namespace Request

/-- The key of a request. -/
def key : Request → Key
  | put key _ | get key | find key | deleteIfMatch key _ | delete key => key

/-- A request that changes nothing. -/
def isRead : Request → Bool
  | get _ | find _ => true
  | _ => false

end Request

namespace Server

/-- What a key holds. -/
def held (server : Server ι) : Key → Option Bytes
  | .lock => server.lock
  | .probe => server.probe

/-- The effect of a request on its key. -/
def act (server : Server ι) (sender : ι) (req : Request) (after : Option Bytes) : Server ι :=
  { lock := if req.key = .lock then after else server.lock
    probe := if req.key = .probe then after else server.probe
    log := ⟨sender, req, server.held req.key, after⟩ :: server.log }

end Server

/-- The answer to a request and what its key holds then. -/
def Rules.respond (rules : Rules) (content : Option Bytes) : (req : Request) → Answer req × Option Bytes
  | .put _ body =>
    if rules.honors && content.isSome then (PutReply.refused, content)
    else (PutReply.created (some (rules.etag body)), some body)
  | .get _ => (content.map fun bytes => (⟨bytes, some (rules.etag bytes)⟩ : Object), content)
  | .find _ => (content.isSome, content)
  | .deleteIfMatch _ etag =>
    if content.map rules.etag = some etag then (DeleteReply.deleted, none)
    else (DeleteReply.notMatched, content)
  | .delete _ => ((), none)

theorem Rules.respond_put (rules : Rules) (content : Option Bytes) (key : Key) (body : Bytes) :
    rules.respond content (.put key body) =
      if rules.honors && content.isSome then (PutReply.refused, content)
      else (PutReply.created (some (rules.etag body)), some body) := rfl

theorem Rules.respond_deleteIfMatch (rules : Rules) (content : Option Bytes) (key : Key)
    (etag : String) : rules.respond content (.deleteIfMatch key etag) =
      if content.map rules.etag = some etag then (DeleteReply.deleted, none)
      else (DeleteReply.notMatched, content) := rfl

/-- The server takes a request. -/
def Rules.serve (rules : Rules) (sender : ι) (req : Request) (server : Server ι) :
    Answer req × Server ι :=
  let response := rules.respond (server.held req.key) req
  (response.1, server.act sender req response.2)

end Ostrya.Bucket
