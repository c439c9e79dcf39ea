/-
**The framed stream** (`FrameReader`, `ObjectBody` and `FrameWriter` of `proto/frame.rs`).

The writer puts frames and chunks on a stream; the reader takes them off one that arrives in pieces. Outside of a body
the stream holds frames. After an `ObjectHeader`, and after a `GetReply` that found its file, it holds the chunks of a
body, up to a chunk of length 0 or up to the abandon marker and the message that must follow it. The
reader keeps a chunk
length that it has read in part, so that a pending read loses no byte.
-/

import Ostrya.Remote.Frame
import Ostrya.Async.Stream

namespace Ostrya.Remote

open ByteFormat Gvariant Ostrya.Core Repo Async

/-! ### Errors -/

/-- `eof`. -/
def eof : Error := .io .unexpectedEof

/-- `limit_exceeded`. -/
def limitExceeded (what : String) (len limit : Nat) : Error :=
  .limitExceeded (what ++ " of " ++ toString len ++ " bytes is over the limit " ++ toString limit)

/-- The `Display` text of an error; of an I/O error, the text of its kind. -/
def Error.display : Error → String
  | versionUnsupported message => "version-unsupported: " ++ message
  | lockingDisabled message => "locking-disabled: " ++ message
  | unauthorized message => "unauthorized: " ++ message
  | protocol message => "protocol: " ++ message
  | limitExceeded message => "limit-exceeded: " ++ message
  | checksumMismatch message => "checksum-mismatch: " ++ message
  | modeRefused message => "mode-refused: " ++ message
  | missingObjects message _ => "missing-objects: " ++ message
  | refMismatch message _ _ => "ref-mismatch: " ++ message
  | nonFastForward message => "non-fast-forward: " ++ message
  | deleteDenied message => "delete-denied: " ++ message
  | invalidRef message => "invalid-ref: " ++ message
  | refDenied message => "ref-denied: " ++ message
  | signatureRequired message => "signature-required: " ++ message
  | bindingMismatch message => "binding-mismatch: " ++ message
  | internal message => "internal: " ++ message
  | io .unexpectedEof => "unexpected end of file"
  | io .other => "other error"

/-- `From<ErrorMessage> for Error`. -/
def Error.ofMessage (error : ErrorMessage) : Error :=
  match error.code with
  | .versionUnsupported => .versionUnsupported error.message
  | .lockingDisabled => .lockingDisabled error.message
  | .unauthorized => .unauthorized error.message
  | .protocol => .protocol error.message
  | .limitExceeded => .limitExceeded error.message
  | .checksumMismatch => .checksumMismatch error.message
  | .modeRefused => .modeRefused error.message
  | .missingObjects => .missingObjects error.message error.missing
  | .refMismatch =>
    match error.current with
    | some state => .refMismatch error.message state.name state.commit
    | none => .refMismatch error.message "" none
  | .nonFastForward => .nonFastForward error.message
  | .deleteDenied => .deleteDenied error.message
  | .invalidRef => .invalidRef error.message
  | .refDenied => .refDenied error.message
  | .signatureRequired => .signatureRequired error.message
  | .bindingMismatch => .bindingMismatch error.message
  | .internal => .internal error.message

/-- The `Debug` text of a kind. -/
def Kind.debug : Kind → String
  | hello => "Hello"
  | helloReply => "HelloReply"
  | «have» => "Have"
  | haveReply => "HaveReply"
  | objectHeader => "ObjectHeader"
  | objectsEnd => "ObjectsEnd"
  | objectsReply => "ObjectsReply"
  | commit => "Commit"
  | commitReply => "CommitReply"
  | error => "Error"
  | abort => "Abort"
  | pullHello => "PullHello"
  | pullHelloReply => "PullHelloReply"
  | get => "Get"
  | getReply => "GetReply"
  | listRefs => "ListRefs"

/-! ### The reader -/

/-- `BodyKind`. -/
inductive BodyKind where
  | object
  | pull
  deriving DecidableEq

/-- `BodyKind::after`. -/
def BodyKind.after : Message → Option BodyKind
  | .objectHeader _ => some .object
  | .getReply reply => if reply.found then some .pull else none
  | _ => none

/-- `ReadState`. In a body, `remaining` bytes of the current chunk are not read; if there are none,
`got` holds the bytes of the next chunk length that are read. -/
inductive ReadState where
  | frames
  | body (kind : BodyKind) (remaining : Nat) (got : Bytes)
  deriving DecidableEq

/-- `ReadState::body`. -/
def ReadState.start (kind : BodyKind) : ReadState := .body kind 0 []

/-- `Step`, with the bytes that the buffer gets. -/
inductive Step where
  | data (bytes : Bytes)
  | end
  | marker (kind : BodyKind)

/-- `ObjectRead`, with the bytes that the buffer gets. -/
inductive ObjectRead where
  | data (bytes : Bytes)
  | end
  | abandoned
  deriving DecidableEq

/-- `FrameReader`. -/
structure FrameReader where
  inner : Source UInt8
  limit : UInt32
  state : ReadState

namespace FrameReader

/-- `FrameReader::new`. -/
def new (inner : Source UInt8) : FrameReader := ⟨inner, minFrameLimit, .frames⟩

/-- `set_limit`. -/
def setLimit (reader : FrameReader) (limit : UInt32) : FrameReader := { reader with limit := clampLimit limit }

/-- `read_message`. -/
def readMessage (reader : FrameReader) : Except Error (Option Message) × FrameReader :=
  match reader.state with
  | .body .. => (.error (.protocol "object data not read to its end"), reader)
  | .frames =>
    let (head, inner) := reader.inner.readUpTo 4
    if head.isEmpty then (.ok none, { reader with inner })
    else if head.length < 4 then (.error eof, { reader with inner })
    else
      let len := beNat head
      if len = 0 then (.error (.protocol "frame of length 0"), { reader with inner })
      else if reader.limit.toNat < len then
        (.error (limitExceeded "frame" len reader.limit.toNat), { reader with inner })
      else
        let (kind, inner) := inner.readUpTo 1
        match kind.head? with
        | none => (.error eof, { reader with inner })
        | some byte =>
          match Kind.fromU8 byte with
          | .error fault => (.error fault, { reader with inner })
          | .ok kind =>
            let (body, inner) := inner.readUpTo (len - 1)
            if body.length < len - 1 then (.error eof, { reader with inner })
            else
              match Message.decode kind body with
              | .error fault => (.error fault, { reader with inner })
              | .ok message =>
                match BodyKind.after message with
                | some kind => (.ok (some message), { reader with inner, state := .start kind })
                | none => (.ok (some message), { reader with inner })

/-- The loop of `poll_step` that reads the chunk length; each round reads one byte or more. -/
def pollLength : (fuel : Nat) → Bytes → Source UInt8 → Poll (Except Error Unit) × Bytes × Source UInt8
  | 0, got, inner => (.ready (.ok ()), got, inner)
  | fuel + 1, got, inner =>
    if got.length < 4 then
      match inner.pollRead (4 - got.length) with
      | (.pending, inner) => (.pending, got, inner)
      | (.ready bytes, inner) =>
        if bytes.isEmpty then (.ready (.error eof), got, inner) else pollLength fuel (got ++ bytes) inner
    else (.ready (.ok ()), got, inner)

/-- The end of `poll_step`: a read of the chunk, of which `remaining` bytes are not read. -/
def pollData (reader : FrameReader) (kind : BodyKind) (remaining room : Nat) : Poll (Except Error Step) × FrameReader :=
  match reader.inner.pollRead (min room remaining) with
  | (.pending, inner) => (.pending, { reader with inner, state := .body kind remaining [] })
  | (.ready bytes, inner) =>
    if bytes.isEmpty then (.ready (.error eof), { reader with inner, state := .body kind remaining [] })
    else (.ready (.ok (.data bytes)), { reader with inner, state := .body kind (remaining - bytes.length) [] })

/-- `poll_step`, into a buffer of `room` bytes. -/
def pollStep (reader : FrameReader) (room : Nat) : Poll (Except Error Step) × FrameReader :=
  match reader.state with
  | .frames => (.ready (.error (.protocol "no object to read")), reader)
  | .body kind remaining got =>
    if room = 0 then (.ready (.ok (.data [])), reader)
    else if remaining = 0 then
      match pollLength 4 got reader.inner with
      | (.pending, got, inner) => (.pending, { reader with inner, state := .body kind 0 got })
      | (.ready (.error fault), got, inner) =>
        (.ready (.error fault), { reader with inner, state := .body kind 0 got })
      | (.ready (.ok ()), got, inner) =>
        let len := beNat got
        if len = 0 then (.ready (.ok .end), { reader with inner, state := .frames })
        else if len = abandon.toNat then (.ready (.ok (.marker kind)), { reader with inner, state := .frames })
        else if reader.limit.toNat < len then
          (.ready (.error (limitExceeded "chunk" len reader.limit.toNat)),
            { reader with inner, state := .body kind 0 [] })
        else pollData { reader with inner } kind len room
    else pollData reader kind remaining room

/-- `read_after_marker`. -/
def readAfterMarker (reader : FrameReader) (kind : BodyKind) : Except Error Unit × FrameReader :=
  match kind, reader.readMessage with
  | _, (.error fault, reader) => (.error fault, reader)
  | .object, (.ok (some .abort), reader) => (.ok (), reader)
  | .pull, (.ok (some (.error error)), reader) => (.error (.ofMessage error), reader)
  | _, (.ok (some other), reader) =>
    (.error (.protocol (other.kind.debug ++ " after the abandon marker")), { reader with state := .frames })
  | _, (.ok none, reader) => (.error eof, reader)

/-- The number of polls after which a future of the reader is ready. -/
def patience (reader : FrameReader) : Nat := reader.inner.polls.length + 1

/-- `read_object_data`, into a buffer of `room` bytes. -/
def readObjectData (reader : FrameReader) (room : Nat) : Option (Except Error ObjectRead × FrameReader) :=
  (await (fun reader => reader.pollStep room) reader.patience reader).map fun (step, reader) =>
    match step with
    | .error fault => (.error fault, reader)
    | .ok (.data bytes) => (.ok (.data bytes), reader)
    | .ok .end => (.ok .end, reader)
    | .ok (.marker kind) =>
      let (outcome, reader) := reader.readAfterMarker kind
      (outcome.map fun _ => .abandoned, reader)

end FrameReader

/-! ### The body as a reader of its own -/

/-- `BodyState`. -/
inductive BodyState where
  | reading
  | finished
  | abandoned (kind : BodyKind)
  | failed (kind : IoKind)
  deriving DecidableEq

/-- `io::Error`, with its kind and its text. -/
structure IoError where
  kind : IoKind
  text : String
  deriving DecidableEq

/-- The `io::Error` of a reader's error. -/
def Error.toIo : Error → IoError
  | .io kind => ⟨kind, (Error.io kind).display⟩
  | other => ⟨.other, other.display⟩

/-- `ObjectBody`. -/
structure ObjectBody where
  reader : FrameReader
  state : BodyState
  error : Option Error

/-- `object_body`. -/
def FrameReader.objectBody (reader : FrameReader) : ObjectBody := ⟨reader, .reading, none⟩

namespace ObjectBody

/-- `take_error`. -/
def takeError (body : ObjectBody) : Option Error × ObjectBody :=
  (body.error, { body with error := none })

/-- The loop of `poll_read`: it fills the buffer of `room` bytes across chunks; each round adds a
byte or is the last. -/
def fill : (fuel : Nat) → ObjectBody → (room : Nat) → (filled : Bytes) → Poll (Except IoError Bytes) × ObjectBody
  | 0, body, _, filled => (.ready (.ok filled), body)
  | fuel + 1, body, room, filled =>
    match body.reader.pollStep (room - filled.length) with
    | (.pending, reader) =>
      if filled.isEmpty then (.pending, { body with reader }) else (.ready (.ok filled), { body with reader })
    | (.ready (.ok (.data bytes)), reader) =>
      if (filled ++ bytes).length = room then (.ready (.ok (filled ++ bytes)), { body with reader })
      else fill fuel { body with reader } room (filled ++ bytes)
    | (.ready (.ok .end), reader) => (.ready (.ok filled), { body with reader, state := .finished })
    | (.ready (.ok (.marker kind)), reader) =>
      (.ready (if filled.isEmpty then .error ⟨.other, "object abandoned"⟩ else .ok filled),
        { body with reader, state := .abandoned kind })
    | (.ready (.error fault), reader) =>
      (.ready (if filled.isEmpty then .error fault.toIo else .ok filled),
        { reader, state := .failed fault.toIo.kind, error := some fault })

/-- `poll_read`, into a buffer of `room` bytes. -/
def pollRead (body : ObjectBody) (room : Nat) : Poll (Except IoError Bytes) × ObjectBody :=
  match body.state with
  | .finished => (.ready (.ok []), body)
  | .abandoned _ => (.ready (.error ⟨.other, "object abandoned"⟩), body)
  | .failed kind => (.ready (.error ⟨kind, "object stream failed"⟩), body)
  | .reading => if room = 0 then (.ready (.ok []), body) else fill room body room []

/-- One awaited read of the body. -/
def read (body : ObjectBody) (room : Nat) : Option (Except IoError Bytes × ObjectBody) :=
  await (fun body => body.pollRead room) body.reader.patience body

/-- `finish_abandon`. -/
def finishAbandon (body : ObjectBody) : Except Error Unit × FrameReader :=
  match body.state with
  | .abandoned kind => body.reader.readAfterMarker kind
  | _ => (.error (.protocol "the object was not abandoned"), body.reader)

end ObjectBody

/-! ### The writer -/

/-- `FrameWriter`, with what it has written. -/
structure FrameWriter where
  inner : Bytes
  limit : UInt32
  body : Option BodyKind

/-- `<[u8]>::chunks`, from at most `fuel` chunks. -/
def chunksFrom (size : Nat) : (fuel : Nat) → Bytes → List Bytes
  | 0, _ => []
  | fuel + 1, data => if data.isEmpty then [] else data.take size :: chunksFrom size fuel (data.drop size)

/-- `<[u8]>::chunks`. -/
def chunks (size : Nat) (data : Bytes) : List Bytes := chunksFrom size data.length data

/-- One chunk on the stream: its length and its bytes. -/
def chunkBytes (data : Bytes) : Bytes := beBytes 4 data.length ++ data

namespace FrameWriter

/-- `FrameWriter::new`. -/
def new : FrameWriter := ⟨[], minFrameLimit, none⟩

/-- `set_limit`. -/
def setLimit (writer : FrameWriter) (limit : UInt32) : FrameWriter := { writer with limit := clampLimit limit }

/-- The frame that `write_message` writes. -/
def messageFrame (writer : FrameWriter) : Message → Except Error Bytes
  | .objectHeader header => objectHeaderFrame header
  | .getReply reply => getReplyFrame reply
  | message => encodeFrame message writer.limit

/-- `write_message`. -/
def writeMessage (writer : FrameWriter) (message : Message) : Except Error FrameWriter := do
  if writer.body.isSome then .error (.protocol "message inside an object")
  else
    let frame ← writer.messageFrame message
    .ok { writer with inner := writer.inner ++ frame, body := BodyKind.after message }

/-- `write_object_data`. -/
def writeObjectData (writer : FrameWriter) (data : Bytes) : Except Error FrameWriter :=
  if writer.body.isNone then .error (.protocol "object data outside an object")
  else .ok { writer with inner := writer.inner ++ (chunks writer.limit.toNat data).flatMap chunkBytes }

/-- `end_object`. -/
def endObject (writer : FrameWriter) : Except Error FrameWriter :=
  if writer.body.isNone then .error (.protocol "no object to end")
  else .ok { writer with inner := writer.inner ++ beBytes 4 0, body := none }

/-- `abandon_object`. -/
def abandonObject (writer : FrameWriter) : Except Error FrameWriter :=
  if writer.body ≠ some .object then .error (.protocol "no object to abandon")
  else
    FrameWriter.writeMessage { writer with inner := writer.inner ++ beBytes 4 abandon.toNat, body := none } .abort

/-- `abandon_body`. -/
def abandonBody (writer : FrameWriter) (error : ErrorMessage) : Except Error FrameWriter := do
  if writer.body ≠ some .pull then .error (.protocol "no pull body to abandon")
  else
    let frame ← encodeFrame (.error error) writer.limit
    .ok { writer with inner := writer.inner ++ beBytes 4 abandon.toNat ++ frame, body := none }

end FrameWriter

end Ostrya.Remote
