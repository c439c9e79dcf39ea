/-
**Frames** (`encode_frame` of `proto/frame.rs`, and the two frames of `proto/message.rs` that are built with no
allocation).

A frame is the length of what follows it, big-endian in four bytes, the kind byte and the body. The frames of an
`ObjectHeader` and of a `GetReply` are written into an array of fixed size: `objectHeaderFrame_eq` and
`getReplyFrame_eq` say that they are the frames that `encode_frame` gives, errors included.
-/

import Ostrya.Remote.MessageNormal

namespace Ostrya.Remote

open ByteFormat Gvariant Ostrya.Core Repo

/-- `clamp_limit`. -/
def clampLimit (limit : UInt32) : UInt32 :=
  if limit < minFrameLimit then minFrameLimit else if maxFrameLimit < limit then maxFrameLimit else limit

theorem minFrameLimit_le_clampLimit (limit : UInt32) : minFrameLimit ≤ clampLimit limit := by
  unfold clampLimit
  split_ifs with small large
  · exact UInt32.le_refl _
  · decide
  · exact UInt32.not_lt.mp small

theorem clampLimit_le_maxFrameLimit (limit : UInt32) : clampLimit limit ≤ maxFrameLimit := by
  unfold clampLimit
  split_ifs with small large
  · decide
  · exact UInt32.le_refl _
  · exact UInt32.not_lt.mp large

/-- The frame of a kind and a body. -/
def frameBytes (kind : Kind) (body : Bytes) : Bytes := beBytes 4 (body.length + 1) ++ kind.asU8 :: body

/-- `encode_frame`. -/
def encodeFrame (message : Message) (limit : UInt32) : Except Error Bytes := do
  let body ← message.encodeBody
  if body.length + 1 < 2 ^ 32 ∧ body.length + 1 ≤ limit.toNat then .ok (frameBytes message.kind body)
  else
    .error (.limitExceeded ("frame of " ++ toString (body.length + 1) ++ " bytes is over the limit " ++
      toString limit.toNat))

/-- `object_header_frame`. -/
def objectHeaderFrame (header : ObjectHeader) : Except Error Bytes := do
  checkHeader header.name header.encoding
  .ok (beBytes 4 (40 - 4) ++ [Kind.objectHeader.asU8, typeByte header.name.ty] ++ header.name.checksum.bytes ++
    [header.encoding.asU8, 33])

/-- `get_reply_frame`, the bytes in use. -/
def getReplyFrame (reply : GetReply) : Except Error Bytes := do
  checkGetReply reply
  let frame := fun used => beBytes 4 (used - 4) ++ [Kind.getReply.asU8, boolByte reply.found] ++ zeros 7
  match reply.len with
  | some len => .ok (frame 21 ++ leBytes 8 len.toNat)
  | none => .ok (frame 13)

/-! ### The frames with no allocation -/

/-- The body of an `ObjectHeader`: one framing offset, the end of the checksum. -/
theorem toBytes_objectHeader (header : ObjectHeader) :
    toBytes (.tuple [.byte, .array .byte, .byte]) header.value =
      .ok ([typeByte header.name.ty] ++ header.name.checksum.bytes ++ [header.encoding.asU8, 33]) := by
  have parts : encode (maxValueDepth + 1) (.tuple [.byte, .array .byte, .byte]) header.value
      = .ok (tupleBytes [(1, some 1), (1, none), (1, some 1)] none
        [[typeByte header.name.ty], header.name.checksum.bytes, [header.encoding.asU8]]) := rfl
  rw [toBytes_eq_encode, parts]
  simp [tupleBytes, memberParts, area, tupleOffsets, header.name.checksum.length, alignUp, chooseOffsetSize, zeros]
  rfl

/-- The body of a `GetReply`: no framing offset, and padding up to the length. -/
theorem toBytes_getReply (reply : GetReply) :
    toBytes (.tuple [.bool, .maybe .u64]) reply.value =
      .ok ([boolByte reply.found] ++ zeros 7 ++ (reply.len.elim [] fun len => leBytes 8 len.toNat)) := by
  obtain ⟨found, _ | len⟩ := reply
  · have parts : encode (maxValueDepth + 1) (.tuple [.bool, .maybe .u64]) (GetReply.value ⟨found, none⟩)
        = .ok (tupleBytes [(1, some 1), (8, none)] none [[boolByte found], []]) := rfl
    rw [toBytes_eq_encode, parts]
    simp [tupleBytes, memberParts, area, tupleOffsets, alignUp, chooseOffsetSize, zeros]
  · have parts : encode (maxValueDepth + 1) (.tuple [.bool, .maybe .u64]) (GetReply.value ⟨found, some len⟩)
        = .ok (tupleBytes [(1, some 1), (8, none)] none [[boolByte found], leBytes 8 len.toNat]) := rfl
    rw [toBytes_eq_encode, parts]
    simp [tupleBytes, memberParts, area, tupleOffsets, alignUp, chooseOffsetSize, zeros]

variable {limit : UInt32}

theorem encodeFrame_of_body (written : message.encodeBody = .ok body)
    (fits : body.length + 1 ≤ limit.toNat) : encodeFrame message limit = .ok (frameBytes message.kind body) := by
  rw [encodeFrame, written, ok_bind, if_pos ⟨lt_of_le_of_lt fits limit.toNat_lt, fits⟩]

theorem small_le_limit (low : minFrameLimit ≤ limit) (small : n ≤ 2 ^ 20) :
    n ≤ limit.toNat := small.trans (UInt32.le_iff_toNat_le.mp low)

/-- **The frame of an `ObjectHeader` is the one that `encode_frame` gives**, at every limit of a
writer. -/
theorem objectHeaderFrame_eq (header : ObjectHeader) (low : minFrameLimit ≤ limit) :
    objectHeaderFrame header = encodeFrame (.objectHeader header) limit := by
  rw [objectHeaderFrame]
  cases checked : checkHeader header.name header.encoding with
  | error fault => simp [encodeFrame, Message.encodeBody, checked]
  | ok _ =>
    have written : (Message.objectHeader header).encodeBody =
        .ok ([typeByte header.name.ty] ++ header.name.checksum.bytes ++ [header.encoding.asU8, 33]) := by
      simp [Message.encodeBody, checked, encodeValue, toBytes_objectHeader, Except.mapError]
    rw [encodeFrame_of_body written (small_le_limit low (by simp [header.name.checksum.length])), frameBytes]
    simp [header.name.checksum.length, Message.kind]

/-- **The frame of a `GetReply` is the one that `encode_frame` gives**, at every limit of a
writer. -/
theorem getReplyFrame_eq (reply : GetReply) (low : minFrameLimit ≤ limit) :
    getReplyFrame reply = encodeFrame (.getReply reply) limit := by
  rw [getReplyFrame]
  cases checked : checkGetReply reply with
  | error fault => simp [encodeFrame, Message.encodeBody, checked]
  | ok _ =>
    have written : (Message.getReply reply).encodeBody =
        .ok ([boolByte reply.found] ++ zeros 7 ++ (reply.len.elim [] fun len => leBytes 8 len.toNat)) := by
      simp [Message.encodeBody, checked, encodeValue, toBytes_getReply, Except.mapError]
    obtain ⟨found, _ | len⟩ := reply
    · rw [encodeFrame_of_body written (small_le_limit low (by simp [zeros]))]
      simp [frameBytes, zeros, Message.kind]
    · rw [encodeFrame_of_body written (small_le_limit low (by simp [zeros]))]
      simp [frameBytes, zeros, Message.kind]

/-! ### The codec of the messages -/

/-- **The codec of the messages.** A body decodes to the message that it was encoded from; a body
that decodes is the normal form of a value of the type of its kind, and the metadata of a server
commit has its bytes and its order; the frames that are built with no allocation are the ones of
`encode_frame`. -/
theorem message_codec :
    (∀ message body, message.encodeBody = .ok body → Addressable body →
      Message.decode message.kind body = .ok message) ∧
    (∀ kind body message, Message.decode kind body = .ok message → message.kind = kind ∧ NormalBody body message) ∧
    (∀ header limit, minFrameLimit ≤ limit → objectHeaderFrame header = encodeFrame (.objectHeader header) limit) ∧
    (∀ reply limit, minFrameLimit ≤ limit → getReplyFrame reply = encodeFrame (.getReply reply) limit) :=
  ⟨fun _ _ => decode_of_encodeBody, fun _ _ _ => decode_normal,
    fun header _ => objectHeaderFrame_eq header, fun reply _ => getReplyFrame_eq reply⟩

namespace Sample

/-- A `Commit` with one update and a server commit that has one metadata entry. -/
def request : CommitRequest where
  updates := [⟨"main", .commit (.filled 1), some (.filled 2)⟩]
  force := true
  serverCommit := some
    { branch := "main", tags := ["v1"], bindRefs := [], rootDirtree := .filled 3, rootDirmeta := .filled 4,
      subject := "s", body := "", metadata := [("k", [7, 0, 121])], timestamp := some 9, orphan := true }

end Sample

theorem message_codec_sample : ∃ body, (Message.commit Sample.request).encodeBody = .ok body ∧
    Message.decode .commit body = .ok (.commit Sample.request) := by
  have size : ((Message.commit Sample.request).encodeBody.toOption.map fun body =>
      decide (body.length ≤ 1024)) = some true := by
    decide +kernel
  cases written : (Message.commit Sample.request).encodeBody with
  | error fault => simp [written, Except.toOption] at size
  | ok body =>
    have small : body.length ≤ 1024 := by simpa [written, Except.toOption] using size
    exact ⟨body, rfl, message_codec.1 _ body written (small.trans (by decide))⟩

end Ostrya.Remote
