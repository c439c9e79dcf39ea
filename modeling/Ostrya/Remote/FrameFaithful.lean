/-
**The framed stream is faithful.**

Each successful call of a writer puts the parts of what it says on the stream (`Call.carries`), so the future of the
stream is what the calls said. A caller on the other side sees it, whatever the pieces in which the stream arrives and
the buffers that it reads with. On a stream of any origin, a message that a caller sees is a frame between bodies and a
byte of a body stands in a chunk (`framed_stream_faithful`).
-/

import Ostrya.Remote.FrameSession

namespace Ostrya.Remote

open ByteFormat Gvariant Ostrya.Core Repo Async

/-! ### The calls of a writer -/

/-- A call of a writer. -/
inductive Call where
  | message (sent : Message)
  | data (bytes : Bytes)
  | endObject
  | abandonObject
  | abandonBody (error : ErrorMessage)

namespace Call

def run (writer : FrameWriter) : Call → Except Error FrameWriter
  | message sent => writer.writeMessage sent
  | data bytes => writer.writeObjectData bytes
  | endObject => writer.endObject
  | abandonObject => writer.abandonObject
  | abandonBody error => writer.abandonBody error

/-- What a call says. -/
def atoms : Call → List Atom
  | message sent => [.message sent]
  | data bytes => bytes.map .byte
  | endObject => [.ended]
  | abandonObject => [.abandoned]
  | abandonBody error => [.failed (.ofMessage error)]

end Call

/-- Calls one after the other, as long as they succeed. -/
def writeAll (calls : List Call) (writer : FrameWriter) : Except Error FrameWriter := calls.foldlM Call.run writer

/-- A frame that `encode_frame` gives holds a body that decodes to the message. -/
theorem encodeFrame_eq_ok (run : encodeFrame message limit = .ok frame) :
    ∃ body, frame = frameBytes message.kind body ∧ Message.decode message.kind body = .ok message ∧
      body.length + 1 ≤ limit.toNat := by
  unfold encodeFrame at run
  cases written : message.encodeBody with
  | error fault => simp [written] at run
  | ok body =>
    grind [ok_bind, frameBytes, Addressable, usizeMax, decode_of_encodeBody]

variable {writer : FrameWriter}

theorem messageFrame_eq (low : minFrameLimit ≤ writer.limit) (message : Message) :
    writer.messageFrame message = encodeFrame message writer.limit := by
  unfold FrameWriter.messageFrame
  split
  · exact objectHeaderFrame_eq _ low
  · exact getReplyFrame_eq _ low
  · rfl

variable {limit : Nat}

theorem chunksFrom_carries (positive : 0 < size) (fits : size ≤ limit)
    (fuel : Nat) (data : Bytes) (enough : data.length ≤ fuel) :
    Carries limit (some kind) ((chunksFrom size fuel data).flatMap chunkBytes) (data.map .byte) (some kind) := by
  induction fuel generalizing data with
  | zero =>
    obtain rfl : data = [] := List.length_eq_zero_iff.mp (by omega)
    exact .nil
  | succ fuel ih =>
    rw [chunksFrom]
    split_ifs with empty
    · rw [List.isEmpty_iff.mp empty]
      exact .nil
    · have some_data := List.length_pos_of_ne_nil fun none => empty (List.isEmpty_iff.mpr none)
      have head : Part limit (some kind) (chunkBytes (data.take size)) ((data.take size).map .byte) (some kind) := by
        refine .chunk ?_ ?_
        · rw [← List.length_pos_iff, List.length_take]
          omega
        · rw [List.length_take]
          omega
      have tail := ih (data.drop size) (by rw [List.length_drop]; omega)
      have joined := Carries.cons head tail
      rw [← List.map_append, List.take_append_drop] at joined
      exact joined

/-- **A successful call puts what it says on the stream**, at the place where the writer stands. -/
theorem Call.carries {call : Call} (low : minFrameLimit ≤ writer.limit) (run : call.run writer = .ok after) :
    after.limit = writer.limit ∧ ∃ bytes, after.inner = writer.inner ++ bytes ∧
      Carries writer.limit.toNat writer.body bytes call.atoms after.body := by
  obtain ⟨inner, limit, body⟩ := writer
  cases call with
  | message message =>
    simp only [Call.run, FrameWriter.writeMessage, messageFrame_eq low] at run
    cases body with
    | some kind => simp at run
    | none =>
      cases framed : encodeFrame message limit with
      | error fault => simp [framed] at run
      | ok frame =>
        obtain rfl : FrameWriter.mk (inner ++ frame) limit (BodyKind.after message) =
          after := by simpa [framed] using run
        obtain ⟨body, rfl, decoded, fits⟩ := encodeFrame_eq_ok framed
        exact ⟨rfl, _, rfl, .of_part (.frame decoded fits)⟩
  | data bytes =>
    simp only [Call.run, FrameWriter.writeObjectData] at run
    cases body with
    | none => simp at run
    | some kind =>
      obtain rfl : FrameWriter.mk (inner ++ (chunks limit.toNat bytes).flatMap chunkBytes)
          limit (some kind) = after := by
        simpa using run
      have positive : 0 < limit.toNat := by
        have bound := UInt32.le_iff_toNat_le.mp low
        exact lt_of_lt_of_le (by decide) bound
      exact ⟨rfl, _, rfl, chunksFrom_carries positive le_rfl _ bytes le_rfl⟩
  | endObject =>
    simp only [Call.run, FrameWriter.endObject] at run
    cases body with
    | none => simp at run
    | some kind =>
      obtain rfl : FrameWriter.mk (inner ++ beBytes 4 0) limit none = after := by simpa using run
      exact ⟨rfl, _, rfl, .of_part .stop⟩
  | abandonObject =>
    simp only [Call.run, FrameWriter.abandonObject] at run
    split_ifs at run with inside
    obtain rfl : body = some .object := by simpa using inside
    simp only [FrameWriter.writeMessage, FrameWriter.messageFrame] at run
    cases framed : encodeFrame .abort limit with
    | error fault => simp [framed] at run
    | ok frame =>
      obtain rfl : FrameWriter.mk (inner ++ beBytes 4 abandon.toNat ++ frame) limit none = after := by
        simpa [framed, BodyKind.after] using run
      obtain ⟨body, rfl, decoded, fits⟩ := encodeFrame_eq_ok framed
      exact ⟨rfl, _, List.append_assoc .., .of_part (.marker decoded fits rfl)⟩
  | abandonBody error =>
    simp only [Call.run, FrameWriter.abandonBody] at run
    split_ifs at run with inside
    obtain rfl : body = some .pull := by simpa using inside
    cases framed : encodeFrame (.error error) limit with
    | error fault => simp [framed] at run
    | ok frame =>
      obtain rfl : FrameWriter.mk (inner ++ beBytes 4 abandon.toNat ++ frame) limit none = after := by
        simpa [framed] using run
      obtain ⟨body, rfl, decoded, fits⟩ := encodeFrame_eq_ok framed
      exact ⟨rfl, _, List.append_assoc .., .of_part (.marker decoded fits rfl)⟩

/-- Calls one after the other put what they say on the stream, one after the other. -/
theorem writeAll_carries {calls : List Call} (low : minFrameLimit ≤ writer.limit)
    (run : writeAll calls writer = .ok after) :
    ∃ bytes, after.inner = writer.inner ++ bytes ∧
      Carries writer.limit.toNat writer.body bytes (calls.flatMap Call.atoms) after.body := by
  induction calls generalizing writer with
  | nil =>
    obtain rfl : writer = after := by simpa [writeAll, pure, Except.pure] using run
    exact ⟨[], by simp, .nil⟩
  | cons call calls ih =>
    rw [writeAll, List.foldlM_cons] at run
    cases first : call.run writer with
    | error fault => simp [first, bind, Except.bind] at run
    | ok next =>
      obtain ⟨limit, bytes, written, here⟩ := Call.carries low first
      rw [first, ok_bind] at run
      obtain ⟨more, rest, there⟩ := ih (by rw [limit]; exact low) run
      rw [limit] at there
      exact ⟨bytes ++ more, by rw [rest, written, List.append_assoc], here.append there⟩

/-! ### The parts of a stream are its own -/

variable {second : Option BodyKind} {bytes : Bytes} {atoms : List Atom}

theorem Part.bytes_ne_nil (part : Part limit first bytes atoms second) : bytes ≠ [] := by
  cases part with
  | frame => simp [frameBytes]
  | @chunk kind data nonempty => simp [chunkBytes, nonempty]
  | stop => decide
  | marker => simp [frameBytes]

/-- What a caller sees of the part at the start of a stream, what follows it and where it stands. -/
def nextPart (limit : Nat) (place : Option BodyKind) (bytes : Bytes) : Option (List Atom × Bytes × Option BodyKind) :=
  match place with
  | none =>
    match nextFrame limit bytes with
    | .ok (some (message, rest)) => some ([.message message], rest, BodyKind.after message)
    | _ => none
  | some kind =>
    match nextChunk limit 0 bytes with
    | .data left more => some ((more.take left).map .byte, more.drop left, some kind)
    | .stop rest => some ([.ended], rest, none)
    | .marker rest =>
      match nextFrame limit rest with
      | .ok (some (message, rest)) => (abandonAtom kind message).map fun atom => ([atom], rest, none)
      | _ => none
    | .broken _ => none

theorem nextPart_part (small : limit < abandon.toNat) (part : Part limit first bytes atoms second)
    (rest : Bytes) : nextPart limit first (bytes ++ rest) = some (atoms, rest, second) := by
  have word : abandon.toNat < 2 ^ 32 := abandon.toNat_lt
  cases part with
  | frame decoded fits => simp only [nextPart, nextFrame_frameBytes rest (small.trans word) decoded fits]
  | @chunk kind data nonempty fits =>
    grind [List.length_pos_of_ne_nil, nextChunk, chunkBytes, List.append_assoc, nextChunk_length, nextPart]
  | stop => simp [nextPart, nextChunk_length]
  | marker decoded fits outcome =>
    have marked : abandon.toNat ≠ 0 := by decide
    simp [nextPart, nextChunk_length _ word, marked, nextFrame_frameBytes rest (small.trans word) decoded fits, outcome]

/-- **The parts of a stream are its own**: parts of a longer piece of it start with the parts of a
shorter one. -/
theorem Carries.split (small : limit < abandon.toNat) (parts : Carries limit place bytes atoms second)
    (longer : Carries limit place (bytes ++ rest) more third) :
    ∃ later, more = atoms ++ later ∧ Carries limit second rest later third := by
  induction parts generalizing more with
  | nil => exact ⟨more, rfl, longer⟩
  | @cons _ _ _ head tail _ _ part _ ih =>
    generalize joined : head ++ tail ++ rest = whole at longer
    rw [List.append_assoc] at joined
    cases longer with
    | nil => exact absurd (List.append_eq_nil_iff.mp joined).1 part.bytes_ne_nil
    | cons other others =>
      have found := nextPart_part small part (tail ++ rest)
      rw [joined, nextPart_part small other] at found
      obtain ⟨rfl, rfl, rfl⟩ : _ ∧ _ ∧ _ := by simpa using found
      obtain ⟨later, rfl, continued⟩ := ih others
      exact ⟨later, by rw [List.append_assoc], continued⟩

/-! ### The framed stream -/

theorem reader_limit_lt (limit : UInt32) : (clampLimit limit).toNat < abandon.toNat :=
  lt_of_le_of_lt (UInt32.le_iff_toNat_le.mp (clampLimit_le_maxFrameLimit limit)) (by decide)

/-- **The framed stream is faithful.** A caller of a reader sees what the successful calls of a
writer said, and with enough reads all of it and then the end, whatever the pieces in which the
bytes arrive and the buffers that it reads with. On any stream, a caller sees the parts of the
stream in their order, frames as messages and chunks as bytes of bodies, up to the first error; a
call out of turn fails and changes nothing; and the parts of a stream are its own. -/
theorem framed_stream_faithful :
    (∀ calls limit writer, writeAll calls (FrameWriter.new.setLimit limit) = .ok writer →
      ∀ polls readLimit choices, clampLimit limit ≤ clampLimit readLimit →
        (drive choices ((FrameReader.new ⟨writer.inner, polls⟩).setLimit readLimit)).1 <+: calls.flatMap Call.atoms ∧
        ((calls.flatMap Call.atoms).length < choices.countP Choice.useful →
          drive choices ((FrameReader.new ⟨writer.inner, polls⟩).setLimit readLimit) =
            (calls.flatMap Call.atoms, if writer.body.isSome then .broken eof else .eof))) ∧
    (∀ stream polls limit choices, ∃ whole rest atoms place torn, stream = whole ++ rest ∧
      Carries (clampLimit limit).toNat none whole atoms place ∧ Torn (clampLimit limit).toNat place rest torn ∧
      (drive choices ((FrameReader.new ⟨stream, polls⟩).setLimit limit)).1 <+: atoms ++ torn) ∧
    (∀ limit place bytes rest atoms more second third, Carries (clampLimit limit).toNat place bytes atoms second →
      Carries (clampLimit limit).toNat place (bytes ++ rest) more third →
      ∃ later, more = atoms ++ later ∧ Carries (clampLimit limit).toNat second rest later third) ∧
    (∀ reader : FrameReader, reader.state ≠ .frames →
      reader.readMessage = (.error (.protocol "object data not read to its end"), reader)) ∧
    (∀ (reader : FrameReader) room, reader.state = .frames →
      reader.readObjectData room = some (.error (.protocol "no object to read"), reader)) := by
  refine ⟨?_, ?_, ?_, ?_, ?_⟩
  · intro calls limit writer run polls readLimit choices wide
    obtain ⟨bytes, written, parts⟩ := writeAll_carries (minFrameLimit_le_clampLimit limit) run
    obtain rfl : writer.inner = bytes := by simpa [FrameWriter.setLimit, FrameWriter.new] using written
    have carried := parts.mono (UInt32.le_iff_toNat_le.mp wide)
    have whole := future_carries (reader_limit_lt readLimit) carried []
    have ahead : ((FrameReader.new ⟨writer.inner, polls⟩).setLimit readLimit).ahead =
        (calls.flatMap Call.atoms, if writer.body.isSome then .broken eof else .eof) := by
      rw [List.append_nil] at whole
      refine whole.trans ?_
      cases writer.body with
      | none => rw [View.at_none, future_frames, nextFrame_nil, before, List.append_nil]; rfl
      | some kind => rw [View.at_some, future_body, before]; simp [nextChunk, chunkFuture]
    have seen := drive_spec choices
      (show ((FrameReader.new ⟨writer.inner, polls⟩).setLimit readLimit).Valid from trivial)
    rw [ahead] at seen
    refine ⟨seen.1, fun enough => (seen.2 enough).trans ?_⟩
    cases writer.body <;> rfl
  · intro stream polls limit choices
    obtain ⟨whole, rest, atoms, place, torn, split, parts, cut, same⟩ :=
      future_parts (reader_limit_lt limit) stream.length none stream le_rfl
    refine ⟨whole, rest, atoms, place, torn, split, parts, cut, ?_⟩
    have seen := drive_spec choices (show ((FrameReader.new ⟨stream, polls⟩).setLimit limit).Valid from trivial)
    rw [← same]
    exact seen.1
  · intro limit place bytes rest atoms more second third parts longer
    exact parts.split (reader_limit_lt limit) longer
  · intro reader inside
    unfold FrameReader.readMessage
    split
    · rfl
    · next frames => exact absurd frames inside
  · intro reader room frames
    simp [FrameReader.readObjectData, FrameReader.patience, await, FrameReader.pollStep, frames]

namespace Sample

/-- The header of a commit object. -/
def header : ObjectHeader := ⟨⟨.filled 1, .commit⟩, .raw⟩

/-- An object in two pieces, and an object that is abandoned. -/
def calls : List Call :=
  [.message (.objectHeader header), .data [1, 2], .data [3], .endObject,
    .message (.objectHeader header), .data [4], .abandonObject]

/-- The stream of an object with a chunk of 2 MiB whose bytes start with four zeros and an `Abort`
frame. -/
def oversized : Bytes :=
  frameBytes .objectHeader ([typeByte header.name.ty] ++ header.name.checksum.bytes ++ [header.encoding.asU8, 33]) ++
    beBytes 4 0x200000 ++ (beBytes 4 0 ++ frameBytes .abort [0])

end Sample

theorem framed_stream_faithful_sample : ∃ writer, writeAll Sample.calls (FrameWriter.new.setLimit 0) = .ok writer ∧
    drive [.direct 1, .direct 2, .adapter [0, 1], .direct 5, .direct 5, .adapter [9, 9], .direct 1,
      .direct 1, .direct 1,
        .direct 1]
      ((FrameReader.new ⟨writer.inner, [none, some 0, some 2, none, none, some 7]⟩).setLimit 0) =
      (Sample.calls.flatMap Call.atoms, .eof) := by
  have finished : ((writeAll Sample.calls (FrameWriter.new.setLimit 0)).toOption.map fun writer => writer.body) =
      some none := by decide +kernel
  cases run : writeAll Sample.calls (FrameWriter.new.setLimit 0) with
  | error fault => simp [run, Except.toOption] at finished
  | ok writer =>
    have closed : writer.body = none := by simpa [run, Except.toOption] using finished
    have whole := (framed_stream_faithful.1 Sample.calls 0 writer run [none, some 0, some 2, none, none, some 7] 0
      [.direct 1, .direct 2, .adapter [0, 1], .direct 5, .direct 5, .adapter [9, 9], .direct 1,
        .direct 1, .direct 1, .direct 1] (UInt32.le_refl _)).2 (by decide)
    rw [closed] at whole
    exact ⟨writer, rfl, whole⟩

/-- A caller that goes on after the error of a chunk over the limit reads bytes of the chunk as the
end of the body and as a message. -/
theorem body_bytes_read_as_message :
    (FrameReader.new ⟨Sample.oversized, []⟩).readMessage.1.toOption = some (some (.objectHeader Sample.header)) ∧
      (((FrameReader.new ⟨Sample.oversized, []⟩).readMessage.2.readObjectData 16).map fun first =>
        (match first.1 with | .error fault => some fault | .ok _ => none, (first.2.readObjectData 16).map fun second =>
          (second.1.toOption, second.2.readMessage.1.toOption))) =
        some (some (limitExceeded "chunk" 0x200000 0x100000), some (some .end, some (some .abort))) := by
  decide +kernel

end Ostrya.Remote
