/-
**The reader sees the future of its stream**, however the stream arrives.

Each step of a reader is stated against `future`, the reading of its stream as a whole: what the step returns is what
comes next, and the reader after it has the rest of the future. A pending step leaves the future as it is, also in the
middle of a chunk length.
-/

import Ostrya.Remote.FrameFuture

namespace Ostrya.Remote

open ByteFormat Gvariant Ostrya.Core Repo Async

/-- The result that an abandon outcome has for a caller. -/
def Atom.outcome : Atom → Except Error Unit
  | .failed error => .error error
  | _ => .ok ()

namespace FrameReader

/-- Of a chunk length that is read in part at most three bytes are there, and it stands between two
chunks. -/
def Valid (reader : FrameReader) : Prop :=
  match reader.state with
  | .frames => True
  | .body _ remaining got => got.length < 4 ∧ (remaining ≠ 0 → got = [])

/-- The place of a reader; the bytes of a chunk length that are read in part are still to come. -/
def view (reader : FrameReader) : View :=
  match reader.state with
  | .frames => .frames reader.inner.items
  | .body kind remaining got => .body kind remaining (got ++ reader.inner.items)

/-- What a caller can see from here on. -/
def ahead (reader : FrameReader) : List Atom × Ending := future reader.limit.toNat reader.view

variable {reader : FrameReader}

theorem ahead_frames (frames : reader.state = .frames) :
    reader.ahead = future reader.limit.toNat (.frames reader.inner.items) := by
  simp only [ahead, view, frames]

variable {kind : BodyKind} {remaining : Nat}

theorem ahead_body (inside : reader.state = .body kind remaining got) :
    reader.ahead = chunkFuture reader.limit.toNat kind
      (nextChunk reader.limit.toNat remaining (got ++ reader.inner.items)) := by
  rw [ahead, view, inside, future_body]

/-! ### Messages -/

/-- One read takes the next frame of the stream. -/
theorem readMessage_spec (frames : reader.state = .frames) :
    match nextFrame reader.limit.toNat reader.inner.items with
    | .error fault => ∃ after, reader.readMessage = (.error fault, after)
    | .ok none => ∃ after, reader.readMessage = (.ok none, after)
    | .ok (some (message, rest)) => ∃ polls, reader.readMessage =
        (.ok (some message), ⟨⟨rest, polls⟩, reader.limit, (BodyKind.after message).elim .frames .start⟩) := by
  obtain ⟨⟨items, polls⟩, limit, state⟩ := reader
  obtain rfl : state = .frames := frames
  obtain ⟨first, headRead⟩ := Source.readUpTo_eq ⟨items, polls⟩ 4
  obtain ⟨second, kindRead⟩ := Source.readUpTo_eq ⟨items.drop 4, first⟩ 1
  obtain ⟨third, bodyRead⟩ := Source.readUpTo_eq ⟨(items.drop 4).drop 1, second⟩ (beNat (items.take 4) - 1)
  simp only [readMessage, nextFrame, headRead, kindRead, bodyRead]
  by_cases empty : (items.take 4).isEmpty
  · simp only [if_pos empty]
    exact ⟨_, rfl⟩
  by_cases short : (items.take 4).length < 4
  · simp only [if_neg empty, if_pos short]
    exact ⟨_, rfl⟩
  by_cases zero : beNat (items.take 4) = 0
  · simp only [if_neg empty, if_neg short, if_pos zero]
    exact ⟨_, rfl⟩
  by_cases tooLong : limit.toNat < beNat (items.take 4)
  · simp only [if_neg empty, if_neg short, if_neg zero, if_pos tooLong]
    exact ⟨_, rfl⟩
  simp only [if_neg empty, if_neg short, if_neg zero, if_neg tooLong, frameOf]
  cases ((items.drop 4).take 1).head? with
  | none => exact ⟨_, rfl⟩
  | some byte =>
    dsimp only
    cases Kind.fromU8 byte with
    | error fault => exact ⟨_, rfl⟩
    | ok kind =>
      dsimp only
      split_ifs with torn
      · exact ⟨_, rfl⟩
      · cases Message.decode kind (((items.drop 4).drop 1).take (beNat (items.take 4) - 1)) with
        | error fault => exact ⟨_, rfl⟩
        | ok message =>
          cases kept : BodyKind.after message with
          | none | some kind => exact ⟨third, by simp [kept]⟩

/-- The reader after a message stands at the next frame or at the start of the body. -/
theorem view_after (rest : Bytes) (polls : List (Option Nat)) (limit : UInt32) (place : Option BodyKind) :
    FrameReader.Valid ⟨⟨rest, polls⟩, limit, place.elim .frames .start⟩ ∧
      FrameReader.ahead ⟨⟨rest, polls⟩, limit, place.elim .frames .start⟩ = future limit.toNat (.at place rest) := by
  cases place with
  | none => exact ⟨trivial, rfl⟩
  | some kind => exact ⟨⟨by simp, fun _ => rfl⟩, rfl⟩

/-! ### Chunks -/

/-- The chunk length is read from the stream after the bytes of it that are there. -/
theorem pollLength_spec (fuel : Nat) (got : Bytes) (inner : Source UInt8)
    (enough : 4 ≤ fuel + got.length) (partly : got.length ≤ 4) :
    match pollLength fuel got inner with
    | (.pending, now, after) => now ++ after.items = got ++ inner.items ∧ now.length < 4 ∧
        after.polls.length < inner.polls.length
    | (.ready (.error fault), _, _) => fault = eof ∧ (got ++ inner.items).length < 4
    | (.ready (.ok ()), now, after) => now ++ after.items = got ++ inner.items ∧ now.length = 4 ∧
        after.polls.length ≤ inner.polls.length := by
  induction fuel generalizing got inner with
  | zero => exact ⟨rfl, by omega, le_rfl⟩
  | succ fuel ih =>
    rw [pollLength]
    split_ifs with short
    · cases polled : inner.pollRead (4 - got.length) with
      | mk result next =>
        cases result with
        | pending =>
          obtain ⟨same, fewer⟩ := Source.pollRead_pending polled
          exact ⟨by rw [same], short, fewer⟩
        | ready bytes =>
          obtain ⟨split, bounded, ended, fewer⟩ := Source.pollRead_ready polled
          dsimp only
          split_ifs with empty
          · have done := (ended (List.isEmpty_iff.mp empty)).resolve_left (by omega)
            exact ⟨rfl, by rw [done, List.append_nil]; exact short⟩
          · grind [List.length_pos_of_ne_nil, List.isEmpty_iff, List.length_append, List.append_assoc]
    · exact ⟨rfl, by omega, le_rfl⟩

/-- What one step of a body gives, against what comes next. -/
def StepSpec (reader : FrameReader) (kind : BodyKind) (room : Nat) : Poll (Except Error Step) × FrameReader → Prop
  | (.pending, after) => after.Valid ∧ after.limit = reader.limit ∧
      (∃ remaining got, after.state = .body kind remaining got) ∧
      after.ahead = reader.ahead ∧ after.inner.polls.length < reader.inner.polls.length
  | (.ready (.ok (.data bytes)), after) => after.Valid ∧ after.limit = reader.limit ∧
      (∃ remaining got, after.state = .body kind remaining got) ∧ bytes ≠ [] ∧ bytes.length ≤ room ∧
      reader.ahead = before (bytes.map .byte) after.ahead
  | (.ready (.ok .end), after) => after.limit = reader.limit ∧ after.state = .frames ∧
      reader.ahead = before [.ended] after.ahead
  | (.ready (.ok (.marker found)), after) => found = kind ∧ after.limit = reader.limit ∧
      after.state = .frames ∧ reader.ahead = markerFuture reader.limit.toNat kind after.inner.items
  | (.ready (.error fault), after) => after.limit = reader.limit ∧ reader.ahead = ([], .broken fault)

theorem pollData_spec
    (limit : reader.limit = start.limit) (fewer : reader.inner.polls.length ≤ start.inner.polls.length)
    (positive : 0 < remaining) (space : 0 < room)
    (next : start.ahead = chunkFuture start.limit.toNat kind (.data remaining reader.inner.items)) :
    StepSpec start kind room (reader.pollData kind remaining room) := by
  rw [pollData]
  cases polled : reader.inner.pollRead (min room remaining) with
  | mk result inner =>
    cases result with
    | pending =>
      obtain ⟨same, less⟩ := Source.pollRead_pending polled
      refine ⟨⟨by simp, fun _ => rfl⟩, limit, ⟨_, _, rfl⟩, ?_, by dsimp only; omega⟩
      rw [ahead_body rfl, List.nil_append, nextChunk_of_pos positive, same, next, limit]
    | ready bytes =>
      obtain ⟨split, bounded, ended, less⟩ := Source.pollRead_ready polled
      dsimp only
      split_ifs with empty
      · have done := (ended (List.isEmpty_iff.mp empty)).resolve_left (by omega)
        exact ⟨limit, by rw [next, done, chunkFuture]⟩
      · refine ⟨⟨by simp, fun _ => rfl⟩, limit, ⟨_, _, rfl⟩,
          fun none => empty (List.isEmpty_iff.mpr none), by omega, ?_⟩
        rw [next, split, chunkFuture_data kind bytes inner.items (by omega) positive, ahead, limit]
        rfl

/-- **One step in a body** gives what comes next on the stream. -/
theorem pollStep_spec (valid : reader.Valid) (inside : reader.state = .body kind remaining got)
    (space : 0 < room) : StepSpec reader kind room (reader.pollStep room) := by
  rw [Valid, inside] at valid
  have here := ahead_body inside
  simp only [pollStep, inside]
  rw [if_neg (by omega)]
  by_cases between : remaining = 0
  · subst between
    rw [if_pos rfl]
    have spec := pollLength_spec 4 got reader.inner (by omega) (by omega)
    cases polled : pollLength 4 got reader.inner with
    | mk result rest =>
      obtain ⟨now, inner⟩ := rest
      rw [polled] at spec
      match result, spec with
      | .pending, ⟨same, short, fewer⟩ =>
        refine ⟨⟨short, fun h => absurd rfl h⟩, rfl, ⟨_, _, rfl⟩, ?_, fewer⟩
        rw [ahead_body rfl, here, same]
      | .ready (.error fault), ⟨same, short⟩ =>
        exact ⟨rfl, by rw [here, nextChunk, if_neg (by simp), if_pos short, same, chunkFuture]⟩
      | .ready (.ok ()), ⟨same, four, fewer⟩ =>
        have small := beNat_lt now
        rw [four] at small
        rw [← same, ← beBytes_beNat four, nextChunk_length _ (by omega)] at here
        dsimp only
        split_ifs at here ⊢ with zero marked tooLong
        · exact ⟨rfl, rfl, by rw [here, chunkFuture, ahead_frames rfl]⟩
        · exact ⟨rfl, rfl, rfl, by rw [here, chunkFuture]⟩
        · exact ⟨rfl, by rw [here, chunkFuture]⟩
        · exact pollData_spec rfl fewer (by omega) space here
  · rw [if_neg between]
    obtain rfl := valid.2 between
    rw [List.nil_append, nextChunk_of_pos (by omega)] at here
    exact pollData_spec rfl le_rfl (by omega) space here

/-! ### The message after the marker -/

/-- `read_after_marker` gives the abandon outcome if the message after the marker is the one of the
kind. -/
theorem readAfterMarker_spec (frames : reader.state = .frames) (kind : BodyKind) :
    match nextFrame reader.limit.toNat reader.inner.items with
    | .error fault => ∃ after, reader.readAfterMarker kind = (.error fault, after)
    | .ok none => ∃ after, reader.readAfterMarker kind = (.error eof, after)
    | .ok (some (message, rest)) =>
      match abandonAtom kind message with
      | some atom => ∃ polls, reader.readAfterMarker kind = (atom.outcome, ⟨⟨rest, polls⟩, reader.limit, .frames⟩)
      | none => ∃ after, reader.readAfterMarker kind =
          (.error (.protocol (message.kind.debug ++ " after the abandon marker")), after) := by
  have spec := readMessage_spec frames
  unfold readAfterMarker
  cases found : nextFrame reader.limit.toNat reader.inner.items with
  | error fault =>
    rw [found] at spec
    obtain ⟨after, read⟩ := spec
    exact ⟨after, by simp [read]⟩
  | ok frame =>
    rw [found] at spec
    cases frame with
    | none =>
      obtain ⟨after, read⟩ := spec
      exact ⟨after, by simp [read]⟩
    | some frame =>
      obtain ⟨message, rest⟩ := frame
      obtain ⟨polls, read⟩ := spec
      cases kind <;> cases message <;> first | exact ⟨polls, by rw [read]; rfl⟩ | exact ⟨_, by rw [read]⟩

end FrameReader

end Ostrya.Remote
