/-
**What a stream carries.**

`future` reads a stream as a whole: the messages, the bytes of the bodies and the ways in which they end, one at a time,
and what stops the reader at last. It knows no polls and no buffers. A stream that is put together from frames, chunks
and markers (`Carries`) has the future that its parts say (`future_carries`), so the parts of a stream are not
ambiguous, and every stream has such parts up to the place where the reader must stop (`future_parts`).
-/

import Ostrya.Remote.FrameStream

namespace Ostrya.Remote

open ByteFormat Gvariant Ostrya.Core Repo Async

/-! ### Frames and chunks -/

variable {rest : Bytes} {message : Message} {limit remaining : Nat}

/-- The message of the frame of `len` bytes that starts here, and what follows it. -/
def frameOf (len : Nat) (bytes : Bytes) : Except Error (Message × Bytes) :=
  match (bytes.take 1).head? with
  | none => .error eof
  | some byte =>
    match Kind.fromU8 byte with
    | .error fault => .error fault
    | .ok kind =>
      let body := (bytes.drop 1).take (len - 1)
      if body.length < len - 1 then .error eof
      else
        match Message.decode kind body with
        | .error fault => .error fault
        | .ok message => .ok (message, (bytes.drop 1).drop (len - 1))

theorem frameOf_eq_ok (run : frameOf len bytes = .ok (message, rest)) :
    ∃ kind body, bytes = kind.asU8 :: (body ++ rest) ∧ body.length = len - 1 ∧
      Message.decode kind body = .ok message := by
  unfold frameOf at run
  split at run
  · simp at run
  next byte first =>
  split at run
  · simp at run
  next kind known =>
  simp only at run
  split_ifs at run with torn
  split at run
  · simp at run
  next found decoded =>
  obtain ⟨rfl, rfl⟩ : found = message ∧ (bytes.drop 1).drop (len - 1) = rest := by simpa using run
  refine ⟨kind, _, ?_, ?_, decoded⟩
  · rw [List.take_append_drop, Kind.asU8_of_fromU8 known]
    cases bytes with
    | nil => simp at first
    | cons head more =>
      obtain rfl : head = byte := by simpa using first
      rfl
  · rw [List.length_take] at torn ⊢
    omega

theorem frameOf_cons (rest : Bytes) (decoded : Message.decode kind body = .ok message) :
    frameOf (body.length + 1) (kind.asU8 :: (body ++ rest)) = .ok (message, rest) := by
  simp [frameOf, Kind.fromU8_asU8, decoded]

/-- The first frame of a stream and what follows it. -/
def nextFrame (limit : Nat) (bytes : Bytes) : Except Error (Option (Message × Bytes)) :=
  let head := bytes.take 4
  if head.isEmpty then .ok none
  else if head.length < 4 then .error eof
  else
    let len := beNat head
    if len = 0 then .error (.protocol "frame of length 0")
    else if limit < len then .error (limitExceeded "frame" len limit)
    else (frameOf len (bytes.drop 4)).map some

theorem nextFrame_nil (limit : Nat) : nextFrame limit [] = .ok none := rfl

theorem beBytes_take (long : ¬ bytes.length < 4) : beBytes 4 (beNat (bytes.take 4)) ++ bytes.drop 4 = bytes := by
  rw [beBytes_beNat (by simp; omega), List.take_append_drop]

theorem nextFrame_eq_some (run : nextFrame limit bytes = .ok (some (message, rest))) :
    ∃ kind body, bytes = frameBytes kind body ++ rest ∧ Message.decode kind body = .ok message ∧
      body.length + 1 ≤ limit := by
  unfold nextFrame at run
  simp only at run
  split_ifs at run with empty short zero tooLong
  · simp at run
  · have found : frameOf (beNat (bytes.take 4)) (bytes.drop 4) = .ok (message, rest) := by
      cases inner : frameOf (beNat (bytes.take 4)) (bytes.drop 4) <;> simp_all [Except.map]
    obtain ⟨kind, body, tail, sized, decoded⟩ := frameOf_eq_ok found
    refine ⟨kind, body, ?_, decoded, by omega⟩
    rw [frameBytes, sized, Nat.sub_add_cancel (Nat.pos_of_ne_zero zero), List.append_assoc,
      List.cons_append, ← tail, beBytes_take (by simp at short; omega)]

theorem nextFrame_frameBytes (rest : Bytes)
    (small : limit < 2 ^ 32) (decoded : Message.decode kind body = .ok message) (fits : body.length + 1 ≤ limit) :
    nextFrame limit (frameBytes kind body ++ rest) = .ok (some (message, rest)) := by
  have head : (frameBytes kind body ++ rest).take 4 = beBytes 4 (body.length + 1) := by
    rw [frameBytes, List.append_assoc, List.take_left' (by simp)]
  have tail : (frameBytes kind body ++ rest).drop 4 = kind.asU8 :: (body ++ rest) := by
    rw [frameBytes, List.append_assoc, List.drop_left' (by simp), List.cons_append]
  have len : beNat (beBytes 4 (body.length + 1)) = body.length + 1 := beNat_beBytes (by omega)
  have full : (beBytes 4 (body.length + 1)).isEmpty = false := by
    rw [List.isEmpty_eq_false_iff, ← List.length_pos_iff, beBytes_length]
    omega
  simp [nextFrame, head, tail, len, full, frameOf_cons rest decoded,
    show ¬ limit < body.length + 1 by omega, Except.map]

theorem nextFrame_shorter
    (run : nextFrame limit bytes = .ok (some (message, rest))) : rest.length < bytes.length := by
  obtain ⟨kind, body, rfl, -⟩ := nextFrame_eq_some run
  simp [frameBytes]
  omega

/-- Where the next bytes of a body stand. -/
inductive Chunk where
  | data (left : Nat) (bytes : Bytes)
  | stop (rest : Bytes)
  | marker (rest : Bytes)
  | broken (fault : Error)

/-- The chunk that a body goes on with, of which `remaining` bytes are left, or else the next
one. -/
def nextChunk (limit remaining : Nat) (bytes : Bytes) : Chunk :=
  if remaining ≠ 0 then .data remaining bytes
  else if bytes.length < 4 then .broken eof
  else
    let len := beNat (bytes.take 4)
    if len = 0 then .stop (bytes.drop 4)
    else if len = abandon.toNat then .marker (bytes.drop 4)
    else if limit < len then .broken (limitExceeded "chunk" len limit)
    else .data len (bytes.drop 4)

theorem nextChunk_of_pos (left : 0 < remaining) :
    nextChunk limit remaining bytes = .data remaining bytes := by
  rw [nextChunk, if_pos (by omega)]

theorem nextChunk_data (run : nextChunk limit remaining bytes = .data left more) :
    0 < left ∧ (remaining = left ∧ bytes = more ∨
      remaining = 0 ∧ left ≤ limit ∧ left < 2 ^ 32 ∧ bytes = beBytes 4 left ++ more) := by
  unfold nextChunk at run
  simp only at run
  split_ifs at run with inside short zero marked tooLong
  · obtain ⟨rfl, rfl⟩ : remaining = left ∧ bytes = more := by simpa using run
    exact ⟨by omega, .inl ⟨rfl, rfl⟩⟩
  · obtain ⟨rfl, rfl⟩ : beNat (bytes.take 4) = left ∧ bytes.drop 4 = more := by simpa using run
    have four : (bytes.take 4).length = 4 := by simp; omega
    have bound := beNat_lt (bytes.take 4)
    rw [four] at bound
    exact ⟨by omega, .inr ⟨by omega, by omega, by omega, (beBytes_take short).symm⟩⟩

theorem nextChunk_stop
    (run : nextChunk limit remaining bytes = .stop rest) : remaining = 0 ∧ bytes = beBytes 4 0 ++ rest := by
  unfold nextChunk at run
  simp only at run
  split_ifs at run with inside short zero marked tooLong
  obtain rfl : bytes.drop 4 = rest := by simpa using run
  exact ⟨by omega, by rw [← zero, beBytes_take short]⟩

theorem nextChunk_marker (run : nextChunk limit remaining bytes = .marker rest) :
    remaining = 0 ∧ bytes = beBytes 4 abandon.toNat ++ rest := by
  unfold nextChunk at run
  simp only at run
  split_ifs at run with inside short zero marked tooLong
  obtain rfl : bytes.drop 4 = rest := by simpa using run
  exact ⟨by omega, by rw [← marked, beBytes_take short]⟩

/-- A chunk length at the start of what follows a chunk. -/
theorem nextChunk_length (rest : Bytes) (small : len < 2 ^ 32) :
    nextChunk limit 0 (beBytes 4 len ++ rest) =
      if len = 0 then .stop rest
      else if len = abandon.toNat then .marker rest
      else if limit < len then .broken (limitExceeded "chunk" len limit)
      else .data len rest := by
  have head : (beBytes 4 len ++ rest).take 4 = beBytes 4 len := List.take_left' (by simp)
  have tail : (beBytes 4 len ++ rest).drop 4 = rest := List.drop_left' (by simp)
  rw [nextChunk, if_neg (by simp), if_neg (by simp), head, tail, beNat_beBytes (by omega)]

/-! ### The future of a reader -/

/-- What a caller sees of a stream, one thing at a time. -/
inductive Atom where
  | message (message : Message)
  | byte (byte : UInt8)
  | ended
  | abandoned
  | failed (error : Error)
  deriving DecidableEq

/-- What stops a reader at last: the end of the file, or an error. -/
inductive Ending where
  | eof
  | broken (fault : Error)
  deriving DecidableEq

/-- The place of a reader on its stream: at a frame, or in a body with `remaining` bytes of the
chunk left. -/
inductive View where
  | frames (bytes : Bytes)
  | body (kind : BodyKind) (remaining : Nat) (bytes : Bytes)

/-- The bytes that are still to come. -/
def View.bytes : View → Bytes
  | frames bytes => bytes
  | body _ _ bytes => bytes

/-- The view at the start of a frame or of a body. -/
def View.at (place : Option BodyKind) (bytes : Bytes) : View :=
  match place with
  | none => frames bytes
  | some kind => body kind 0 bytes

@[simp] theorem View.at_none (bytes : Bytes) : View.at none bytes = .frames bytes := rfl

@[simp] theorem View.at_some (kind : BodyKind) (bytes : Bytes) : View.at (some kind) bytes = .body kind 0 bytes := rfl

@[simp] theorem View.bytes_at (place : Option BodyKind) (bytes : Bytes) : (View.at place bytes).bytes = bytes := by
  cases place <;> rfl

/-- The abandon outcome of a body, from the message after the marker. -/
def abandonAtom : BodyKind → Message → Option Atom
  | .object, .abort => some .abandoned
  | .pull, .error error => some (.failed (.ofMessage error))
  | _, _ => none

/-- Puts atoms before a future. -/
def before (atoms : List Atom) (future : List Atom × Ending) : List Atom × Ending := (atoms ++ future.1, future.2)

theorem before_before (first second : List Atom) (future : List Atom × Ending) :
    before first (before second future) = before (first ++ second) future := by
  simp [before]

/-- All that a caller can see from a place on, and what stops it. -/
def future (limit : Nat) (view : View) : List Atom × Ending :=
  match view with
  | .frames bytes =>
    match _found : nextFrame limit bytes with
    | .error fault => ([], .broken fault)
    | .ok none => ([], .eof)
    | .ok (some (message, rest)) => before [.message message] (future limit (.at (BodyKind.after message) rest))
  | .body kind remaining bytes =>
    match _chunk : nextChunk limit remaining bytes with
    | .broken fault => ([], .broken fault)
    | .stop rest => before [.ended] (future limit (.frames rest))
    | .marker rest =>
      match _found : nextFrame limit rest with
      | .error fault => ([], .broken fault)
      | .ok none => ([], .broken eof)
      | .ok (some (message, rest)) =>
        match abandonAtom kind message with
        | some atom => before [atom] (future limit (.frames rest))
        | none => ([], .broken (.protocol (message.kind.debug ++ " after the abandon marker")))
    | .data _ [] => ([], .broken eof)
    | .data left (byte :: more) => before [.byte byte] (future limit (.body kind (left - 1) more))
termination_by view.bytes.length
decreasing_by
  · rw [View.bytes_at]
    exact nextFrame_shorter _found
  · obtain ⟨-, rfl⟩ := nextChunk_stop _chunk
    simp [View.bytes]
  · obtain ⟨-, rfl⟩ := nextChunk_marker _chunk
    have := nextFrame_shorter _found
    simp [View.bytes]
    omega
  · rcases (nextChunk_data _chunk).2 with ⟨-, rfl⟩ | ⟨-, -, -, rfl⟩
    · simp [View.bytes]
    · simp only [View.bytes, List.length_append, List.length_cons]
      omega

/-- The future after the marker of a body. -/
def markerFuture (limit : Nat) (kind : BodyKind) (bytes : Bytes) : List Atom × Ending :=
  match nextFrame limit bytes with
  | .error fault => ([], .broken fault)
  | .ok none => ([], .broken eof)
  | .ok (some (message, rest)) =>
    match abandonAtom kind message with
    | some atom => before [atom] (future limit (.frames rest))
    | none => ([], .broken (.protocol (message.kind.debug ++ " after the abandon marker")))

/-- The future of a body that goes on with a chunk. -/
def chunkFuture (limit : Nat) (kind : BodyKind) : Chunk → List Atom × Ending
  | .broken fault => ([], .broken fault)
  | .stop rest => before [.ended] (future limit (.frames rest))
  | .marker rest => markerFuture limit kind rest
  | .data _ [] => ([], .broken eof)
  | .data left (byte :: more) => before [.byte byte] (future limit (.body kind (left - 1) more))

variable {limit : Nat}

theorem future_frames (bytes : Bytes) : future limit (.frames bytes) =
    match nextFrame limit bytes with
    | .error fault => ([], .broken fault)
    | .ok none => ([], .eof)
    | .ok (some (message, rest)) => before [.message message] (future limit (.at (BodyKind.after message) rest)) := by
  rw [future]
  split <;> simp_all

theorem future_body (kind : BodyKind) (remaining : Nat) (bytes : Bytes) :
    future limit (.body kind remaining bytes) = chunkFuture limit kind (nextChunk limit remaining bytes) := by
  rw [future]
  split <;> simp_all only [chunkFuture]
  rw [markerFuture]
  split <;> simp_all only

theorem chunkFuture_data (kind : BodyKind) (data more : Bytes) {left : Nat}
    (bounded : data.length ≤ left) (positive : 0 < left) :
    chunkFuture limit kind (.data left (data ++ more)) =
      before (data.map .byte) (future limit (.body kind (left - data.length) more)) := by
  induction data generalizing left with
  | nil => rw [List.length_nil, Nat.sub_zero, future_body, nextChunk_of_pos positive]; rfl
  | cons byte data ih =>
    rw [List.length_cons] at bounded
    rw [List.cons_append, chunkFuture]
    by_cases last : left = 1
    · obtain rfl : data = [] := List.length_eq_zero_iff.mp (by omega)
      simp [last]
    · rw [future_body, nextChunk_of_pos (by omega), ih (by omega) (by omega), before_before,
        List.length_cons, Nat.sub_sub, Nat.add_comm 1]
      rfl

/-! ### The parts of a stream -/

variable {first second : Option BodyKind} {atoms : List Atom}

/-- One part of a stream between two places: where it starts, its bytes, what a caller sees of it
and where it ends. A frame stands outside of bodies, or after a marker. -/
inductive Part (limit : Nat) : Option BodyKind → Bytes → List Atom → Option BodyKind → Prop where
  | frame {message : Message} (decoded : Message.decode kind body = .ok message)
      (fits : body.length + 1 ≤ limit) :
      Part limit none (frameBytes kind body) [.message message] (BodyKind.after message)
  | chunk (nonempty : data ≠ []) (fits : data.length ≤ limit) :
      Part limit (some kind) (chunkBytes data) (data.map .byte) (some kind)
  | stop : Part limit (some kind) (beBytes 4 0) [.ended] none
  | marker {message : Message} (decoded : Message.decode kind body = .ok message)
      (fits : body.length + 1 ≤ limit) (outcome : abandonAtom bodyKind message = some atom) :
      Part limit (some bodyKind) (beBytes 4 abandon.toNat ++ frameBytes kind body) [atom] none

/-- The parts of a stream one after the other. -/
inductive Carries (limit : Nat) : Option BodyKind → Bytes → List Atom → Option BodyKind → Prop where
  | nil {place : Option BodyKind} : Carries limit place [] [] place
  | cons {first second third : Option BodyKind} {bytes rest : Bytes} {atoms more : List Atom}
      (part : Part limit first bytes atoms second) (parts : Carries limit second rest more third) :
      Carries limit first (bytes ++ rest) (atoms ++ more) third

theorem Carries.append
    (left : Carries limit first bytes atoms second) (right : Carries limit second rest more third) :
    Carries limit first (bytes ++ rest) (atoms ++ more) third := by
  induction left with
  | nil => exact right
  | cons part _ ih =>
    rw [List.append_assoc, List.append_assoc]
    exact .cons part (ih right)

theorem Carries.of_part (part : Part limit first bytes atoms second) : Carries limit first bytes atoms second := by
  simpa using Carries.cons part .nil

theorem Part.mono (le : limit ≤ larger) (part : Part limit first bytes atoms second) :
    Part larger first bytes atoms second := by
  cases part with
  | frame decoded fits => exact .frame decoded (fits.trans le)
  | chunk nonempty fits => exact .chunk nonempty (fits.trans le)
  | stop => exact .stop
  | marker decoded fits outcome => exact .marker decoded (fits.trans le) outcome

theorem Carries.mono (le : limit ≤ larger) (parts : Carries limit first bytes atoms second) :
    Carries larger first bytes atoms second := by
  induction parts with
  | nil => exact .nil
  | cons part _ ih => exact .cons (part.mono le) ih

/-- A part of the stream is what comes next. The limit is one of a reader: the marker is no length
of a chunk. -/
theorem future_part (small : limit < abandon.toNat) (part : Part limit first bytes atoms second) (rest : Bytes) :
    future limit (.at first (bytes ++ rest)) = before atoms (future limit (.at second rest)) := by
  have word : abandon.toNat < 2 ^ 32 := abandon.toNat_lt
  cases part with
  | frame decoded fits =>
    rw [View.at_none, future_frames, nextFrame_frameBytes rest (small.trans word) decoded fits]
  | chunk nonempty fits =>
    have positive := List.length_pos_of_ne_nil nonempty
    rw [View.at_some, future_body, chunkBytes, List.append_assoc, nextChunk_length _ (by omega), if_neg (by omega),
      if_neg (by omega), if_neg (by omega), chunkFuture_data _ _ rest le_rfl positive, Nat.sub_self]
    rfl
  | stop =>
    rw [View.at_some, future_body, nextChunk_length _ (by omega), if_pos rfl]
    rfl
  | @marker bodyKind kind body message atom decoded fits outcome =>
    rw [View.at_some, future_body, List.append_assoc, nextChunk_length _ word, if_neg (by decide),
      if_pos rfl, chunkFuture,
      markerFuture, nextFrame_frameBytes rest (small.trans word) decoded fits]
    simp only [outcome]
    rfl

/-- **A stream has the future that its parts say**, whatever comes after them. -/
theorem future_carries (small : limit < abandon.toNat) (parts : Carries limit first bytes atoms second) (rest : Bytes) :
    future limit (.at first (bytes ++ rest)) = before atoms (future limit (.at second rest)) := by
  induction parts with
  | nil => rfl
  | cons part _ ih => rw [List.append_assoc, future_part small part, ih, before_before]

/-- The bytes of a chunk that the end of the stream cuts off. -/
inductive Torn (limit : Nat) : Option BodyKind → Bytes → List Atom → Prop where
  | nothing {place : Option BodyKind} {rest : Bytes} : Torn limit place rest []
  | chunk {kind : BodyKind} {len : Nat} {data : Bytes} (short : data.length < len)
      (fits : len ≤ limit) : Torn limit (some kind) (beBytes 4 len ++ data) (data.map .byte)

/-- A stream starts with parts, and a caller sees nothing else of it than these and the bytes of a
chunk that the stream ends in. -/
def Parted (limit : Nat) (place : Option BodyKind) (bytes : Bytes) : Prop :=
  ∃ whole rest atoms last torn, bytes = whole ++ rest ∧ Carries limit place whole atoms last ∧
    Torn limit last rest torn ∧ (future limit (.at place bytes)).1 = atoms ++ torn

/-- **Every stream has parts**, up to the place where a reader stops. -/
theorem future_parts (small : limit < abandon.toNat) (size : Nat) :
    ∀ (place : Option BodyKind) (bytes : Bytes), bytes.length ≤ size → Parted limit place bytes := by
  induction size with
  | zero =>
    intro place bytes empty
    obtain rfl : bytes = [] := List.length_eq_zero_iff.mp (by omega)
    refine ⟨[], [], [], place, [], rfl, .nil, .nothing, ?_⟩
    cases place with
    | none => rw [View.at_none, future_frames]; rfl
    | some kind => rw [View.at_some, future_body]; rfl
  | succ size ih =>
    intro place bytes bounded
    -- One part at the start, and the parts of what follows it.
    have step : ∀ (part rest : Bytes) (atoms : List Atom) (next : Option BodyKind), bytes = part ++ rest → part ≠ [] →
        Part limit place part atoms next → Parted limit place bytes := by
      intro part rest atoms next split nonempty here
      have positive := List.length_pos_of_ne_nil nonempty
      obtain ⟨whole, left, more, last, torn, rfl, parts, ends, same⟩ :=
        ih next rest (by rw [split, List.length_append] at bounded; omega)
      refine ⟨part ++ whole, left, atoms ++ more, last,
        torn, by rw [split, List.append_assoc], .cons here parts, ends, ?_⟩
      rw [split, future_part small here, before, same, List.append_assoc]
    -- No part: the reader stops here.
    have none_seen : (future limit (.at place bytes)).1 = [] → Parted limit place bytes :=
      fun stopped => ⟨[], bytes, [], place, [], rfl, .nil, .nothing, by rw [stopped]; rfl⟩
    cases place with
    | none =>
      cases found : nextFrame limit bytes with
      | error fault => exact none_seen (by rw [View.at_none, future_frames, found])
      | ok frame =>
        cases frame with
        | none => exact none_seen (by rw [View.at_none, future_frames, found])
        | some frame =>
          obtain ⟨kind, body, split, decoded, fits⟩ := nextFrame_eq_some found
          exact step _ _ _ _ split (by simp [frameBytes]) (.frame decoded fits)
    | some bodyKind =>
      cases chunk : nextChunk limit 0 bytes with
      | broken fault => exact none_seen (by rw [View.at_some, future_body, chunk, chunkFuture])
      | stop rest => exact step _ _ _ _ (nextChunk_stop chunk).2 (by decide) .stop
      | marker rest =>
        cases found : nextFrame limit rest with
        | error fault => exact none_seen (by rw [View.at_some, future_body, chunk, chunkFuture, markerFuture, found])
        | ok frame =>
          cases frame with
          | none => exact none_seen (by rw [View.at_some, future_body, chunk, chunkFuture, markerFuture, found])
          | some frame =>
            obtain ⟨kind, body, split, decoded, fits⟩ := nextFrame_eq_some found
            cases outcome : abandonAtom bodyKind frame.1 with
            | none =>
              exact none_seen (by
                rw [View.at_some, future_body, chunk, chunkFuture, markerFuture, found]
                simp only [outcome])
            | some atom =>
              refine step _ frame.2 _ _ ?_ ?_ (.marker decoded fits outcome)
              · rw [(nextChunk_marker chunk).2, split, List.append_assoc]
              · simp [frameBytes]
      | data left more =>
        obtain ⟨positive, ⟨rfl, -⟩ | ⟨-, fits, -, split⟩⟩ := nextChunk_data chunk
        · omega
        · by_cases whole : left ≤ more.length
          · have sized : (more.take left).length = left := by rw [List.length_take]; omega
            refine step (chunkBytes (more.take left)) (more.drop left) _ _ ?_ ?_ (.chunk ?_ (by omega))
            · rw [split, chunkBytes, sized, List.append_assoc, List.take_append_drop]
            · rw [← List.length_pos_iff, chunkBytes, List.length_append, beBytes_length]
              omega
            · rw [← List.length_pos_iff, sized]
              exact positive
          · refine ⟨[], bytes, [], some bodyKind, more.map .byte, rfl, .nil, ?_, ?_⟩
            · rw [split]
              exact .chunk (by omega) fits
            · have cut := @chunkFuture_data limit bodyKind more [] left (by omega) positive
              rw [List.append_nil, future_body, nextChunk_of_pos (by omega), chunkFuture] at cut
              rw [View.at_some, future_body, chunk, cut, before, List.append_nil, List.nil_append]

end Ostrya.Remote
