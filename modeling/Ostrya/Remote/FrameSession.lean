/-
**Callers of a framed stream.**

A caller reads messages between bodies, and a body with buffers of any sizes, straight from the reader or through an
`ObjectBody`. It goes on after the abandon outcome of a body and stops at any other error. `drive_spec` says that such a
caller sees the future of its stream, a part of it or, with enough reads, all of it and then what ends it.
-/

import Ostrya.Remote.FrameReading

namespace Ostrya.Remote

open ByteFormat Gvariant Ostrya.Core Repo Async

/-! ### The caller -/

/-- How a caller reads on in a body: one read of the reader, or reads of an `ObjectBody`. -/
inductive Choice where
  | direct (room : Nat)
  | adapter (rooms : List Nat)

/-- A choice that has room for a byte. -/
def Choice.useful : Choice → Bool
  | direct room => room != 0
  | adapter rooms => rooms.any (· != 0)

/-- What a caller is left with. -/
inductive Status where
  | open (reader : FrameReader)
  | eof
  | broken (fault : Error)
  | pending

/-- True if the message that must follow the marker of a body comes next. -/
def FrameReader.abandonFollows (reader : FrameReader) (kind : BodyKind) : Bool :=
  match reader.readMessage.1 with
  | .ok (some message) => (abandonAtom kind message).isSome
  | _ => false

/-- True if the next read of a body meets the marker and the message that must follow it: an error
of this read is the abandon outcome. -/
def FrameReader.abandons (reader : FrameReader) (room : Nat) : Bool :=
  match await (fun reader : FrameReader => reader.pollStep room) reader.patience reader with
  | some (.ok (.marker kind), after) => after.abandonFollows kind
  | _ => false

/-- One `read_object_data`. -/
def seeData (reader : FrameReader) (room : Nat) : List Atom × Status :=
  match reader.readObjectData room with
  | none => ([], .pending)
  | some (.ok (.data bytes), after) => (bytes.map .byte, .open after)
  | some (.ok .end, after) => ([.ended], .open after)
  | some (.ok .abandoned, after) => ([.abandoned], .open after)
  | some (.error fault, after) =>
    if reader.abandons room then ([.failed fault], .open after) else ([], .broken fault)

/-- The result of `finish_abandon`; `follows` tells whether the message after the marker is the one
of the kind. -/
def seeOutcome (follows : Bool) : Except Error Unit × FrameReader → List Atom × Status
  | (.ok (), after) => ([.abandoned], .open after)
  | (.error fault, after) => if follows then ([.failed fault], .open after) else ([], .broken fault)

/-- The end of a caller's work with an `ObjectBody`: it asks how the body ended, if it did. -/
def seeEnd (body : ObjectBody) : List Atom × Status :=
  match body.state with
  | .finished => ([.ended], .open body.reader)
  | .abandoned kind => seeOutcome (body.reader.abandonFollows kind) body.finishAbandon
  | _ =>
    match body.takeError with
    | (some fault, _) => ([], .broken fault)
    | (none, body) => ([], .open body.reader)

/-- Reads of an `ObjectBody` with buffers of these sizes, up to a read that fails. -/
def seeBody : List Nat → ObjectBody → List Atom × Status
  | [], body => seeEnd body
  | room :: rooms, body =>
    match body.read room with
    | none => ([], .pending)
    | some (.ok bytes, body) =>
      let (atoms, status) := seeBody rooms body
      (bytes.map .byte ++ atoms, status)
    | some (.error _, body) => seeEnd body

/-- One round of a caller: a message, or a choice of reads in a body. -/
def see (choice : Choice) (reader : FrameReader) : List Atom × Status :=
  match reader.state with
  | .frames =>
    match reader.readMessage with
    | (.ok none, _) => ([], .eof)
    | (.ok (some message), after) => ([.message message], .open after)
    | (.error fault, _) => ([], .broken fault)
  | .body .. =>
    match choice with
    | .direct room => seeData reader room
    | .adapter rooms => seeBody rooms reader.objectBody

/-- The rounds of a caller. -/
def drive : List Choice → FrameReader → List Atom × Status
  | [], reader => ([], .open reader)
  | choice :: choices, reader =>
    match see choice reader with
    | (atoms, .open after) =>
      let (more, status) := drive choices after
      (atoms ++ more, status)
    | stopped => stopped

/-! ### What a caller sees -/

/-- What a caller has seen of a future, and whether it has seen anything. -/
def Seen (future : List Atom × Ending) (limit : UInt32) (useful : Prop) : List Atom × Status → Prop
  | (atoms, .open after) => after.Valid ∧ after.limit = limit ∧ future = before atoms after.ahead ∧
      (useful → atoms ≠ [])
  | (atoms, .eof) => future = (atoms, .eof)
  | (atoms, .broken fault) => future = (atoms, .broken fault)
  | (_, .pending) => False

theorem Seen.after_atoms {future rest : List Atom × Ending} {useful : Prop}
    {seen : List Atom × Status} (holds : Seen rest limit useful seen) (split : future = before atoms rest) :
    Seen future limit (atoms ≠ [] ∨ useful) (atoms ++ seen.1, seen.2) := by
  obtain ⟨more, status⟩ := seen
  cases status with
  | «open» after =>
    obtain ⟨valid, same, here, progress⟩ := holds
    refine ⟨valid, same, by rw [split, here, before_before], ?_⟩
    rintro (nonempty | useful) none
    · exact nonempty (List.append_eq_nil_iff.mp none).1
    · exact progress useful (List.append_eq_nil_iff.mp none).2
  | eof => rw [Seen, split, show rest = (more, .eof) from holds]; rfl
  | broken fault => rw [Seen, split, show rest = (more, .broken fault) from holds]; rfl
  | pending => exact holds.elim

theorem Seen.weaken {future : List Atom × Ending} {limit : UInt32} {seen : List Atom × Status}
    (holds : Seen future limit useful seen) (imp : less → useful) : Seen future limit less seen := by
  obtain ⟨atoms, status⟩ := seen
  cases status with
  | «open» after => exact ⟨holds.1, holds.2.1, holds.2.2.1, fun h => holds.2.2.2 (imp h)⟩
  | eof | broken fault | pending => exact holds

/-! ### Straight reads -/

variable {reader : FrameReader} {kind : BodyKind}

theorem abandonFollows_of_next (frames : reader.state = .frames) (kind : BodyKind) :
    reader.abandonFollows kind =
      match nextFrame reader.limit.toNat reader.inner.items with
      | .ok (some (message, _)) => (abandonAtom kind message).isSome
      | _ => false := by
  have spec := FrameReader.readMessage_spec frames
  rw [FrameReader.abandonFollows]
  cases found : nextFrame reader.limit.toNat reader.inner.items with
  | error fault =>
    rw [found] at spec
    obtain ⟨after, read⟩ := spec
    rw [read]
  | ok frame =>
    grind

theorem abandonAtom_cases
    (outcome : abandonAtom kind message = some atom) : atom = .abandoned ∨ ∃ error, atom = .failed error := by
  cases kind <;> cases message <;> simp [abandonAtom] at outcome <;> subst outcome <;> simp

/-- What a caller sees at the message after the marker. -/
theorem seen_after_marker (frames : reader.state = .frames) (kind : BodyKind) (useful : Prop) :
    Seen (markerFuture reader.limit.toNat kind reader.inner.items) reader.limit useful
      (seeOutcome (reader.abandonFollows kind) (reader.readAfterMarker kind)) := by
  have spec := FrameReader.readAfterMarker_spec frames kind
  rw [abandonFollows_of_next frames, markerFuture]
  cases found : nextFrame reader.limit.toNat reader.inner.items with
  | error fault =>
    rw [found] at spec
    obtain ⟨after, read⟩ := spec
    simp only [read]
    rfl
  | ok frame =>
    rw [found] at spec
    cases frame with
    | none =>
      obtain ⟨after, read⟩ := spec
      simp only [read]
      rfl
    | some frame =>
      obtain ⟨message, rest⟩ := frame
      dsimp only at spec ⊢
      cases outcome : abandonAtom kind message with
      | none =>
        rw [outcome] at spec
        obtain ⟨after, read⟩ := spec
        simp only [read]
        rfl
      | some atom =>
        rw [outcome] at spec
        obtain ⟨polls, read⟩ := spec
        rw [read]
        rcases abandonAtom_cases outcome with rfl | ⟨error, rfl⟩
        · exact ⟨trivial, rfl, rfl, fun _ => by simp⟩
        · exact ⟨trivial, rfl, rfl, fun _ => by simp⟩

/-- The awaited step of a body, against what comes next. -/
theorem await_pollStep (valid : reader.Valid) (inside : reader.state = .body kind remaining got)
    (space : 0 < room) : ∃ result after, await (fun reader : FrameReader => reader.pollStep room)
      reader.patience reader = some (result, after) ∧
      FrameReader.StepSpec reader kind room (.ready result, after) := by
  obtain ⟨last, result, after, ⟨lastValid, limit, ⟨left, now, lastInside⟩, same⟩, polled, awaited⟩ := @await_returns _ _
    (fun reader : FrameReader => reader.pollStep room)
    (fun state => state.Valid ∧ state.limit = reader.limit ∧
      (∃ left now, state.state = .body kind left now) ∧ state.ahead = reader.ahead)
    (fun state => state.inner.polls.length)
    (by
      rintro state next ⟨stateValid, limit, ⟨left, now, stateInside⟩, same⟩ polled
      have spec := FrameReader.pollStep_spec stateValid stateInside space
      rw [polled] at spec
      obtain ⟨nextValid, nextLimit, nextInside, nextSame, fewer⟩ := spec
      exact ⟨⟨nextValid, nextLimit.trans limit, nextInside, nextSame.trans same⟩, fewer⟩)
    reader.patience reader ⟨valid, rfl, ⟨remaining, got, inside⟩, rfl⟩ (Nat.lt_succ_self _)
  refine ⟨result, after, awaited, ?_⟩
  have spec := FrameReader.pollStep_spec lastValid lastInside space
  rw [polled] at spec
  -- The specification reads the limit and the future of the state, which are those of the reader.
  match result, spec with
  | .error fault, ⟨h1, h2⟩ => exact ⟨h1.trans limit, same.symm.trans h2⟩
  | .ok (.data bytes), ⟨h1, h2, h3, h4, h5, h6⟩ => exact ⟨h1, h2.trans limit, h3, h4, h5, same.symm.trans h6⟩
  | .ok .end, ⟨h1, h2, h3⟩ => exact ⟨h1.trans limit, h2, same.symm.trans h3⟩
  | .ok (.marker found), ⟨h1, h2, h3, h4⟩ =>
    exact ⟨h1, h2.trans limit, h3, by rw [← same, h4, limit]⟩

theorem seeData_spec (valid : reader.Valid) (inside : reader.state = .body kind remaining got)
    (room : Nat) : Seen reader.ahead reader.limit (room ≠ 0) (seeData reader room) := by
  by_cases none : room = 0
  · have awaited : await (fun reader : FrameReader => reader.pollStep room) reader.patience reader =
        some (.ok (.data []), reader) := by
      rw [FrameReader.patience, await]
      simp [FrameReader.pollStep, inside, none]
    rw [seeData, FrameReader.readObjectData, awaited]
    exact ⟨valid, rfl, rfl, fun some => absurd none some⟩
  obtain ⟨result, after, awaited, spec⟩ := await_pollStep valid inside (Nat.pos_of_ne_zero none)
  rw [seeData, FrameReader.readObjectData, FrameReader.abandons, awaited]
  cases result with
  | error fault => exact spec.2
  | ok step =>
    cases step with
    | data bytes =>
      obtain ⟨afterValid, limit, -, nonempty, -, same⟩ := spec
      exact ⟨afterValid, limit, same, fun _ => by simpa using nonempty⟩
    | «end» =>
      obtain ⟨limit, frames, same⟩ := spec
      exact ⟨by rw [FrameReader.Valid, frames]; trivial, limit, same, fun _ => by simp⟩
    | marker found =>
      obtain ⟨rfl, limit, frames, same⟩ := spec
      have seen := seen_after_marker frames found (room ≠ 0)
      rw [limit, ← same] at seen
      dsimp only [Option.map_some]
      cases read : after.readAfterMarker found with
      | mk outcome last =>
        rw [read] at seen
        cases outcome with
        | ok _ => exact seen
        | error fault => exact seen

/-! ### Reads through the body -/

namespace ObjectBody

/-- What a body has still to say. -/
def ahead (body : ObjectBody) : List Atom × Ending :=
  match body.state with
  | .reading => body.reader.ahead
  | .finished => before [.ended] body.reader.ahead
  | .abandoned kind => markerFuture body.reader.limit.toNat kind body.reader.inner.items
  | .failed _ => ([], body.error.elim .eof .broken)

/-- The reader is in the body until the body has ended, and a failed read leaves its error. -/
def Valid (body : ObjectBody) : Prop :=
  match body.state with
  | .reading => body.error = none ∧ body.reader.Valid ∧ ∃ kind remaining got, body.reader.state =
      .body kind remaining got
  | .finished => body.reader.state = .frames
  | .abandoned _ => body.reader.state = .frames
  | .failed _ => body.error.isSome

/-- What one poll of a body gives, against what it has still to say. -/
def ReadSpec (future : List Atom × Ending) (limit : UInt32) (polls room : Nat) :
    Poll (Except IoError Bytes) × ObjectBody → Prop
  | (.pending, after) => after.Valid ∧ after.reader.limit = limit ∧ after.ahead = future ∧
      after.reader.inner.polls.length < polls
  | (.ready (.ok bytes), after) => after.Valid ∧ after.reader.limit = limit ∧
      future = before (bytes.map .byte) after.ahead ∧ (room ≠ 0 → bytes = [] → after.state ≠ .reading)
  | (.ready (.error _), after) => after.Valid ∧ after.reader.limit = limit ∧ after.ahead = future ∧
      after.state ≠ .reading

/-- **The loop of `poll_read`** keeps the filled bytes and what comes after them. -/
theorem fill_spec (fuel : Nat) (body : ObjectBody) (filled : Bytes)
    (reading : body.state = .reading) (valid : body.Valid) (limit : body.reader.limit = start.reader.limit)
    (space : filled.length < room) (enough : room ≤ fuel + filled.length)
    (split : start.ahead = before (filled.map .byte) body.ahead) (fresh : filled = [] → body = start) :
    ReadSpec start.ahead start.reader.limit start.reader.inner.polls.length room (fill fuel body room filled) := by
  induction fuel generalizing body filled with
  | zero => omega
  | succ fuel ih =>
    obtain ⟨reader, state, error⟩ := body
    obtain rfl : state = .reading := reading
    obtain ⟨noError, readerValid, kind, remaining, got, inside⟩ := valid
    obtain rfl : error = none := noError
    rw [fill]
    have spec := FrameReader.pollStep_spec readerValid inside (show 0 < room - filled.length by omega)
    cases polled : reader.pollStep (room - filled.length) with
    | mk result after =>
      rw [polled] at spec
      match result, spec with
      | .pending, ⟨afterValid, afterLimit, afterInside, same, fewer⟩ =>
        have kept : ObjectBody.Valid ⟨after, .reading, none⟩ := ⟨rfl, afterValid, kind, afterInside⟩
        split_ifs with empty
        · obtain rfl := fresh (List.isEmpty_iff.mp empty)
          exact ⟨kept, afterLimit, same, fewer⟩
        · refine ⟨kept, afterLimit.trans limit, ?_, fun _ none => absurd (List.isEmpty_iff.mpr none) empty⟩
          rw [split]
          exact congrArg _ same.symm
      | .ready (.ok (.data bytes)), ⟨afterValid, afterLimit, afterInside, nonempty, bounded, same⟩ =>
        have kept : ObjectBody.Valid ⟨after, .reading, none⟩ := ⟨rfl, afterValid, kind, afterInside⟩
        have joined : start.ahead = before ((filled ++ bytes).map .byte) after.ahead := by
          rw [split, List.map_append, ← before_before, ← same]
          rfl
        have positive := List.length_pos_of_ne_nil nonempty
        dsimp only
        split_ifs with full
        · refine ⟨kept, afterLimit.trans limit, joined, fun _ none => ?_⟩
          exact absurd (List.append_eq_nil_iff.mp none).2 nonempty
        · rw [List.length_append] at full
          exact ih ⟨after, .reading, none⟩ (filled ++ bytes) rfl kept (afterLimit.trans limit)
            (by rw [List.length_append]; omega) (by rw [List.length_append]; omega) joined
            (fun none => absurd (List.append_eq_nil_iff.mp none).2 nonempty)
      | .ready (.ok .end), ⟨afterLimit, frames, same⟩ =>
        refine ⟨frames, afterLimit.trans limit, ?_, fun _ _ => by simp⟩
        rw [split]
        exact congrArg _ same
      | .ready (.ok (.marker found)), ⟨this, afterLimit, frames, same⟩ =>
        subst this
        have later : start.ahead = before (filled.map .byte) (ahead ⟨after, .abandoned found, none⟩) := by
          rw [split]
          refine congrArg _ (same.trans ?_)
          rw [ahead, afterLimit]
        split_ifs with empty
        · refine ⟨frames, afterLimit.trans limit, ?_, by simp⟩
          rw [later, List.isEmpty_iff.mp empty]
          rfl
        · exact ⟨frames, afterLimit.trans limit, later, fun _ none => absurd (List.isEmpty_iff.mpr none) empty⟩
      | .ready (.error fault), ⟨afterLimit, same⟩ =>
        have later : start.ahead =
            before (filled.map .byte) (ahead ⟨after, .failed fault.toIo.kind, some fault⟩) := by
          rw [split]
          exact congrArg _ same
        split_ifs with empty
        · refine ⟨rfl, afterLimit.trans limit, ?_, by simp⟩
          rw [later, List.isEmpty_iff.mp empty]
          rfl
        · exact ⟨rfl, afterLimit.trans limit, later, fun _ none => absurd (List.isEmpty_iff.mpr none) empty⟩

theorem pollRead_spec {body : ObjectBody} (valid : body.Valid) (room : Nat) :
    ReadSpec body.ahead body.reader.limit body.reader.inner.polls.length room (body.pollRead room) := by
  rw [pollRead]
  split
  · next finished => exact ⟨valid, rfl, rfl, fun _ _ => by simp [finished]⟩
  · next kind abandoned => exact ⟨valid, rfl, rfl, by simp [abandoned]⟩
  · next kind failed => exact ⟨valid, rfl, rfl, by simp [failed]⟩
  · next reading =>
    split_ifs with none
    · exact ⟨valid, rfl, rfl, fun some => absurd none some⟩
    · exact fill_spec room body [] reading valid rfl (by simpa using Nat.pos_of_ne_zero none) (by simp) rfl fun _ => rfl

theorem read_spec {body : ObjectBody} (valid : body.Valid) (room : Nat) :
    ∃ result after, body.read room = some (result, after) ∧
      ReadSpec body.ahead body.reader.limit body.reader.inner.polls.length room (.ready result, after) := by
  obtain ⟨last, result, after, ⟨lastValid, limit, same⟩, polled, awaited⟩ := @await_returns _ _
    (fun body : ObjectBody => body.pollRead room)
    (fun state => state.Valid ∧ state.reader.limit = body.reader.limit ∧ state.ahead = body.ahead)
    (fun state => state.reader.inner.polls.length)
    (by
      rintro state next ⟨stateValid, limit, same⟩ polled
      have spec := pollRead_spec stateValid room
      rw [polled] at spec
      obtain ⟨nextValid, nextLimit, nextSame, fewer⟩ := spec
      exact ⟨⟨nextValid, nextLimit.trans limit, nextSame.trans same⟩, fewer⟩)
    body.reader.patience body ⟨valid, rfl, rfl⟩ (Nat.lt_succ_self _)
  refine ⟨result, after, awaited, ?_⟩
  have spec := pollRead_spec lastValid room
  rw [polled, limit, same] at spec
  cases result with
  | ok bytes => exact spec
  | error fault => exact spec

theorem read_ended (body : ObjectBody) (ended : body.state ≠ .reading) {room : Nat}
    {after : ObjectBody} (run : body.read room = some (result, after)) : after.state ≠ .reading := by
  obtain ⟨reader, state, error⟩ := body
  cases state with
  | reading => exact absurd rfl ended
  | finished | abandoned _ | failed _ =>
    simp only [read, FrameReader.patience, await, pollRead, Option.some.injEq, Prod.mk.injEq] at run
    simp [← run.2]

end ObjectBody

theorem seeEnd_spec {body : ObjectBody} (valid : body.Valid) :
    Seen body.ahead body.reader.limit (body.state ≠ .reading) (seeEnd body) := by
  obtain ⟨reader, state, error⟩ := body
  cases state with
  | reading =>
    obtain ⟨noError, readerValid, -⟩ := valid
    obtain rfl : error = none := noError
    exact ⟨readerValid, rfl, rfl, fun ended => absurd rfl ended⟩
  | finished =>
    have frames : reader.state = .frames := valid
    exact ⟨by rw [FrameReader.Valid, frames]; trivial, rfl, rfl, fun _ => by simp⟩
  | abandoned kind => exact seen_after_marker valid kind _
  | failed kind =>
    obtain ⟨fault, rfl⟩ := Option.isSome_iff_exists.mp valid
    rfl

theorem seeBody_spec (rooms : List Nat) {body : ObjectBody} (valid : body.Valid) :
    Seen body.ahead body.reader.limit (body.state ≠ .reading ∨ ∃ room ∈ rooms, room ≠ 0) (seeBody rooms body) := by
  induction rooms generalizing body with
  | nil => exact (seeEnd_spec valid).weaken (by simp)
  | cons room rooms ih =>
    obtain ⟨result, after, read, spec⟩ := body.read_spec valid room
    rw [seeBody, read]
    cases result with
    | error fault =>
      obtain ⟨afterValid, limit, same, ended⟩ := spec
      have seen := seeEnd_spec afterValid
      rw [limit, same] at seen
      exact seen.weaken fun _ => ended
    | ok bytes =>
      obtain ⟨afterValid, limit, same, progress⟩ := spec
      have seen := (ih afterValid).after_atoms same
      rw [limit] at seen
      refine seen.weaken ?_
      rintro (ended | ⟨some, member, positive⟩)
      · exact .inr (.inl (body.read_ended ended read))
      · rcases List.mem_cons.mp member with rfl | later
        · by_cases none : bytes = []
          · exact .inr (.inl (progress positive none))
          · exact .inl (by simpa using none)
        · exact .inr (.inr ⟨some, later, positive⟩)

/-! ### Whole sessions -/

/-- **Each look at a reader shows the next event of its stream.** -/
theorem see_spec (valid : reader.Valid) (choice : Choice) :
    Seen reader.ahead reader.limit choice.useful (see choice reader) := by
  cases state : reader.state with
  | frames =>
    have spec := FrameReader.readMessage_spec state
    rw [FrameReader.ahead_frames state, future_frames]
    unfold see
    simp only [state]
    cases found : nextFrame reader.limit.toNat reader.inner.items with
    | error fault =>
      rw [found] at spec
      obtain ⟨after, read⟩ := spec
      simp only [read]
      rfl
    | ok frame =>
      rw [found] at spec
      cases frame with
      | none =>
        obtain ⟨after, read⟩ := spec
        simp only [read]
        rfl
      | some frame =>
        obtain ⟨polls, read⟩ := spec
        obtain ⟨afterValid, same⟩ :=
          FrameReader.view_after frame.2 polls reader.limit (BodyKind.after frame.1)
        simp only [read]
        exact ⟨afterValid, rfl, by rw [same], fun _ => by simp⟩
  | body kind remaining got =>
    unfold see
    simp only [state]
    cases choice with
    | direct room => exact (seeData_spec valid state room).weaken (by simp [Choice.useful])
    | adapter rooms =>
      refine (@seeBody_spec rooms reader.objectBody ⟨rfl, valid, kind, remaining, got, state⟩).weaken ?_
      intro useful
      simpa [Choice.useful] using Or.inr useful

/-- The status that an ending leaves. -/
def Ending.status : Ending → Status
  | eof => .eof
  | broken fault => .broken fault

/-- **A caller sees the future of its stream**: a part of it, and with more useful rounds than there
are things to see, all of it and then what ends it. -/
theorem drive_spec (choices : List Choice) (valid : reader.Valid) :
    (drive choices reader).1 <+: reader.ahead.1 ∧
      (reader.ahead.1.length < choices.countP Choice.useful →
        drive choices reader = (reader.ahead.1, reader.ahead.2.status)) := by
  induction choices generalizing reader with
  | nil => exact ⟨List.nil_prefix, by simp⟩
  | cons choice choices ih =>
    have seen := see_spec valid choice
    rw [drive]
    cases round : see choice reader with
    | mk atoms status =>
      rw [round] at seen
      cases status with
      | «open» after =>
        obtain ⟨afterValid, -, split, progress⟩ := seen
        obtain ⟨part, whole⟩ := ih afterValid
        rw [split, before]
        dsimp only
        refine ⟨List.prefix_append_right_inj atoms |>.mpr part, fun enough => ?_⟩
        have rest : after.ahead.1.length < choices.countP Choice.useful := by
          grind [List.length_append, Ostrya.Remote.Choice.useful, List.length_pos_of_ne_nil]
        rw [whole rest]
      | eof =>
        rw [show reader.ahead = (atoms, .eof) from seen]
        exact ⟨List.prefix_refl _, fun _ => rfl⟩
      | broken fault =>
        rw [show reader.ahead = (atoms, .broken fault) from seen]
        exact ⟨List.prefix_refl _, fun _ => rfl⟩
      | pending => exact seen.elim

end Ostrya.Remote
