/-
**What a part application delivers.**

The applier counts the objects with an index that `S` and `c` advance, but `c` writes the object that the
latest `o` opened. The two agree unless an `S` comes between an `o` and its `c`: then the index has moved on,
one object is written twice and another never.

* `stepOp_effect`: what one operation does to the index, the open object and the log.
* `runOps_writes`: over a whole stream, the log grows by one verified write for each production.
* `applyPart_delivers_iff`: a successful application delivers the declared objects exactly when each
  production of the stream writes the object that it is counted as.
-/

import Ostrya.Delta.Apply

namespace Ostrya.Delta

open ByteFormat Gvariant Ostrya.Core

/-! ### The operations of a stream -/

/-- `operand_count`. -/
def operandCount (opcode : Opcode) (bare : Bool) : Nat :=
  match opcode with
  | .openSpliceClose => if bare then 2 else 4
  | .open_ => 3
  | .write | .bspatch => 2
  | .setReadSource => 1
  | .unsetReadSource | .close => 0

/-- The stream after a number of operands. -/
def skipOperands : Nat → Bytes → Option Bytes
  | 0, ops => some ops
  | count + 1, ops =>
    match takeLeb ops with
    | .ok (_, rest) => skipOperands count rest
    | .error _ => none

@[simp] theorem skipOperands_zero (ops : Bytes) : skipOperands 0 ops = some ops := rfl

theorem skipOperands_succ (taken : takeLeb ops = .ok (value, rest)) :
    skipOperands (count + 1) ops = skipOperands count rest := by
  rw [skipOperands, taken]

/-- Whether an `S` at the index splices a bare metadata object. -/
def bareAt (objects : List (ObjectType × Checksum)) (index : Nat) : Bool :=
  match objects[index]? with
  | some (objtype, _) => objtype.isMeta
  | none => false

/-- Whether an operation advances the index. -/
def Opcode.advances : Opcode → Bool
  | openSpliceClose | close => true
  | _ => false

/-- The operations of a stream, by the rules of `OpCounter`, up to the first that does not
decode. -/
def opcodes (objects : List (ObjectType × Checksum)) : (fuel index : Nat) → Bytes → List Opcode
  | 0, _, _ | _ + 1, _, [] => []
  | fuel + 1, index, byte :: ops =>
    match Opcode.ofByte byte with
    | none => []
    | some opcode =>
      match skipOperands (operandCount opcode (bareAt objects index)) ops with
      | none => []
      | some rest => opcode :: opcodes objects fuel (if opcode.advances then index + 1 else index) rest

/-- The productions of a list of operations: for each `S` and `c`, the index of the object that it
writes and the index that it is counted as. A `c` writes the object of the latest `o`. -/
def productions : (index opened : Nat) → List Opcode → List (Nat × Nat)
  | _, _, [] => []
  | index, opened, .openSpliceClose :: rest => (index, index) :: productions (index + 1) opened rest
  | index, _, .open_ :: rest => productions index index rest
  | index, opened, .close :: rest => (opened, index) :: productions (index + 1) opened rest
  | index, opened, _ :: rest => productions index opened rest

theorem productions_counted (ops : List Opcode) (index opened : Nat) :
    (productions index opened ops).map Prod.snd = List.range' index (productions index opened ops).length := by
  induction ops generalizing index opened with
  | nil => rfl
  | cons opcode ops ih =>
    cases opcode <;> simp [productions, ih, List.range'_succ]

/-- What the writers store an object as: every content object is a file. -/
def stored (object : ObjectType × Checksum) : ObjectType × Checksum :=
  if object.1.isMeta then object else (.file, object.2)

/-- An object type that the writers store as itself. -/
def Storable (objtype : ObjectType) : Prop := objtype.isMeta ∨ objtype = .file

instance (objtype : ObjectType) : Decidable (Storable objtype) := by unfold Storable; infer_instance

theorem stored_eq_self : stored object = object ↔ Storable object.1 := by
  obtain ⟨objtype, csum⟩ := object
  cases kind : objtype.isMeta <;> simp [stored, Storable, kind, eq_comm]

theorem storable_stored (object : ObjectType × Checksum) : Storable (stored object).1 := by
  unfold stored Storable
  split
  · next kind => exact .inl kind
  · exact .inr rfl

section Effect

variable {σ : Type} {store : Store σ} {part : PartTables} {objects : List (ObjectType × Checksum)}
  {checks : ModeChecks} {m m' : Machine σ} {ops ops' : Bytes}

/-! ### The open object -/

variable {bytes : Bytes} {txn : Txn σ}

def OpenState.object (obj : OpenState) : ObjectType × Checksum := (obj.objtype, obj.csum)

/-- An open object whose content writer hashes its header and expects its checksum. -/
def OpenState.Sound (obj : OpenState) : Prop :=
  match obj.sink with
  | .buffer _ => True
  | .content writer =>
    obj.objtype.isMeta = false ∧ writer.expected = obj.csum ∧
      (writer.header.serialize >>= FileHeader.frame) = .ok writer.framed

/-- A sink after more bytes. -/
def Sink.append : Sink → Bytes → Sink
  | buffer held, bytes => buffer (held ++ bytes)
  | content writer, bytes => content { writer with content := writer.content ++ bytes }

theorem Sink.writeAll_eq_ok {sink : Sink} (ok : sink.writeAll store bytes txn = .ok written) :
    written.1 = sink.append bytes ∧ written.2.log = txn.log := by
  cases sink with
  | buffer held => cases ok; exact ⟨rfl, rfl⟩
  | content writer =>
    obtain ⟨_, appended, ⟨⟩⟩ := bind_eq_ok.mp ok
    obtain ⟨state, -, ⟨⟩⟩ := bind_eq_ok.mp appended
    exact ⟨rfl, rfl⟩

theorem Sink.append_append (sink : Sink) (first second : Bytes) :
    (sink.append first).append second = sink.append (first ++ second) := by
  cases sink <;> simp [Sink.append]

@[simp] theorem Sink.append_nil (sink : Sink) : sink.append [] = sink := by
  cases sink <;> simp [Sink.append]

/-- **Writing pieces appends them, and writes no object.** -/
theorem Sink.writePieces_eq_ok {sink : Sink} (ok : sink.writePieces store txn pieces = .ok written) :
    written.1 = sink.append pieces.flatten ∧ written.2.log = txn.log := by
  induction pieces generalizing sink txn with
  | nil => cases ok; exact ⟨(Sink.append_nil sink).symm, rfl⟩
  | cons piece pieces ih =>
    obtain ⟨⟨next, after⟩, first, rest⟩ := bind_eq_ok.mp ok
    obtain ⟨rfl, log⟩ := Sink.writeAll_eq_ok first
    obtain ⟨sunk, logRest⟩ := ih rest
    exact ⟨by rw [sunk, Sink.append_append, List.flatten_cons], logRest.trans log⟩

theorem OpenState.Sound.append {obj : OpenState} (sound : obj.Sound) (bytes : Bytes) :
    OpenState.Sound { obj with sink := obj.sink.append bytes } := by
  obtain ⟨objtype, csum, outSize, fileMeta, sink⟩ := obj
  cases sink with
  | buffer held => trivial
  | content writer => exact sound

/-! ### One write -/

variable {csum : Checksum} {txn' : Txn σ} {objtype : ObjectType}

/-- A transaction that logged one more write: of the object, and verified. -/
def Delivers (store : Store σ) (txn txn' : Txn σ) (object : ObjectType × Checksum) : Prop :=
  ∃ written : Written, txn'.log = txn.log ++ [written] ∧ written.Verified store ∧ written.object = object

theorem writeMetadata_delivers
    (ok : writeMetadata store ty csum bytes txn = .ok txn') : Delivers store txn txn' (stored (ty, csum)) := by
  obtain ⟨-, kind, digest, state, -, rfl⟩ := (writeMetadata_eq_ok store).mp ok
  exact ⟨_, rfl, digest, by rw [stored, if_pos kind]; rfl⟩

theorem writeSymlink_delivers (content : objtype.isMeta = false)
    (ok : writeSymlink store target fileMeta csum txn = .ok txn') :
    Delivers store txn txn' (stored (objtype, csum)) := by
  obtain ⟨-, framed, framing, digest, state, -, rfl⟩ := (writeSymlink_eq_ok store).mp ok
  exact ⟨_, rfl, ⟨framed, framing, digest⟩, by simp [stored, content, Written.object]⟩

theorem finish_delivers {writer : ContentWriter}
    (content : objtype.isMeta = false) (ok : writer.finish store txn = .ok txn')
    (framing : (writer.header.serialize >>= FileHeader.frame) = .ok writer.framed) :
    Delivers store txn txn' (stored (objtype, writer.expected)) := by
  obtain ⟨flushed, -, digest, state, -, rfl⟩ := (ContentWriter.finish_eq_ok store).mp ok
  exact ⟨_, rfl, ⟨writer.framed, framing, digest⟩, by simp [stored, content, Written.object]⟩

theorem closeObject_delivers {obj : OpenState} (sound : obj.Sound)
    (ok : closeObject store obj txn = .ok txn') : Delivers store txn txn' (stored obj.object) := by
  obtain ⟨objtype, csum, outSize, fileMeta, sink⟩ := obj
  rw [closeObject] at ok
  split at ok
  · cases ok
  cases sink with
  | buffer bytes =>
    simp only at ok
    split at ok
    · exact writeMetadata_delivers ok
    · next content =>
      cases fileMeta with
      | none => cases ok
      | some fileMeta =>
        obtain ⟨target, -, written⟩ := bind_eq_ok.mp ok
        exact writeSymlink_delivers (by simpa using content) written
  | content writer =>
    obtain ⟨content, rfl, framing⟩ := sound
    exact finish_delivers content ok framing

theorem writeContentSlice_delivers {modeIdx xattrIdx : Nat} (content : objtype.isMeta = false)
    (ok : writeContentSlice store part modeIdx xattrIdx bytes csum checks txn = .ok txn') :
    Delivers store txn txn' (stored (objtype, csum)) := by
  obtain ⟨fileMeta, -, ok⟩ := bind_eq_ok.mp ok
  obtain ⟨-, -, ok⟩ := bind_eq_ok.mp ok
  split at ok
  · obtain ⟨target, -, written⟩ := bind_eq_ok.mp ok
    exact writeSymlink_delivers content written
  · obtain ⟨⟨writer, begun⟩, opening, ok⟩ := bind_eq_ok.mp ok
    obtain ⟨⟨sink, filled⟩, pieces, ok⟩ := bind_eq_ok.mp ok
    obtain ⟨-, framed, framing, -, state, -, ⟨⟩⟩ := (contentWriter_eq_ok store).mp opening
    obtain ⟨rfl, log⟩ := Sink.writePieces_eq_ok pieces
    obtain ⟨written, added, verified, object⟩ := finish_delivers content ok framing
    exact ⟨written, by rw [added, log], verified, object⟩

/-! ### One operation -/

/-- An operation that writes no object and keeps the open one, but for its output. -/
def KeepsOpen (m m' : Machine σ) : Prop :=
  m'.index = m.index ∧ m'.txn.log = m.txn.log ∧
    ∀ obj', m'.opened = some obj' → ∃ obj bytes, m.opened = some obj ∧
      obj' = { obj with sink := obj.sink.append bytes }

/-- What each operation does to the index, the open object and the log. -/
def Effect (store : Store σ) (objects : List (ObjectType × Checksum)) (m m' : Machine σ) : Opcode → Prop
  | .openSpliceClose =>
    m'.index = m.index + 1 ∧ m'.opened = m.opened ∧
      ∃ object, objects[m.index]? = some object ∧ Delivers store m.txn m'.txn (stored object)
  | .open_ =>
    m'.index = m.index ∧ m'.txn.log = m.txn.log ∧
      ∃ obj : OpenState, m'.opened = some obj ∧ obj.Sound ∧ objects[m.index]? = some obj.object
  | .close =>
    m'.index = m.index + 1 ∧ m'.opened = none ∧
      ∃ obj : OpenState, m.opened = some obj ∧ (obj.Sound → Delivers store m.txn m'.txn (stored obj.object))
  | _ => KeepsOpen m m'

theorem objectAt_eq_ok :
    objectAt objects index = .ok object ↔ objects[index]? = some object := by
  unfold objectAt
  split
  · next found => rw [found]; simp
  · next found => rw [found]; simp [opError]

theorem spliceOp_effect (ok : spliceOp store part objects checks m ops = .ok (m', ops')) :
    skipOperands (operandCount .openSpliceClose (bareAt objects m.index)) ops = some ops' ∧
      Effect store objects m m' .openSpliceClose := by
  obtain ⟨⟨objtype, csum⟩, found, ok⟩ := bind_eq_ok.mp ok
  have found := objectAt_eq_ok.mp found
  have bare : bareAt objects m.index = objtype.isMeta := by rw [bareAt, found]
  rw [bare]
  dsimp only at ok
  split at ok
  · next kind =>
    obtain ⟨⟨len, ops₁⟩, takeLen, ok⟩ := bind_eq_ok.mp ok
    obtain ⟨⟨off, ops₂⟩, takeOff, ok⟩ := bind_eq_ok.mp ok
    split at ok
    · cases ok
    · obtain ⟨bytes, -, ok⟩ := bind_eq_ok.mp ok
      obtain ⟨txn, written, ⟨⟩⟩ := bind_eq_ok.mp ok
      refine ⟨?_, rfl, rfl, _, found, writeMetadata_delivers written⟩
      simp [operandCount, kind, skipOperands_succ takeLen, skipOperands_succ takeOff]
  · next kind =>
    obtain ⟨⟨modeIdx, ops₁⟩, takeMode, ok⟩ := bind_eq_ok.mp ok
    obtain ⟨⟨xattrIdx, ops₂⟩, takeXattr, ok⟩ := bind_eq_ok.mp ok
    obtain ⟨⟨len, ops₃⟩, takeLen, ok⟩ := bind_eq_ok.mp ok
    obtain ⟨⟨off, ops₄⟩, takeOff, ok⟩ := bind_eq_ok.mp ok
    obtain ⟨bytes, -, ok⟩ := bind_eq_ok.mp ok
    obtain ⟨txn, written, ⟨⟩⟩ := bind_eq_ok.mp ok
    refine ⟨?_, rfl, rfl, _, found, writeContentSlice_delivers (by simpa using kind) written⟩
    simp [operandCount, kind, skipOperands_succ takeMode, skipOperands_succ takeXattr,
      skipOperands_succ takeLen, skipOperands_succ takeOff]

theorem openObject_eq_ok (content : fileMeta.isSome → objtype.isMeta = false)
    (ok : openObject store objtype csum outSize fileMeta txn = .ok opened) :
    opened.1.Sound ∧ opened.1.object = (objtype, csum) ∧ opened.2.log = txn.log := by
  cases fileMeta with
  | none => cases ok; exact ⟨trivial, rfl, rfl⟩
  | some held =>
    rw [openObject] at ok
    split at ok
    · cases ok; exact ⟨trivial, rfl, rfl⟩
    · obtain ⟨⟨writer, begun⟩, opening, ⟨⟩⟩ := bind_eq_ok.mp ok
      obtain ⟨-, framed, framing, -, state, -, ⟨⟩⟩ := (contentWriter_eq_ok store).mp opening
      exact ⟨⟨content rfl, rfl, framing⟩, rfl, rfl⟩

theorem openOp_effect (ok : openOp store part objects checks m ops = .ok (m', ops')) :
    skipOperands (operandCount .open_ (bareAt objects m.index)) ops = some ops' ∧
      Effect store objects m m' .open_ := by
  obtain ⟨⟨modeIdx, ops₁⟩, takeMode, ok⟩ := bind_eq_ok.mp ok
  obtain ⟨⟨xattrIdx, ops₂⟩, takeXattr, ok⟩ := bind_eq_ok.mp ok
  obtain ⟨⟨outSize, ops₃⟩, takeSize, ok⟩ := bind_eq_ok.mp ok
  obtain ⟨⟨objtype, csum⟩, found, ok⟩ := bind_eq_ok.mp ok
  obtain ⟨fileMeta, meta_, ok⟩ := bind_eq_ok.mp ok
  have content : fileMeta.isSome → objtype.isMeta = false := by
    intro some
    unfold openMeta at meta_
    split at meta_
    · cases meta_; cases some
    · next kind => simpa using kind
  split at ok
  · cases ok
  · obtain ⟨⟨obj, txn⟩, opening, ⟨⟩⟩ := bind_eq_ok.mp ok
    obtain ⟨sound, object, log⟩ := openObject_eq_ok content opening
    refine ⟨?_, rfl, log, obj, rfl, sound, ?_⟩
    · simp [operandCount, skipOperands_succ takeMode, skipOperands_succ takeXattr, skipOperands_succ takeSize]
    · rw [object]; exact objectAt_eq_ok.mp found

theorem closeOp_effect (ok : closeOp store m ops = .ok (m', ops')) :
    ops' = ops ∧ Effect store objects m m' .close := by
  unfold closeOp at ok
  cases opened : m.opened with
  | none => rw [opened] at ok; cases ok
  | some obj =>
    rw [opened] at ok
    obtain ⟨txn, closed, ⟨⟩⟩ := bind_eq_ok.mp ok
    exact ⟨rfl, rfl, rfl, obj, opened, fun sound => closeObject_delivers sound closed⟩

theorem bspatchOp_effect (ok : bspatchOp store part m ops = .ok (m', ops')) :
    skipOperands 2 ops = some ops' ∧ KeepsOpen m m' := by
  obtain ⟨⟨streamOff, ops₁⟩, takeOff, ok⟩ := bind_eq_ok.mp ok
  obtain ⟨⟨streamLen, ops₂⟩, takeLen, ok⟩ := bind_eq_ok.mp ok
  cases source : m.source.activeBytes with
  | none => rw [source] at ok; cases ok
  | some readSource =>
    cases opened : m.opened with
    | none => rw [source, opened] at ok; cases ok
    | some obj =>
      rw [source, opened] at ok
      obtain ⟨stream, -, ok⟩ := bind_eq_ok.mp ok
      split at ok
      · cases ok
      · obtain ⟨⟨sink, txn⟩, pieces, ok⟩ := bind_eq_ok.mp ok
        obtain ⟨-, -, ⟨⟩⟩ := bind_eq_ok.mp ok
        obtain ⟨rfl, log⟩ := Sink.writePieces_eq_ok pieces
        refine ⟨?_, rfl, log, ?_⟩
        · simp [skipOperands_succ takeOff, skipOperands_succ takeLen]
        · rintro obj' ⟨⟩
          exact ⟨obj, _, opened, rfl⟩

theorem writeOp_effect (ok : writeOp store part m ops = .ok (m', ops')) :
    skipOperands 2 ops = some ops' ∧ KeepsOpen m m' := by
  obtain ⟨⟨length, ops₁⟩, takeLength, ok⟩ := bind_eq_ok.mp ok
  obtain ⟨⟨off, ops₂⟩, takeOff, ok⟩ := bind_eq_ok.mp ok
  cases opened : m.opened with
  | none => rw [opened] at ok; cases ok
  | some obj =>
    rw [opened] at ok
    dsimp only at ok
    split at ok
    · cases ok
    split at ok
    · cases ok
    obtain ⟨bytes, -, ok⟩ := bind_eq_ok.mp ok
    obtain ⟨⟨sink, txn⟩, pieces, ⟨⟩⟩ := bind_eq_ok.mp ok
    obtain ⟨rfl, log⟩ := Sink.writePieces_eq_ok pieces
    refine ⟨?_, rfl, log, ?_⟩
    · simp [skipOperands_succ takeLength, skipOperands_succ takeOff]
    · rintro obj' ⟨⟩
      exact ⟨obj, _, opened, rfl⟩

theorem setReadSourceOp_effect (ok : setReadSourceOp store part m ops = .ok (m', ops')) :
    skipOperands 1 ops = some ops' ∧ KeepsOpen m m' := by
  obtain ⟨⟨off, ops₁⟩, takeOff, ok⟩ := bind_eq_ok.mp ok
  obtain ⟨bytes, -, ok⟩ := bind_eq_ok.mp ok
  obtain ⟨csum, -, ok⟩ := bind_eq_ok.mp ok
  obtain ⟨⟨source, txn⟩, selected, ⟨⟩⟩ := bind_eq_ok.mp ok
  have log : txn.log = m.txn.log := by
    unfold SourceCache.set at selected
    split at selected
    · cases selected; rfl
    · obtain ⟨_, -, ⟨⟩⟩ := bind_eq_ok.mp selected; rfl
  exact ⟨by simp [skipOperands_succ takeOff], rfl, log, fun obj opened => ⟨obj, [], opened, by simp⟩⟩

theorem unsetReadSourceOp_effect (ok : unsetReadSourceOp m ops = .ok (m', ops')) :
    ops' = ops ∧ KeepsOpen m m' := by
  cases ok
  exact ⟨rfl, rfl, rfl, fun obj opened => ⟨obj, [], opened, by simp⟩⟩

/-- **One operation.** It takes its operands from the stream, and has the effect of its opcode. -/
theorem stepOp_effect (ok : stepOp store part objects checks opcode m ops = .ok (m', ops')) :
    skipOperands (operandCount opcode (bareAt objects m.index)) ops = some ops' ∧
      Effect store objects m m' opcode := by
  cases opcode with
  | openSpliceClose => exact spliceOp_effect ok
  | open_ => exact openOp_effect ok
  | write => exact writeOp_effect ok
  | bspatch => exact bspatchOp_effect ok
  | setReadSource => exact setReadSourceOp_effect ok
  | unsetReadSource =>
    obtain ⟨rfl, kept⟩ := unsetReadSourceOp_effect ok
    exact ⟨rfl, kept⟩
  | close =>
    obtain ⟨rfl, closed⟩ : ops' = ops ∧ Effect store objects m m' .close := closeOp_effect ok
    exact ⟨rfl, closed⟩

/-! ### A whole stream -/

variable {opened : Nat}

/-- The open object, if there is one, is the declared object at `opened`. -/
def Tracks (objects : List (ObjectType × Checksum)) (m : Machine σ) (opened : Nat) : Prop :=
  ∀ obj, m.opened = some obj → obj.Sound ∧ objects[opened]? = some obj.object

theorem KeepsOpen.tracks (kept : KeepsOpen m m') (tracks : Tracks objects m opened) :
    Tracks objects m' opened := by
  intro obj' isOpen
  obtain ⟨obj, bytes, wasOpen, rfl⟩ := kept.2.2 obj' isOpen
  exact ⟨(tracks obj wasOpen).1.append bytes, (tracks obj wasOpen).2⟩

/-- The object that a production writes. -/
def produced (objects : List (ObjectType × Checksum)) (production : Nat × Nat) : Option (ObjectType × Checksum) :=
  (objects[production.1]?).map stored

/-- The log grew by one verified write for each production. -/
def Logs (store : Store σ) (objects : List (ObjectType × Checksum)) (txn txn' : Txn σ)
    (made : List (Nat × Nat)) : Prop :=
  ∃ added : List Written, txn'.log = txn.log ++ added ∧ (∀ written ∈ added, written.Verified store) ∧
    added.map (fun written => some written.object) = made.map (produced objects)

theorem Logs.nil (same : txn'.log = txn.log) : Logs store objects txn txn' [] :=
  ⟨[], by rw [same, List.append_nil], by simp, rfl⟩

theorem Delivers.logs
    (delivers : Delivers store txn txn' (stored object)) (found : objects[production.1]? = some object) :
    Logs store objects txn txn' [production] := by
  obtain ⟨written, log, verified, same⟩ := delivers
  refine ⟨[written], log, by simpa using verified, ?_⟩
  simp [produced, found, same]

theorem Logs.append (first : Logs store objects txn txn' made)
    (second : Logs store objects txn' txn'' more) : Logs store objects txn txn'' (made ++ more) := by
  obtain ⟨added, log, verified, same⟩ := first
  obtain ⟨added', log', verified', same'⟩ := second
  refine ⟨added ++ added', by rw [log', log, List.append_assoc], ?_, by simp [same, same']⟩
  intro written member
  exact (List.mem_append.mp member).elim (verified written) (verified' written)

/-- **What one operation logs.** The productions of the operation are logged, and the rest of the
stream starts from the index and the open object that the operation leaves. -/
theorem Effect.logs (effect : Effect store objects m m' opcode) (tracks : Tracks objects m opened) :
    m'.index = (if opcode.advances then m.index + 1 else m.index) ∧
    ∃ made opened', m'.index = m.index + made.length ∧ Logs store objects m.txn m'.txn made ∧
      Tracks objects m' opened' ∧
      ∀ rest, productions m.index opened (opcode :: rest) = made ++ productions m'.index opened' rest := by
  cases opcode with
  | openSpliceClose =>
    obtain ⟨index, same, object, found, delivers⟩ := effect
    refine ⟨index, [(m.index, m.index)], opened, index, delivers.logs found, ?_, fun rest => by rw [index]; rfl⟩
    exact fun obj isOpen => tracks obj (same ▸ isOpen)
  | open_ =>
    obtain ⟨index, log, obj, isOpen, sound, found⟩ := effect
    refine ⟨index, [], m.index, index, .nil log, ?_, fun rest => by rw [index]; rfl⟩
    intro obj' isOpen'
    cases isOpen.symm.trans isOpen'
    exact ⟨sound, found⟩
  | close =>
    obtain ⟨index, closed, obj, isOpen, delivers⟩ := effect
    obtain ⟨sound, found⟩ := tracks obj isOpen
    refine ⟨index, [(opened, m.index)], opened, index, (delivers sound).logs found, ?_,
      fun rest => by rw [index]; rfl⟩
    intro obj' isOpen'
    cases closed.symm.trans isOpen'
  | write | bspatch | setReadSource | unsetReadSource =>
    exact ⟨effect.1, [], opened, effect.1, .nil effect.2.1, effect.tracks tracks, fun rest => by rw [effect.1]; rfl⟩

/-- **A whole stream.** The log grows by one verified write for each production of the stream, and
the index by their number. -/
theorem runOps_writes
    (tracks : Tracks objects m opened) (ok : runOps store part objects checks fuel m ops = .ok final) :
    Logs store objects m.txn final.txn (productions m.index opened (opcodes objects fuel m.index ops)) ∧
      final.index = m.index + (productions m.index opened (opcodes objects fuel m.index ops)).length := by
  induction fuel generalizing m ops opened with
  | zero => cases ok; exact ⟨.nil rfl, rfl⟩
  | succ fuel ih =>
    cases ops with
    | nil => cases ok; exact ⟨.nil rfl, rfl⟩
    | cons byte ops =>
      rw [runOps] at ok
      cases decoded : Opcode.ofByte byte with
      | none => rw [decoded] at ok; cases ok
      | some opcode =>
        rw [decoded] at ok
        obtain ⟨⟨m', ops'⟩, step, rest⟩ := bind_eq_ok.mp ok
        obtain ⟨skipped, effect⟩ := stepOp_effect step
        obtain ⟨index, made, opened', count, logs, tracks', split⟩ := effect.logs tracks
        obtain ⟨restLogs, restIndex⟩ := ih tracks' rest
        have stream : opcodes objects (fuel + 1) m.index (byte :: ops) =
            opcode :: opcodes objects fuel m'.index ops' := by
          rw [opcodes, decoded]
          simp only [skipped, index]
        rw [stream, split]
        refine ⟨logs.append restLogs, ?_⟩
        rw [restIndex, List.length_append, count, Nat.add_assoc]

end Effect

/-! ### A whole part -/

variable {payload : Bytes} {objects : List (ObjectType × Checksum)}

/-- The operation stream of a payload. -/
def opStream (payload : Bytes) : Bytes :=
  match partView payload with
  | .ok view => view.ops
  | .error _ => []

/-- The productions of a payload, for a list of declared objects. -/
def payloadProductions (payload : Bytes) (objects : List (ObjectType × Checksum)) : List (Nat × Nat) :=
  productions 0 0 (opcodes objects (opStream payload).length 0 (opStream payload))

/-- Every production writes the object that it is counted as, and every declared object is of a type
that the writers store as itself. -/
def Orderly (payload : Bytes) (objects : List (ObjectType × Checksum)) : Prop :=
  (∀ production ∈ payloadProductions payload objects, objects[production.1]? = objects[production.2]?) ∧
    ∀ object ∈ objects, Storable object.1

instance (payload : Bytes) (objects : List (ObjectType × Checksum)) : Decidable (Orderly payload objects) := by
  unfold Orderly; infer_instance

theorem applyPart_logs {σ : Type} {store : Store σ}
    {txn final : Txn σ} (ok : applyPart store payload objects checks txn = .ok final) :
    Logs store objects txn final (payloadProductions payload objects) ∧
      (payloadProductions payload objects).length = objects.length := by
  obtain ⟨view, viewed, ok⟩ := bind_eq_ok.mp ok
  obtain ⟨part, -, ok⟩ := bind_eq_ok.mp ok
  obtain ⟨m, run, ended⟩ := bind_eq_ok.mp ok
  have ops : view.ops = opStream payload := by rw [opStream, viewed]
  rw [ops] at run
  have tracks : Tracks objects (⟨0, ⟨none, false⟩, none, txn⟩ : Machine σ) 0 := by rintro obj ⟨⟩
  obtain ⟨logs, index⟩ := runOps_writes tracks run
  unfold endOps at ended
  split at ended
  · cases ended
  split at ended
  · cases ended
  next counted =>
    cases ended
    have counted := index.symm.trans (not_not.mp counted)
    exact ⟨logs, by simpa [payloadProductions] using counted⟩

theorem map_counted (count : (payloadProductions payload objects).length = objects.length) :
    (payloadProductions payload objects).map (fun production => objects[production.2]?) = objects.map some := by
  have counted := productions_counted (opcodes objects (opStream payload).length 0 (opStream payload)) 0 0
  rw [← payloadProductions, count] at counted
  calc _ = ((payloadProductions payload objects).map Prod.snd).map (objects[·]?) := by rw [List.map_map]; rfl
    _ = objects.map some := by
      rw [counted]
      apply List.ext_getElem
      · simp
      · intro i left right
        have inside : i < objects.length := by simpa using right
        simp [inside]

/-- The productions write the declared objects exactly when the payload is orderly. -/
theorem produced_eq_iff_orderly (count : (payloadProductions payload objects).length = objects.length) :
    (payloadProductions payload objects).map (produced objects) = objects.map some ↔ Orderly payload objects := by
  rw [← map_counted count, List.map_inj_left]
  refine ⟨fun same => ?_, fun ⟨placed, storable⟩ production member => ?_⟩
  · -- Every declared object is what some production stores.
    have storable : ∀ object ∈ objects, Storable object.1 := by
      intro object declared
      have counted : some object ∈
          (payloadProductions payload objects).map (fun production => objects[production.2]?) := by
        rw [map_counted count]
        exact List.mem_map_of_mem declared
      obtain ⟨production, member, found⟩ := List.mem_map.mp counted
      obtain ⟨source, -, rfl⟩ := Option.map_eq_some_iff.mp ((same production member).trans found)
      exact storable_stored source
    refine ⟨fun production member => ?_, storable⟩
    rw [← same production member, produced]
    cases found : objects[production.1]? with
    | none => rfl
    | some object => exact congrArg some (stored_eq_self.mpr (storable object (List.mem_of_getElem? found))).symm
  · rw [produced, ← placed production member]
    cases found : objects[production.1]? with
    | none => rfl
    | some object => exact congrArg some (stored_eq_self.mpr (storable object (List.mem_of_getElem? found)))

/-- **What a successful application delivers.** It writes as many objects as are declared, each
verified against its checksum; they are the declared objects, in order, exactly when the payload is
orderly for them. -/
theorem applyPart_delivers_iff {σ : Type} (store : Store σ) (payload : Bytes)
    (objects : List (ObjectType × Checksum)) (checks : ModeChecks) (txn final : Txn σ)
    (ok : applyPart store payload objects checks txn = .ok final) :
    ∃ added : List Written, final.log = txn.log ++ added ∧ added.length = objects.length ∧
      (∀ written ∈ added, written.Verified store) ∧
      (added.map Written.object = objects ↔ Orderly payload objects) := by
  obtain ⟨⟨added, log, verified, same⟩, count⟩ := applyPart_logs ok
  have length := congrArg List.length same
  refine ⟨added, log, by simpa [count] using length, verified, ?_⟩
  have objectwise : added.map (fun written => some written.object) = (added.map Written.object).map some := by
    rw [List.map_map]; rfl
  rw [← produced_eq_iff_orderly count, ← same, objectwise]
  exact (List.map_injective_iff.mpr (Option.some_injective _)).eq_iff.symm

/-! ### A stream that skips an object -/

/-- The digest of the empty byte string. -/
def emptyDigest : Checksum :=
  ⟨[0xe3, 0xb0, 0xc4, 0x42, 0x98, 0xfc, 0x1c, 0x14, 0x9a, 0xfb, 0xf4, 0xc8, 0x99, 0x6f, 0xb9, 0x24, 0x27, 0xae,
    0x41, 0xe4, 0x64, 0x9b, 0x93, 0x4c, 0xa4, 0x95, 0x99, 0x1b, 0x78, 0x52, 0xb8, 0x55], by decide⟩

/-- A store that takes every object. -/
def openStore : Store Unit where
  mode := .archive
  sha256 := fun bytes => if bytes = [] then emptyDigest else .filled (.ofNat bytes.length)
  stageMetadata := fun _ _ _ _ => .ok ()
  stageSymlink := fun _ _ _ => .ok ()
  openTemp := fun _ _ => .ok ()
  appendTemp := fun _ _ => .ok ()
  flushTemp := fun _ => .ok ()
  stageRegular := fun _ _ _ _ => .ok ()
  loadSourceBlob := fun _ _ => .ok ([], ())

/-- Empty tables, an empty data source, and the operations `o 0 0 0`, `S 0 0`, `c`. -/
def interleavedPayload : Bytes := [0x6f, 0, 0, 0, 0x53, 0, 0, 0x63, 0, 0, 0]

/-- Two dirtrees are declared; the first is written twice and the second never, and the application
succeeds. -/
theorem applyPart_skips_object :
    (applyPart openStore interleavedPayload [(.dirTree, emptyDigest), (.dirTree, .filled 0)]
        (.new false .archive) ⟨(), []⟩).map (fun txn => txn.log.map Written.object) =
      .ok [(.dirTree, emptyDigest), (.dirTree, emptyDigest)] ∧
    emptyDigest ≠ .filled 0 := by
  decide +kernel

/-- Empty tables, a data source of one byte, and the operations `S 1 0`, `o 0 0 2`, `w 1 0`, `w 1
0`, `c`. -/
def orderlyPayload : Bytes :=
  [7, 0x53, 1, 0, 0x6f, 0, 0, 2, 0x77, 1, 0, 0x77, 1, 0, 0x63, 1, 0, 0]

/-- One object is spliced, the next one is opened, written in two pieces and closed. -/
theorem applyPart_delivers_orderly :
    ∃ added : List Written,
      [.metadata .dirTree (.filled 1) [7], .metadata .dirMeta (.filled 2) [7, 7]] = [] ++ added ∧
      added.map Written.object = [(.dirTree, .filled 1), (.dirMeta, .filled 2)] := by
  have ok : applyPart openStore orderlyPayload [(.dirTree, .filled 1), (.dirMeta, .filled 2)]
        (.new false .archive) ⟨(), []⟩ =
      .ok ⟨(), [.metadata .dirTree (.filled 1) [7], .metadata .dirMeta (.filled 2) [7, 7]]⟩ := by decide +kernel
  obtain ⟨added, log, -, -, delivered⟩ := applyPart_delivers_iff _ _ _ _ _ _ ok
  exact ⟨added, log, delivered.mpr (by decide +kernel)⟩

end Ostrya.Delta
