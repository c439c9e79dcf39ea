/-
**Replaying generated operations.**

`Plays m segment m'` says that the machine of the applier, at `m`, runs through the operations `segment` to
`m'`, whatever follows them in the stream. Segments compose, so an object is replayed operation by operation.
The store is one that accepts every write and that holds the source objects of the repository.
-/

import Ostrya.Delta.Delivery
import Ostrya.Delta.Framing

namespace Ostrya.Delta

open ByteFormat Gvariant Ostrya.Core

/-! ### Fuel -/

theorem takeLeb_length (taken : takeLeb ops = .ok (value, rest)) :
    rest.length ≤ ops.length := by
  obtain ⟨⟨_, consumed⟩, -, ⟨⟩⟩ := bind_eq_ok.mp taken
  simp

theorem skipOperands_length (skipped : skipOperands count ops = some rest) :
    rest.length ≤ ops.length := by
  induction count generalizing ops with
  | zero => cases skipped; exact le_rfl
  | succ count ih =>
    rw [skipOperands] at skipped
    split at skipped
    · next taken => exact (ih skipped).trans (takeLeb_length taken)
    · cases skipped

section Replay

variable {σ : Type} (store : Store σ) (part : PartTables) (objects : List (ObjectType × Checksum))
  (checks : ModeChecks)

/-- The length of the stream is enough fuel, and more makes no difference. -/
theorem runOps_of_enough (enough : ops.length ≤ fuel) (enough' : ops.length ≤ more) :
    runOps store part objects checks fuel m ops = runOps store part objects checks more m ops := by
  induction fuel generalizing m ops more with
  | zero =>
    obtain rfl : ops = [] := List.length_eq_zero_iff.mp (Nat.le_zero.mp enough)
    cases more <;> rfl
  | succ fuel ih =>
    cases ops with
    | nil => cases more <;> rfl
    | cons byte ops =>
      rw [List.length_cons] at enough enough'
      obtain ⟨more, rfl⟩ : ∃ less, more = less + 1 := ⟨more - 1, by omega⟩
      rw [runOps, runOps]
      cases Opcode.ofByte byte with
      | none => rfl
      | some opcode =>
        cases step : stepOp store part objects checks opcode m ops with
        | error fault => simp only [step, error_bind]
        | ok next =>
          have shorter := skipOperands_length (stepOp_effect step).1
          simp only [step, ok_bind]
          refine ih ?_ ?_ <;> omega

/-- The loop of `apply_part` over a whole stream. -/
def runAll (m : Machine σ) (ops : Bytes) : Except Error (Machine σ) :=
  runOps store part objects checks ops.length m ops

/-- The segment takes the machine from `m` to `m'`, whatever follows it. -/
def Plays (m : Machine σ) (segment : Bytes) (m' : Machine σ) : Prop :=
  ∀ rest, runAll store part objects checks m (segment ++ rest) = runAll store part objects checks m' rest

variable {store part objects checks}
variable {m m' m'' : Machine σ} {segment after : Bytes}

theorem Plays.refl (m : Machine σ) : Plays store part objects checks m [] m := fun _ => rfl

theorem Plays.trans (first : Plays store part objects checks m segment m')
    (second : Plays store part objects checks m' after m'') :
    Plays store part objects checks m (segment ++ after) m'' := by
  intro rest
  rw [List.append_assoc, first, second]

theorem Plays.op (step : ∀ rest, stepOp store part objects checks opcode m
      (operands.flatMap Varint.encode ++ rest) = .ok (m', rest)) :
    Plays store part objects checks m (Part.opBytes opcode operands) m' := by
  intro rest
  rw [runAll, Part.opBytes, List.cons_append, List.length_cons, runOps, Opcode.ofByte_byte]
  simp only [step rest, ok_bind]
  exact runOps_of_enough store part objects checks (by simp) le_rfl

/-! ### Operands and slices -/

variable {bytes data : Bytes} {off : Nat}

theorem takeLeb_encode (small : value < Varint.limit) (rest : Bytes) :
    takeLeb (Varint.encode value ++ rest) = .ok (value, rest) := by
  rw [takeLeb, Varint.decode_encode small, liftCore_ok, ok_bind]
  simp

/-- The bytes are found at an offset of the data. -/
def FoundAt (data : Bytes) (off : Nat) (bytes : Bytes) : Prop :=
  off + bytes.length ≤ data.length ∧ data.extract off (off + bytes.length) = bytes

theorem foundAt_of_append (extends_ : before ++ bytes <+: data) :
    FoundAt data before.length bytes := by
  obtain ⟨rest, rfl⟩ := extends_
  exact ⟨by simp, extract_append_middle before bytes rest⟩

theorem length_extract_run (inside : off + length ≤ data.length) :
    (data.extract off (off + length)).length = length := by
  rw [extract_length inside, Nat.add_sub_cancel_left]

theorem foundAt_extract (inside : off + length ≤ data.length) :
    FoundAt data off (data.extract off (off + length)) := by
  rw [FoundAt, length_extract_run inside]
  exact ⟨inside, rfl⟩

theorem slice_of_foundAt (found : FoundAt data off bytes)
    (fits : Addressable data) : slice data off bytes.length = .ok bytes := by
  rw [slice, checkedAdd, if_pos (found.1.trans fits)]
  simp only [if_pos found.1, found.2]

theorem FoundAt.off_lt (found : FoundAt data off bytes)
    (fits : Addressable data) : off < Varint.limit ∧ bytes.length < Varint.limit := by
  have bound := found.1.trans fits
  unfold usizeMax at bound
  unfold Varint.limit
  omega

/-! ### A store that accepts every write -/

variable {content : Bytes} {modeIdx xattrIdx : Nat}

/-- Every operation of the store succeeds. -/
structure Accepts (store : Store σ) : Prop where
  writable : store.mode ≠ .bareSplitXattrs
  metadata : ∀ checksum ty bytes state, ∃ next, store.stageMetadata checksum ty bytes state = .ok next
  symlink : ∀ checksum header state, ∃ next, store.stageSymlink checksum header state = .ok next
  temp : ∀ header state, ∃ next, store.openTemp header state = .ok next
  append : ∀ bytes state, ∃ next, store.appendTemp bytes state = .ok next
  flush : ∀ state, ∃ next, store.flushTemp state = .ok next
  regular : ∀ checksum header content state, ∃ next, store.stageRegular checksum header content state = .ok next

/-- A content object that the store takes under its checksum: the checks pass, the header is already
in the form that the store keeps, and the digest of header and content is the checksum. -/
structure Packable (store : Store σ) (checks : ModeChecks) (checksum : Checksum) (file : FileObject)
    (framed : Bytes) : Prop where
  checked : checks.check checksum file.fileMeta = .ok ()
  canonical : canonicalHeader store.mode file.header = file.header
  framing : (file.header.serialize >>= FileHeader.frame) = .ok framed
  reserved : (∃ content, file.kind = .regular content) → store.mode = .archive →
    ∃ region, (file.header.serializeArchive 0 >>= FileHeader.frame) = .ok region
  digest : store.sha256 (framed ++ file.content) = checksum

variable {checksum : Checksum} {file : FileObject} {framed : Bytes} {txn : Txn σ}

theorem FileObject.isSymlink_fileMeta (file : FileObject) :
    file.fileMeta.isSymlink = true ↔ ∃ target, file.kind = .symlink target := by
  rw [← file.kindOfMode, FileMeta.isSymlink, beq_iff_eq]
  rfl

theorem FileObject.isSymlink_of_regular (file : FileObject) (kind : file.kind = .regular content) :
    file.fileMeta.isSymlink = false := by
  rw [Bool.eq_false_iff, ne_eq, file.isSymlink_fileMeta]
  rintro ⟨target, link⟩
  cases kind.symm.trans link

theorem FileObject.symlinkHeader_fileMeta
    (kind : file.kind = .symlink target) : file.fileMeta.symlinkHeader target = file.header := by
  have link : file.mode &&& sIfmt = sIflnk := file.kindOfMode.mpr ⟨target, kind⟩
  have other : ¬ (sIflnk = 0 ∨ sIflnk = sIfreg) := by decide
  simp [FileMeta.symlinkHeader, FileObject.header, FileObject.fileMeta, link, other, kind]

theorem FileObject.regularHeader_fileMeta
    (kind : file.kind = .regular content) : file.fileMeta.regularHeader = file.header := by
  simp [FileMeta.regularHeader, FileObject.header, FileObject.fileMeta, kind]

section

variable (accepts : Accepts store)

include accepts

theorem Sink.writePieces_succeeds (sink : Sink) (txn : Txn σ) (pieces : List Bytes) :
    ∃ state, sink.writePieces store txn pieces = .ok (sink.append pieces.flatten, { txn with state }) := by
  induction pieces generalizing sink txn with
  | nil => exact ⟨txn.state, by rw [List.flatten_nil, Sink.append_nil]; rfl⟩
  | cons piece pieces ih =>
    obtain ⟨state, first⟩ : ∃ state, sink.writeAll store piece txn
        = .ok (sink.append piece, { txn with state }) := by
      cases sink with
      | buffer held => exact ⟨txn.state, rfl⟩
      | content writer =>
        obtain ⟨state, appended⟩ := accepts.append piece txn.state
        exact ⟨state, by simp [Sink.writeAll, ContentWriter.writeAll, appended, Sink.append]⟩
    obtain ⟨last, rest⟩ := ih (sink.append piece) { txn with state }
    exact ⟨last, by simp [Sink.writePieces, first, ok_bind, rest, Sink.append_append]⟩

theorem contentWriter_succeeds (kind : file.kind = .regular content)
    (packable : Packable store checks checksum file framed) (txn : Txn σ) :
    ∃ state, contentWriter store checksum file.fileMeta txn
      = .ok (⟨file.header, checksum, framed, []⟩, { txn with state }) := by
  obtain ⟨state, opened⟩ := accepts.temp file.header txn.state
  refine ⟨state, (contentWriter_eq_ok store).mpr ⟨accepts.writable, framed, ?_⟩⟩
  rw [FileObject.regularHeader_fileMeta kind, packable.canonical]
  exact ⟨packable.framing, packable.reserved ⟨content, kind⟩, state, opened, rfl⟩

theorem finish_succeeds (packable : Packable store checks checksum file framed) (txn : Txn σ) :
    ∃ state, (⟨file.header, checksum, framed, file.content⟩ : ContentWriter).finish store txn
      = .ok ⟨state, txn.log ++ [.regular checksum file.header file.content]⟩ := by
  obtain ⟨flushed, flush⟩ := accepts.flush txn.state
  obtain ⟨state, staged⟩ := accepts.regular checksum file.header file.content flushed
  exact ⟨state, (ContentWriter.finish_eq_ok store).mpr ⟨flushed, flush, packable.digest, state, staged, rfl⟩⟩

theorem writeSymlink_succeeds (kind : file.kind = .symlink target)
    (packable : Packable store checks checksum file framed) (txn : Txn σ) :
    ∃ state, writeSymlink store target file.fileMeta checksum txn
      = .ok ⟨state, txn.log ++ [.symlink checksum file.header]⟩ := by
  obtain ⟨state, staged⟩ := accepts.symlink checksum file.header txn.state
  refine ⟨state, (writeSymlink_eq_ok store).mpr ⟨accepts.writable, framed, ?_⟩⟩
  rw [FileObject.symlinkHeader_fileMeta kind, packable.canonical]
  have digest := packable.digest
  rw [FileObject.content, kind, List.append_nil] at digest
  exact ⟨packable.framing, digest, state, staged, rfl⟩

end

/-- The write that delivers a content object. -/
def FileObject.written (file : FileObject) (checksum : Checksum) : Written :=
  match file.kind with
  | .symlink _ => .symlink checksum file.header
  | .regular content => .regular checksum file.header content

/-- The bytes that splice a content object. -/
def FileObject.spliced (file : FileObject) : Bytes :=
  match file.kind with
  | .symlink target => asBytes target
  | .regular content => content

theorem writeContentSlice_succeeds (accepts : Accepts store)
    (metadata : part.fileMeta modeIdx xattrIdx = .ok file.fileMeta)
    (packable : Packable store checks checksum file framed) (txn : Txn σ) :
    ∃ state, writeContentSlice store part modeIdx xattrIdx file.spliced checksum checks txn
      = .ok ⟨state, txn.log ++ [file.written checksum]⟩ := by
  cases kind : file.kind with
  | symlink target =>
    obtain ⟨state, written⟩ := writeSymlink_succeeds accepts kind packable txn
    have link := file.isSymlink_fileMeta.mpr ⟨target, kind⟩
    refine ⟨state, ?_⟩
    simp [writeContentSlice, metadata, packable.checked, link, FileObject.spliced,
      FileObject.written, kind, symlinkTarget, written]
  | regular content =>
    obtain ⟨begun, opened⟩ := contentWriter_succeeds accepts kind packable txn
    obtain ⟨filled, pieces⟩ := Sink.writePieces_succeeds accepts
      (.content ⟨file.header, checksum, framed, []⟩) { txn with state := begun } (chunks ioChunk content)
    rw [chunks_flatten (by decide)] at pieces
    obtain ⟨state, finished⟩ := finish_succeeds accepts packable { txn with state := filled }
    refine ⟨state, ?_⟩
    simp only [FileObject.content, kind] at finished
    simp [writeContentSlice, metadata, packable.checked, file.isSymlink_of_regular kind,
      FileObject.spliced, FileObject.written, kind,
      opened, pieces, Sink.append, finished]

/-! ### Operations -/

variable (part objects checks)

variable {objtype : ObjectType}

/-- A number that an operand can carry. -/
abbrev Operand (value : Nat) : Prop := value < Varint.limit

theorem plays_spliceMetadata (accepts : Accepts store)
    (declared : objects[m.index]? = some (objtype, checksum)) (kind : objtype.isMeta = true)
    (found : FoundAt part.dataSource off bytes) (fits : Addressable part.dataSource)
    (small : bytes.length ≤ maxMetadataSize) (digest : store.sha256 bytes = checksum) :
    ∃ state, Plays store part objects checks m (Part.opBytes .openSpliceClose [bytes.length, off])
      { m with
        index := m.index + 1,
        txn := ⟨state, m.txn.log ++ [.metadata objtype checksum bytes]⟩ } := by
  obtain ⟨state, staged⟩ := accepts.metadata checksum objtype bytes m.txn.state
  obtain ⟨offSmall, lenSmall⟩ := found.off_lt fits
  have written : writeMetadata store objtype checksum bytes m.txn
      = .ok ⟨state, m.txn.log ++ [.metadata objtype checksum bytes]⟩ :=
    (writeMetadata_eq_ok store).mpr ⟨accepts.writable, kind, digest, state, staged, rfl⟩
  refine ⟨state, .op fun rest => ?_⟩
  simp [stepOp, spliceOp, objectAt_eq_ok.mpr declared, kind, takeLeb_encode, offSmall, lenSmall,
    Nat.not_lt.mpr small, slice_of_foundAt found fits, written]

theorem plays_spliceContent (accepts : Accepts store)
    (declared : objects[m.index]? = some (objtype, checksum)) (kind : objtype.isMeta = false)
    (modeSmall : Operand modeIdx) (xattrSmall : Operand xattrIdx)
    (metadata : part.fileMeta modeIdx xattrIdx = .ok file.fileMeta)
    (found : FoundAt part.dataSource off file.spliced) (fits : Addressable part.dataSource)
    (packable : Packable store checks checksum file framed) :
    ∃ state, Plays store part objects checks m
      (Part.opBytes .openSpliceClose [modeIdx, xattrIdx, file.spliced.length, off])
      { m with index := m.index + 1, txn := ⟨state, m.txn.log ++ [file.written checksum]⟩ } := by
  obtain ⟨offSmall, lenSmall⟩ := found.off_lt fits
  obtain ⟨state, written⟩ := writeContentSlice_succeeds accepts metadata packable m.txn
  refine ⟨state, .op fun rest => ?_⟩
  simp [stepOp, spliceOp, objectAt_eq_ok.mpr declared, kind, takeLeb_encode, offSmall, lenSmall,
    modeSmall, xattrSmall, slice_of_foundAt found fits, written]

/-- A regular file in the making: its content writer holds the bytes so far. -/
def filling (objtype : ObjectType) (checksum : Checksum) (file : FileObject) (framed sofar : Bytes) : OpenState :=
  ⟨objtype, checksum, file.content.length, some file.fileMeta,
    .content ⟨file.header, checksum, framed, sofar⟩⟩

theorem filling_produced (objtype : ObjectType) (checksum : Checksum) (file : FileObject) (framed sofar : Bytes) :
    (filling objtype checksum file framed sofar).sink.produced = sofar.length := rfl

theorem plays_open (accepts : Accepts store)
    (declared : objects[m.index]? = some (objtype, checksum)) (content_ : objtype.isMeta = false)
    (kind : file.kind = .regular content) (modeSmall : Operand modeIdx) (xattrSmall : Operand xattrIdx)
    (sizeSmall : Operand file.content.length) (metadata : part.fileMeta modeIdx xattrIdx = .ok file.fileMeta)
    (packable : Packable store checks checksum file framed) :
    ∃ state, Plays store part objects checks m
      (Part.opBytes .open_ [modeIdx, xattrIdx, file.content.length])
      { m with opened := some (filling objtype checksum file framed []), txn := { m.txn with state } } := by
  obtain ⟨state, opened⟩ := contentWriter_succeeds accepts kind packable m.txn
  refine ⟨state, .op fun rest => ?_⟩
  simp [stepOp, openOp, objectAt_eq_ok.mpr declared, takeLeb_encode, modeSmall, xattrSmall, sizeSmall, openMeta,
    content_, metadata, packable.checked, streams, file.isSymlink_of_regular kind, openObject, opened, filling]

theorem plays_write (accepts : Accepts store) (opened : m.opened = some (filling objtype checksum file framed sofar))
    (found : FoundAt (m.source.activeBytes.getD part.dataSource) off bytes)
    (small : Addressable (m.source.activeBytes.getD part.dataSource))
    (room : sofar.length + bytes.length ≤ file.content.length) :
    ∃ state, Plays store part objects checks m (Part.opBytes .write [bytes.length, off])
      { m with
        opened := some (filling objtype checksum file framed (sofar ++ bytes)), txn := { m.txn with state } } := by
  obtain ⟨offSmall, lenSmall⟩ := found.off_lt small
  obtain ⟨state, pieces⟩ := Sink.writePieces_succeeds accepts
    (filling objtype checksum file framed sofar).sink m.txn (chunks ioChunk bytes)
  rw [chunks_flatten (by decide)] at pieces
  refine ⟨state, .op fun rest => ?_⟩
  have bounded : ¬ file.content.length < sofar.length := by omega
  have fits : ¬ bytes.length > file.content.length - sofar.length := by omega
  have size : (filling objtype checksum file framed sofar).outSize = file.content.length := rfl
  simp only [stepOp, writeOp, List.flatMap_cons, List.flatMap_nil, List.append_nil, List.append_assoc,
    takeLeb_encode lenSmall, takeLeb_encode offSmall, ok_bind, opened, filling_produced, size, if_neg bounded,
    if_neg fits, slice_of_foundAt found small, pieces]
  rfl

theorem plays_close (accepts : Accepts store)
    (opened : m.opened = some (filling objtype checksum file framed file.content))
    (packable : Packable store checks checksum file framed) :
    ∃ state, Plays store part objects checks m (Part.opBytes .close [])
      { m with
        index := m.index + 1, opened := none,
        txn := ⟨state, m.txn.log ++ [.regular checksum file.header file.content]⟩ } := by
  obtain ⟨state, finished⟩ := finish_succeeds accepts packable m.txn
  refine ⟨state, .op fun rest => ?_⟩
  simp [stepOp, closeOp, opened, closeObject, filling, Sink.produced, finished]

/-! ### The read source -/

/-- The store holds the content objects of the repository. -/
def HoldsSources (store : Store σ) (repo : Repo) : Prop :=
  ∀ checksum file, repo.loadFile checksum = .ok file →
    ∀ state, ∃ next, store.loadSourceBlob checksum state = .ok (file.content, next)

/-- What the cache holds is the content of the object that it names. -/
def CacheSound (repo : Repo) (cache : SourceCache) : Prop :=
  ∀ checksum bytes, cache.loaded = some (checksum, bytes) →
    ∀ file, repo.loadFile checksum = .ok file → bytes = file.content

variable {repo : Repo} {source : Checksum} {sourceFile : FileObject}

theorem SourceCache.set_succeeds (holds : HoldsSources store repo)
    (loads : repo.loadFile source = .ok sourceFile) (sound : CacheSound repo cache) (txn : Txn σ) :
    ∃ state bytes, cache.set store source txn = .ok (⟨some (source, bytes), true⟩, { txn with state }) ∧
      bytes = sourceFile.content := by
  unfold SourceCache.set
  split
  · next held =>
    obtain ⟨⟨_, bytes⟩, loaded, rfl⟩ := Option.map_eq_some_iff.mp held
    exact ⟨txn.state, bytes, by rw [loaded], sound _ _ loaded _ loads⟩
  · obtain ⟨state, found⟩ := holds source sourceFile loads txn.state
    exact ⟨state, _, by simp only [found, ok_bind], rfl⟩

theorem plays_setReadSource (holds : HoldsSources store repo) (loads : repo.loadFile source = .ok sourceFile)
    (sound : CacheSound repo m.source) (found : FoundAt part.dataSource off source.bytes)
    (fits : Addressable part.dataSource) :
    ∃ state, Plays store part objects checks m (Part.opBytes .setReadSource [off])
      { m with source := ⟨some (source, sourceFile.content), true⟩, txn := { m.txn with state } } := by
  obtain ⟨offSmall, -⟩ := found.off_lt fits
  obtain ⟨state, _, selected, rfl⟩ := SourceCache.set_succeeds holds loads sound m.txn
  have cut := slice_of_foundAt found fits
  rw [source.length] at cut
  have parsed : Checksum.fromAy source.bytes = .ok source := Checksum.fromAy_eq_ok.mpr rfl
  refine ⟨state, .op fun rest => ?_⟩
  simp [stepOp, setReadSourceOp, takeLeb_encode, offSmall, cut, parsed, selected]

theorem plays_unsetReadSource :
    Plays store part objects checks m (Part.opBytes .unsetReadSource [])
      { m with source := { m.source with active := false } } := .op fun _ => rfl

theorem plays_bspatch (accepts : Accepts store) (opened : m.opened = some (filling objtype checksum file framed []))
    (active : m.source.activeBytes = some readSource) (found : FoundAt part.dataSource off stream)
    (fits : Addressable part.dataSource)
    (patched : bspatch readSource stream file.content.length = (pieces, .ok ()))
    (rebuilt : pieces.flatten = file.content) :
    ∃ state, Plays store part objects checks m (Part.opBytes .bspatch [off, stream.length])
      { m with
        opened := some (filling objtype checksum file framed file.content), txn := { m.txn with state } } := by
  obtain ⟨offSmall, lenSmall⟩ := found.off_lt fits
  obtain ⟨state, written⟩ := Sink.writePieces_succeeds accepts
    (filling objtype checksum file framed []).sink m.txn pieces
  rw [rebuilt] at written
  refine ⟨state, .op fun rest => ?_⟩
  have size : (filling objtype checksum file framed []).outSize = file.content.length := rfl
  simp only [stepOp, bspatchOp, List.flatMap_cons, List.flatMap_nil, List.append_nil, List.append_assoc,
    takeLeb_encode lenSmall, takeLeb_encode offSmall, ok_bind, opened, active, filling_produced, size,
    List.length_nil, Nat.not_lt_zero, if_false, Nat.sub_zero, slice_of_foundAt found fits, patched, written]
  rfl

end Replay

end Ostrya.Delta
