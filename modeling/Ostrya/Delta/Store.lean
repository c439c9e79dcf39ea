/-
**The object store under a static delta** (`write.rs`, and `ModeChecks` of `pull.rs`).

A transaction hashes what it is given, compares the digest with the expected checksum and stages the
object. What the file system does is the environment: a `Store` over any state `σ`, whose operations may
fail in any way. The log of a transaction is the list of the writes that succeeded, each after its checksum
was verified.
-/

import Ostrya.Core.FileHeader
import Ostrya.Core.Varint

namespace Ostrya.Delta

open ByteFormat Gvariant Ostrya.Core

/-- The errors of the `ostrya` crate that the modelled functions return. -/
inductive Error where
  | core (fault : Core.Error)
  | invalidFormat (message : String)
  | unsupported (message : String)
  | pull (message : String)
  | checksumMismatch (expected actual : Checksum)
  | io (message : String)
  deriving DecidableEq

/-- `?` on a result of `ostrya-core`. -/
def liftCore {α : Type} (result : Except Core.Error α) : Except Error α := result.mapError Error.core

/-- A result of the GVariant layer under `ostrya_core::Error::from`. -/
def ofGvariant (fault : Gvariant.Error) : Error := .core (.gvariant fault)

@[simp] theorem liftCore_ok {α : Type} (value : α) : liftCore (.ok value) = .ok value := rfl

theorem liftCore_eq_ok {α : Type} {result : Except Core.Error α} {value : α} :
    liftCore result = .ok value ↔ result = .ok value := mapError_eq_ok

/-! ### File metadata -/

/-- `FileMeta`. -/
structure FileMeta where
  uid : UInt32
  gid : UInt32
  mode : UInt32
  xattrs : Xattrs
  deriving DecidableEq

namespace FileMeta

/-- `FileMeta::is_symlink`. -/
def isSymlink (fileMeta : FileMeta) : Bool := fileMeta.mode &&& sIfmt == sIflnk

/-- `FileMeta::regular_header`. -/
def regularHeader (fileMeta : FileMeta) : FileHeader :=
  ⟨fileMeta.uid, fileMeta.gid, fileMeta.mode, "", fileMeta.xattrs⟩

/-- `SYMLINK_MODE`. -/
def symlinkMode : UInt32 := 0o120777

/-- `FileMeta::symlink_header`. -/
def symlinkHeader (fileMeta : FileMeta) (target : String) : FileHeader :=
  let mode := if fileMeta.mode &&& sIfmt = 0 ∨ fileMeta.mode &&& sIfmt = sIfreg then symlinkMode else fileMeta.mode
  ⟨fileMeta.uid, fileMeta.gid, mode, target, fileMeta.xattrs⟩

end FileMeta

/-- `CANONICAL_PERM_MASK`. -/
def canonicalPermMask : UInt32 := 0o755

/-- `canonical_header`. -/
def canonicalHeader (mode : RepoMode) (header : FileHeader) : FileHeader :=
  if mode = .bareUserOnly then
    { header with
      uid := 0, gid := 0, xattrs := .empty,
      mode := if header.mode &&& sIfmt = sIflnk then header.mode
        else (header.mode &&& sIfmt) ||| (header.mode &&& canonicalPermMask) }
  else header

/-! ### Mode checks -/

/-- `ModeChecks`. -/
structure ModeChecks where
  bareuseronlyFiles : Bool
  canonical : Bool

/-- `Checksum::to_hex`. -/
def toHex (checksum : Checksum) : String :=
  let digit := fun n : Nat => Nat.digitChar n
  String.ofList (checksum.bytes.flatMap fun byte => [digit (byte.toNat / 16), digit (byte.toNat % 16)])

/-- `{:o}`. -/
def octal (value : UInt32) : String := String.ofList (Nat.toDigits 8 value.toNat)

/-- `check_bareuseronly`. -/
def checkBareuseronly (checksum : Checksum) (fileMeta : FileMeta) : Except Error Unit :=
  if fileMeta.isSymlink then .ok ()
  else
    let extra := fileMeta.mode &&& ~~~ 0o100775
    if extra = 0 then .ok ()
    else
      .error (.pull ("content object " ++ toHex checksum ++ ": invalid mode 0" ++ octal fileMeta.mode
        ++ " with bits 0" ++ octal extra))

/-- `check_canonical`. -/
def checkCanonical (checksum : Checksum) (fileMeta : FileMeta) : Except Error Unit :=
  let extra := if fileMeta.isSymlink then 0 else fileMeta.mode &&& ~~~ 0o100755
  if extra = 0 ∧ fileMeta.uid = 0 ∧ fileMeta.gid = 0 ∧ fileMeta.xattrs.pairs.isEmpty then .ok ()
  else
    .error (.pull ("content object " ++ toHex checksum
      ++ ": a bare-user-only repository stores neither ownership nor xattrs and reduces the mode to 0755, so "
      ++ "this object -- uid " ++ toString fileMeta.uid.toNat ++ ", gid " ++ toString fileMeta.gid.toNat
      ++ ", mode 0" ++ octal fileMeta.mode ++ ", " ++ toString fileMeta.xattrs.pairs.length
      ++ " xattr(s) -- cannot be imported under its own name"))

namespace ModeChecks

/-- `ModeChecks::new`, from the `BAREUSERONLY_FILES` flag. -/
def new (bareuseronlyFiles : Bool) (dest : RepoMode) : ModeChecks :=
  ⟨bareuseronlyFiles, dest == .bareUserOnly⟩

/-- `ModeChecks::check`. -/
def check (checks : ModeChecks) (checksum : Checksum) (fileMeta : FileMeta) : Except Error Unit := do
  if checks.bareuseronlyFiles then checkBareuseronly checksum fileMeta else .ok ()
  if checks.canonical then checkCanonical checksum fileMeta else .ok ()

end ModeChecks

/-- The bits of a number that lies in a mask are those under any two masks that cover it. -/
theorem or_and_of_covered {x mask first second : UInt32} (within : x &&& ~~~mask = 0)
    (covered : mask &&& ~~~(first ||| second) = 0) : (x &&& first) ||| (x &&& second) = x := by
  apply UInt32.toBitVec_inj.mp
  ext i bound
  have inMask := congrArg (fun y => y.toBitVec.getLsbD i) within
  have inEither := congrArg (fun y => y.toBitVec.getLsbD i) covered
  simp at inMask inEither ⊢
  grind

variable {checksum : Checksum} {fileMeta : FileMeta}

theorem checkCanonical_eq_ok : checkCanonical checksum fileMeta = .ok () ↔
      (if fileMeta.isSymlink then 0 else fileMeta.mode &&& ~~~ 0o100755) = 0 ∧ fileMeta.uid = 0 ∧
        fileMeta.gid = 0 ∧ fileMeta.xattrs.pairs.isEmpty := by
  unfold checkCanonical
  generalize (if fileMeta.isSymlink then (0 : UInt32) else fileMeta.mode &&& ~~~ 0o100755) = extra
  by_cases same : extra = 0 ∧ fileMeta.uid = 0 ∧ fileMeta.gid = 0 ∧ fileMeta.xattrs.pairs.isEmpty
  · simp [same]
  · simp

theorem checkCanonical_of_check {checks : ModeChecks}
    (strict : checks.canonical = true) (checked : checks.check checksum fileMeta = .ok ()) :
    checkCanonical checksum fileMeta = .ok () := by
  simp only [ModeChecks.check, strict, if_true] at checked
  split at checked
  · obtain ⟨-, -, passed⟩ := bind_eq_ok.mp checked
    exact passed
  · exact checked

/-- **What the checks accept, the repository stores as it is.** -/
theorem canonicalHeader_of_checked {checks : ModeChecks}
    {header : FileHeader} (strict : mode = .bareUserOnly → checks.canonical = true)
    (checked : checks.check checksum ⟨header.uid, header.gid, header.mode, header.xattrs⟩ = .ok ()) :
    canonicalHeader mode header = header := by
  by_cases only : mode = .bareUserOnly
  · subst only
    obtain ⟨bits, uid, gid, xattrs⟩ := checkCanonical_eq_ok.mp (checkCanonical_of_check (strict rfl) checked)
    have none : header.xattrs = .empty := Xattrs.ext (List.isEmpty_iff.mp xattrs)
    have bits : (if header.mode &&& sIfmt = sIflnk then header.mode
        else (header.mode &&& sIfmt) ||| (header.mode &&& canonicalPermMask)) = header.mode := by
      by_cases link : header.mode &&& sIfmt = sIflnk
      · rw [if_pos link]
      · have regular : FileMeta.isSymlink ⟨header.uid, header.gid, header.mode, header.xattrs⟩ = false := by
          simpa [FileMeta.isSymlink] using link
        rw [regular, if_neg Bool.false_ne_true] at bits
        rw [if_neg link]
        exact or_and_of_covered bits (by decide)
    rw [canonicalHeader, if_pos rfl, bits]
    exact FileHeader.ext uid.symm gid.symm rfl rfl none.symm
  · rw [canonicalHeader, if_neg only]

/-! ### The store -/

/-- The environment of a transaction: the repository mode, the digest and the file system. -/
structure Store (σ : Type) where
  mode : RepoMode
  sha256 : Bytes → Checksum
  /-- `stage_metadata`. -/
  stageMetadata : Checksum → ObjectType → Bytes → σ → Except Error σ
  /-- `stage_symlink`. -/
  stageSymlink : Checksum → FileHeader → σ → Except Error σ
  /-- The temporary file of a content writer. -/
  openTemp : FileHeader → σ → Except Error σ
  /-- A write to the temporary file. -/
  appendTemp : Bytes → σ → Except Error σ
  /-- The flush of the temporary file. -/
  flushTemp : σ → Except Error σ
  /-- `stage_regular`. -/
  stageRegular : Checksum → FileHeader → Bytes → σ → Except Error σ
  /-- `load_source_blob`: the whole payload of a content object. -/
  loadSourceBlob : Checksum → σ → Except Error (Bytes × σ)

/-- A write that succeeded, with the checksum that it was verified against. -/
inductive Written where
  | metadata (ty : ObjectType) (checksum : Checksum) (bytes : Bytes)
  | symlink (checksum : Checksum) (header : FileHeader)
  | regular (checksum : Checksum) (header : FileHeader) (content : Bytes)
  deriving DecidableEq

/-- The object that a write stored. -/
def Written.object : Written → ObjectType × Checksum
  | metadata ty checksum _ => (ty, checksum)
  | symlink checksum _ => (.file, checksum)
  | regular checksum _ _ => (.file, checksum)

/-- A transaction: the state of the store and the writes so far. -/
structure Txn (σ : Type) where
  state : σ
  log : List Written
  deriving DecidableEq

def readOnlyMode : Error := .unsupported "bare-split-xattrs is read-only; the port does not write it"

/-- The `Debug` form of an object type. -/
def debugName : ObjectType → String
  | .file => "File"
  | .dirTree => "DirTree"
  | .dirMeta => "DirMeta"
  | .commit => "Commit"
  | .tombstoneCommit => "TombstoneCommit"
  | .commitMeta => "CommitMeta"
  | .payloadLink => "PayloadLink"
  | .fileXattrs => "FileXattrs"
  | .fileXattrsLink => "FileXattrsLink"

section Writing

variable {σ : Type} (store : Store σ)

/-- `Transaction::write_metadata`, with an expected checksum. -/
def writeMetadata (ty : ObjectType) (expected : Checksum) (bytes : Bytes) (txn : Txn σ) :
    Except Error (Txn σ) := do
  if store.mode = .bareSplitXattrs then .error readOnlyMode
  else if !ty.isMeta then .error (.unsupported ("write_metadata does not handle " ++ debugName ty ++ " objects"))
  else
    let checksum := store.sha256 bytes
    if expected ≠ checksum then .error (.checksumMismatch expected checksum)
    else
      let state ← store.stageMetadata checksum ty bytes txn.state
      .ok ⟨state, txn.log ++ [.metadata ty checksum bytes]⟩

/-- `Transaction::write_symlink`, with an expected checksum. -/
def writeSymlink (target : String) (fileMeta : FileMeta) (expected : Checksum) (txn : Txn σ) :
    Except Error (Txn σ) := do
  if store.mode = .bareSplitXattrs then .error readOnlyMode
  else
    let header := canonicalHeader store.mode (fileMeta.symlinkHeader target)
    let checksum := store.sha256 (← liftCore (header.serialize >>= FileHeader.frame))
    if expected ≠ checksum then .error (.checksumMismatch expected checksum)
    else
      let state ← store.stageSymlink checksum header txn.state
      .ok ⟨state, txn.log ++ [.symlink checksum header]⟩

variable {expected : Checksum} {txn final : Txn σ}

theorem writeMetadata_eq_ok :
    writeMetadata store ty expected bytes txn = .ok final ↔
      store.mode ≠ .bareSplitXattrs ∧ ty.isMeta ∧ store.sha256 bytes = expected ∧
      ∃ state, store.stageMetadata expected ty bytes txn.state = .ok state ∧
        final = ⟨state, txn.log ++ [.metadata ty expected bytes]⟩ := by
  by_cases readOnly : store.mode = .bareSplitXattrs
  · simp [writeMetadata, readOnly]
  · grind [Ostrya.Core.ObjectType.isMeta, writeMetadata, bind_eq_ok, Txn]

theorem writeSymlink_eq_ok {target : String} :
    writeSymlink store target fileMeta expected txn = .ok final ↔
      store.mode ≠ .bareSplitXattrs ∧
      let header := canonicalHeader store.mode (fileMeta.symlinkHeader target)
      ∃ framed, (header.serialize >>= FileHeader.frame) = .ok framed ∧ store.sha256 framed = expected ∧
        ∃ state, store.stageSymlink expected header txn.state = .ok state ∧
          final = ⟨state, txn.log ++ [.symlink expected header]⟩ := by
  by_cases readOnly : store.mode = .bareSplitXattrs
  · simp [writeSymlink, readOnly]
  · rw [writeSymlink, if_neg readOnly, bind_eq_ok]
    simp only [liftCore_eq_ok]
    refine ⟨?_, ?_⟩
    · rintro ⟨framed, framing, staged⟩
      split at staged
      · cases staged
      · next same =>
        obtain ⟨state, staging, ⟨⟩⟩ := bind_eq_ok.mp staged
        cases not_not.mp same
        exact ⟨readOnly, framed, framing, rfl, state, staging, rfl⟩
    · rintro ⟨-, framed, framing, rfl, state, staging, rfl⟩
      exact ⟨framed, framing, by simp [staging]⟩

/-- `ContentWriter`. The hasher has taken the framed header and then the content. -/
structure ContentWriter where
  header : FileHeader
  expected : Checksum
  framed : Bytes
  content : Bytes

/-- `Transaction::content_writer`, with an expected checksum. -/
def contentWriter (expected : Checksum) (fileMeta : FileMeta) (txn : Txn σ) :
    Except Error (ContentWriter × Txn σ) := do
  if store.mode = .bareSplitXattrs then .error readOnlyMode
  else
    let header := canonicalHeader store.mode fileMeta.regularHeader
    let framed ← liftCore (header.serialize >>= FileHeader.frame)
    -- An archive repository reserves the region of the archive header.
    let _ ← if store.mode = .archive then liftCore (header.serializeArchive 0 >>= FileHeader.frame) else .ok []
    let state ← store.openTemp header txn.state
    .ok (⟨header, expected, framed, []⟩, { txn with state })

/-- `write_all` of a content writer. -/
def ContentWriter.writeAll (writer : ContentWriter) (bytes : Bytes) (txn : Txn σ) :
    Except Error (ContentWriter × Txn σ) := do
  let state ← store.appendTemp bytes txn.state
  .ok ({ writer with content := writer.content ++ bytes }, { txn with state })

/-- `ContentWriter::finish`. -/
def ContentWriter.finish (writer : ContentWriter) (txn : Txn σ) : Except Error (Txn σ) := do
  let state ← store.flushTemp txn.state
  let checksum := store.sha256 (writer.framed ++ writer.content)
  if writer.expected ≠ checksum then .error (.checksumMismatch writer.expected checksum)
  else
    let state ← store.stageRegular checksum writer.header writer.content state
    .ok ⟨state, txn.log ++ [.regular checksum writer.header writer.content]⟩

theorem contentWriter_eq_ok {opened : ContentWriter × Txn σ} :
    contentWriter store expected fileMeta txn = .ok opened ↔
      store.mode ≠ .bareSplitXattrs ∧
      let header := canonicalHeader store.mode fileMeta.regularHeader
      ∃ framed, (header.serialize >>= FileHeader.frame) = .ok framed ∧
        (store.mode = .archive → ∃ reserved, (header.serializeArchive 0 >>= FileHeader.frame) = .ok reserved) ∧
        ∃ state, store.openTemp header txn.state = .ok state ∧
          opened = (⟨header, expected, framed, []⟩, { txn with state }) := by
  by_cases readOnly : store.mode = .bareSplitXattrs
  · simp [contentWriter, readOnly]
  · rw [contentWriter, if_neg readOnly]
    by_cases archive : store.mode = .archive <;>
      simp [readOnly, archive, liftCore_eq_ok, bind_eq_ok, @eq_comm (ContentWriter × Txn σ)]

theorem ContentWriter.finish_eq_ok {writer : ContentWriter} :
    writer.finish store txn = .ok final ↔
      ∃ flushed, store.flushTemp txn.state = .ok flushed ∧
        store.sha256 (writer.framed ++ writer.content) = writer.expected ∧
        ∃ state, store.stageRegular writer.expected writer.header writer.content flushed = .ok state ∧
          final = ⟨state, txn.log ++ [.regular writer.expected writer.header writer.content]⟩ := by
  rw [ContentWriter.finish, bind_eq_ok]
  refine exists_congr fun flushed => and_congr_right fun _ => ?_
  by_cases same : writer.expected = store.sha256 (writer.framed ++ writer.content)
  · simp [← same, bind_eq_ok, @eq_comm (Txn σ)]
  · simp [same, Ne.symm same]

/-- A write whose digest is the one it is named by. -/
def Written.Verified : Written → Prop
  | metadata _ checksum bytes => store.sha256 bytes = checksum
  | symlink checksum header =>
    ∃ framed, (header.serialize >>= FileHeader.frame) = .ok framed ∧ store.sha256 framed = checksum
  | regular checksum header content =>
    ∃ framed, (header.serialize >>= FileHeader.frame) = .ok framed ∧
      store.sha256 (framed ++ content) = checksum

end Writing

end Ostrya.Delta
