/-
**Generating a part of a static delta** (`add_object`, `Part`, `write_part` of `deltagen.rs`, and the part
readers of `delta.rs`).

Objects are added one after the other: their bytes go into the data source, their operations onto the
stream. A finished part is framed by hand as `(a(uuu)aa(ayay)ayay)` and compressed. The repository that the
objects are read from, the bsdiff crate and the xz crate are parameters.
-/

import Ostrya.ByteFormat.Interner
import Ostrya.Delta.Apply
import Ostrya.Delta.Rollsum
import Ostrya.Gvariant.NormalForm

namespace Ostrya.Delta

open ByteFormat Gvariant Ostrya.Core

/-! ### Objects -/

/-- `FileKind`, with the payload of a regular file. -/
inductive FileKind where
  | regular (content : Bytes)
  | symlink (target : String)

/-- `FileObject`. Every loader takes the kind from the mode. -/
structure FileObject where
  uid : UInt32
  gid : UInt32
  mode : UInt32
  xattrs : Xattrs
  kind : FileKind
  kindOfMode : mode &&& sIfmt = sIflnk ↔ ∃ target, kind = .symlink target

namespace FileObject

/-- `FileObject::header`. -/
def header (file : FileObject) : FileHeader :=
  ⟨file.uid, file.gid, file.mode,
    match file.kind with
    | .symlink target => target
    | .regular _ => "",
    file.xattrs⟩

/-- `FileObject::meta`. -/
def fileMeta (file : FileObject) : FileMeta := ⟨file.uid, file.gid, file.mode, file.xattrs⟩

/-- What the reader of the object yields: a symlink has no payload. -/
def content (file : FileObject) : Bytes :=
  match file.kind with
  | .regular content => content
  | .symlink _ => []

end FileObject

/-- `PackItem`. -/
structure PackItem where
  objtype : ObjectType
  checksum : Checksum
  source : Option Checksum
  file : Option FileObject

/-- `DeltaEndianness`. -/
inductive DeltaEndianness where
  | little
  | big
  deriving DecidableEq

/-- The part of `DeltaOptions` that packing and the superblock read. -/
structure DeltaOptions where
  bsdiff : Bool
  maxBsdiffSize : Nat
  endianness : DeltaEndianness
  timestamp : Option UInt64

/-- What packing reads: the repository, and the bsdiff crate. -/
structure Repo where
  loadObjectBytes : ObjectType → Checksum → Except Error Bytes
  loadFile : Checksum → Except Error FileObject
  bsdiff : Bytes → Bytes → Except Error Bytes

/-! ### A part under construction -/

/-- `Part`. -/
structure Part where
  modes : Interner (UInt32 × UInt32 × UInt32)
  xattrs : Interner Xattrs
  blob : Bytes
  ops : Bytes
  objects : List (ObjectType × Checksum)
  uncompressedSize : Nat

namespace Part

def default : Part := ⟨.empty, .empty, [], [], [], 0⟩

/-- The bytes of one operation: its opcode, then its operands. -/
def opBytes (opcode : Opcode) (operands : List Nat) : Bytes :=
  opcode.byte :: operands.flatMap Varint.encode

/-- `push_op`. -/
def pushOp (part : Part) (opcode : Opcode) (operands : List Nat) : Part :=
  { part with ops := part.ops ++ opBytes opcode operands }

/-- `finish_object`. -/
def finishObject (part : Part) (objtype : ObjectType) (checksum : Checksum) (payload : Nat) : Part :=
  { part with
    objects := part.objects ++ [(objtype, checksum)], uncompressedSize := part.uncompressedSize + payload }

/-- `mode_index`. -/
def modeIndex (part : Part) (uid gid mode : UInt32) : Nat × Part :=
  let (index, modes) := part.modes.intern (uid, gid, mode)
  (index, { part with modes })

/-- `xattr_index`. -/
def xattrIndex (part : Part) (xattrs : Xattrs) : Nat × Part :=
  let (index, xattrs) := part.xattrs.intern xattrs
  (index, { part with xattrs })

/-- `Spill::append`: the offset at which the bytes were written. -/
def append (part : Part) (bytes : Bytes) : Nat × Part :=
  (part.blob.length, { part with blob := part.blob ++ bytes })

end Part

/-- `BSDIFF_CONTENT_LIMIT`. -/
def bsdiffContentLimit : Nat := Rollsum.maxChunk

/-- `novel_bytes`. -/
def novelBytes (stream : Bytes) : Nat := (stream.filter (· != 0)).length

/-- `patch_beats_splicing`. -/
def patchBeatsSplicing (stream : Bytes) (outputSize : Nat) : Bool := novelBytes stream * 2 < outputSize

/-- The operations of one run of a copy plan. -/
def addRun (target : Bytes) (sourceOffset : Nat) (part : Part) : Rollsum.Run → Part
  | .copy off length =>
    ((part.pushOp .setReadSource [sourceOffset]).pushOp .write [length, off]).pushOp .unsetReadSource []
  | .payload off length =>
    let (offset, part) := part.append (target.extract off (off + length))
    part.pushOp .write [length, offset]

/-- An object rebuilt from the runs of a copy plan. -/
def addRuns (part : Part) (item : PackItem) (modeIndex xattrIndex : Nat) (source : Checksum)
    (target : Bytes) (runs : List Rollsum.Run) : Part :=
  let part := part.pushOp .open_ [modeIndex, xattrIndex, target.length]
  let (sourceOffset, part) := part.append source.bytes
  let part := (runs.foldl (addRun target sourceOffset) part).pushOp .close []
  part.finishObject item.objtype item.checksum target.length

/-- An object rebuilt by a patch. -/
def addPatch (part : Part) (item : PackItem) (modeIndex xattrIndex : Nat) (source : Checksum)
    (stream : Bytes) (outputSize : Nat) : Part :=
  let part := part.pushOp .open_ [modeIndex, xattrIndex, outputSize]
  let (sourceOffset, part) := part.append source.bytes
  let (streamOffset, part) := part.append stream
  let part := part.pushOp .setReadSource [sourceOffset]
  let part := part.pushOp .bspatch [streamOffset, stream.length]
  let part := (part.pushOp .unsetReadSource []).pushOp .close []
  part.finishObject item.objtype item.checksum outputSize

/-- A content object spliced whole. -/
def addSplice (part : Part) (item : PackItem) (modeIndex xattrIndex : Nat) (bytes : Bytes) : Part :=
  let (offset, part) := part.append bytes
  let part := part.pushOp .openSpliceClose [modeIndex, xattrIndex, bytes.length, offset]
  part.finishObject item.objtype item.checksum bytes.length

/-- A metadata object. -/
def addMetadata (part : Part) (item : PackItem) (bytes : Bytes) : Part :=
  let (offset, part) := part.append bytes
  let part := part.pushOp .openSpliceClose [bytes.length, offset]
  part.finishObject item.objtype item.checksum bytes.length

/-- The patch of `source` into `target`, if it is tried and beats a splice. -/
def patchStream (repo : Repo) (opts : DeltaOptions) (source target : Bytes) : Except Error (Option Bytes) := do
  let limit := min bsdiffContentLimit opts.maxBsdiffSize
  if opts.bsdiff ∧ target.length ≤ limit ∧ source.length ≤ limit then
    let stream ← repo.bsdiff source target
    .ok (if patchBeatsSplicing stream target.length then some stream else none)
  else .ok none

/-- `add_object`. -/
def addObject (repo : Repo) (opts : DeltaOptions) (part : Part) (item : PackItem) : Except Error Part := do
  match item.file with
  | none =>
    let bytes ← repo.loadObjectBytes item.objtype item.checksum
    .ok (addMetadata part item bytes)
  | some file =>
    let (modeIndex, part) := part.modeIndex file.uid file.gid file.mode
    let (xattrIndex, part) := part.xattrIndex file.xattrs
    match file.kind with
    | .symlink target => .ok (addSplice part item modeIndex xattrIndex (asBytes target))
    | .regular content =>
      match item.source with
      | none => .ok (addSplice part item modeIndex xattrIndex content)
      | some source =>
        let sourceFile ← repo.loadFile source
        let plan := Rollsum.plan sourceFile.content content
        if plan.copied > 0 then .ok (addRuns part item modeIndex xattrIndex source content plan.runs)
        else
          match ← patchStream repo opts sourceFile.content content with
          | some stream => .ok (addPatch part item modeIndex xattrIndex source stream content.length)
          | none => .ok (addSplice part item modeIndex xattrIndex content)

/-- The objects of a part, added in order. -/
def addObjects (repo : Repo) (opts : DeltaOptions) (part : Part) : List PackItem → Except Error Part
  | [] => .ok part
  | item :: items => do addObjects repo opts (← addObject repo opts part item) items

/-! ### A finished part -/

/-- One entry of the mode table. -/
def modeBytes (entry : UInt32 × UInt32 × UInt32) : Bytes :=
  beBytes 4 entry.1.toNat ++ beBytes 4 entry.2.1.toNat ++ beBytes 4 entry.2.2.toNat

/-- `mode_table`. -/
def modeTable (modes : List (UInt32 × UInt32 × UInt32)) : Bytes := modes.flatMap modeBytes

/-- `aa(ayay)`. -/
def xattrTableType : Ty := .array (.array (.tuple [.array .byte, .array .byte]))

example : Ty.parse "aa(ayay)" = .ok xattrTableType := rfl

/-- The value of an xattr set. -/
def xattrValue (xattrs : Xattrs) : Value :=
  .array (xattrs.pairs.map fun pair => .tuple [.bytes pair.1, .bytes pair.2])

/-- `xattr_table`. -/
def xattrTable (xattrs : List Xattrs) : Except Error Bytes :=
  (toBytes xattrTableType (.array (xattrs.map xattrValue))).mapError ofGvariant

/-- `check_table_size`. -/
def checkTableSize (len : Nat) : Except Error Unit :=
  if len > maxTableBytes then
    .error (.invalidFormat ("static delta part mode and xattr tables are " ++ toString len
      ++ " bytes, over the " ++ toString maxTableBytes ++ "-byte ceiling"))
  else .ok ()

/-- The payload that `write_part` frames. -/
def Part.payload (part : Part) : Except Error Bytes := do
  let modes := modeTable part.modes.entries
  let xattrs ← xattrTable part.xattrs.entries
  checkTableSize (modes.length + xattrs.length)
  let body := modes.length + xattrs.length + part.blob.length + part.ops.length
  if body > usizeMax then .error (.invalidFormat "part payload too large")
  else
    let width := chooseOffsetSize body 3
    -- The end of each member but the last, in reverse member order.
    let offsets := writeOffset [] (modes.length + xattrs.length + part.blob.length) width
    let offsets := writeOffset offsets (modes.length + xattrs.length) width
    let offsets := writeOffset offsets modes.length width
    .ok (modes ++ xattrs ++ part.blob ++ part.ops ++ offsets)

/-- The compression bytes of a part file. -/
def compressionNone : UInt8 := 0
def compressionXz : UInt8 := 0x78

/-- The xz crate. -/
structure Xz where
  compress : Bytes → Bytes
  decompress : Bytes → Except Error Bytes

/-- `PartEntry`: what a meta-entry records of a part, and the part itself where the superblock
carries it. -/
structure PartEntry where
  checksum : Checksum
  size : UInt64
  uncompressedSize : UInt64
  objects : List (ObjectType × Checksum)
  inline : Option (UInt8 × Bytes)

/-- `DeltaPart`: the meta-entry of a part, as a reader of the superblock has it. -/
structure DeltaPart where
  partCsum : Checksum
  size : UInt64
  uncompressedSize : UInt64
  objects : List (ObjectType × Checksum)
  deriving DecidableEq

/-- The meta-entry that the superblock carries for a written part. -/
def PartEntry.deltaPart (entry : PartEntry) : DeltaPart :=
  ⟨entry.checksum, entry.size, entry.uncompressedSize, entry.objects⟩

/-- `PartTarget`: a numbered file, or a buffer under the space that the superblock ceiling
leaves. -/
inductive PartTarget where
  | file
  | inline (budget : Nat)

/-- `MAX_SUPERBLOCK`. -/
def maxSuperblock : Nat := maxMetadataSize

/-- `inline_ceiling_error`. -/
def inlineCeilingError : Error :=
  .invalidFormat ("static delta inline parts pass the " ++ toString maxSuperblock ++ "-byte superblock ceiling")

/-- `write_part`: the compression byte and the body of the part, its entry, and the target after
it. -/
def writePart (xz : Xz) (sha256 : Bytes → Checksum) (target : PartTarget) (part : Part) :
    Except Error (UInt8 × Bytes × PartEntry × PartTarget) := do
  let payload ← part.payload
  let body := xz.compress payload
  let file := compressionXz :: body
  let entry : PartEntry :=
    ⟨sha256 file, .ofNat file.length, .ofNat part.uncompressedSize, part.objects, none⟩
  match target with
  | .file => .ok (compressionXz, body, entry, .file)
  | .inline budget =>
    -- The buffer fails on a write past its limit, and the caller finds it full.
    if file.length > budget then .error inlineCeilingError
    else
      .ok (compressionXz, body, { entry with inline := some (compressionXz, body) },
        .inline (budget - (1 + body.length)))

/-- `decode_part_stream`: the payload of a part file. -/
def decodePart (xz : Xz) (sha256 : Bytes → Checksum) (compression : UInt8) (body : Bytes)
    (entry : DeltaPart) : Except Error Bytes :=
  -- `saturating_sub`.
  let limit := entry.size.toNat - 1
  if body.length > limit then
    opError ("a stream passed the " ++ toString limit ++ " byte(s) declared for it")
  else if sha256 (compression :: body) ≠ entry.partCsum then
    .error (.invalidFormat "static delta part checksum mismatch")
  else if compression = compressionNone then .ok body
  else if compression = compressionXz then xz.decompress body
  else
    .error (.invalidFormat ("static delta part compression byte " ++ hexByte compression ++ " is not supported"))

end Ostrya.Delta
