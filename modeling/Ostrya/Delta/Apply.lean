/-
**Applying a part of a static delta** (`apply_part` of `delta.rs` and its helpers).

A part payload is `(a(uuu)aa(ayay)ayay)`: the mode table, the xattr table, the data source and the operation
stream. The stream drives a machine with the index of the current object, an optional open object and a
read source. Each object is written with its expected checksum.
-/

import Ostrya.Delta.Bspatch

namespace Ostrya.Delta

open ByteFormat Gvariant Ostrya.Core

def opError {α : Type} (message : String) : Except Error α := .error (.invalidFormat ("static delta: " ++ message))

/-! ### The payload -/

/-- `u32::swap_bytes`. -/
def swapBytes (x : UInt32) : UInt32 := swapped 4 UInt32.toNat u32OfNat x

/-- `(uuu)`. -/
def modeDecode : GvDecode (UInt32 × UInt32 × UInt32) := .tuple (.cons .u32 (.cons .u32 (.last .u32)))

/-- `a(ayay)`, read lazily. -/
def xattrsDecode : GvDecode ArrayReader := .arrayIter Xattrs.entryDecode

/-- `PartView`. -/
structure PartView where
  modes : ArrayReader
  xattrs : ArrayReader
  dataSource : Bytes
  ops : Bytes

def partMembers : DecodeMembers (ArrayReader × ArrayReader × Bytes × Bytes) :=
  .cons (.arrayIter modeDecode) (.cons (.arrayIter xattrsDecode) (.cons .bytes (.last .bytes)))

def partView (payload : Bytes) : Except Error PartView := do
  let (modes, xattrs, dataSource, ops) ←
    ((GvDecode.tuple partMembers).decode payload).mapError ofGvariant
  .ok ⟨modes, xattrs, dataSource, ops⟩

/-- `MAX_TABLE_BYTES`. -/
def maxTableBytes : Nat := maxMetadataSize

/-- `bump_table`. -/
def bumpTable (total n : Nat) : Except Error Nat :=
  match (checkedAdd total n).filter (· ≤ maxTableBytes) with
  | some sum => .ok sum
  | none => opError "mode/xattr tables exceed the metadata ceiling"

/-- One entry of the mode table. -/
def modeStep (tableBytes : Nat) (entry : UInt32 × UInt32 × UInt32) :
    Except Error ((UInt32 × UInt32 × UInt32) × Nat) := do
  let tableBytes ← bumpTable tableBytes 12
  .ok ((swapBytes entry.1, swapBytes entry.2.1, swapBytes entry.2.2), tableBytes)

/-- One pair of an xattr set. -/
def pairStep (tableBytes : Nat) (pair : Pair) : Except Error (Pair × Nat) := do
  let tableBytes ← bumpTable tableBytes (pair.1.length + pair.2.length)
  .ok (pair, tableBytes)

/-- One set of the xattr table. -/
def xattrsStep (tableBytes : Nat) (entry : ArrayReader) : Except Error (Xattrs × Nat) := do
  let (pairs, tableBytes) ← validated ofGvariant Xattrs.entryDecode.decode pairStep entry tableBytes
  let xattrs ← liftCore (Xattrs.new pairs)
  .ok (xattrs, tableBytes)

/-- The tables and the data source of a part. -/
structure PartTables where
  modes : List (UInt32 × UInt32 × UInt32)
  xattrs : List Xattrs
  dataSource : Bytes

/-- The collection of the two tables. -/
def readTables (view : PartView) : Except Error PartTables := do
  let (modes, tableBytes) ← validated ofGvariant modeDecode.decode modeStep view.modes 0
  let (xattrs, _) ← validated ofGvariant xattrsDecode.decode xattrsStep view.xattrs tableBytes
  .ok ⟨modes, xattrs, view.dataSource⟩

/-- `file_meta`. -/
def PartTables.fileMeta (part : PartTables) (modeIdx xattrIdx : Nat) : Except Error FileMeta :=
  match part.modes[modeIdx]? with
  | none => opError "mode index out of range"
  | some (uid, gid, mode) =>
    match part.xattrs[xattrIdx]? with
    | none => opError "xattr index out of range"
    | some xattrs => .ok ⟨uid, gid, mode, xattrs⟩

/-! ### Operands -/

/-- `take_leb`: the operand and the rest of the stream. -/
def takeLeb (ops : Bytes) : Except Error (Nat × Bytes) := do
  let (value, consumed) ← liftCore (Varint.decode ops)
  .ok (value, ops.drop consumed)

/-- `slice`. -/
def slice (data : Bytes) (off len : Nat) : Except Error Bytes :=
  match checkedAdd off len with
  | none => opError "data-source range overflow"
  | some stop =>
    if stop ≤ data.length then .ok (data.extract off stop) else opError "data-source range out of bounds"

/-- `object_at`. -/
def objectAt (objects : List (ObjectType × Checksum)) (index : Nat) : Except Error (ObjectType × Checksum) :=
  match objects[index]? with
  | some object => .ok object
  | none => opError "operation stream produced more objects than declared"

/-! ### The open object and the read source -/

/-- `Sink`. -/
inductive Sink where
  | buffer (bytes : Bytes)
  | content (writer : ContentWriter)

/-- `Sink::produced`. -/
def Sink.produced : Sink → Nat
  | buffer bytes => bytes.length
  | content writer => writer.content.length

/-- `OpenState`. -/
structure OpenState where
  objtype : ObjectType
  csum : Checksum
  outSize : Nat
  fileMeta : Option FileMeta
  sink : Sink

/-- `SourceCache`. -/
structure SourceCache where
  loaded : Option (Checksum × Bytes)
  active : Bool

/-- `SourceCache::active`. -/
def SourceCache.activeBytes (cache : SourceCache) : Option Bytes :=
  if cache.active then cache.loaded.map Prod.snd else none

section Machine

variable {σ : Type} (store : Store σ)

/-- `SourceCache::set`. -/
def SourceCache.set (cache : SourceCache) (checksum : Checksum) (txn : Txn σ) :
    Except Error (SourceCache × Txn σ) := do
  if (cache.loaded.map Prod.fst) = some checksum then .ok ({ cache with active := true }, txn)
  else
    let (bytes, state) ← store.loadSourceBlob checksum txn.state
    .ok (⟨some (checksum, bytes), true⟩, { txn with state })

/-- `write_all` of a sink. -/
def Sink.writeAll (sink : Sink) (bytes : Bytes) (txn : Txn σ) : Except Error (Sink × Txn σ) :=
  match sink with
  | buffer held => .ok (buffer (held ++ bytes), txn)
  | content writer => do
    let (writer, txn) ← writer.writeAll store bytes txn
    .ok (content writer, txn)

/-- A loop of `write_all` over pieces. -/
def Sink.writePieces (sink : Sink) (txn : Txn σ) : List Bytes → Except Error (Sink × Txn σ)
  | [] => .ok (sink, txn)
  | piece :: pieces => do
    let (sink, txn) ← sink.writeAll store piece txn
    sink.writePieces txn pieces

/-- Whether an object streams to the content writer. -/
def streams : Option FileMeta → Bool
  | some fileMeta => !fileMeta.isSymlink
  | none => false

/-- `open_object`. -/
def openObject (objtype : ObjectType) (csum : Checksum) (outSize : Nat) (fileMeta : Option FileMeta)
    (txn : Txn σ) : Except Error (OpenState × Txn σ) := do
  match fileMeta with
  | some held =>
    if held.isSymlink then .ok (⟨objtype, csum, outSize, some held, .buffer []⟩, txn)
    else
      let (writer, txn) ← contentWriter store csum held txn
      .ok (⟨objtype, csum, outSize, some held, .content writer⟩, txn)
  | none => .ok (⟨objtype, csum, outSize, none, .buffer []⟩, txn)

/-- The target of a symlink. -/
def symlinkTarget (bytes : Bytes) : Except Error String :=
  match fromUtf8 bytes with
  | some target => .ok target
  | none => opError "symlink target is not valid UTF-8"

/-- `close_object`. -/
def closeObject (obj : OpenState) (txn : Txn σ) : Except Error (Txn σ) := do
  if obj.sink.produced ≠ obj.outSize then opError "closed object size does not match its open size"
  else
    match obj.sink with
    | .buffer bytes =>
      if obj.objtype.isMeta then writeMetadata store obj.objtype obj.csum bytes txn
      else
        match obj.fileMeta with
        | none => opError "content object without metadata"
        | some fileMeta =>
          let target ← symlinkTarget bytes
          writeSymlink store target fileMeta obj.csum txn
    | .content writer => writer.finish store txn

/-- `write_content_slice`. -/
def writeContentSlice (part : PartTables) (modeIdx xattrIdx : Nat) (content : Bytes)
    (expected : Checksum) (checks : ModeChecks) (txn : Txn σ) : Except Error (Txn σ) := do
  let fileMeta ← part.fileMeta modeIdx xattrIdx
  checks.check expected fileMeta
  if fileMeta.isSymlink then
    let target ← symlinkTarget content
    writeSymlink store target fileMeta expected txn
  else
    let (writer, txn) ← contentWriter store expected fileMeta txn
    let (sink, txn) ← (Sink.content writer).writePieces store txn (chunks ioChunk content)
    match sink with
    | .content writer => writer.finish store txn
    | .buffer _ => .ok txn

/-! ### The machine -/

/-- The state of the loop of `apply_part`, besides the stream. -/
structure Machine (σ : Type) where
  index : Nat
  source : SourceCache
  opened : Option OpenState
  txn : Txn σ

/-- The opcodes. -/
inductive Opcode where
  | openSpliceClose
  | open_
  | write
  | setReadSource
  | unsetReadSource
  | close
  | bspatch
  deriving DecidableEq

/-- The byte of an opcode: `S`, `o`, `w`, `r`, `R`, `c`, `B`. -/
def Opcode.byte : Opcode → UInt8
  | openSpliceClose => 0x53
  | open_ => 0x6f
  | write => 0x77
  | setReadSource => 0x72
  | unsetReadSource => 0x52
  | close => 0x63
  | bspatch => 0x42

def Opcode.ofByte (byte : UInt8) : Option Opcode :=
  if byte = 0x53 then some openSpliceClose
  else if byte = 0x6f then some open_
  else if byte = 0x77 then some write
  else if byte = 0x72 then some setReadSource
  else if byte = 0x52 then some unsetReadSource
  else if byte = 0x63 then some close
  else if byte = 0x42 then some bspatch
  else none

@[simp] theorem Opcode.ofByte_byte (opcode : Opcode) : ofByte opcode.byte = some opcode := by
  cases opcode <;> rfl

variable (part : PartTables) (objects : List (ObjectType × Checksum)) (checks : ModeChecks)

/-- `S`. -/
def spliceOp (m : Machine σ) (ops : Bytes) : Except Error (Machine σ × Bytes) := do
  let (objtype, csum) ← objectAt objects m.index
  if objtype.isMeta then
    let (len, ops) ← takeLeb ops
    let (off, ops) ← takeLeb ops
    if len > maxMetadataSize then opError "spliced metadata object exceeds the metadata ceiling"
    else
      let bytes ← slice part.dataSource off len
      let txn ← writeMetadata store objtype csum bytes m.txn
      .ok ({ m with index := m.index + 1, txn }, ops)
  else
    let (modeIdx, ops) ← takeLeb ops
    let (xattrIdx, ops) ← takeLeb ops
    let (len, ops) ← takeLeb ops
    let (off, ops) ← takeLeb ops
    let bytes ← slice part.dataSource off len
    let txn ← writeContentSlice store part modeIdx xattrIdx bytes csum checks m.txn
    .ok ({ m with index := m.index + 1, txn }, ops)

/-- The file metadata of the object that an `o` opens, checked. -/
def openMeta (objtype : ObjectType) (csum : Checksum) (modeIdx xattrIdx : Nat) :
    Except Error (Option FileMeta) :=
  if objtype.isMeta then .ok none
  else do
    let fileMeta ← part.fileMeta modeIdx xattrIdx
    -- Before the content writer opens, so a refused object writes nothing.
    checks.check csum fileMeta
    .ok (some fileMeta)

/-- `o`. -/
def openOp (m : Machine σ) (ops : Bytes) : Except Error (Machine σ × Bytes) := do
  let (modeIdx, ops) ← takeLeb ops
  let (xattrIdx, ops) ← takeLeb ops
  let (outSize, ops) ← takeLeb ops
  let (objtype, csum) ← objectAt objects m.index
  let fileMeta ← openMeta part checks objtype csum modeIdx xattrIdx
  if !streams fileMeta ∧ outSize > maxMetadataSize then
    opError "open object size exceeds the metadata ceiling"
  else
    let (obj, txn) ← openObject store objtype csum outSize fileMeta m.txn
    .ok ({ m with opened := some obj, txn }, ops)

/-- `B`. -/
def bspatchOp (m : Machine σ) (ops : Bytes) : Except Error (Machine σ × Bytes) := do
  let (streamOff, ops) ← takeLeb ops
  let (streamLen, ops) ← takeLeb ops
  match m.source.activeBytes with
  | none => opError "bspatch without a read source"
  | some readSource =>
    match m.opened with
    | none => opError "bspatch without an open object"
    | some obj =>
      let stream ← slice part.dataSource streamOff streamLen
      if obj.outSize < obj.sink.produced then opError "bspatch output exceeds the open size"
      else
        let patched := bspatch readSource stream (obj.outSize - obj.sink.produced)
        let (sink, txn) ← obj.sink.writePieces store m.txn patched.1
        patched.2
        .ok ({ m with opened := some { obj with sink }, txn }, ops)

/-- `c`. -/
def closeOp (m : Machine σ) (ops : Bytes) : Except Error (Machine σ × Bytes) := do
  match m.opened with
  | none => opError "close without an open object"
  | some obj =>
    let txn ← closeObject store obj m.txn
    .ok ({ m with index := m.index + 1, opened := none, txn }, ops)

/-- `r`. -/
def setReadSourceOp (m : Machine σ) (ops : Bytes) : Except Error (Machine σ × Bytes) := do
  let (off, ops) ← takeLeb ops
  let bytes ← slice part.dataSource off 32
  let csum ← liftCore (Checksum.fromAy bytes)
  let (source, txn) ← m.source.set store csum m.txn
  .ok ({ m with source, txn }, ops)

/-- `R`. -/
def unsetReadSourceOp (m : Machine σ) (ops : Bytes) : Except Error (Machine σ × Bytes) :=
  .ok ({ m with source := { m.source with active := false } }, ops)

/-- `w`. -/
def writeOp (m : Machine σ) (ops : Bytes) : Except Error (Machine σ × Bytes) := do
  let (length, ops) ← takeLeb ops
  let (off, ops) ← takeLeb ops
  let source := m.source.activeBytes.getD part.dataSource
  match m.opened with
  | none => opError "write without an open object"
  | some obj =>
    if obj.outSize < obj.sink.produced then opError "write output exceeds the open size"
    else if length > obj.outSize - obj.sink.produced then opError "write output exceeds the open size"
    else
      let bytes ← slice source off length
      let (sink, txn) ← obj.sink.writePieces store m.txn (chunks ioChunk bytes)
      .ok ({ m with opened := some { obj with sink }, txn }, ops)

/-- One operation: the machine after it and the rest of the stream. -/
def stepOp (opcode : Opcode) (m : Machine σ) (ops : Bytes) : Except Error (Machine σ × Bytes) :=
  match opcode with
  | .openSpliceClose => spliceOp store part objects checks m ops
  | .open_ => openOp store part objects checks m ops
  | .bspatch => bspatchOp store part m ops
  | .close => closeOp store m ops
  | .setReadSource => setReadSourceOp store part m ops
  | .unsetReadSource => unsetReadSourceOp m ops
  | .write => writeOp store part m ops

/-- `{:#x}`. -/
def hexByte (byte : UInt8) : String := "0x" ++ String.ofList (Nat.toDigits 16 byte.toNat)

/-- The loop of `apply_part`, for at most `fuel` operations. -/
def runOps : (fuel : Nat) → Machine σ → Bytes → Except Error (Machine σ)
  | 0, m, _ => .ok m
  | _ + 1, m, [] => .ok m
  | fuel + 1, m, byte :: ops =>
    match Opcode.ofByte byte with
    | none => .error (.invalidFormat ("unknown static delta opcode " ++ hexByte byte))
    | some opcode => do
      let (m, ops) ← stepOp store part objects checks opcode m ops
      runOps fuel m ops

/-- The checks after the loop. -/
def endOps (m : Machine σ) : Except Error (Txn σ) :=
  if m.opened.isSome then opError "operation stream ended with an object still open"
  else if m.index ≠ objects.length then opError "operation stream produced fewer objects than declared"
  else .ok m.txn

/-- `apply_part`: the transaction after it. An operation takes at least its opcode from the stream,
so the stream is long enough fuel. -/
def applyPart (payload : Bytes) (objects : List (ObjectType × Checksum)) (checks : ModeChecks)
    (txn : Txn σ) : Except Error (Txn σ) := do
  let view ← partView payload
  let part ← readTables view
  let m ← runOps store part objects checks view.ops.length ⟨0, ⟨none, false⟩, none, txn⟩ view.ops
  endOps objects m

end Machine

end Ostrya.Delta
