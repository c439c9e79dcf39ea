/-
**The superblock of a static delta** (`deltagen.rs` for the writer, `delta.rs` for the reader).

The writer builds one GVariant tuple. Its metadata dict holds the byte order of the size fields, the parts that
are carried inline, each under `<dir>/<index>`, and a copy of the detached metadata of the target commit. The
reader takes the byte order from that dict, swaps the sizes back, serializes the embedded commit again to check
its digest, and finds the inline parts by their keys. A signed superblock is an envelope around the bytes of an
unsigned one.
-/

import Ostrya.Core.Commit
import Ostrya.Delta.Generate

namespace Ostrya.Delta

open ByteFormat Gvariant Ostrya.Core

/-! ### Types and constants -/

/-- `COMMIT_SIG`. -/
def commitType : Ty :=
  .tuple [dictType, .array .byte, .array (.tuple [.str, .array .byte]), .str, .str, .u64,
    .array .byte, .array .byte]

example : Ty.parse "(a\x7bsv\x7daya(say)sstayay)" = .ok commitType := rfl

/-- A meta-entry of a part. -/
def metaEntryType : Ty := .tuple [.u32, .array .byte, .u64, .u64, .array .byte]

/-- A fallback object. -/
def fallbackType : Ty := .tuple [.byte, .array .byte, .u64, .u64]

/-- `SUPERBLOCK_SIG`. -/
def superblockType : Ty :=
  .tuple [dictType, .u64, .array .byte, .array .byte, commitType, .array .byte,
    .array metaEntryType, .array fallbackType]

example : Ty.parse "(a\x7bsv\x7dtayay(a\x7bsv\x7daya(say)sstayay)aya(uayttay)a(yaytt))" = .ok superblockType := rfl

/-- `SIGNED_SIG`. -/
def signedType : Ty := .tuple [.u64, .array .byte, dictType]

example : Ty.parse "(taya\x7bsv\x7d)" = .ok signedType := rfl

/-- `INLINE_PART_SIG`. -/
def inlinePartSig : String := "(yay)"

def inlinePartType : Ty := .tuple [.byte, .array .byte]

example : Ty.parse inlinePartSig = .ok inlinePartType := rfl

/-- `SIGNED_MAGIC`. -/
def signedMagic : Bytes := [79, 83, 84, 83, 71, 78, 68, 84]

example : signedMagic = asBytes "OSTSGNDT" := rfl

/-- `ENDIANNESS_KEY`, `ENDIANNESS_LITTLE` and `ENDIANNESS_BIG`. -/
def endiannessKey : String := "ostree.endianness"

def endiannessLittle : UInt8 := 108

def endiannessBig : UInt8 := 66

/-- `PART_VERSION`. -/
def partVersion : UInt32 := 0

/-- `u64::swap_bytes`. -/
def swapBytes64 (x : UInt64) : UInt64 := swapped 8 UInt64.toNat u64OfNat x

/-- `delta_relative_dir`. -/
def deltaRelativeDir (fromCommit : Option Checksum) (toCommit : Checksum) : String :=
  let toB64 := toCommit.toBase64Modified
  match fromCommit with
  | some fromCommit =>
    let fromB64 := fromCommit.toBase64Modified
    "deltas/" ++ String.ofList (fromB64.take 2 ++ '/' :: fromB64.drop 2 ++ '-' :: toB64)
  | none => "deltas/" ++ String.ofList (toB64.take 2 ++ '/' :: toB64.drop 2)

/-- The metadata key of an inline part. -/
def inlineKey (dir : String) (index : Nat) : String := dir ++ "/" ++ toString index

/-! ### The writer -/

/-- `Target`. -/
structure Target where
  bytes : Bytes
  detached : Option Value

/-- `FallbackItem`. -/
structure FallbackItem where
  objtype : ObjectType
  checksum : Checksum
  compressedSize : UInt64
  contentSize : UInt64

/-- `append_dict_entry`. -/
def appendDictEntry (metadata : Value) (key : String) (value : Value) : Except Error Value :=
  match metadata with
  | .array entries => .ok (.array (entries ++ [.tuple [.str key, value]]))
  | _ => .error (.invalidFormat "commit metadata must be an a\x7bsv\x7d dict")

/-- The value under which the superblock carries a part inline. -/
def inlineValue (part : UInt8 × Bytes) : Value :=
  .variant inlinePartType (.tuple [.byte part.1, .bytes part.2])

/-- The inline parts, in part order. -/
def appendInlineParts (dir : String) : Nat → List PartEntry → Value → Except Error Value
  | _, [], metadata => .ok metadata
  | index, entry :: entries, metadata =>
    match entry.inline with
    | none => appendInlineParts dir (index + 1) entries metadata
    | some part => do
      let metadata ← appendDictEntry metadata (inlineKey dir index) (inlineValue part)
      appendInlineParts dir (index + 1) entries metadata

/-- `object_array`. -/
def objectArray (objects : List (ObjectType × Checksum)) : Bytes :=
  objects.flatMap fun object => object.1.asU32.toUInt8 :: object.2.bytes

/-- A size in the byte order that the superblock declares. -/
def hostOrder (bigEndian : Bool) (value : UInt64) : UInt64 := if bigEndian then swapBytes64 value else value

def DeltaEndianness.byte : DeltaEndianness → UInt8
  | .little => endiannessLittle
  | .big => endiannessBig

def DeltaEndianness.isBig : DeltaEndianness → Bool
  | .little => false
  | .big => true

def metaEntryValue (bigEndian : Bool) (entry : PartEntry) : Value :=
  .tuple [.u32 partVersion, .bytes entry.checksum.bytes, .u64 (hostOrder bigEndian entry.size),
    .u64 (hostOrder bigEndian entry.uncompressedSize), .bytes (objectArray entry.objects)]

def fallbackValue (bigEndian : Bool) (fallback : FallbackItem) : Value :=
  .tuple [.byte fallback.objtype.asU32.toUInt8, .bytes fallback.checksum.bytes,
    .u64 (hostOrder bigEndian fallback.compressedSize), .u64 (hostOrder bigEndian fallback.contentSize)]

/-- `resolve_timestamp`, with `now` what the clock gives. -/
def resolveTimestamp (now : Except Error UInt64) : Option UInt64 → Except Error UInt64
  | some timestamp => .ok timestamp
  | none => now

/-- `check_superblock_size`. -/
def checkSuperblockSize (len : Nat) : Except Error Unit :=
  if len > maxSuperblock then
    .error (.invalidFormat ("static delta superblock is " ++ toString len ++ " bytes, over the "
      ++ toString maxSuperblock ++ "-byte ceiling"))
  else .ok ()

/-- The metadata dict of the superblock. -/
def superblockMetadata (dir : String) (endianness : DeltaEndianness) (entries : List PartEntry)
    (detached : Option Value) : Except Error Value := do
  let metadata ← appendDictEntry (.array []) endiannessKey (.variant .byte (.byte endianness.byte))
  let metadata ← appendInlineParts dir 0 entries metadata
  match detached with
  | none => .ok metadata
  | some detached => appendDictEntry metadata (dir ++ "/commitmeta") (.variant dictType detached)

/-- `build_superblock`. -/
def buildSuperblock (now : Except Error UInt64) (fromCommit : Option Checksum) (toCommit : Checksum) (target : Target)
    (entries : List PartEntry) (fallbacks : List FallbackItem) (opts : DeltaOptions) : Except Error Bytes := do
  let bigEndian := opts.endianness.isBig
  let metadata ← superblockMetadata (deltaRelativeDir fromCommit toCommit) opts.endianness entries target.detached
  let commit ← (fromBytes commitType target.bytes).mapError ofGvariant
  let timestamp ← resolveTimestamp now opts.timestamp
  let bytes ← (toBytes superblockType (.tuple [metadata, .u64 (swapBytes64 timestamp),
    .bytes (fromCommit.elim [] Checksum.bytes), .bytes toCommit.bytes, commit, .bytes [],
    .array (entries.map (metaEntryValue bigEndian)), .array (fallbacks.map (fallbackValue bigEndian))])).mapError
    ofGvariant
  checkSuperblockSize bytes.length
  .ok bytes

/-! ### The signed envelope -/

/-- `Signer`. -/
structure Signer where
  metadataKey : String
  sign : Bytes → Except Error Bytes

/-- `push_blob`. -/
def pushBlob (value : Value) (signature : Bytes) : Except Error Value :=
  let fault : Error := .invalidFormat "detached-metadata signature value is not an array"
  match value with
  | .variant ty (.array blobs) => .ok (.variant ty (.array (blobs ++ [.bytes signature])))
  | .array blobs => .ok (.array (blobs ++ [.bytes signature]))
  | _ => .error fault

/-- The entry loop of `append_signature`: the signature goes to the first entry of the engine, or to
a new one. -/
def appendToEngine (metadataKey : String) (signature : Bytes) : List Value → Except Error (List Value)
  | [] =>
    .ok [.tuple [.str metadataKey, .variant (.array (.array .byte)) (.array [.bytes signature])]]
  | entry :: entries =>
    match entry with
    | .tuple [key, value] =>
      if key.asStr = some metadataKey then do
        let value ← pushBlob value signature
        .ok (.tuple [key, value] :: entries)
      else do
        let entries ← appendToEngine metadataKey signature entries
        .ok (entry :: entries)
    | _ => do
      let entries ← appendToEngine metadataKey signature entries
      .ok (entry :: entries)

/-- `append_signature`. -/
def appendSignature (dict : Value) (metadataKey : String) (signature : Bytes) : Except Error Value :=
  match dict with
  | .array entries => (appendToEngine metadataKey signature entries).map .array
  | _ => .error (.invalidFormat "detached metadata must be an a\x7bsv\x7d dict")

example : Ty.parse "aay" = .ok (.array (.array .byte)) := rfl

/-- The signer loop of `sign_superblock`. -/
def signAll (payload : Bytes) : Value → List Signer → Except Error Value
  | signatures, [] => .ok signatures
  | signatures, signer :: signers => do
    let signature ← signer.sign payload
    let signatures ← appendSignature signatures signer.metadataKey signature
    signAll payload signatures signers

/-- `sign_superblock`. -/
def signSuperblock (payload : Bytes) (signatures : Value) (signers : List Signer) : Except Error Bytes := do
  let signatures ← signAll payload signatures signers
  let encoded ← (toBytes signedType (.tuple [.u64 (u64OfNat (leNat signedMagic)), .bytes payload,
    signatures])).mapError ofGvariant
  checkSuperblockSize encoded.length
  .ok encoded

/-! ### The reader -/

/-- `DeltaFallback`. -/
structure DeltaFallback where
  objtype : ObjectType
  checksum : Checksum
  size : UInt64
  uncompressedSize : UInt64

/-- `DeltaSuperblock`. -/
structure DeltaSuperblock where
  fromCommit : Option Checksum
  toCommit : Checksum
  commitBytes : Bytes
  metaEntries : List DeltaPart
  fallbacks : List DeltaFallback
  signatures : Option Value
  superblockBytes : Bytes
  metadata : Value
  inlineIndex : List (Option Nat)
  timestamp : UInt64
  recursionLen : Nat

/-- `tuple`. -/
def tupleFields : Value → Except Error (List Value)
  | .tuple fields => .ok fields
  | _ => .error (.invalidFormat "expected a GVariant tuple")

/-- `array`. -/
def arrayItems : Value → Except Error (List Value)
  | .array items => .ok items
  | _ => .error (.invalidFormat "expected a GVariant array")

/-- `ok_or_else` with an error about a field. -/
def expected {α : Type} (what kind : String) : Option α → Except Error α
  | some found => .ok found
  | none => .error (.invalidFormat ("expected " ++ what ++ " to be a " ++ kind))

/-- `bytes_field`. -/
def bytesField (value : Value) (what : String) : Except Error Bytes := expected what "byte array" value.asBytes

/-- `byte_field`. -/
def byteField (value : Value) (what : String) : Except Error UInt8 := expected what "byte" value.asByte

/-- `size_field`. -/
def sizeField (value : Value) (what : String) (bigEndian : Bool) : Except Error UInt64 :=
  (expected what "u64" value.asU64).map (hostOrder bigEndian)

/-- An index past the members of a tuple. `from_bytes` gives a tuple the arity of its type. -/
def outOfBounds {α : Type} : Except Error α := .error (.invalidFormat "index out of bounds")

/-- `declares_big_endian`. -/
def declaresBigEndian (metadata : Value) : Bool :=
  ((metadata.dictGet endiannessKey).bind Value.asVariant).bind (fun found => found.2.asByte) == some endiannessBig

/-- One object of `parse_object_array`. -/
def parseObject (chunk : Bytes) : Except Error (ObjectType × Checksum) :=
  match chunk with
  | [] => outOfBounds
  | tag :: digest => do
    let objtype ← liftCore (ObjectType.fromU32 tag.toUInt32)
    let checksum ← liftCore (Checksum.fromAy digest)
    .ok (objtype, checksum)

/-- `parse_object_array`. -/
def parseObjectArray (bytes : Bytes) : Except Error (List (ObjectType × Checksum)) :=
  if bytes.length % 33 ≠ 0 then
    .error (.invalidFormat "static delta object array is not a multiple of 33 bytes")
  else (chunks 33 bytes).mapM parseObject

/-- One entry of `parse_meta_entries`. -/
def parseMetaEntry (bigEndian : Bool) (entry : Value) : Except Error DeltaPart := do
  match ← tupleFields entry with
  | [_, checksum, size, uncompressedSize, objects] =>
    let partCsum ← liftCore (Checksum.fromAy (← bytesField checksum "part checksum"))
    let size ← sizeField size "part size" bigEndian
    let uncompressedSize ← sizeField uncompressedSize "part uncompressed size" bigEndian
    let objects ← parseObjectArray (← bytesField objects "object array")
    .ok ⟨partCsum, size, uncompressedSize, objects⟩
  | _ => outOfBounds

/-- `parse_meta_entries`. -/
def parseMetaEntries (entries : List Value) (bigEndian : Bool) : Except Error (List DeltaPart) :=
  entries.mapM (parseMetaEntry bigEndian)

/-- One entry of `parse_fallbacks`. -/
def parseFallback (bigEndian : Bool) (entry : Value) : Except Error DeltaFallback := do
  match ← tupleFields entry with
  | [objtype, checksum, size, uncompressedSize] =>
    let objtype ← liftCore (ObjectType.fromU32 (← byteField objtype "fallback objtype").toUInt32)
    let checksum ← liftCore (Checksum.fromAy (← bytesField checksum "fallback checksum"))
    let size ← sizeField size "fallback size" bigEndian
    let uncompressedSize ← sizeField uncompressedSize "fallback uncompressed size" bigEndian
    .ok ⟨objtype, checksum, size, uncompressedSize⟩
  | _ => outOfBounds

/-- `parse_fallbacks`. -/
def parseFallbacks (entries : List Value) (bigEndian : Bool) : Except Error (List DeltaFallback) :=
  entries.mapM (parseFallback bigEndian)

/-- `str::parse::<usize>` on decimal digits. -/
def parseUsize (digits : List Char) : Option Nat :=
  let n := Nat.ofDigitChars 10 digits 0
  if n ≤ usizeMax then some n else none

/-- A number in plain decimal. A sign, a leading zero or any other character makes it no number. -/
def plainNumber (number : List Char) : Option Nat :=
  let plain := !number.isEmpty && number.all Char.isDigit && (number == ['0'] || number.head? != some '0')
  if plain then parseUsize number else none

/-- The part that a key of the metadata dict names. -/
def partNumber (dir key : String) : Option Nat := do
  let rest ← dir.toList.isPrefixOf? key.toList
  let number ← ['/'].isPrefixOf? rest
  plainNumber number

/-- The part that an entry of the metadata dict carries. -/
def entryPart (dir : String) (entry : Value) : Option Nat :=
  match entry.asTuple with
  | some [key, _] => key.asStr.bind (partNumber dir)
  | _ => none

/-- The loop of `index_inline_parts`. -/
def indexFrom (dir : String) : Nat → List Value → List (Option Nat) → List (Option Nat)
  | _, [], index => index
  | position, entry :: entries, index =>
    indexFrom dir (position + 1) entries
      (match entryPart dir entry with
      | none => index
      | some part => index.modify part fun slot => slot.or (some position))

/-- `index_inline_parts`. -/
def indexInlineParts (metadata : Value) (dir : String) (parts : Nat) : List (Option Nat) :=
  let index := List.replicate parts none
  match metadata.asArray with
  | none => index
  | some entries => indexFrom dir 0 entries index

/-- `inline_part_at`. -/
def inlinePartAt (metadata : Value) (index : List (Option Nat)) (part : Nat) (dir : String) :
    Except Error (Option (UInt8 × Bytes)) :=
  match index[part]?.join with
  | none => .ok none
  | some position =>
    let fields := do
      let entry ← (← metadata.asArray)[position]?
      let value ← (← entry.asTuple)[1]?
      let (ty, inner) ← value.asVariant
      if ty.signatureString = inlinePartSig then inner.asTuple else none
    match fields with
    | some [.byte compression, .bytes body] => .ok (some (compression, body))
    | _ =>
      .error (.invalidFormat ("static delta inline part " ++ dir ++ "/" ++ toString part ++ " is not a "
        ++ inlinePartSig ++ " variant"))

namespace DeltaSuperblock

/-- The payload of a superblock file, and the signatures of its envelope if it has one. -/
def unwrap (bytes : Bytes) : Except Error (Bytes × Option Value) :=
  if signedMagic.isPrefixOf bytes then do
    let value ← (fromBytes signedType bytes).mapError ofGvariant
    match ← tupleFields value with
    | [_, payload, signatures] =>
      let inner ← bytesField payload "signed superblock payload"
      .ok (inner, some signatures)
    | _ => outOfBounds
  else .ok (bytes, none)

/-- The source commit, which is a zero-length `ay` for a from-scratch delta. -/
def sourceCommit (bytes : Bytes) : Except Error (Option Checksum) :=
  if bytes.isEmpty then .ok none else (liftCore (Checksum.fromAy bytes)).map some

/-- `DeltaSuperblock::parse`. -/
def parse (sha256 : Bytes → Checksum) (bytes : Bytes) : Except Error DeltaSuperblock := do
  let (payload, signatures) ← unwrap bytes
  let value ← (fromBytes superblockType payload).mapError ofGvariant
  let superblockBytes := if signatures.isSome then payload else []
  match ← tupleFields value with
  | [metadata, timestamp, fromCommit, toCommit, commit, recursion, metaEntries, fallbacks] =>
    let bigEndian := declaresBigEndian metadata
    let timestamp ← (expected "superblock timestamp" "u64" timestamp.asU64).map swapBytes64
    let recursionLen := (← bytesField recursion "superblock recursion array").length
    let toCommit ← liftCore (Checksum.fromAy (← bytesField toCommit "superblock to"))
    let fromBytes ← bytesField fromCommit "superblock from"
    let fromCommit ← sourceCommit fromBytes
    let commitBytes ← (toBytes commitType commit).mapError ofGvariant
    if sha256 commitBytes ≠ toCommit then
      .error (.invalidFormat "static delta embedded commit does not match the target checksum")
    else
      let metaEntries ← parseMetaEntries (← arrayItems metaEntries) bigEndian
      let fallbacks ← parseFallbacks (← arrayItems fallbacks) bigEndian
      let inlineIndex := indexInlineParts metadata (deltaRelativeDir fromCommit toCommit) metaEntries.length
      .ok ⟨fromCommit, toCommit, commitBytes, metaEntries, fallbacks, signatures, superblockBytes,
        metadata, inlineIndex,
        timestamp, recursionLen⟩
  | _ => outOfBounds

/-- `DeltaSuperblock::inline_part`. -/
def inlinePart (superblock : DeltaSuperblock) (index : Nat) : Except Error (Option (UInt8 × Bytes)) :=
  inlinePartAt superblock.metadata superblock.inlineIndex index
    (deltaRelativeDir superblock.fromCommit superblock.toCommit)

end DeltaSuperblock

end Ostrya.Delta
