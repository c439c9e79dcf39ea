/-
**Commit objects** (`commit.rs`).

A commit is `(a{sv}aya(say)sstayay)`. Four readers decode the same eight-member tuple: `parse` into a value
tree, `parse_with_metadata_entries` with each metadata variant kept as its bytes, `parse_link` and
`parse_timestamp` for some members only. The writer splices the bytes of the metadata dictionary in front.

The reader takes the first member as plain bytes, of alignment 1, and the writer as a dictionary, of
alignment 8: at offset zero the two frame alike.
-/

import Ostrya.Core.Basic
import Ostrya.Gvariant.Dict
import Ostrya.Gvariant.NormalForm
import Ostrya.Gvariant.Validate

namespace Ostrya.Core

open ByteFormat Gvariant

/-- `Commit`. -/
structure Commit where
  metadata : Value
  parent : Option Checksum
  related : List (String × Bytes)
  subject : String
  body : String
  timestamp : UInt64
  rootDirtree : Checksum
  rootDirmeta : Checksum

/-- `CommitLink`. -/
structure CommitLink where
  parent : Option Checksum
  rootDirtree : Checksum
  rootDirmeta : Checksum

/-- `parse_signature_dict`. -/
def parseSignatureDict {ε : Type} (lift : Error → ε) (bytes : Bytes) : Except ε (Option Value) :=
  if bytes.isEmpty then .ok none
  else ((liftGvariant (fromBytes dictType bytes)).mapError lift).map some

namespace Commit

/-- `parse_parent`. -/
def parseParent (parent : Bytes) : Except Error (Option Checksum) :=
  if parent.length = 0 then .ok none
  else if parent.length = 32 then (Checksum.fromAy parent).map some
  else .error (.invalidCommit "parent checksum is neither empty nor 32 bytes")

/-- `parse_root_dirtree`. -/
def parseRootDirtree (rootDirtree : Bytes) : Except Error Checksum :=
  (Checksum.fromAy rootDirtree).mapError fun _ => .invalidCommit "root dirtree checksum is not 32 bytes"

/-- `parse_root_dirmeta`. -/
def parseRootDirmeta (rootDirmeta : Bytes) : Except Error Checksum :=
  (Checksum.fromAy rootDirmeta).mapError fun _ => .invalidCommit "root dirmeta checksum is not 32 bytes"

/-- `(say)`. -/
def relatedDecode : GvDecode (String × Bytes) := .tuple (.cons .str (.last .bytes))

def relatedEncode : GvEncode (String × Bytes) := .tuple (.cons .str (.last .bytes))

/-- `CommitView`. -/
structure View where
  metadata : Bytes
  parent : Bytes
  related : ArrayReader
  subject : String
  body : String
  timestamp : UInt64
  rootDirtree : Bytes
  rootDirmeta : Bytes

def viewMembers :
    DecodeMembers (Bytes × Bytes × ArrayReader × String × String × UInt64 × Bytes × Bytes) :=
  .cons .bytes (.cons .bytes (.cons (.arrayIter relatedDecode) (.cons .str (.cons .str
    (.cons GvDecode.be64 (.cons .bytes (.last .bytes)))))))

/-- `CommitView::decode`. -/
def viewDecode (data : Bytes) : Except Error View := do
  let (metadata, parent, related, subject, body, timestamp, rootDirtree, rootDirmeta) ←
    liftGvariant ((GvDecode.tuple viewMembers).decode data)
  .ok ⟨metadata, parent, related, subject, body, timestamp, rootDirtree, rootDirmeta⟩

/-- `Commit::parse`. -/
def parse (data : Bytes) : Except Error Commit := do
  let view ← viewDecode data
  let metadata ← liftGvariant (fromBytes dictType view.metadata)
  let parent ← parseParent view.parent
  let related ← liftGvariant (view.related.collect relatedDecode.decode)
  .ok ⟨metadata, parent, related, view.subject, view.body, view.timestamp,
    ← parseRootDirtree view.rootDirtree, ← parseRootDirmeta view.rootDirmeta⟩

/-! ### Reading the metadata in place -/

/-- `VariantBytes`. -/
structure VariantBytes where
  child : Bytes
  signature : String

/-- `GvDecode for VariantBytes`. -/
def decodeVariantBytes (data : Bytes) : Except Gvariant.Error VariantBytes :=
  match rposition data with
  | none => .error (.notNormal "variant lacks a type separator")
  | some sep =>
    match fromUtf8 (data.drop (sep + 1)) with
    | none => .error (.notNormal "variant type signature is not UTF-8")
    | some signature => .ok ⟨data.take sep, signature⟩

/-- `GvEncode for VariantBytes`, to an empty buffer. -/
def VariantBytes.encode (variant : VariantBytes) : Bytes :=
  variant.child ++ [0] ++ asBytes variant.signature

/-- `(&str, VariantBytes)`. -/
def entryDecode : GvDecode (String × VariantBytes) :=
  .tuple (.cons .str (.last
    ⟨(8, none), decodeVariantBytes, valid_variant⟩))

/-- The entries of a metadata dictionary: each key with the bytes of its variant. -/
def metadataEntries (metadata : Bytes) : Except Gvariant.Error (List (String × Bytes)) := do
  let entries ← (GvDecode.arrayIter entryDecode).decode metadata
  entries.collect fun part => do
    let (key, value) ← entryDecode.decode part
    .ok (key, value.encode)

/-- `Commit::parse_with_metadata_entries`. -/
def parseWithMetadataEntries (data : Bytes) : Except Error (Commit × List (String × Bytes)) := do
  let view ← viewDecode data
  liftGvariant (validate dictType view.metadata)
  let entries ← liftGvariant (metadataEntries view.metadata)
  let parent ← parseParent view.parent
  let related ← liftGvariant (view.related.collect relatedDecode.decode)
  let commit := ⟨.array [], parent, related, view.subject, view.body, view.timestamp,
    ← parseRootDirtree view.rootDirtree, ← parseRootDirmeta view.rootDirmeta⟩
  .ok (commit, entries)

/-- `Commit::parse_link`. -/
def parseLink (data : Bytes) : Except Error CommitLink := do
  let view ← viewDecode data
  .ok ⟨← parseParent view.parent, ← parseRootDirtree view.rootDirtree, ← parseRootDirmeta view.rootDirmeta⟩

/-- `Commit::parse_timestamp`. -/
def parseTimestamp (data : Bytes) : Except Error UInt64 := do
  let view ← viewDecode data
  let _ ← parseParent view.parent
  let _ ← parseRootDirtree view.rootDirtree
  let _ ← parseRootDirmeta view.rootDirmeta
  .ok view.timestamp

/-! ### Writing -/

/-- `RawDict`. -/
def rawDict : GvEncode Bytes :=
  .leaf (8, none) valid_variant .ok sized_variant

def commitMembers :
    EncodeMembers (Bytes × Bytes × List (String × Bytes) × String × String × UInt64 × Checksum × Checksum) :=
  .cons rawDict (.cons .bytes (.cons (.slice relatedEncode) (.cons .str (.cons .str
    (.cons GvEncode.be64 (.cons GvEncode.checksum (.last GvEncode.checksum)))))))

/-- The parent as the writer stores it. -/
def parentBytes : Option Checksum → Bytes
  | some checksum => checksum.bytes
  | none => []

/-- `encode_with`. -/
def encodeWith (commit : Commit) (metadata : Bytes) : Writer :=
  (GvEncode.tuple commitMembers).encode
    (metadata, parentBytes commit.parent, commit.related, commit.subject, commit.body,
      commit.timestamp, commit.rootDirtree, commit.rootDirmeta)

/-- `Commit::serialize`. -/
def serialize (commit : Commit) : Except Error Bytes := liftGvariant do
  let metadata ← toBytes dictType commit.metadata
  commit.encodeWith metadata []

/-- `Commit::serialize_with_metadata`. -/
def serializeWithMetadata (commit : Commit) (metadata : Bytes) : Except Error Bytes :=
  liftGvariant (commit.encodeWith metadata [])

/-! ### What the readers return -/

variable {data : Bytes} {commit : Commit}

/-- The members of a view, decoded, other than the metadata. -/
structure View.Reads (view : View) (commit : Commit) : Prop where
  parent : parseParent view.parent = .ok commit.parent
  related : view.related.collect relatedDecode.decode = .ok commit.related
  subject : view.subject = commit.subject
  body : view.body = commit.body
  timestamp : view.timestamp = commit.timestamp
  rootDirtree : commit.rootDirtree.bytes = view.rootDirtree
  rootDirmeta : commit.rootDirmeta.bytes = view.rootDirmeta

theorem parse_eq_ok :
    parse data = .ok commit ↔ ∃ view, viewDecode data = .ok view ∧
      fromBytes dictType view.metadata = .ok commit.metadata ∧ view.Reads commit := by
  simp [parse, bind_eq_ok, liftGvariant_eq_ok, parseRootDirtree, parseRootDirmeta, Checksum.mapError_fromAy_eq_ok]
  refine exists_congr fun view => and_congr_right fun _ => ?_
  constructor
  · rintro ⟨metadata, read, parent, hasParent, related, drained, dirtree, same, dirmeta, same', rfl⟩
    exact ⟨read, hasParent, drained, rfl, rfl, rfl, same, same'⟩
  · rintro ⟨read, reads⟩
    exact ⟨_, read, _, reads.parent, _, reads.related, _, reads.rootDirtree, _, reads.rootDirmeta, by
      rw [reads.subject, reads.body, reads.timestamp]⟩

theorem parseWithMetadataEntries_eq_ok :
    parseWithMetadataEntries data = .ok (commit, entries) ↔ ∃ view, viewDecode data = .ok view ∧
      validate dictType view.metadata = .ok () ∧ metadataEntries view.metadata = .ok entries ∧
      view.Reads commit ∧ commit.metadata = .array [] := by
  simp only [parseWithMetadataEntries, bind_eq_ok, liftGvariant_eq_ok, parseRootDirtree,
    parseRootDirmeta, Checksum.mapError_fromAy_eq_ok, Except.ok.injEq, Prod.mk.injEq]
  refine exists_congr fun view => and_congr_right fun _ => ?_
  constructor
  · rintro ⟨_, valid, _, read, parent, hasParent, related, drained, dirtree, same, dirmeta, same', rfl, rfl⟩
    exact ⟨valid, read, ⟨hasParent, drained, rfl, rfl, rfl, same, same'⟩, rfl⟩
  · rintro ⟨valid, read, reads, empty⟩
    exact ⟨(), valid, entries, read, _, reads.parent, _, reads.related, _, reads.rootDirtree, _,
      reads.rootDirmeta, by rw [reads.subject, reads.body, reads.timestamp, ← empty], rfl⟩

theorem parseLink_of_parse (read : parse data = .ok commit) :
    parseLink data = .ok ⟨commit.parent, commit.rootDirtree, commit.rootDirmeta⟩ := by
  obtain ⟨view, decoded, _, reads⟩ := parse_eq_ok.mp read
  simp only [parseLink, bind_eq_ok, parseRootDirtree, parseRootDirmeta, Checksum.mapError_fromAy_eq_ok]
  exact ⟨view, decoded, _, reads.parent, _, reads.rootDirtree, _, reads.rootDirmeta, rfl⟩

theorem parseTimestamp_of_parse (read : parse data = .ok commit) :
    parseTimestamp data = .ok commit.timestamp := by
  obtain ⟨view, decoded, _, reads⟩ := parse_eq_ok.mp read
  simp only [parseTimestamp, bind_eq_ok, parseRootDirtree, parseRootDirmeta, Checksum.mapError_fromAy_eq_ok]
  exact ⟨view, decoded, _, reads.parent, _, reads.rootDirtree, _, reads.rootDirmeta,
    congrArg _ reads.timestamp⟩

/-! ### The metadata entries -/

variable {part : Bytes}

/-- A metadata entry and its key with the normal-form bytes of its variant. -/
def EntryMatches (item : Value) (entry : String × Bytes) : Prop :=
  ∃ ty inner, item = .tuple [.str entry.1, .variant ty inner] ∧
    toBytes .variant (.variant ty inner) = .ok entry.2

theorem decodeVariantBytes_of_split {inner signature : Bytes} {ty : Ty}
    (cut : splitVariant data = .ok (inner, signature, ty)) :
    ∃ variant, decodeVariantBytes data = .ok variant ∧ variant.encode = data := by
  obtain ⟨rfl, rfl, _⟩ := splitVariant_eq_ok.mp cut
  refine ⟨⟨inner, ty.signatureString⟩, ?_, ?_⟩
  · have found := rposition_eq_some.mpr ⟨inner, _, rfl, rfl, ty.zero_notMem_signatureBytes⟩
    have tail : (inner ++ 0 :: ty.signatureBytes).drop (inner.length + 1) = ty.signatureBytes := by
      rw [← List.drop_drop, List.drop_left, List.drop_one, List.tail_cons]
    have utf8 : fromUtf8 ty.signatureBytes = some ty.signatureString :=
      fromUtf8_eq_some.mpr ty.asBytes_signatureString
    simp [decodeVariantBytes, found, tail, utf8]
  · rw [VariantBytes.encode, Ty.asBytes_signatureString, List.append_assoc]
    rfl

theorem entry_of_parse (deep : levels + 1 ≤ maxValueDepth + 1)
    (read : Gvariant.parse (levels + 2) (.dictEntry .str .variant) part = .ok item) :
    ∃ entry, (do
        let (key, value) ← entryDecode.decode part
        Except.ok (key, value.encode)) = .ok entry ∧ EntryMatches item entry := by
  obtain ⟨parts, items, cut, each, rfl⟩ := (parseStruct_eq_ok (List.cons_ne_nil _ _)).mp read
  cases each with
  | cons readKey each =>
  cases each with
  | cons readVariant each =>
  cases each
  obtain ⟨key, decodedKey, rfl⟩ := map_eq_ok.mp readKey
  have normal := parse_sound _ _ _ _ readVariant
  obtain ⟨⟨inner, signature, ty⟩, divided, readInner⟩ := bind_eq_ok.mp readVariant
  obtain ⟨value, parsed, same⟩ := bind_eq_ok.mp readInner
  cases same
  obtain ⟨variant, decoded, whole⟩ := decodeVariantBytes_of_split divided
  refine ⟨(key, variant.encode), ?_, ty, value, rfl, ?_⟩
  · exact bind_eq_ok.mpr ⟨(key, variant), GvDecode.tuple_eq_ok.mpr ⟨_, cut, decodedKey, decoded⟩, rfl⟩
  · rw [whole, toBytes_eq_encode]
    exact encode_mono deep normal

/-- **The metadata read in place** is, entry by entry, what the value reader returns. -/
theorem metadataEntries_of_fromBytes {metadata : Bytes} (read : fromBytes dictType metadata = .ok value) :
    ∃ items entries, value = .array items ∧ metadataEntries metadata = .ok entries ∧
      List.Forall₂ EntryMatches items entries := by
  obtain ⟨r, opened, read⟩ := bind_eq_ok.mp read
  obtain ⟨items, collected, same⟩ := bind_eq_ok.mp read
  cases same
  obtain ⟨entries, drained, each⟩ := ArrayReader.collectFrom_imp
    (fun part item decoded => entry_of_parse (Nat.le_of_ble_eq_true rfl) decoded) collected
  exact ⟨items, entries, rfl, bind_eq_ok.mpr ⟨r, opened, drained⟩, each⟩

/-! ### Reading and writing -/

theorem parentBytes_of_parse {parent : Option Checksum} (read : parseParent bytes = .ok parent) :
    parentBytes parent = bytes := by
  unfold parseParent at read
  split at read
  · next empty =>
    cases read
    exact (List.length_eq_zero_iff.mp empty).symm
  split_ifs at read
  obtain ⟨checksum, found, rfl⟩ := map_eq_ok.mp read
  exact Checksum.fromAy_eq_ok.mp found

theorem parseParent_parentBytes (parent : Option Checksum) : parseParent (parentBytes parent) = .ok parent := by
  cases parent with
  | none => rfl
  | some checksum =>
    rw [parseParent, parentBytes, checksum.length, if_neg (by decide), if_pos rfl,
      Checksum.fromAy_eq_ok.mpr rfl, map_ok]

theorem viewDecode_eq_ok :
    viewDecode data = .ok view ↔ (GvDecode.tuple viewMembers).decode data
      = .ok (view.metadata, view.parent, view.related, view.subject, view.body, view.timestamp,
          view.rootDirtree, view.rootDirmeta) := by
  simp [viewDecode, bind_eq_ok, liftGvariant_eq_ok]
  constructor
  · rintro ⟨_, _, _, _, _, _, _, _, decoded, rfl⟩
    exact decoded
  · exact fun decoded => ⟨_, _, _, _, _, _, _, _, decoded, rfl⟩

theorem related_code (entries : List (String × Bytes)) :
    List.Forall₂ (Codes relatedDecode relatedEncode) entries entries :=
  List.forall₂_same.mpr fun _ _ => .tuple (.refl _) (.cons (.str _) (.last (.bytes _)))

/-- The dictionary is the first member, so its alignment pads nothing. -/
theorem members_alike : Alike viewMembers.specs commitMembers.specs := Alike.of_first rfl

theorem serialize_eq_ok :
    commit.serialize = .ok data ↔
      ∃ metadata, toBytes dictType commit.metadata = .ok metadata ∧
        encodeToVec (.tuple commitMembers) (metadata, parentBytes commit.parent, commit.related,
          commit.subject, commit.body, commit.timestamp, commit.rootDirtree, commit.rootDirmeta) = .ok data := by
  rw [serialize, liftGvariant_eq_ok, bind_eq_ok]
  rfl

theorem serialize_of_parse (read : parse data = .ok commit) :
    commit.serialize = .ok data := by
  obtain ⟨view, decoded, metadata, reads⟩ := parse_eq_ok.mp read
  refine serialize_eq_ok.mpr ⟨view.metadata, ?_, ?_⟩
  · rw [toBytes_eq_encode]
    exact parse_sound _ _ _ _ metadata
  refine GvEncode.tuple_of_decode members_alike (fun parts held => ?_) (viewDecode_eq_ok.mp decoded)
  match parts, held with
  | [_, _, _, _, _, _, _, _], ⟨first, second, third, fourth, fifth, sixth, seventh, eighth⟩ =>
    rw [reads.subject] at fourth
    rw [reads.body] at fifth
    rw [reads.timestamp] at sixth
    rw [← reads.rootDirtree] at seventh
    rw [← reads.rootDirmeta] at eighth
    rw [← parentBytes_of_parse reads.parent] at second
    refine ⟨(Except.ok.inj first) ▸ rfl, bytes_eq_ok.mp second, ?_, str_eq_ok.mp fourth,
      str_eq_ok.mp fifth, be64_eq_ok.mp sixth, bytes_eq_ok.mp seventh, bytes_eq_ok.mp eighth⟩
    exact GvEncode.slice_of_collect rfl third reads.related (related_code _)

theorem parse_of_serialize (written : commit.serialize = .ok data)
    (parsed : commit.metadata.ParsedTypes) (short : Addressable data) : parse data = .ok commit := by
  obtain ⟨metadata, dict, encoded⟩ := serialize_eq_ok.mp written
  obtain ⟨parts, held, small, decodes⟩ := GvDecode.tuple_of_encode members_alike encoded short
  match parts, held with
  | [_, _, related, _, _, _, _, _], ⟨first, second, third, fourth, fifth, sixth, seventh, eighth⟩ =>
    obtain ⟨r, opened, drained⟩ := GvDecode.collect_of_slice rfl third (small related (by simp))
      ((related_code _).imp fun _ _ codes => codes.read)
    cases first
    have fits : Addressable metadata := small metadata (.head _)
    rw [toBytes_eq_encode] at dict
    refine parse_eq_ok.mpr ⟨⟨metadata, parentBytes commit.parent, r, commit.subject, commit.body,
      commit.timestamp, commit.rootDirtree.bytes, commit.rootDirmeta.bytes⟩, viewDecode_eq_ok.mpr (decodes _ ?_),
      parse_complete _ _ _ _ dict parsed fits,
      ⟨parseParent_parentBytes _, drained, rfl, rfl, rfl, rfl, rfl⟩⟩
    exact ⟨rfl, bytes_eq_ok.mpr second, opened, str_eq_ok.mpr fourth, str_eq_ok.mpr fifth,
      be64_eq_ok.mpr sixth, bytes_eq_ok.mpr seventh, bytes_eq_ok.mpr eighth⟩

/-! ### The four readers -/

/-- What a view reads to does not involve the metadata. -/
theorem View.Reads.withMetadata {view : View} (reads : view.Reads commit)
    (metadata : Value) : view.Reads { commit with metadata := metadata } :=
  ⟨reads.parent, reads.related, reads.subject, reads.body, reads.timestamp, reads.rootDirtree,
    reads.rootDirmeta⟩

theorem parse_of_parseWithMetadataEntries {entries : List (String × Bytes)}
    (read : parseWithMetadataEntries data = .ok (commit, entries)) :
    ∃ metadata, parse data = .ok { commit with metadata := metadata } := by
  obtain ⟨view, decoded, valid, _, reads, _⟩ := parseWithMetadataEntries_eq_ok.mp read
  obtain ⟨metadata, parsed⟩ := validate_eq_ok.mp valid
  exact ⟨metadata, parse_eq_ok.mpr ⟨view, decoded, parsed, reads.withMetadata metadata⟩⟩

theorem parseWithMetadataEntries_of_parse (read : parse data = .ok commit) :
    ∃ items entries, commit.metadata = .array items ∧
      parseWithMetadataEntries data = .ok ({ commit with metadata := .array [] }, entries) ∧
      List.Forall₂ EntryMatches items entries := by
  obtain ⟨view, decoded, metadata, reads⟩ := parse_eq_ok.mp read
  obtain ⟨items, entries, same, inPlace, each⟩ := metadataEntries_of_fromBytes metadata
  exact ⟨items, entries, same, parseWithMetadataEntries_eq_ok.mpr
    ⟨view, decoded, validate_eq_ok.mpr ⟨_, metadata⟩, inPlace, reads.withMetadata _, rfl⟩, each⟩

/-- **The commit codec.** Reading and writing are inverse. The reader that keeps the metadata
entries as bytes accepts the same commits, with the same other fields and with the key and the
normal-form bytes of each entry; the partial readers return the fields of the whole one; and
metadata that is already serialized can be spliced in. -/
theorem commit_codec :
    (∀ data commit, parse data = .ok commit → commit.serialize = .ok data) ∧
    (∀ (commit : Commit) data, commit.serialize = .ok data → commit.metadata.ParsedTypes →
      Addressable data → parse data = .ok commit) ∧
    (∀ data commit entries, parseWithMetadataEntries data = .ok (commit, entries) →
      ∃ metadata, parse data = .ok { commit with metadata := metadata }) ∧
    (∀ data commit, parse data = .ok commit →
      ∃ items entries, commit.metadata = .array items ∧
        parseWithMetadataEntries data = .ok ({ commit with metadata := .array [] }, entries) ∧
        List.Forall₂ EntryMatches items entries) ∧
    (∀ data commit, parse data = .ok commit →
      parseLink data = .ok ⟨commit.parent, commit.rootDirtree, commit.rootDirmeta⟩ ∧
        parseTimestamp data = .ok commit.timestamp) ∧
    (∀ (commit : Commit) metadata, toBytes dictType commit.metadata = .ok metadata →
      commit.serializeWithMetadata metadata = commit.serialize) := by
  refine ⟨fun _ _ => serialize_of_parse, fun _ _ => parse_of_serialize,
    fun _ _ _ => parse_of_parseWithMetadataEntries, fun _ _ => parseWithMetadataEntries_of_parse,
    fun _ _ read => ⟨parseLink_of_parse read, parseTimestamp_of_parse read⟩, ?_⟩
  intro commit metadata written
  rw [serializeWithMetadata, serialize, written, ok_bind]

/-- A commit with a version, a related object and no parent. -/
def sample : Commit :=
  ⟨versionDict, none, [("a", [7])], "s", "", 5, ⟨List.replicate 32 1, rfl⟩, ⟨List.replicate 32 2, rfl⟩⟩

def sampleBytes : Bytes :=
  versionDictBytes ++ [97, 0, 7, 2, 4, 115, 0, 0, 0, 0, 0, 0, 0, 0, 0, 0, 0, 5] ++ List.replicate 32 1 ++
    List.replicate 32 2 ++ [64, 22, 21, 19, 14, 14]

theorem commit_codec_sample :
    sample.serialize = .ok sampleBytes ∧ parse sampleBytes = .ok sample := by
  obtain ⟨_, reads, _⟩ := commit_codec
  have written : sample.serialize = .ok sampleBytes := by decide +kernel
  refine ⟨written, reads sample sampleBytes written ?_ (by decide)⟩
  intro ty carried
  obtain rfl := List.mem_singleton.mp carried
  exact ⟨"s", rfl⟩

end Commit

end Ostrya.Core
