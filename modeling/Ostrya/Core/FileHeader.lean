/-
**The header of a content object** (`filehdr.rs`).

A header has two wire forms, `(uuuusa(ayay))` and, in archive repositories, `(tuuuusa(ayay))` with the
uncompressed size in front. Numbers are big-endian. On disk a header is framed: a big-endian length, four
zero bytes, the header. The framed writers encode at offset 8 of the buffer they are given, which they
clear first; `writeFramed_eq` shows that nothing depends on that offset.
-/

import Ostrya.Core.Xattrs

namespace Ostrya.Core

open ByteFormat Gvariant

/-- `S_IFMT` and the file types of `st_mode`. -/
def sIfmt : UInt32 := 0o170000
def sIfreg : UInt32 := 0o100000
def sIflnk : UInt32 := 0o120000

/-- `FileHeader`. -/
@[ext] structure FileHeader where
  uid : UInt32
  gid : UInt32
  mode : UInt32
  symlinkTarget : String
  xattrs : Xattrs
  deriving DecidableEq

namespace FileHeader

/-- `validate`. -/
def validate (header : FileHeader) : Except Error Unit :=
  if header.mode &&& sIfmt = sIfreg then
    if header.symlinkTarget = "" then .ok ()
    else .error (.invalidFileHeader "regular file with a symlink target")
  else if header.mode &&& sIfmt = sIflnk then .ok ()
  else .error (.invalidFileHeader "mode is not a regular file or symlink")

/-- `build`. -/
def build (uid gid mode rdev : UInt32) (target : String) (xattrs : Bytes) : Except Error FileHeader := do
  if rdev ≠ 0 then .error (.invalidFileHeader "rdev is not zero")
  else
    let header := ⟨uid, gid, mode, target, ← Xattrs.fromGvariant xattrs⟩
    header.validate
    .ok header

/-- `(uuuusa(ayay))`, the xattrs still in their wire form. -/
def fieldsDecode : DecodeMembers (UInt32 × UInt32 × UInt32 × UInt32 × String × Bytes) :=
  .cons GvDecode.be32 (.cons GvDecode.be32 (.cons GvDecode.be32 (.cons GvDecode.be32
    (.cons .str (.last .bytes)))))

def fieldsEncode : EncodeMembers (UInt32 × UInt32 × UInt32 × UInt32 × String × Xattrs) :=
  .cons GvEncode.be32 (.cons GvEncode.be32 (.cons GvEncode.be32 (.cons GvEncode.be32
    (.cons .str (.last Xattrs.encoder)))))

/-- The members that the encoders write. -/
def fields (header : FileHeader) : UInt32 × UInt32 × UInt32 × UInt32 × String × Xattrs :=
  (header.uid, header.gid, header.mode, 0, header.symlinkTarget, header.xattrs)

/-- `FileHeader::parse`. -/
def parse (data : Bytes) : Except Error FileHeader := do
  let (uid, gid, mode, rdev, target, xattrs) ← liftGvariant ((GvDecode.tuple fieldsDecode).decode data)
  build uid gid mode rdev target xattrs

/-- `GvEncode for FileHeader`. -/
def encoder : GvEncode FileHeader := .contramap fields (.tuple fieldsEncode)

/-- `FileHeader::serialize`. -/
def serialize (header : FileHeader) : Except Error Bytes := do
  header.validate
  liftGvariant (encodeToVec encoder header)

/-- `FileHeader::parse_archive`. -/
def parseArchive (data : Bytes) : Except Error (FileHeader × UInt64) := do
  let (size, uid, gid, mode, rdev, target, xattrs) ←
    liftGvariant ((GvDecode.tuple (.cons GvDecode.be64 fieldsDecode)).decode data)
  let header ← build uid gid mode rdev target xattrs
  .ok (header, size)

/-- `archive_fields`, encoded. -/
def archiveEncoder : GvEncode (UInt64 × FileHeader) :=
  .contramap (fun pair => (pair.1, pair.2.fields)) (.tuple (.cons GvEncode.be64 fieldsEncode))

/-- `FileHeader::serialize_archive`. -/
def serializeArchive (header : FileHeader) (uncompressedSize : UInt64) : Except Error Bytes := do
  header.validate
  liftGvariant (encodeToVec archiveEncoder (uncompressedSize, header))

/-! ### Framing -/

/-- The framing holds a length of 32 bits. -/
def framingLimit : Nat := 2 ^ 32

/-- `frame`. -/
def frame (header : Bytes) : Except Error Bytes :=
  if header.length < framingLimit then .ok (beBytes 4 header.length ++ zeros 4 ++ header)
  else .error (.invalidFileHeader "header exceeds the framing length limit")

/-- `write_framed_with`: the buffer after the call. -/
def writeFramedWith (encode : Writer) (_out : Bytes) : Except Error Bytes := do
  -- `out.clear()`, then room for the length and the padding.
  let out ← liftGvariant (encode (zeros 8))
  let length := out.length - 8
  if length < framingLimit then .ok (beBytes 4 length ++ out.drop 4)
  else .error (.invalidFileHeader "header exceeds the framing length limit")

/-- `FileHeader::write_framed`. -/
def writeFramed (header : FileHeader) (out : Bytes) : Except Error Bytes := do
  header.validate
  writeFramedWith (encoder.encode header) out

/-- `FileHeader::write_framed_archive`. -/
def writeFramedArchive (header : FileHeader) (uncompressedSize : UInt64) (out : Bytes) :
    Except Error Bytes := do
  header.validate
  writeFramedWith (archiveEncoder.encode (uncompressedSize, header)) out

/-- `split_framed`. -/
def splitFramed (data : Bytes) : Except Error (Bytes × Bytes) :=
  if data.length < 8 then
    .error (.invalidFileHeader "framed stream is shorter than its length prefix")
  else if (data.drop 4).take 4 ≠ zeros 4 then .error (.invalidFileHeader "framing padding is not zero")
  else
    match (checkedAdd 8 (beNat (data.take 4))).filter (· ≤ data.length) with
    | none => .error (.invalidFileHeader "framed header length is out of bounds")
    | some stop => .ok (data.extract 8 stop, data.drop stop)

/-! ### The two wire forms -/

variable {header : FileHeader} {data : Bytes} {size : UInt64}

theorem build_eq_ok {uid gid mode rdev : UInt32} {xattrs : Bytes} :
    build uid gid mode rdev target xattrs = .ok header ↔
      rdev = 0 ∧ Xattrs.fromGvariant xattrs = .ok header.xattrs ∧
        (uid, gid, mode, target) = (header.uid, header.gid, header.mode, header.symlinkTarget) ∧
        header.validate = .ok () := by
  unfold build
  split
  · next other => simp [other]
  next zero =>
  simp only [bind_eq_ok, Except.ok.injEq, Prod.mk.injEq, not_not.mp zero, true_and]
  constructor
  · rintro ⟨set, read, _, valid, rfl⟩
    exact ⟨read, ⟨rfl, rfl, rfl, rfl⟩, valid⟩
  · rintro ⟨read, ⟨rfl, rfl, rfl, rfl⟩, valid⟩
    exact ⟨header.xattrs, read, (), valid, rfl⟩

theorem fieldsEncode_of_decode {uid gid mode rdev : UInt32}
    {xattrs : Bytes} (built : build uid gid mode rdev target xattrs = .ok header)
    (held : fieldsDecode.Holds parts (uid, gid, mode, rdev, target, xattrs)) :
    fieldsEncode.Holds parts header.fields := by
  obtain ⟨rfl, read, same, _⟩ := build_eq_ok.mp built
  cases same
  match parts, held with
  | [_, _, _, _, _, last], ⟨first, second, third, fourth, fifth, sixth⟩ =>
    refine ⟨be32_eq_ok.mp first, be32_eq_ok.mp second, be32_eq_ok.mp third, be32_eq_ok.mp fourth,
      str_eq_ok.mp fifth, ?_⟩
    cases sixth
    exact Xattrs.fromGvariant_sound read

theorem fieldsDecode_of_encode {parts : List Bytes} (valid : header.validate = .ok ())
    (held : fieldsEncode.Holds parts header.fields) (small : ∀ part ∈ parts, Addressable part) :
    ∃ xattrs, fieldsDecode.Holds parts
        (header.uid, header.gid, header.mode, 0, header.symlinkTarget, xattrs) ∧
      build header.uid header.gid header.mode 0 header.symlinkTarget xattrs = .ok header := by
  match parts, held with
  | [_, _, _, _, _, last], ⟨first, second, third, fourth, fifth, sixth⟩ =>
    refine ⟨last, ⟨be32_eq_ok.mpr first, be32_eq_ok.mpr second, be32_eq_ok.mpr third,
      be32_eq_ok.mpr fourth, str_eq_ok.mpr fifth, rfl⟩, build_eq_ok.mpr ⟨rfl, ?_, rfl, valid⟩⟩
    exact Xattrs.fromGvariant_complete sixth (small last (by simp))

theorem serialize_eq_ok :
    header.serialize = .ok data ↔
      header.validate = .ok () ∧ encodeToVec (.tuple fieldsEncode) header.fields = .ok data := by
  rw [serialize, check_bind_eq_ok, liftGvariant_eq_ok]
  rfl

theorem serializeArchive_eq_ok :
    header.serializeArchive size = .ok data ↔ header.validate = .ok () ∧
      encodeToVec (.tuple (.cons GvEncode.be64 fieldsEncode)) (size, header.fields) = .ok data := by
  rw [serializeArchive, check_bind_eq_ok, liftGvariant_eq_ok]
  rfl

theorem be32_length (encoded : encodeToVec GvEncode.be32 x = .ok part) :
    part.length = 4 := by
  cases encoded
  exact beBytes_length _ _

/-- The length of an archive header: its members are packed, and one offset is stored. -/
theorem archive_length {size a b c d text : Bytes} (sized : size.length = 8) (first : a.length = 4)
    (second : b.length = 4) (third : c.length = 4) (fourth : d.length = 4) (target : text.length = 1) (last : Bytes) :
    (tupleBytes (EncodeMembers.cons GvEncode.be64 fieldsEncode).specs
      (tupleSpec (EncodeMembers.cons GvEncode.be64 fieldsEncode).specs).2
      [size, a, b, c, d, text, last]).length ≤ last.length + 33 := by
  have specs : (EncodeMembers.cons GvEncode.be64 fieldsEncode).specs =
      [(8, some 8), (4, some 4), (4, some 4), (4, some 4), (4, some 4), (1, none), (1, none)] := rfl
  have dynamic : (tupleSpec (EncodeMembers.cons GvEncode.be64 fieldsEncode).specs).2 = none := by decide
  rw [dynamic, specs]
  simp only [tupleBytes, memberParts, List.map_cons, List.map_nil, List.zip_cons_cons,
    List.zip_nil_right, area, tupleOffsets, alignUp, sized, first, second, third, fourth, target]
  simp [sized, first, second, third, fourth, target]
  have width := chooseOffsetSize_le (8 + (4 + (4 + (4 + (4 + (1 + last.length)))))) 1
  omega

/-- A regular header that serializes has an archive form, and the framing holds it when the xattrs
are short. -/
theorem serializeArchive_frames (written : header.serialize = .ok data)
    (regular : header.symlinkTarget = "") (size : UInt64)
    (short : ∀ xattrs, encodeToVec Xattrs.encoder header.xattrs = .ok xattrs → xattrs.length + 64 < framingLimit) :
    ∃ region, (header.serializeArchive size >>= frame) = .ok region := by
  obtain ⟨valid, encoded⟩ := serialize_eq_ok.mp written
  obtain ⟨parts, held, -⟩ := GvEncode.tuple_eq_ok.mp encoded
  match parts, held with
  | [a, b, c, d, text, last], ⟨first, second, third, fourth, fifth, sixth⟩ =>
    have held : (EncodeMembers.cons GvEncode.be64 fieldsEncode).Holds
        [beBytes 8 size.toNat, a, b, c, d, text, last] (size, header.fields) :=
      ⟨rfl, first, second, third, fourth, fifth, sixth⟩
    have whole := GvEncode.tuple_eq_ok.mpr ⟨_, held, rfl⟩
    have target : text.length = 1 := by
      cases (encodeToVec_str "").symm.trans (regular ▸ fifth)
      rfl
    have bounded := archive_length (beBytes_length 8 size.toNat) (be32_length first)
      (be32_length second) (be32_length third) (be32_length fourth) target last
    have fits := lt_of_le_of_lt bounded (Nat.lt_of_le_of_lt (by omega) (short last sixth))
    exact ⟨_, bind_eq_ok.mpr ⟨_, serializeArchive_eq_ok.mpr ⟨valid, whole⟩, if_pos fits⟩⟩

theorem serialize_of_parse (read : parse data = .ok header) :
    header.serialize = .ok data := by
  simp only [parse, bind_eq_ok, liftGvariant_eq_ok, Prod.exists] at read
  obtain ⟨uid, gid, mode, rdev, target, xattrs, decoded, built⟩ := read
  refine serialize_eq_ok.mpr ⟨(build_eq_ok.mp built).2.2.2, ?_⟩
  exact GvEncode.tuple_of_decode (.refl _) (fun parts held => fieldsEncode_of_decode built held) decoded

theorem parse_of_serialize (written : header.serialize = .ok data)
    (fits : Addressable data) : parse data = .ok header := by
  obtain ⟨valid, encoded⟩ := serialize_eq_ok.mp written
  obtain ⟨parts, held, small, decodes⟩ :=
    @GvDecode.tuple_of_encode _ _ fieldsDecode _ (.refl _) _ _ encoded fits
  obtain ⟨xattrs, holds, built⟩ := fieldsDecode_of_encode valid held small
  simp only [parse, bind_eq_ok, liftGvariant_eq_ok, Prod.exists]
  exact ⟨_, _, _, _, _, _, decodes _ holds, built⟩

theorem serializeArchive_of_parse
    (read : parseArchive data = .ok (header, size)) : header.serializeArchive size = .ok data := by
  simp only [parseArchive, bind_eq_ok, liftGvariant_eq_ok, Prod.exists, Except.ok.injEq, Prod.mk.injEq] at read
  obtain ⟨_, uid, gid, mode, rdev, target, xattrs, decoded, _, built, rfl, rfl⟩ := read
  refine serializeArchive_eq_ok.mpr ⟨(build_eq_ok.mp built).2.2.2, ?_⟩
  refine GvEncode.tuple_of_decode (.refl _) (fun parts held => ?_) decoded
  match parts, held with
  | _ :: _, ⟨first, rest⟩ => exact ⟨be64_eq_ok.mp first, fieldsEncode_of_decode built rest⟩

theorem parseArchive_of_serialize
    (written : header.serializeArchive size = .ok data) (fits : Addressable data) :
    parseArchive data = .ok (header, size) := by
  obtain ⟨valid, encoded⟩ := serializeArchive_eq_ok.mp written
  obtain ⟨parts, held, small, decodes⟩ :=
    @GvDecode.tuple_of_encode _ _ (.cons GvDecode.be64 fieldsDecode) _ (.refl _) _ _ encoded fits
  match parts, held with
  | _ :: _, ⟨first, rest⟩ =>
    obtain ⟨xattrs, holds, built⟩ := fieldsDecode_of_encode valid rest
      fun part member => small part (.tail _ member)
    simp only [parseArchive, bind_eq_ok, liftGvariant_eq_ok, Prod.exists, Except.ok.injEq, Prod.mk.injEq]
    exact ⟨size, _, _, _, _, _, _, decodes _ ⟨be64_eq_ok.mpr first, holds⟩, header, built, rfl, rfl⟩

/-! ### Framing and its inverse -/

/-- An encoder of an alignment that divides eight writes the same bytes after the length prefix. -/
theorem writeFramedWith_eq {α : Type} (encoder : GvEncode α) (aligned : encoder.spec.1 ∣ 8)
    (value : α) (out : Bytes) :
    writeFramedWith (encoder.encode value) out = liftGvariant (encodeToVec encoder value) >>= frame := by
  have appended := encoder.appends value (zeros 8) (by simpa using aligned)
  unfold writeFramedWith
  rw [appended, encodeToVec]
  cases encoder.encode value [] with
  | error fault => rfl
  | ok bytes =>
    simp only [map_ok, liftGvariant, Except.mapError, ok_bind, frame, List.length_append, zeros,
      List.length_replicate, Nat.add_sub_cancel_left]
    split
    · rfl
    · rfl

/-- **`write_framed` leaves exactly the framed header in the buffer.** -/
theorem writeFramed_eq (header : FileHeader) (out : Bytes) :
    header.writeFramed out = header.serialize >>= frame := by
  rw [writeFramed, serialize, writeFramedWith_eq encoder (by decide)]
  cases header.validate <;> rfl

theorem writeFramedArchive_eq (header : FileHeader) (size : UInt64) (out : Bytes) :
    header.writeFramedArchive size out = header.serializeArchive size >>= frame := by
  rw [writeFramedArchive, serializeArchive, writeFramedWith_eq archiveEncoder (by decide)]
  cases header.validate <;> rfl

/-- **A framed header splits from any payload after it.** -/
theorem splitFramed_frame {header framed : Bytes} (written : frame header = .ok framed)
    (payload : Bytes) : splitFramed (framed ++ payload) = .ok (header, payload) := by
  unfold frame at written
  split at written
  case isFalse => cases written
  next small =>
  cases written
  have number : beNat (beBytes 4 header.length) = header.length := beNat_beBytes small
  have width := beBytes_length 4 header.length
  generalize beBytes 4 header.length = count at number width ⊢
  have whole : count ++ zeros 4 ++ header ++ payload = count ++ (zeros 4 ++ (header ++ payload)) := by
    simp
  have eight : (count ++ zeros 4).length = 8 := by simp [width]
  have length : (count ++ zeros 4 ++ header ++ payload).length = 8 + header.length + payload.length := by
    rw [List.length_append, List.length_append, eight]
  have first : (count ++ zeros 4 ++ header ++ payload).take 4 = count := by
    rw [whole, ← width, List.take_left]
  have second : ((count ++ zeros 4 ++ header ++ payload).drop 4).take 4 = zeros 4 := by
    rw [whole, ← width, List.drop_left, width]
    exact List.take_left' (by simp)
  have stop : (checkedAdd 8 (beNat count)).filter (· ≤ 8 + header.length + payload.length)
      = some (8 + header.length) := by
    have bound : 8 + header.length ≤ usizeMax := by
      unfold framingLimit at small
      unfold usizeMax
      omega
    rw [number, checkedAdd, if_pos bound]
    simp
  unfold splitFramed
  rw [length, if_neg (by omega), second, if_neg (not_not.mpr rfl), first, stop]
  refine congrArg Except.ok (Prod.ext ?_ ?_)
  · have cut := extract_append_middle (count ++ zeros 4) header payload
    rwa [eight] at cut
  · rw [← eight, ← List.length_append, List.drop_left]

/-! ### The codec of a file header -/

/-- A regular file with no attributes. -/
def plain : FileHeader := ⟨0, 0, 0o100644, "", .empty⟩

/-- `write_framed` replaces what the buffer holds. -/
theorem writeFramed_replaces :
    plain.writeFramed [7] = plain.serialize >>= frame ∧
      plain.writeFramed [7] ≠ (plain.serialize >>= frame).map ([7] ++ ·) := by
  refine ⟨writeFramed_eq plain [7], ?_⟩
  decide +kernel

/-- **The file header codec.** Both wire forms read back to what was written and write back to what
was read, the set of attributes does not depend on the order of its pairs, the framed writers leave
exactly the framed serialization in the buffer, and a framed header splits from any payload. -/
theorem fileHeader_codec :
    (∀ data header, parse data = .ok header → header.serialize = .ok data) ∧
    (∀ data header size, parseArchive data = .ok (header, size) → header.serializeArchive size = .ok data) ∧
    (∀ (header : FileHeader) data, header.serialize = .ok data → Addressable data → parse data = .ok header) ∧
    (∀ (header : FileHeader) size data, header.serializeArchive size = .ok data → Addressable data →
      parseArchive data = .ok (header, size)) ∧
    (∀ pairs others : List Pair, pairs.Perm others → Xattrs.new pairs = Xattrs.new others) ∧
    (∀ (header : FileHeader) out, header.writeFramed out = header.serialize >>= frame) ∧
    (∀ (header : FileHeader) size out,
      header.writeFramedArchive size out = header.serializeArchive size >>= frame) ∧
    (∀ header framed payload, frame header = .ok framed →
      splitFramed (framed ++ payload) = .ok (header, payload)) :=
  ⟨fun _ _ => serialize_of_parse, fun _ _ _ => serializeArchive_of_parse, fun _ _ => parse_of_serialize,
    fun _ _ _ => parseArchive_of_serialize, fun _ _ => Xattrs.new_of_perm, writeFramed_eq,
    writeFramedArchive_eq, fun _ _ payload written => splitFramed_frame written payload⟩

/-- A symlink with one attribute. -/
def link : FileHeader :=
  ⟨1, 2, 0o120777, "to", ⟨[([97, 0], [9])], by decide, by decide⟩⟩

def linkBytes : Bytes :=
  [0, 0, 0, 1, 0, 0, 0, 2, 0, 0, 0xa1, 0xff, 0, 0, 0, 0, 116, 111, 0, 97, 0, 9, 2, 4, 19]

theorem fileHeader_codec_link :
    link.serialize = .ok linkBytes ∧ parse linkBytes = .ok link := by
  obtain ⟨_, _, reads, _⟩ := fileHeader_codec
  have written : link.serialize = .ok linkBytes := by decide +kernel
  exact ⟨written, reads link linkBytes written (by decide)⟩

end FileHeader

end Ostrya.Core
