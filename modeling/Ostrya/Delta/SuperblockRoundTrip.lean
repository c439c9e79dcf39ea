/-
**A superblock reads back as it was built.**

The reader works on the value that the writer serialized, because the codec round-trips; what is left is that
each field is written in the form in which it is read.

* `parseMetaEntry_metaEntryValue`, `parseFallback_fallbackValue`: the sizes are swapped twice or not at all;
* `inlinePartAt_metadata`: a key of the dict names a part exactly when the dict carries that part under it;
* `superblock_unsigned`: no superblock starts with the magic of the envelope;
* `parse_buildSuperblock`: the whole superblock, and any envelope around it.
-/

import Ostrya.Delta.Superblock

namespace Ostrya.Delta

open ByteFormat Gvariant Ostrya.Core

/-! ### Fields -/

theorem swapBytes64_swapBytes64 (x : UInt64) : swapBytes64 (swapBytes64 x) = x := swapped_swapped isScalar_u64 x

@[simp] theorem hostOrder_hostOrder (bigEndian : Bool) (x : UInt64) :
    hostOrder bigEndian (hostOrder bigEndian x) = x := by
  cases bigEndian
  · rfl
  · exact swapBytes64_swapBytes64 x

@[simp] theorem fromAy_bytes (checksum : Checksum) : Checksum.fromAy checksum.bytes = .ok checksum :=
  Checksum.fromAy_eq_ok.mpr rfl

/-- An object type survives the byte that it is written as. -/
@[simp] theorem fromU32_asU32_mod (objtype : ObjectType) :
    ObjectType.fromU32 (objtype.asU32 % 256) = .ok objtype := by cases objtype <;> rfl

theorem parseObjectArray_objectArray (objects : List (ObjectType × Checksum)) :
    parseObjectArray (objectArray objects) = .ok objects := by
  have sized : ∀ block ∈ objects.map (fun object => object.1.asU32.toUInt8 :: object.2.bytes), block.length = 33 := by
    intro block member
    obtain ⟨object, -, rfl⟩ := List.mem_map.mp member
    rw [List.length_cons, object.2.length]
  have length : (objectArray objects).length = objects.length * 33 := by
    simp [objectArray, List.length_flatMap, Checksum.length]
  unfold parseObjectArray
  rw [if_neg (by rw [length]; omega), objectArray, List.flatMap_def,
    chunks_blocks (by decide) sized, mapM_eq_ok, List.forall₂_map_left_iff, List.forall₂_same]
  intro object _
  simp [parseObject]

theorem parseMetaEntry_metaEntryValue (bigEndian : Bool) (entry : PartEntry) :
    parseMetaEntry bigEndian (metaEntryValue bigEndian entry) = .ok entry.deltaPart := by
  simp [parseMetaEntry, metaEntryValue, tupleFields, bytesField, sizeField, expected, Value.asBytes,
    Value.asU64, parseObjectArray_objectArray, PartEntry.deltaPart]

/-- The fallback that a reader has for one that was written. -/
def FallbackItem.deltaFallback (item : FallbackItem) : DeltaFallback :=
  ⟨item.objtype, item.checksum, item.compressedSize, item.contentSize⟩

theorem parseFallback_fallbackValue (bigEndian : Bool) (item : FallbackItem) :
    parseFallback bigEndian (fallbackValue bigEndian item) = .ok item.deltaFallback := by
  simp [parseFallback, fallbackValue, tupleFields, byteField, bytesField, sizeField, expected,
    Value.asByte, Value.asBytes, Value.asU64, FallbackItem.deltaFallback]

theorem mapM_map_eq_ok {α β γ ε : Type} {read : β → Except ε γ} {write : α → β} {out : α → γ}
    (back : ∀ a, read (write a) = .ok (out a)) (items : List α) :
    (items.map write).mapM read = .ok (items.map out) := by
  rw [mapM_eq_ok, List.forall₂_map_left_iff, List.forall₂_map_right_iff, List.forall₂_same]
  exact fun a _ => back a

/-! ### Part numbers -/

theorem isPrefixOf?_append {α : Type} [BEq α] [ReflBEq α] (front back : List α) :
    front.isPrefixOf? (front ++ back) = some back := by
  induction front with
  | nil => rfl
  | cons first front ih => simp [List.isPrefixOf?, ih]

/-- A key under the directory of the delta names the number that its last component is. -/
theorem partNumber_under (dir : String) (name : List Char) :
    partNumber dir (dir ++ "/" ++ String.ofList name) = plainNumber name := by
  have key : (dir ++ "/" ++ String.ofList name).toList = dir.toList ++ '/' :: name := by simp
  rw [partNumber, key, isPrefixOf?_append]
  rfl

theorem head?_toDigits_eq_zero : (Nat.toDigits 10 n).head? = some '0' → n = 0 := by
  induction n using Nat.strongRecOn with
  | _ n ih =>
    intro head
    rcases Nat.lt_or_ge n 10 with small | large
    · grind [Nat.digitChar, Nat.toDigits_of_lt_base]
    · rw [Nat.toDigits_of_base_le (by decide) large, List.head?_append_of_ne_nil _ Nat.toDigits_ne_nil] at head
      have := ih (n / 10) (by omega) head
      omega

/-- Decimal is plain, and reads back. -/
theorem plainNumber_toDigits (small : n ≤ usizeMax) : plainNumber (Nat.toDigits 10 n) = some n := by
  have digits : (Nat.toDigits 10 n).all Char.isDigit = true :=
    List.all_eq_true.mpr fun c member => Nat.isDigit_of_mem_toDigits (by decide) (by decide) member
  have nonempty : (Nat.toDigits 10 n).isEmpty = false := by
    rw [List.isEmpty_eq_false_iff]
    exact Nat.toDigits_ne_nil
  have unpadded : (Nat.toDigits 10 n == ['0'] || (Nat.toDigits 10 n).head? != some '0') = true := by
    grind [Nat.eq_zero_or_pos, Nat.toDigits, head?_toDigits_eq_zero]
  rw [plainNumber, digits, nonempty, unpadded, if_pos (by rfl), parseUsize, Nat.ofDigitChars_ten_toDigits, if_pos small]

variable {dir : String}

theorem partNumber_inlineKey (small : index ≤ usizeMax) :
    partNumber dir (inlineKey dir index) = some index := by
  have key : inlineKey dir index = dir ++ "/" ++ String.ofList (Nat.toDigits 10 index) := by
    rw [inlineKey, Nat.toString_eq_ofList_toDigits]
  rw [key, partNumber_under, plainNumber_toDigits small]

/-- The directory of a delta starts with `deltas/`. -/
theorem deltaRelativeDir_toList (fromCommit : Option Checksum) (toCommit : Checksum) :
    ∃ rest, (deltaRelativeDir fromCommit toCommit).toList = 'd' :: rest := by
  cases fromCommit <;> exact ⟨_, by rw [deltaRelativeDir, String.toList_append]; rfl⟩

theorem partNumber_endiannessKey (fromCommit : Option Checksum) (toCommit : Checksum) :
    partNumber (deltaRelativeDir fromCommit toCommit) endiannessKey = none := by
  obtain ⟨rest, starts⟩ := deltaRelativeDir_toList fromCommit toCommit
  rw [partNumber, starts]
  rfl

theorem partNumber_commitmeta (dir : String) : partNumber dir (dir ++ "/commitmeta") = none := by
  have key : dir ++ "/commitmeta" = dir ++ "/" ++ String.ofList "commitmeta".toList := by
    rw [String.append_assoc]
    rfl
  rw [key, partNumber_under]
  rfl

/-! ### The metadata dict -/

def endiannessEntry (endianness : DeltaEndianness) : Value :=
  .tuple [.str endiannessKey, .variant .byte (.byte endianness.byte)]

/-- The entry of the part at `index`, if the part is inline. -/
def inlineEntry (dir : String) (index : Nat) (entry : PartEntry) : Option Value :=
  entry.inline.map fun part => .tuple [.str (inlineKey dir index), inlineValue part]

/-- The entries of the inline parts, from the part at `index` on. -/
def inlineEntries (dir : String) : Nat → List PartEntry → List Value
  | _, [] => []
  | index, entry :: entries => (inlineEntry dir index entry).toList ++ inlineEntries dir (index + 1) entries

def commitmetaEntry (dir : String) (detached : Value) : Value :=
  .tuple [.str (dir ++ "/commitmeta"), .variant dictType detached]

/-- The entries of the metadata dict, in their order. -/
def metadataEntries (dir : String) (endianness : DeltaEndianness) (entries : List PartEntry)
    (detached : Option Value) : List Value :=
  endiannessEntry endianness :: (inlineEntries dir 0 entries ++ (detached.map (commitmetaEntry dir)).toList)

theorem appendInlineParts_eq (dir : String) (index : Nat) (entries : List PartEntry) (before : List Value) :
    appendInlineParts dir index entries (.array before) = .ok (.array (before ++ inlineEntries dir index entries)) := by
  induction entries generalizing index before with
  | nil => rw [appendInlineParts, inlineEntries, List.append_nil]
  | cons entry entries ih =>
    rw [appendInlineParts, inlineEntries, inlineEntry]
    split
    · next apart => rw [apart, ih]; rfl
    · next part carried =>
      rw [carried, appendDictEntry, ok_bind, ih, List.append_assoc]
      rfl

theorem superblockMetadata_eq (dir : String) (endianness : DeltaEndianness)
    (entries : List PartEntry) (detached : Option Value) :
    superblockMetadata dir endianness entries detached
      = .ok (.array (metadataEntries dir endianness entries detached)) := by
  rw [superblockMetadata, appendDictEntry, ok_bind, appendInlineParts_eq, ok_bind]
  cases detached with
  | none => simp [metadataEntries, endiannessEntry]
  | some detached => simp [metadataEntries, appendDictEntry, endiannessEntry, commitmetaEntry]

theorem declaresBigEndian_metadata (dir : String) (endianness : DeltaEndianness)
    (entries : List PartEntry) (detached : Option Value) :
    declaresBigEndian (.array (metadataEntries dir endianness entries detached)) = endianness.isBig := by
  cases endianness <;> rfl

theorem mem_inlineEntries :
    found ∈ inlineEntries dir start entries ↔
      ∃ index entry part, entries[index]? = some entry ∧ entry.inline = some part ∧
        found = .tuple [.str (inlineKey dir (start + index)), inlineValue part] := by
  induction entries generalizing start with
  | nil => simp [inlineEntries]
  | cons entry entries ih =>
    simp only [inlineEntries, inlineEntry, List.mem_append, Option.mem_toList, Option.map_eq_some_iff, ih]
    constructor
    · rintro (⟨part, carried, rfl⟩ | ⟨index, other, part, here, carried, rfl⟩)
      · exact ⟨0, entry, part, rfl, carried, rfl⟩
      · exact ⟨index + 1, other, part, here, carried, by rw [Nat.add_right_comm, Nat.add_assoc]⟩
    · grind

variable {fromCommit : Option Checksum} {toCommit : Checksum}

/-- The dict carries a part under a key exactly when the part is inline, and no other key names a
part. -/
theorem entryPart_metadata (named : deltaRelativeDir fromCommit toCommit = dir)
    (endianness : DeltaEndianness) (detached : Option Value) (small : entries.length ≤ usizeMax) :
    (found ∈ metadataEntries dir endianness entries detached ∧ entryPart dir found = some index) ↔
      ∃ entry part, entries[index]? = some entry ∧ entry.inline = some part ∧
        found = .tuple [.str (inlineKey dir index), inlineValue part] := by
  have below : ∀ {index entry}, entries[index]? = some entry → index ≤ usizeMax := by
    intro index entry here
    obtain ⟨inside, -⟩ := List.getElem?_eq_some_iff.mp here
    omega
  have names : ∀ index (value : Value), index ≤ usizeMax →
      entryPart dir (.tuple [.str (inlineKey dir index), value]) = some index :=
    fun index value small => partNumber_inlineKey small
  simp only [metadataEntries, List.mem_cons, List.mem_append, mem_inlineEntries, Option.mem_toList,
    Option.map_eq_some_iff, Nat.zero_add]
  constructor
  · rintro ⟨rfl | ⟨other, entry, part, here, carried, rfl⟩ | ⟨detached, -, rfl⟩, number⟩
    · subst named
      cases (partNumber_endiannessKey fromCommit toCommit).symm.trans number
    · cases (names other _ (below here)).symm.trans number
      exact ⟨entry, part, here, carried, rfl⟩
    · cases (partNumber_commitmeta dir).symm.trans number
  · rintro ⟨entry, part, here, carried, rfl⟩
    exact ⟨.inr (.inl ⟨index, entry, part, here, carried, rfl⟩), names index _ (below here)⟩

theorem getElem?_indexFrom (dir : String) (position : Nat) (found : List Value)
    (index : List (Option Nat)) (part : Nat) :
    (indexFrom dir position found index)[part]? = index[part]?.map fun slot =>
      slot.or ((found.findIdx? fun entry => entryPart dir entry == some part).map (position + ·)) := by
  induction found generalizing position index with
  | nil => simp [indexFrom]
  | cons entry found ih =>
    rw [indexFrom, ih, List.findIdx?_cons]
    split
    · next other =>
      simp [other, Function.comp_def, Nat.add_assoc, Nat.add_comm 1]
    · next here names =>
      by_cases same : here = part
      · subst same
        simp [names, Function.comp_def]
      · simp [names, same, Function.comp_def, Nat.add_assoc, Nat.add_comm 1]

/-- **The inline parts are found by their keys**, and only they. -/
theorem inlinePartAt_metadata (named : deltaRelativeDir fromCommit toCommit = dir) (endianness : DeltaEndianness)
    (detached : Option Value) (small : entries.length ≤ usizeMax) (index : Nat) :
    inlinePartAt (.array (metadataEntries dir endianness entries detached))
        (indexInlineParts (.array (metadataEntries dir endianness entries detached)) dir entries.length) index dir
      = .ok (entries[index]?.bind PartEntry.inline) := by
  generalize listed : metadataEntries dir endianness entries detached = found
  have carries : ∀ {index : Nat} {entry : Value}, (entry ∈ found ∧ entryPart dir entry = some index) ↔ _ :=
    fun {index entry} => listed ▸ entryPart_metadata named endianness detached small
  have looked : (indexInlineParts (.array found) dir entries.length)[index]?.join
      = if index < entries.length then found.findIdx? fun entry => entryPart dir entry == some index else none := by
    simp only [indexInlineParts, Value.asArray, getElem?_indexFrom, List.getElem?_replicate]
    split <;> simp
  rw [inlinePartAt, looked]
  by_cases inside : index < entries.length
  · have here := List.getElem?_eq_getElem inside
    rw [if_pos inside, here, Option.bind_some]
    split
    · next missing =>
      cases carried : entries[index].inline with
      | none => rfl
      | some part =>
        obtain ⟨member, number⟩ := carries.mpr ⟨entries[index], part, here, carried, rfl⟩
        have other := List.findIdx?_eq_none_iff.mp missing _ member
        simp [number] at other
    · next position found =>
      obtain ⟨within, number, -⟩ := List.findIdx?_eq_some_iff_getElem.mp found
      obtain ⟨entry, part, there, carried, same⟩ := carries.mp ⟨List.getElem_mem within, beq_iff_eq.mp number⟩
      cases here.symm.trans there
      have signature : inlinePartType.signatureString = inlinePartSig := by decide
      simp [Value.asArray, List.getElem?_eq_getElem within, same, Value.asTuple, inlineValue,
        Value.asVariant, signature, carried]
  · rw [if_neg inside, List.getElem?_eq_none (Nat.le_of_not_lt inside)]
    rfl

/-! ### What the bytes start with -/

/-- A struct of variable size starts with its first member. -/
theorem encodeStruct_starts
    (encoded : encodeStruct child whole (ty :: tys) (item :: items) = .ok data) (dynamic : whole.fixedSize = none) :
    ∃ part, child ty item = .ok part ∧ part <+: data := by
  obtain ⟨parts, each, rfl⟩ := (encodeStruct_eq_ok (List.cons_ne_nil ty tys)).mp encoded
  cases each with
  | @cons _ _ part _ _ parts first _ =>
    refine ⟨part, first, ?_⟩
    rw [dynamic]
    exact (head_isPrefix_area _ part _).trans (List.prefix_append _ _)

/-- An array of elements of variable size starts with its first element. -/
theorem encodeStep_array_starts (encoded : encodeStep child (.array elem) (.array (item :: items)) = .ok data)
    (dynamic : elem.fixedSize = none) : ∃ part, child elem item = .ok part ∧ part <+: data := by
  rw [encodeStep_array child (by rintro rfl; cases dynamic)] at encoded
  obtain ⟨parts, each, rfl⟩ := map_eq_ok.mp encoded
  rw [mapM_eq_ok] at each
  cases each with
  | @cons _ part _ parts first _ =>
    refine ⟨part, first, ?_⟩
    rw [dynamic]
    exact (head_isPrefix_area _ part _).trans (List.prefix_append _ _)

/-- A tuple that starts with a dict starts with the first key of the dict. -/
theorem encode_starts_with_key {levels : Nat} {tys : List Ty} {key : String} {value : Value}
    {entries items : List Value} {data : Bytes} (dynamic : (Ty.tuple (dictType :: tys)).fixedSize = none)
    (encoded : encode (levels + 4) (.tuple (dictType :: tys))
      (.tuple (.array (.tuple [.str key, value] :: entries) :: items)) = .ok data) :
    asBytes key <+: data := by
  obtain ⟨dict, encoded, inData⟩ := encodeStruct_starts encoded dynamic
  obtain ⟨entry, encoded, inDict⟩ := encodeStep_array_starts encoded rfl
  change encodeStruct (encode (levels + 1)) (.dictEntry .str .variant) [.str, .variant] [.str key, value] = .ok entry
    at encoded
  obtain ⟨text, encoded, inEntry⟩ := encodeStruct_starts encoded rfl
  have inText : asBytes key <+: text := by
    change strBytes key = .ok text at encoded
    unfold strBytes at encoded
    split_ifs at encoded
    cases encoded
    exact List.prefix_append _ _
  exact ((inText.trans inEntry).trans inDict).trans inData

/-! ### The types in a superblock -/

theorem parsedTypes_entry {key : String} {value : Value} (named : ∃ text, Ty.parse text = .ok ty)
    (inside : value.ParsedTypes) : (Value.tuple [.str key, .variant ty value]).ParsedTypes := by
  rw [parsedTypes_tuple]
  simp only [List.forall_mem_cons, List.not_mem_nil, false_implies, implies_true, and_true]
  exact ⟨parsedTypes_plain rfl, parsedTypes_variant.mpr ⟨named, inside⟩⟩

theorem metadata_parsedTypes (dir : String) (endianness : DeltaEndianness) (entries : List PartEntry)
    {detached : Option Value} (inside : ∀ value ∈ detached, value.ParsedTypes) :
    (Value.array (metadataEntries dir endianness entries detached)).ParsedTypes := by
  rw [parsedTypes_array]
  intro found member
  simp only [metadataEntries, List.mem_cons, List.mem_append, mem_inlineEntries, Option.mem_toList,
    Option.map_eq_some_iff] at member
  rcases member with rfl | ⟨index, entry, part, -, -, rfl⟩ | ⟨value, here, rfl⟩
  · exact parsedTypes_entry ⟨"y", rfl⟩ (parsedTypes_plain rfl)
  · exact parsedTypes_entry ⟨inlinePartSig, rfl⟩ (parsedTypes_plain rfl)
  · exact parsedTypes_entry ⟨"a\x7bsv\x7d", rfl⟩ (inside value here)

theorem pushBlob_parsedTypes {signature : Bytes} (inside : value.ParsedTypes)
    (done : pushBlob value signature = .ok pushed) : pushed.ParsedTypes := by
  have grows : ∀ blobs : List Value, (Value.array blobs).ParsedTypes →
      (Value.array (blobs ++ [.bytes signature])).ParsedTypes := by
    intro blobs inside
    rw [parsedTypes_array] at inside ⊢
    intro item member
    rcases List.mem_append.mp member with old | new
    · exact inside item old
    · rw [List.mem_singleton.mp new]
      exact parsedTypes_plain rfl
  unfold pushBlob at done
  split at done
  · next ty blobs =>
    cases done
    obtain ⟨named, inside⟩ := parsedTypes_variant.mp inside
    exact parsedTypes_variant.mpr ⟨named, grows blobs inside⟩
  · next blobs =>
    cases done
    exact grows blobs inside
  · cases done

theorem appendToEngine_parsedTypes {metadataKey : String} {entries appended : List Value}
    (inside : ∀ entry ∈ entries, entry.ParsedTypes)
    (done : appendToEngine metadataKey signature entries = .ok appended) :
    ∀ entry ∈ appended, entry.ParsedTypes := by
  induction entries generalizing appended with
  | nil =>
    cases done
    intro entry member
    rw [List.mem_singleton.mp member]
    exact parsedTypes_entry ⟨"aay", rfl⟩ (parsedTypes_plain rfl)
  | cons entry entries ih =>
    obtain ⟨first, others⟩ := List.forall_mem_cons.mp inside
    have goesOn : ∀ {appended}, (do
          let entries ← appendToEngine metadataKey signature entries
          Except.ok (entry :: entries)) = .ok appended → ∀ entry ∈ appended, entry.ParsedTypes := by
      intro appended done
      obtain ⟨rest, later, ⟨⟩⟩ := bind_eq_ok.mp done
      exact List.forall_mem_cons.mpr ⟨first, ih others later⟩
    unfold appendToEngine at done
    split at done
    · next key value =>
      split at done
      · obtain ⟨pushed, here, ⟨⟩⟩ := bind_eq_ok.mp done
        simp only [parsedTypes_tuple, List.forall_mem_cons] at first
        refine List.forall_mem_cons.mpr ⟨?_, others⟩
        simp only [parsedTypes_tuple, List.forall_mem_cons]
        exact ⟨first.1, pushBlob_parsedTypes first.2.1 here, first.2.2⟩
      · exact goesOn done
    · exact goesOn done

theorem signAll_parsedTypes
    (inside : signatures.ParsedTypes) (signed : signAll payload signatures signers = .ok final) :
    final.ParsedTypes := by
  induction signers generalizing signatures with
  | nil =>
    cases signed
    exact inside
  | cons signer signers ih =>
    obtain ⟨signature, -, signed⟩ := bind_eq_ok.mp signed
    obtain ⟨next, appended, signed⟩ := bind_eq_ok.mp signed
    refine ih ?_ signed
    unfold appendSignature at appended
    split at appended
    · obtain ⟨entries, done, rfl⟩ := map_eq_ok.mp appended
      exact parsedTypes_array.mpr (appendToEngine_parsedTypes (parsedTypes_array.mp inside) done)
    · cases appended

/-! ### The round trip -/

theorem checkSuperblockSize_eq_ok (checked : checkSuperblockSize data.length = .ok ()) :
    Addressable data := by
  unfold checkSuperblockSize at checked
  split_ifs at checked with small
  exact (Nat.le_of_not_lt small).trans (by decide)

/-- The value that `build_superblock` serializes. -/
def superblockValue (fromCommit : Option Checksum) (toCommit : Checksum) (commit : Value) (timestamp : UInt64)
    (entries : List PartEntry) (fallbacks : List FallbackItem) (endianness : DeltaEndianness)
    (detached : Option Value) : Value :=
  .tuple [.array (metadataEntries (deltaRelativeDir fromCommit toCommit) endianness entries detached),
    .u64 (swapBytes64 timestamp), .bytes (fromCommit.elim [] Checksum.bytes), .bytes toCommit.bytes, commit, .bytes [],
    .array (entries.map (metaEntryValue endianness.isBig)), .array (fallbacks.map (fallbackValue endianness.isBig))]

theorem buildSuperblock_eq_ok
    (built : buildSuperblock now fromCommit toCommit target entries fallbacks opts = .ok data) :
    ∃ commit timestamp, fromBytes commitType target.bytes = .ok commit ∧
      resolveTimestamp now opts.timestamp = .ok timestamp ∧
      toBytes superblockType (superblockValue fromCommit toCommit commit timestamp entries fallbacks opts.endianness
        target.detached) = .ok data ∧ Addressable data := by
  rw [buildSuperblock, superblockMetadata_eq, ok_bind] at built
  obtain ⟨commit, read, built⟩ := bind_eq_ok.mp built
  obtain ⟨timestamp, resolved, built⟩ := bind_eq_ok.mp built
  obtain ⟨bytes, written, built⟩ := bind_eq_ok.mp built
  obtain ⟨checked, ⟨⟩⟩ := check_bind_eq_ok.mp built
  exact ⟨commit, timestamp, mapError_eq_ok.mp read, resolved, mapError_eq_ok.mp written,
    checkSuperblockSize_eq_ok checked⟩

section Value

variable {fromCommit : Option Checksum} {toCommit : Checksum} {commit : Value} {timestamp : UInt64}
  {entries : List PartEntry} {fallbacks : List FallbackItem} {endianness : DeltaEndianness} {detached : Option Value}
  {data : Bytes}

theorem superblockValue_parsedTypes (commitTypes : commit.ParsedTypes)
    (inside : ∀ value ∈ detached, value.ParsedTypes) :
    (superblockValue fromCommit toCommit commit timestamp entries fallbacks endianness detached).ParsedTypes := by
  have plain : ∀ {α : Type} {items : List α} {value : α → Value},
      (∀ item, (value item).variantTypes = []) → (Value.array (items.map value)).ParsedTypes := by
    intro α items value each
    refine parsedTypes_array.mpr fun item member => ?_
    obtain ⟨item, -, rfl⟩ := List.mem_map.mp member
    exact parsedTypes_plain (each item)
  rw [superblockValue, parsedTypes_tuple]
  simp only [List.forall_mem_cons, List.not_mem_nil, false_implies, implies_true, and_true]
  exact ⟨metadata_parsedTypes _ _ _ inside, parsedTypes_plain rfl,
    parsedTypes_plain rfl, parsedTypes_plain rfl, commitTypes,
    parsedTypes_plain rfl, plain fun _ => rfl, plain fun _ => rfl⟩

section

variable (written : toBytes superblockType (superblockValue fromCommit toCommit commit timestamp
    entries fallbacks endianness detached) = .ok data)

include written

/-- **No superblock starts with the magic of the envelope.** It starts with `ostree.endianness`. -/
theorem superblock_unsigned
    : signedMagic.isPrefixOf data = false := by
  rw [toBytes_eq_encode] at written
  obtain ⟨rest, rfl⟩ := @encode_starts_with_key 125 _ _ _ _ _ data (by decide) written
  rfl

theorem superblock_entries_small (fits : Addressable data) : entries.length ≤ usizeMax := by
  rw [toBytes_eq_encode] at written
  obtain ⟨array, encoded, small⟩ := @encode_tuple_member maxValueDepth _ _ data written 6 _ _ rfl rfl
  obtain ⟨parts, each, rfl⟩ := map_eq_ok.mp encoded
  have count := (mapM_eq_ok.mp each).length_eq
  rw [List.length_map] at count
  rw [count]
  exact ((count_le_arrayBytes _ parts).trans small).trans fits

end

end Value

/-- What a reader of the superblock finds, for what was built into it. -/
structure DeltaSuperblock.Carries (superblock : DeltaSuperblock) (fromCommit : Option Checksum) (toCommit : Checksum)
    (commitBytes : Bytes) (timestamp : UInt64) (entries : List PartEntry) (fallbacks : List FallbackItem) : Prop where
  source : superblock.fromCommit = fromCommit
  destination : superblock.toCommit = toCommit
  commit : superblock.commitBytes = commitBytes
  timestamp : superblock.timestamp = timestamp
  parts : superblock.metaEntries = entries.map PartEntry.deltaPart
  fallbacks : superblock.fallbacks = fallbacks.map FallbackItem.deltaFallback
  inline : ∀ index, superblock.inlinePart index = .ok (entries[index]?.bind PartEntry.inline)

theorem sourceCommit_elim (fromCommit : Option Checksum) :
    DeltaSuperblock.sourceCommit (fromCommit.elim [] Checksum.bytes) = .ok fromCommit := by
  cases fromCommit with
  | none => rfl
  | some checksum =>
    have filled : checksum.bytes.isEmpty = false := by
      rw [List.isEmpty_eq_false_iff, ← List.length_pos_iff, checksum.length]
      decide
    simp [DeltaSuperblock.sourceCommit, filled]

/-- A payload that `build_superblock` gave parses, whatever signatures it is found with. -/
theorem parse_of_unwrap {sha256 : Bytes → Checksum} {now : Except Error UInt64}
    {target : Target} {entries : List PartEntry} {fallbacks : List FallbackItem}
    {timestamp : UInt64} {file payload : Bytes} {signatures : Option Value}
    (hashes : sha256 target.bytes = toCommit) (detached : ∀ value ∈ target.detached, value.ParsedTypes)
    (built : buildSuperblock now fromCommit toCommit target entries fallbacks opts = .ok payload)
    (resolved : resolveTimestamp now opts.timestamp = .ok timestamp)
    (unwrapped : DeltaSuperblock.unwrap file = .ok (payload, signatures)) :
    ∃ superblock, DeltaSuperblock.parse sha256 file = .ok superblock ∧
      superblock.Carries fromCommit toCommit target.bytes timestamp entries fallbacks ∧
      superblock.signatures = signatures ∧
      superblock.superblockBytes = if signatures.isSome then payload else [] := by
  obtain ⟨commit, timestamp', read, resolved', written, fits⟩ := buildSuperblock_eq_ok built
  cases resolved.symm.trans resolved'
  have types := parse_parsedTypes _ _ _ _ read
  have small := superblock_entries_small written fits
  have again : toBytes commitType commit = .ok target.bytes := by
    rw [toBytes_eq_encode]
    exact parse_sound _ _ _ _ read
  have back : fromBytes superblockType payload = .ok (superblockValue fromCommit toCommit commit timestamp entries
      fallbacks opts.endianness target.detached) := by
    rw [toBytes_eq_encode] at written
    exact parse_complete _ _ _ _ written (superblockValue_parsedTypes types detached) fits
  have metaEntries := mapM_map_eq_ok (parseMetaEntry_metaEntryValue opts.endianness.isBig) entries
  have fallbackEntries := mapM_map_eq_ok (parseFallback_fallbackValue opts.endianness.isBig) fallbacks
  generalize named : deltaRelativeDir fromCommit toCommit = dir at back
  let metadata := Value.array (metadataEntries dir opts.endianness entries target.detached)
  refine ⟨⟨fromCommit, toCommit, target.bytes, entries.map PartEntry.deltaPart,
    fallbacks.map FallbackItem.deltaFallback, signatures, if signatures.isSome then payload else [], metadata,
    indexInlineParts metadata dir entries.length, timestamp, 0⟩, ?_, ⟨rfl, rfl, rfl, rfl, rfl, rfl, ?_⟩,
    rfl, rfl⟩
  · simp only [DeltaSuperblock.parse, unwrapped, ok_bind, back, superblockValue, Except.mapError,
      tupleFields, bytesField,
      expected, Value.asBytes, Value.asU64, map_ok, swapBytes64_swapBytes64, fromAy_bytes,
        liftCore_ok, sourceCommit_elim,
      again, hashes, arrayItems, parseMetaEntries, parseFallbacks, declaresBigEndian_metadata,
        metaEntries, fallbackEntries,
      named, List.length_map]
    rw [if_neg (not_not.mpr rfl)]
    rfl
  · intro index
    rw [DeltaSuperblock.inlinePart, named]
    exact inlinePartAt_metadata named opts.endianness target.detached small index

theorem unwrap_signSuperblock {payload envelope : Bytes} {signers : List Signer}
    (inside : signatures.ParsedTypes) (signed : signSuperblock payload signatures signers = .ok envelope) :
    ∃ final, signAll payload signatures signers = .ok final ∧
      DeltaSuperblock.unwrap envelope = .ok (payload, some final) := by
  obtain ⟨final, collected, signed⟩ := bind_eq_ok.mp signed
  obtain ⟨encoded, written, signed⟩ := bind_eq_ok.mp signed
  obtain ⟨checked, ⟨⟩⟩ := check_bind_eq_ok.mp signed
  rw [mapError_eq_ok, toBytes_eq_encode] at written
  have types : (Value.tuple [.u64 (u64OfNat (leNat signedMagic)), .bytes payload, final]).ParsedTypes := by
    rw [parsedTypes_tuple]
    simp only [List.forall_mem_cons, List.not_mem_nil, false_implies, implies_true, and_true]
    exact ⟨parsedTypes_plain rfl, parsedTypes_plain rfl,
      signAll_parsedTypes inside collected⟩
  have back : fromBytes signedType envelope = .ok _ :=
    parse_complete _ _ _ _ written types (checkSuperblockSize_eq_ok checked)
  have magic : signedMagic.isPrefixOf envelope = true := by
    obtain ⟨part, first, starts⟩ := encodeStruct_starts
      (show encodeStruct (encode maxValueDepth) signedType [.u64, .array .byte, dictType]
        [.u64 (u64OfNat (leNat signedMagic)), .bytes payload, final] = .ok envelope from written) (by decide)
    cases first
    exact List.isPrefixOf_iff_prefix.mpr starts
  refine ⟨final, collected, ?_⟩
  rw [DeltaSuperblock.unwrap, magic, if_pos rfl, back]
  rfl

/-- **A superblock reads back as it was built.** Whatever `build_superblock` returns parses to the
same commits, commit bytes, timestamp, parts with their object lists, and fallbacks, and gives each
part that was carried inline and no other. So does any signed envelope around it, which also gives
the signatures and the payload. The detached metadata, and the signatures that an envelope starts
from, are values that a reader can have. -/
theorem parse_buildSuperblock (sha256 : Bytes → Checksum) (now : Except Error UInt64) (fromCommit : Option Checksum)
    (toCommit : Checksum) (target : Target) (entries : List PartEntry) (fallbacks : List FallbackItem)
    (opts : DeltaOptions) (payload : Bytes) (hashes : sha256 target.bytes = toCommit)
    (detached : ∀ value ∈ target.detached, value.ParsedTypes)
    (built : buildSuperblock now fromCommit toCommit target entries fallbacks opts = .ok payload) :
    ∃ timestamp, resolveTimestamp now opts.timestamp = .ok timestamp ∧
      (∃ superblock, DeltaSuperblock.parse sha256 payload = .ok superblock ∧
        superblock.Carries fromCommit toCommit target.bytes timestamp entries fallbacks ∧
        superblock.signatures = none) ∧
      ∀ signatures signers envelope, signatures.ParsedTypes →
        signSuperblock payload signatures signers = .ok envelope →
        ∃ final superblock, signAll payload signatures signers = .ok final ∧
          DeltaSuperblock.parse sha256 envelope = .ok superblock ∧
          superblock.Carries fromCommit toCommit target.bytes timestamp entries fallbacks ∧
          superblock.signatures = some final ∧ superblock.superblockBytes = payload := by
  obtain ⟨commit, timestamp, -, resolved, written, -⟩ := buildSuperblock_eq_ok built
  have bare : DeltaSuperblock.unwrap payload = .ok (payload, none) := by
    rw [DeltaSuperblock.unwrap, superblock_unsigned written]
    rfl
  refine ⟨timestamp, resolved, ?_, ?_⟩
  · obtain ⟨superblock, parsed, carries, unsigned, -⟩ := parse_of_unwrap hashes detached built resolved bare
    exact ⟨superblock, parsed, carries, unsigned⟩
  · intro signatures signers envelope inside signed
    obtain ⟨final, collected, unwrapped⟩ := unwrap_signSuperblock inside signed
    obtain ⟨superblock, parsed, carries, kept, bytes⟩ := parse_of_unwrap hashes detached built resolved unwrapped
    exact ⟨final, superblock, collected, parsed, carries, kept, bytes⟩

/-! ### A superblock with an inline part -/

namespace SuperblockSample

def digest : Checksum := .filled 7

/-- A stand-in for SHA-256: the length. -/
def sha256 (bytes : Bytes) : Checksum := .filled (.ofNat bytes.length)

/-- The commit with no parent, no message and no tree. -/
def commitBytes : Bytes := List.replicate 16 0 ++ [16, 2, 1, 0, 0, 0]

def target : Target := ⟨commitBytes, some (.array [])⟩

/-- A part in its own file, and an inline one. -/
def entries : List PartEntry :=
  [⟨digest, 10, 20, [(.dirTree, digest)], none⟩, ⟨digest, 3, 2, [(.file, digest), (.file, digest)], some (0, [1, 2])⟩]

def fallbacks : List FallbackItem := [⟨.file, digest, 5, 6⟩]

def opts : DeltaOptions := ⟨false, 0, .big, some 1700000000⟩

def signer : Signer := ⟨"ostree.sign.dummy", fun _ => .ok [1, 2, 3]⟩

def build : Except Error Bytes := buildSuperblock (.error (.io "no clock"))
    none (sha256 commitBytes) target entries fallbacks opts

end SuperblockSample

theorem parse_buildSuperblock_sample :
    ∃ payload envelope first second, SuperblockSample.build = .ok payload ∧
      signSuperblock payload (.array []) [SuperblockSample.signer] = .ok envelope ∧
      DeltaSuperblock.parse SuperblockSample.sha256 payload = .ok first ∧
      first.inlinePart 1 = .ok (some (0, [1, 2])) ∧
      DeltaSuperblock.parse SuperblockSample.sha256 envelope = .ok second ∧
      second.inlinePart 0 = .ok none := by
  obtain ⟨envelope, both⟩ := eq_ok_of_isOk (by decide +kernel : (SuperblockSample.build >>= fun payload =>
    signSuperblock payload (.array []) [SuperblockSample.signer]).isOk = true)
  obtain ⟨payload, built, signed⟩ := bind_eq_ok.mp both
  obtain ⟨timestamp, -, ⟨first, parsed, carries, -⟩, wrapped⟩ := parse_buildSuperblock
    SuperblockSample.sha256 _ none _ SuperblockSample.target SuperblockSample.entries
    SuperblockSample.fallbacks SuperblockSample.opts payload rfl
    (by rintro _ ⟨⟩; exact parsedTypes_plain rfl) built
  obtain ⟨-, second, -, reparsed, again, -⟩ := wrapped (.array []) [SuperblockSample.signer]
    envelope (parsedTypes_plain rfl) signed
  exact ⟨payload, envelope, first, second, built, signed, parsed, carries.inline 1, reparsed, again.inline 0⟩

end Ostrya.Delta
