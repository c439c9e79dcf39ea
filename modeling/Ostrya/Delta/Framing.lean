/-
**The payload of a generated part decodes to its tables.**

The generator frames the payload by hand: big-endian triples, an xattr table serialized as a value, and three
offsets in reverse order. The applier reads it with the typed codec, as little-endian triples that it swaps
and as lazy arrays.

* `payload_eq_ok`: the hand-written framing is the framing of a tuple;
* `payload_reads`: the applier reads the tables, the data source and the stream that were written.
-/

import Ostrya.Delta.Generate

namespace Ostrya.Delta

open ByteFormat Gvariant Ostrya.Core

/-! ### Swapped numbers -/

theorem leBytes_swapBytes (x : UInt32) : leBytes 4 (swapBytes x).toNat = beBytes 4 x.toNat :=
  leBytes_swapped isScalar_u32 x

theorem swapBytes_swapBytes (x : UInt32) : swapBytes (swapBytes x) = x := swapped_swapped isScalar_u32 x

/-! ### The mode table -/

/-- `(uuu)`, big-endian. -/
def modeEncode : GvEncode (UInt32 × UInt32 × UInt32) :=
  .tuple (.cons GvEncode.be32 (.cons GvEncode.be32 (.last GvEncode.be32)))

def swapTriple (entry : UInt32 × UInt32 × UInt32) : UInt32 × UInt32 × UInt32 :=
  (swapBytes entry.1, swapBytes entry.2.1, swapBytes entry.2.2)

theorem swapTriple_swapTriple (entry : UInt32 × UInt32 × UInt32) : swapTriple (swapTriple entry) = entry := by
  simp [swapTriple, swapBytes_swapBytes]

theorem encodeToVec_modeEncode (entry : UInt32 × UInt32 × UInt32) :
    encodeToVec modeEncode entry = .ok (modeBytes entry) := by
  refine GvEncode.tuple_eq_ok.mpr ⟨[_, _, _], ⟨rfl, rfl, rfl⟩, ?_⟩
  have size : (tupleSpec [(4, some 4), (4, some 4), (4, some 4)]).2 = some 12 := by decide
  simp [EncodeMembers.specs, GvEncode.be32, GvEncode.leaf, size, tupleBytes, resize, area, alignUp,
    memberParts, modeBytes]

theorem encodeToVec_modeTable (modes : List (UInt32 × UInt32 × UInt32)) :
    encodeToVec (.slice modeEncode) modes = .ok (modeTable modes) := by
  rw [encodeToVec_slice, map_eq_ok]
  refine ⟨modes.map modeBytes, ?_, ?_⟩
  · rw [mapM_eq_ok, List.forall₂_map_right_iff, List.forall₂_same]
    exact fun entry _ => encodeToVec_modeEncode entry
  · rfl

variable {part : Bytes} {xattrs : Xattrs}

theorem be32_swapped (x : UInt32) : Codes .u32 GvEncode.be32 (swapBytes x) x := .of_iff fun part => by
  rw [encodeToVec_be32, Except.ok.injEq, ← leBytes_swapBytes]
  exact isScalar_u32.decode_eq_ok

theorem modes_code (modes : List (UInt32 × UInt32 × UInt32)) :
    List.Forall₂ (Codes modeDecode modeEncode) (modes.map swapTriple) modes := by
  rw [List.forall₂_map_left_iff, List.forall₂_same]
  exact fun _ _ => .tuple (.refl _) (.cons (be32_swapped _) (.cons (be32_swapped _) (.last (be32_swapped _))))

/-! ### Counting the tables -/

theorem bumpTable_of_le (fits : total + size ≤ maxTableBytes) :
    bumpTable total size = .ok (total + size) := by
  have small : total + size ≤ usizeMax := fits.trans (by decide)
  rw [bumpTable, checkedAdd, if_pos small, Option.filter_some, if_pos (by simpa using fits)]

/-- A loop whose steps count the sizes of its entries succeeds below the ceiling. -/
theorem steps_of_fits {α β γ : Type} {step : Nat → β → Except Error (γ × Nat)} {raw : α → β}
    {value : α → γ} {size : α → Nat} {items : List α} {total : Nat}
    (each : ∀ item ∈ items, ∀ total, total + size item ≤ maxTableBytes →
      step total (raw item) = .ok (value item, total + size item))
    (fits : total + (items.map size).sum ≤ maxTableBytes) :
    steps step total (items.map raw) = .ok (items.map value, total + (items.map size).sum) := by
  induction items generalizing total with
  | nil => rfl
  | cons item items ih =>
    simp only [List.map_cons, List.sum_cons] at fits ⊢
    have here := each item (.head _) total (by omega)
    have rest := @ih (total + size item) (fun other member => each other (.tail _ member))
      (by omega)
    simp [steps, here, rest, Nat.add_assoc]

/-! ### The xattr table -/

theorem encode_pair (levels : Nat) (pair : Pair) :
    encode (levels + 2) (.tuple [.array .byte, .array .byte]) (.tuple [.bytes pair.1, .bytes pair.2])
      = encodeToVec Xattrs.entryEncode pair := by
  have typed : encodeToVec Xattrs.entryEncode pair =
      .ok (tupleBytes [(1, none), (1, none)] none [pair.1, pair.2]) :=
    GvEncode.tuple_eq_ok.mpr ⟨[_, _], ⟨rfl, rfl⟩, rfl⟩
  rw [typed]
  rfl

theorem encode_xattrValue (levels : Nat) (xattrs : Xattrs) :
    encode (levels + 3) (.array (.tuple [.array .byte, .array .byte])) (xattrValue xattrs)
      = encodeToVec Xattrs.encoder xattrs := by
  rw [xattrValue, encode, encodeStep_array _ (by simp), List.mapM_map]
  have each : (fun pair : Pair => encode (levels + 2) (.tuple [.array .byte, .array .byte])
      (.tuple [.bytes pair.1, .bytes pair.2])) = encodeToVec Xattrs.entryEncode :=
    funext fun pair => encode_pair levels pair
  exact (congrArg (fun child => (xattrs.pairs.mapM child).map (arrayBytes 1 false)) each).trans
    (encodeToVec_slice Xattrs.entryEncode xattrs.pairs).symm

/-- The xattr table, serialized as a value, is the array of the encoded sets. -/
theorem xattrTable_eq_ok :
    xattrTable sets = .ok bytes ↔ encodeToVec (.slice Xattrs.encoder) sets = .ok bytes := by
  have each : (fun set => encode maxValueDepth (.array (.tuple [.array .byte, .array .byte])) (xattrValue set))
      = encodeToVec Xattrs.encoder := funext fun set => encode_xattrValue 125 set
  rw [xattrTable, mapError_eq_ok, toBytes_eq_encode, xattrTableType, encode,
    encodeStep_array _ (by simp), List.mapM_map, encodeToVec_slice]
  exact iff_of_eq (congrArg (fun child => (sets.mapM child).map (arrayBytes 1 false) = .ok bytes) each)

/-- The bytes that the applier counts for an xattr set. -/
def xattrsSize (xattrs : Xattrs) : Nat := (xattrs.pairs.map fun pair => pair.1.length + pair.2.length).sum

theorem pairSize_le (encoded : encodeToVec Xattrs.entryEncode pair = .ok part) :
    pair.1.length + pair.2.length ≤ part.length := by
  obtain ⟨parts, held, rfl⟩ := GvEncode.tuple_eq_ok.mp encoded
  match parts, held with
  | [name, value], ⟨first, second⟩ =>
    cases first
    cases second
    have none : (tupleSpec [(1, Option.none), (1, Option.none)]).2 = Option.none := by decide
    simp only [EncodeMembers.specs, GvEncode.bytes, GvEncode.dynamic, GvEncode.leaf, none,
      tupleBytes, memberParts_cons, area, List.length_append]
    omega

theorem sum_le_slice {α : Type} {encoder : GvEncode α} {size : α → Nat} {items : List α} {bytes : Bytes}
    (each : ∀ item part, encodeToVec encoder item = .ok part → size item ≤ part.length)
    (encoded : encodeToVec (.slice encoder) items = .ok bytes) : (items.map size).sum ≤ bytes.length := by
  rw [encodeToVec_slice, map_eq_ok] at encoded
  obtain ⟨parts, wrote, rfl⟩ := encoded
  refine le_trans ?_ (sum_length_le_arrayBytes _ _ parts)
  refine List.Forall₂.sum_le_sum ?_
  rw [List.forall₂_map_left_iff, List.forall₂_map_right_iff]
  exact (mapM_eq_ok.mp wrote).imp fun item part => each item part

theorem xattrsSize_le (encoded : encodeToVec Xattrs.encoder xattrs = .ok part) :
    xattrsSize xattrs ≤ part.length :=
  @sum_le_slice _ Xattrs.entryEncode (fun pair => pair.1.length + pair.2.length) _ _ (fun _ _ => pairSize_le) encoded

/-- An encoded set opens as a lazy array that drains to its pairs. -/
theorem xattrsDecode_of_encode
    (encoded : encodeToVec Xattrs.encoder xattrs = .ok part) (fits : Addressable part) :
    ∃ r, xattrsDecode.decode part = .ok r ∧ r.collect Xattrs.entryDecode.decode = .ok xattrs.pairs := by
  have slice : encodeToVec (.slice Xattrs.entryEncode) xattrs.pairs = .ok part := encoded
  exact GvDecode.collect_of_slice rfl slice fits
    ((Xattrs.entries_code _).imp fun _ _ codes => codes.read)

theorem xattrsStep_of_fits (drained : r.collect Xattrs.entryDecode.decode = .ok xattrs.pairs)
    (fits : total + xattrsSize xattrs ≤ maxTableBytes) :
    xattrsStep total r = .ok (xattrs, total + xattrsSize xattrs) := by
  have pairs : steps pairStep total xattrs.pairs = .ok (xattrs.pairs, total + xattrsSize xattrs) := by
    have counted := @steps_of_fits _ _ _ pairStep id id (fun pair : Pair => pair.1.length + pair.2.length)
      xattrs.pairs total (fun pair _ total fits => by rw [id, pairStep, bumpTable_of_le fits]; rfl) fits
    rwa [List.map_id] at counted
  have read : validated ofGvariant Xattrs.entryDecode.decode pairStep r total
      = .ok (xattrs.pairs, total + xattrsSize xattrs) := validated_eq_ok.mpr ⟨_, drained, pairs⟩
  rw [xattrsStep, read, ok_bind]
  simp only [Xattrs.new_pairs, liftCore_ok, ok_bind]

/-- **The xattr table reads back.** -/
theorem xattrs_read {sets : List Xattrs} {bytes : Bytes} (table : xattrTable sets = .ok bytes)
    (short : Addressable bytes) {total : Nat} (fits : total + bytes.length ≤ maxTableBytes) :
    ∃ r, (GvDecode.arrayIter xattrsDecode).decode bytes = .ok r ∧
      ∃ final, validated ofGvariant xattrsDecode.decode xattrsStep r total = .ok (sets, final) := by
  have encoded := xattrTable_eq_ok.mp table
  -- The reader of each set, which depends on its bytes alone.
  have opens : ∀ set : Xattrs, ∃ r : ArrayReader, ∀ part, encodeToVec Xattrs.encoder set = .ok part →
      Addressable part → xattrsDecode.decode part = .ok r ∧
        r.collect Xattrs.entryDecode.decode = .ok set.pairs := by
    intro set
    by_cases known : ∃ part, encodeToVec Xattrs.encoder set = .ok part ∧ Addressable part
    · obtain ⟨part, wrote, small⟩ := known
      obtain ⟨r, opened, drained⟩ := xattrsDecode_of_encode wrote small
      refine ⟨r, fun other wrote' _ => ?_⟩
      cases wrote.symm.trans wrote'
      exact ⟨opened, drained⟩
    · exact ⟨⟨[], 0, none, 0, 0, 0, 0, 0⟩, fun part wrote small => absurd ⟨part, wrote, small⟩ known⟩
  choose reader opened using opens
  obtain ⟨r, whole, collected⟩ := @GvDecode.collect_of_slice _ _ xattrsDecode Xattrs.encoder rfl
    bytes (sets.map reader) sets encoded short (by
      rw [List.forall₂_map_left_iff, List.forall₂_same]
      exact fun set _ part wrote small => (opened set part wrote small).1)
  refine ⟨r, whole, total + (sets.map xattrsSize).sum, validated_eq_ok.mpr ⟨_, collected, ?_⟩⟩
  rw [encodeToVec_slice, map_eq_ok] at encoded
  obtain ⟨parts, wrote, rfl⟩ := encoded
  have counted : steps xattrsStep total (sets.map reader)
      = .ok (sets.map id, total + (sets.map xattrsSize).sum) := by
    refine steps_of_fits (fun set member total fits => ?_) ?_
    · obtain ⟨part, inside, written⟩ := forall₂_exists_left (mapM_eq_ok.mp wrote).flip member
      have small := (length_le_arrayBytes inside).trans short
      exact xattrsStep_of_fits (opened set part written small).2 fits
    · have sum := @sum_le_slice _ Xattrs.encoder xattrsSize _ _ (fun _ _ => xattrsSize_le)
        (xattrTable_eq_ok.mp table)
      omega
  rw [List.map_id] at counted
  exact counted

/-! ### The payload -/

/-- The framing of the four members. Only the first has an alignment, and it starts at offset
zero. -/
theorem tupleBytes_members (modes xattrs blob ops : Bytes) :
    tupleBytes [(4, none), (1, none), (1, none), (1, none)] none [modes, xattrs, blob, ops] =
      let width := chooseOffsetSize (modes.length + xattrs.length + blob.length + ops.length) 3
      modes ++ xattrs ++ blob ++ ops ++ (leBytes width (modes.length + xattrs.length + blob.length)
        ++ leBytes width (modes.length + xattrs.length) ++ leBytes width modes.length) := by
  have byte : ∀ n, alignUp n 1 = n := fun n => by simp [alignUp]
  have zero : alignUp 0 4 = 0 := by decide
  simp [tupleBytes, area, tupleOffsets, byte, zero, Nat.add_assoc]

/-- **The hand-written framing is the framing of a tuple.** -/
theorem payload_eq_ok {part : Part} :
    part.payload = .ok payload ↔ ∃ xattrs, xattrTable part.xattrs.entries = .ok xattrs ∧
      (modeTable part.modes.entries).length + xattrs.length ≤ maxTableBytes ∧
      (modeTable part.modes.entries).length + xattrs.length + part.blob.length + part.ops.length ≤ usizeMax ∧
      tupleBytes [(4, none), (1, none), (1, none), (1, none)] none
        [modeTable part.modes.entries, xattrs, part.blob, part.ops] = payload := by
  have width := chooseOffsetSize_le
  simp only [Part.payload, bind_eq_ok, checkTableSize, tupleBytes_members,
    writeOffset_eq _ _ (width _ _), List.nil_append]
  refine exists_congr fun xattrs => and_congr_right fun _ => ?_
  split_ifs <;> simp_all

theorem modeTable_length (modes : List (UInt32 × UInt32 × UInt32)) : (modeTable modes).length = 12 * modes.length := by
  induction modes with
  | nil => rfl
  | cons entry modes ih =>
    rw [modeTable, List.flatMap_cons, ← modeTable, List.length_append, ih]
    simp only [modeBytes, List.length_append, beBytes_length, List.length_cons]
    omega

/-- **The mode table reads back.** -/
theorem modes_read {modes : List (UInt32 × UInt32 × UInt32)} (fits : (modeTable modes).length ≤ maxTableBytes) :
    ∃ r, (GvDecode.arrayIter modeDecode).decode (modeTable modes) = .ok r ∧
      validated ofGvariant modeDecode.decode modeStep r 0 = .ok (modes, (modeTable modes).length) := by
  have short : Addressable (modeTable modes) := fits.trans (by decide)
  obtain ⟨r, whole, collected⟩ := GvDecode.collect_of_slice rfl (encodeToVec_modeTable modes) short
    ((modes_code modes).imp fun _ _ codes => codes.read)
  refine ⟨r, whole, validated_eq_ok.mpr ⟨_, collected, ?_⟩⟩
  have sum : (modes.map fun _ => 12).sum = (modeTable modes).length := by
    simp [modeTable_length, Nat.mul_comm]
  have counted := @steps_of_fits _ _ _ modeStep swapTriple id (fun _ => 12) modes 0
    (fun entry _ total fits => by
      rw [modeStep, bumpTable_of_le fits, ok_bind]
      exact congrArg (fun entry => Except.ok (entry, total + 12)) (swapTriple_swapTriple entry))
    (by rw [sum, Nat.zero_add]; exact fits)
  rwa [List.map_id, sum, Nat.zero_add] at counted

/-- **The applier reads what the generator framed.** -/
theorem payload_reads {part : Part} (framed : part.payload = .ok payload)
    (short : Addressable payload) : ∃ view, partView payload = .ok view ∧ view.ops = part.ops ∧
      readTables view = .ok ⟨part.modes.entries, part.xattrs.entries, part.blob⟩ := by
  obtain ⟨xattrs, table, fits, -, rfl⟩ := payload_eq_ok.mp framed
  obtain ⟨modeIter, modesOpen, modesRead⟩ := @modes_read part.modes.entries (by omega)
  have members : MembersFit partMembers.specs [modeTable part.modes.entries, xattrs, part.blob, part.ops] := by
    simp [MembersFit, partMembers, DecodeMembers.specs, GvDecode.arrayIter, GvDecode.bytes]
  have positive : ∀ spec ∈ partMembers.specs, 0 < spec.1 :=
    fun spec inside => (partMembers.specs_valid spec inside).alignment.pos
  have small : Addressable xattrs :=
    (length_le_tupleBytes positive (Nat.succ_pos 3) partMembers.specs_ne_nil members (by simp)).trans short
  obtain ⟨xattrIter, xattrsOpen, final, xattrsRead⟩ :=
    @xattrs_read _ _ table small (modeTable part.modes.entries).length fits
  refine ⟨⟨modeIter, xattrIter, part.blob, part.ops⟩, ?_, rfl, ?_⟩
  · have decoded : (GvDecode.tuple partMembers).decode (tupleBytes [(4, none), (1, none), (1, none), (1, none)] none
        [modeTable part.modes.entries, xattrs, part.blob, part.ops])
        = .ok (modeIter, xattrIter, part.blob, part.ops) :=
      GvDecode.tuple_eq_ok.mpr ⟨_, splitTuple_complete_of_dynamic positive members short,
        modesOpen, xattrsOpen, rfl, rfl⟩
    rw [partView, mapError_eq_ok.mpr decoded]
    rfl
  · simp only [readTables, modesRead, xattrsRead, ok_bind]

end Ostrya.Delta
