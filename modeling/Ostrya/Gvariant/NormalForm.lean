/-
**The normal form of a value.**

`encode levels ty value` is the normal-form serialization as a function of the value alone: each
container is `arrayBytes` or `tupleBytes` of the encodings of what it holds. The serializer of the
source, which pads from absolute buffer positions, appends exactly it (`serialize_appends`); the
parser accepts exactly it (`parse_sound`, `parse_complete`). The two main results follow:

* `toBytes_of_fromBytes`: bytes that parse are the serialization of the value they parse to;
* `fromBytes_of_toBytes`: the serialization of a value parses to the value.
-/

import Ostrya.Gvariant.Value

namespace Ostrya.Gvariant

open ByteFormat

variable {members : List Ty} {items : List Value} {data bytes : Bytes} {whole ty : Ty} {levels : Nat} {value : Value}

/-! ### The encoding -/

/-- A tuple or a dict entry, from the encodings of its members. -/
def encodeStruct (child : Ty → Value → Except Error Bytes) (whole : Ty) (members : List Ty)
    (items : List Value) : Except Error Bytes :=
  if items.length ≠ members.length then .error (mismatch whole "tuple of a different arity")
  else if members.isEmpty then .ok [0]
  else
    ((members.zip items).mapM fun member => child member.1 member.2).map
      (tupleBytes (members.map Ty.spec) whole.fixedSize)

/-- One level of the normal form. -/
def encodeStep (child : Ty → Value → Except Error Bytes) (ty : Ty) (value : Value) :
    Except Error Bytes :=
  match ty, value with
  | .bool, .bool b => .ok [boolByte b]
  | .byte, .byte b => .ok [b]
  | .i16, .i16 x => .ok (leBytes 2 (i16ToNat x))
  | .u16, .u16 x => .ok (leBytes 2 x.toNat)
  | .i32, .i32 x | .handle, .i32 x => .ok (leBytes 4 (i32ToNat x))
  | .u32, .u32 x => .ok (leBytes 4 x.toNat)
  | .i64, .i64 x => .ok (leBytes 8 (i64ToNat x))
  | .u64, .u64 x => .ok (leBytes 8 x.toNat)
  | .double, .double bits => .ok (leBytes 8 bits.toNat)
  | .str, .str text | .objectPath, .str text | .signature, .str text => strBytes text
  | .maybe _, .maybe none => .ok []
  | .maybe elem, .maybe (some inner) =>
    (child elem inner).map fun bytes => if elem.fixedSize.isNone then bytes ++ [0] else bytes
  | .array .byte, .bytes b => .ok b
  | .array .byte, .array items => .error (mismatch (.array .byte) (Value.array items).kind)
  | .array elem, .array items =>
    (items.mapM (child elem)).map (arrayBytes elem.alignment elem.fixedSize.isSome)
  | .tuple members, .tuple items => encodeStruct child (.tuple members) members items
  | .dictEntry key val, .tuple items => encodeStruct child (.dictEntry key val) [key, val] items
  | .variant, .variant childTy inner =>
    (child childTy inner).map fun bytes => bytes ++ [0] ++ childTy.signatureBytes
  | ty, value => .error (mismatch ty value.kind)

/-- **The normal form of a value of a type**, with `levels` container levels to go. -/
def encode : (levels : Nat) → Ty → Value → Except Error Bytes
  | 0 => fun _ _ => .error .depthExceeded
  | levels + 1 => encodeStep (encode levels)

theorem encodeStruct_eq_ok (nonempty : members ≠ []) :
    encodeStruct child whole members items = .ok data ↔
      ∃ parts, Forall₃ (fun ty item part => child ty item = .ok part) members items parts ∧
        tupleBytes (members.map Ty.spec) whole.fixedSize parts = data := by
  unfold encodeStruct
  by_cases arity : items.length = members.length
  · rw [if_neg (not_not.mpr arity), if_neg (by simpa using nonempty), map_eq_ok]
    simp only [zip_mapM_eq_ok arity.symm]
  · rw [if_pos arity]
    simp only [reduceCtorEq, false_iff]
    rintro ⟨parts, each, -⟩
    exact arity each.length_eq.1.symm

theorem encodeStep_array (child : Ty → Value → Except Error Bytes) (other : elem ≠ .byte)
    (items : List Value) : encodeStep child (.array elem) (.array items)
      = (items.mapM (child elem)).map (arrayBytes elem.alignment elem.fixedSize.isSome) := by
  cases elem
  all_goals first
    | rfl
    | exact absurd rfl other

/-! ### Fixed sizes -/

theorem encodeStruct_sized (same : whole.spec = (Ty.tuple members).spec)
    (encoded : encodeStruct child whole members items = .ok bytes)
    (fixed : whole.fixedSize = some size) : bytes.length = size := by
  unfold encodeStruct at encoded
  split at encoded
  · cases encoded
  split at encoded
  · next empty =>
    cases encoded
    rw [List.isEmpty_iff] at empty
    subst empty
    have unit : whole.fixedSize = some 1 := congrArg Prod.snd same
    rw [unit] at fixed
    cases fixed
    rfl
  · obtain ⟨parts, _, rfl⟩ := map_eq_ok.mp encoded
    rw [fixed]
    exact tupleBytes_length_of_fixed

/-- The bytes of a type of a fixed size have that size. -/
def KeepsSize (child : Ty → Value → Except Error Bytes) : Prop :=
  ∀ ty value bytes size, child ty value = .ok bytes → ty.fixedSize = some size → bytes.length = size

theorem encode_sized : KeepsSize (encode levels) := by
  intro ty value bytes size encoded fixed
  cases levels with
  | zero => cases encoded
  | succ levels =>
    rw [encode] at encoded
    unfold encodeStep at encoded
    split at encoded
    case h_19 => exact encodeStruct_sized rfl encoded fixed
    case h_20 => exact encodeStruct_sized (Ty.spec_dictEntry _ _) encoded fixed
    -- Scalars state their size, and no other type has one.
    all_goals first
      | (cases fixed; done)
      | (cases fixed; cases encoded; first | rfl | exact leBytes_length _ _)
      | (rw [Ty.fixedSize_maybe] at fixed; cases fixed)
      | (rw [Ty.fixedSize_array] at fixed; cases fixed)
      | cases encoded

/-! ### Depth -/

section Monotone

variable {child deeper : Ty → Value → Except Error Bytes}
  (grows : ∀ ty value bytes, child ty value = .ok bytes → deeper ty value = .ok bytes)

include grows

theorem encodeStruct_mono (encoded : encodeStruct child whole members items = .ok bytes) :
    encodeStruct deeper whole members items = .ok bytes := by
  unfold encodeStruct at encoded ⊢
  split_ifs at encoded ⊢
  · exact encoded
  · obtain ⟨parts, traversed, rfl⟩ := map_eq_ok.mp encoded
    refine map_eq_ok.mpr ⟨parts, mapM_eq_ok.mpr ?_, rfl⟩
    exact (mapM_eq_ok.mp traversed).imp fun _ _ => grows _ _ _

theorem encodeStep_mono (encoded : encodeStep child ty value = .ok bytes) :
    encodeStep deeper ty value = .ok bytes := by
  unfold encodeStep at encoded
  split at encoded
  case h_15 elem inner | h_21 childTy inner =>
    obtain ⟨bytes, inside, rfl⟩ := map_eq_ok.mp encoded
    exact map_eq_ok.mpr ⟨bytes, grows _ _ _ inside, rfl⟩
  case h_18 elem items other =>
    obtain ⟨parts, traversed, rfl⟩ := map_eq_ok.mp encoded
    rw [encodeStep_array deeper other]
    exact map_eq_ok.mpr ⟨parts, mapM_eq_ok.mpr ((mapM_eq_ok.mp traversed).imp fun _ _ => grows _ _ _), rfl⟩
  case h_19 | h_20 => exact encodeStruct_mono grows encoded
  case h_22 => cases encoded
  all_goals exact encoded

end Monotone

/-- More levels to go change no normal form. -/
theorem encode_mono (le : levels ≤ more)
    (encoded : encode levels ty value = .ok bytes) : encode more ty value = .ok bytes := by
  induction levels generalizing more ty value bytes with
  | zero => cases encoded
  | succ levels ih =>
    obtain ⟨more, rfl⟩ := Nat.exists_eq_add_of_le' (Nat.zero_lt_of_lt le)
    exact encodeStep_mono (fun _ _ _ => ih (Nat.le_of_succ_le_succ le)) encoded

/-! ### The serializer appends the normal form -/

theorem Ty.alignment_dvd_eight (ty : Ty) : ty.alignment ∣ 8 := by
  have valid : IsAlignment ty.alignment := ty.spec_valid.alignment
  rcases valid with same | same | same | same <;> rw [same] <;> decide

section Appending

variable {writes : Ty → Value → Writer} {child : Ty → Value → Except Error Bytes}
  (each : ∀ ty value, Appends ty.alignment (writes ty value) (child ty value))

include each

theorem serializeArray_appends (sized : KeepsSize child) (elem : Ty) (items : List Value) :
    Appends elem.alignment (serializeArray writes elem items)
      ((items.mapM (child elem)).map (arrayBytes elem.alignment elem.fixedSize.isSome)) := by
  have results : List.Forall₂ (Appends elem.alignment) (items.map (writes elem))
      (items.map (child elem)) := by
    rw [List.forall₂_map_left_iff, List.forall₂_map_right_iff, List.forall₂_same]
    exact fun item _ => each elem item
  have whole := @writeArray_eq elem.alignment _ _ elem.spec_valid.alignment.pos
    elem.fixedSize.isSome results (by
      intro fixed part member
      obtain ⟨item, _, encoded⟩ := List.mem_map.mp member
      obtain ⟨size, fixedSize⟩ := Option.isSome_iff_exists.mp fixed
      rw [sized _ _ _ _ encoded fixedSize]
      exact elem.spec_valid.multiple size fixedSize)
  rw [mapM_id_map] at whole
  exact whole

theorem serializeStruct_appends (same : whole.spec = (Ty.tuple members).spec) (items : List Value) :
    Appends whole.alignment (serializeStruct writes whole members items)
      (encodeStruct child whole members items) := by
  intro out aligned
  unfold serializeStruct encodeStruct
  split
  · rfl
  split
  · rfl
  next arity nonempty =>
  have firsts : ((members.zip items).map fun member => (member.1.spec, writes member.1 member.2)).map
      Prod.fst = members.map Ty.spec := by
    rw [List.map_map]
    exact (List.map_map (f := Prod.fst) (g := Ty.spec)).symm.trans
      (congrArg _ (List.map_fst_zip (by omega)))
  have results : MembersAppend
      ((members.zip items).map fun member => (member.1.spec, writes member.1 member.2))
      ((members.zip items).map fun member => child member.1 member.2) := by
    rw [MembersAppend, List.forall₂_map_left_iff, List.forall₂_map_right_iff, List.forall₂_same]
    exact fun member _ => each member.1 member.2
  have member_of : ∀ entry ∈ (members.zip items).map
      (fun member => (member.1.spec, writes member.1 member.2)), ∃ ty ∈ members, entry.1 = ty.spec := by
    intro entry inside
    obtain ⟨⟨ty, item⟩, zipped, rfl⟩ := List.mem_map.mp inside
    exact ⟨ty, (List.of_mem_zip zipped).1, rfl⟩
  have aligns : ∀ a ∈ (members.map Ty.spec).map Prod.fst, IsAlignment a := by
    intro a inside
    obtain ⟨spec, within, rfl⟩ := List.mem_map.mp inside
    obtain ⟨ty, _, rfl⟩ := List.mem_map.mp within
    exact ty.spec_valid.alignment
  have wholeAlign : whole.alignment = maxAlign ((members.map Ty.spec).map Prod.fst) :=
    congrArg Prod.fst (same.trans (Ty.spec_tuple members))
  have written := @writeTuple_eq whole.alignment _ _ results
    (fun entry inside => by
      obtain ⟨ty, _, same⟩ := member_of entry inside
      rw [same]
      exact ty.spec_valid.alignment.pos)
    (fun entry inside => by
      obtain ⟨ty, member, same⟩ := member_of entry inside
      rw [same, wholeAlign]
      exact dvd_maxAlign aligns (List.mem_map_of_mem (List.mem_map_of_mem member)))
    whole.fixedSize out aligned
  rw [mapM_id_map, firsts] at written
  exact written

theorem serializeStep_appends (sized : KeepsSize child) (ty : Ty) (value : Value) :
    Appends ty.alignment (serializeStep writes ty value) (encodeStep child ty value) := by
  intro out aligned
  unfold serializeStep
  split
  case h_14 elem => exact congrArg Except.ok (List.append_nil out).symm
  case h_15 elem inner =>
    rw [Ty.alignment_maybe] at aligned
    rw [each elem inner out aligned, encodeStep]
    cases child elem inner with
    | error fault => rfl
    | ok bytes =>
      split <;> simp
  case h_18 elem items other =>
    rw [Ty.alignment_array] at aligned
    rw [encodeStep_array child other]
    exact serializeArray_appends each sized elem items out aligned
  case h_19 members items => exact serializeStruct_appends each rfl items out aligned
  case h_20 key val items =>
    exact serializeStruct_appends each (Ty.spec_dictEntry key val) items out aligned
  case h_21 childTy inner =>
    -- A variant is aligned for every child.
    rw [each childTy inner out ((Ty.alignment_dvd_eight childTy).trans aligned), encodeStep]
    cases child childTy inner with
    | error fault => rfl
    | ok bytes => simp
  case h_22 =>
    unfold encodeStep
    split
    all_goals first
      | rfl
      | simp_all
  all_goals rfl

end Appending

/-- **The serializer appends the normal form**, wherever an aligned buffer ends. -/
theorem serialize_appends (levels : Nat) (ty : Ty) (value : Value) :
    Appends ty.alignment (serialize levels ty value) (encode levels ty value) := by
  induction levels generalizing ty value with
  | zero => exact fun _ _ => rfl
  | succ levels ih => exact serializeStep_appends ih encode_sized ty value

theorem serialize_nil (levels : Nat) (ty : Ty) (value : Value) :
    serialize levels ty value [] = encode levels ty value := by
  rw [serialize_appends levels ty value [] (Nat.dvd_zero _)]
  cases encode levels ty value <;> rfl

theorem toBytes_eq_encode (ty : Ty) (value : Value) :
    toBytes ty value = encode (maxValueDepth + 1) ty value := serialize_nil _ ty value

/-! ### Cutting a container -/

theorem rposition_eq_none : rposition data = none ↔ 0 ∉ data := by
  induction data with
  | nil => simp [rposition]
  | cons byte bytes ih =>
    rw [rposition, List.mem_cons, not_or, ← ih]
    cases rposition bytes with
    | some index => simp
    | none => simp [eq_comm]

theorem rposition_eq_some :
    rposition data = some sep ↔ ∃ front back, data = front ++ 0 :: back ∧ front.length = sep ∧ 0 ∉ back := by
  induction data generalizing sep with
  | nil => simp [rposition]
  | cons byte bytes ih =>
    rw [rposition]
    constructor
    · intro found
      split at found
      · grind
      · next later =>
        split at found
        · next zero =>
          cases found
          exact ⟨[], bytes, by rw [zero]; rfl, rfl, rposition_eq_none.mp later⟩
        · cases found
    · rintro ⟨front, back, whole, rfl, clean⟩
      cases front with
      | nil =>
        cases whole
        rw [rposition_eq_none.mpr clean]
        rfl
      | cons head front =>
        cases whole
        rw [ih.mpr ⟨front, back, rfl, rfl, clean⟩]
        rfl

/-- A variant splits into the bytes before its last zero byte and the type named after it. -/
theorem splitVariant_eq_ok {inner signature : Bytes} :
    splitVariant data = .ok (inner, signature, ty) ↔
      data = inner ++ 0 :: signature ∧ signature = ty.signatureBytes ∧
        Ty.parse ty.signatureString = .ok ty := by
  have cut : ∀ front back : Bytes, (front ++ 0 :: back).drop (front.length + 1) = back := by
    intro front back
    rw [← List.drop_drop, List.drop_left, List.drop_one, List.tail_cons]
  unfold splitVariant
  constructor
  · intro parts
    split at parts
    · cases parts
    next sep found =>
    obtain ⟨front, back, rfl, rfl, _⟩ := rposition_eq_some.mp found
    simp only [cut, List.take_left] at parts
    split at parts
    · cases parts
    next text utf8 =>
    split at parts
    · cases parts
    next parsed =>
    cases parts
    obtain rfl := Ty.signature_of_parse parsed
    rw [← fromUtf8_eq_some.mp utf8, Ty.asBytes_signatureString]
    exact ⟨rfl, rfl, parsed⟩
  · rintro ⟨rfl, rfl, parsed⟩
    rw [rposition_eq_some.mpr ⟨inner, _, rfl, rfl, ty.zero_notMem_signatureBytes⟩]
    simp only [cut, List.take_left]
    rw [← Ty.asBytes_signatureString, fromUtf8_asBytes]
    simp only [parsed]

theorem parseMembers_eq_ok :
    parseMembers child r tys = .ok (items, last) ↔
      ∃ parts, r.fields (tys.map Ty.spec) = .ok (parts, last) ∧
        Forall₃ (fun ty part item => child ty part = .ok item) tys parts items := by
  induction tys generalizing r items last with
  | nil =>
    simp only [parseMembers, List.map_nil, TupleReader.fields, Except.ok.injEq, Prod.mk.injEq]
    constructor
    · rintro ⟨rfl, rfl⟩
      exact ⟨[], ⟨rfl, rfl⟩, .nil⟩
    · rintro ⟨parts, ⟨rfl, rfl⟩, each⟩
      cases each
      exact ⟨rfl, rfl⟩
  | cons ty tys ih =>
    simp only [parseMembers, List.map_cons, TupleReader.fields, bind_eq_ok, Prod.exists, ih,
      Except.ok.injEq, Prod.mk.injEq, List.isEmpty_map]
    constructor
    · rintro ⟨part, next, cut, item, read, items, last, ⟨parts, others, each⟩, rfl, rfl⟩
      exact ⟨part :: parts, ⟨part, next, cut, parts, last, others, rfl, rfl⟩, .cons read each⟩
    · rintro ⟨_, ⟨part, next, cut, parts, last, others, rfl, rfl⟩, each⟩
      cases each with
      | cons read each => exact ⟨part, next, cut, _, read, _, last, ⟨parts, others, each⟩, rfl, rfl⟩

theorem parseStruct_eq_ok (nonempty : members ≠ []) :
    parseStruct child whole members data = .ok value ↔
      ∃ parts items, splitTuple (members.map Ty.spec) whole.fixedSize data = .ok parts ∧
        Forall₃ (fun ty part item => child ty part = .ok item) members parts items ∧
        value = .tuple items := by
  unfold parseStruct splitTuple
  rw [if_neg (by simpa using nonempty)]
  simp only [bind_eq_ok, Prod.exists, parseMembers_eq_ok, Except.ok.injEq]
  constructor
  · grind
  · grind

/-! ### What parses is in normal form -/

section Sound

variable {reads : Ty → Bytes → Except Error Value} {child : Ty → Value → Except Error Bytes}
  (sound : ∀ ty data value, reads ty data = .ok value → child ty value = .ok data)

include sound

theorem parseStruct_sound
    (same : whole.spec = (Ty.tuple members).spec) (read : parseStruct reads whole members data = .ok value) :
    ∃ items, value = .tuple items ∧ encodeStruct child whole members items = .ok data := by
  by_cases empty : members = []
  · subst empty
    unfold parseStruct at read
    rw [if_pos (by rfl)] at read
    split at read
    · cases read
    next single =>
    cases read
    exact ⟨[], rfl, by rw [not_not.mp single]; rfl⟩
  · obtain ⟨parts, items, cut, each, rfl⟩ := (parseStruct_eq_ok empty).mp read
    refine ⟨items, rfl, ?_⟩
    have arity := each.length_eq.2
    rw [show whole.fixedSize = structFixedSize (members.map Ty.spec) whole.alignment from
      Ty.fixedSize_struct same] at cut
    have whole_bytes := (splitTuple_sound (Ty.spec_positive members) cut).2
    rw [← Ty.fixedSize_struct same] at whole_bytes
    unfold encodeStruct
    rw [if_neg (by omega), if_neg (by simpa using empty), map_eq_ok]
    refine ⟨parts, (zip_mapM_eq_ok arity).mpr ?_, whole_bytes⟩
    exact each.swap_imp fun _ _ _ _ _ read => sound _ _ _ read

theorem parseMaybe_sound (read : parseMaybe reads elem data = .ok value) :
    encodeStep child (.maybe elem) value = .ok data := by
  unfold parseMaybe at read
  split at read
  · next empty =>
    cases read
    rw [List.isEmpty_iff.mp empty]
    rfl
  · obtain ⟨inner_bytes, cut, read⟩ := bind_eq_ok.mp read
    obtain ⟨inner, parsed, read⟩ := bind_eq_ok.mp read
    cases read
    rw [encodeStep, sound _ _ _ parsed, map_ok]
    unfold maybeChild at cut
    split at cut
    · next fixed =>
      cases cut
      rw [if_neg (by rw [Option.isNone_iff_eq_none]; intro none; rw [none] at fixed; cases fixed)]
    · next dynamic =>
      rw [if_pos (by simpa using dynamic)]
      split at cut
      · next terminated =>
        cases cut
        rw [List.dropLast_append_getLast? 0 terminated]
      · cases cut

theorem parseArray_sound (read : parseArray reads elem data = .ok value) :
    ∃ items, value = .array items ∧
      (items.mapM (child elem)).map (arrayBytes elem.alignment elem.fixedSize.isSome) = .ok data := by
  obtain ⟨reader, opened, read⟩ := bind_eq_ok.mp read
  obtain ⟨items, collected, read⟩ := bind_eq_ok.mp read
  cases read
  obtain ⟨parts, whole, _, each⟩ := ArrayReader.collect_sound elem.spec_valid opened collected
  refine ⟨items, rfl, map_eq_ok.mpr ⟨parts, mapM_eq_ok.mpr ?_, whole⟩⟩
  exact forall₂_swap_imp each fun _ _ _ _ read => sound _ _ _ read

theorem parseStep_sound (read : parseStep reads ty data = .ok value) :
    encodeStep child ty value = .ok data := by
  unfold parseStep at read
  split at read
  case h_14 elem => exact parseMaybe_sound sound read
  case h_15 => cases read; rfl
  case h_16 elem other =>
    obtain ⟨items, rfl, encoded⟩ := parseArray_sound sound read
    rw [encodeStep_array child other, encoded]
  case h_17 members =>
    obtain ⟨items, rfl, encoded⟩ := parseStruct_sound sound rfl read
    exact encoded
  case h_18 key val =>
    obtain ⟨items, rfl, encoded⟩ := parseStruct_sound sound (Ty.spec_dictEntry key val) read
    exact encoded
  case h_19 =>
    obtain ⟨⟨inner, signature, childTy⟩, cut, read⟩ := bind_eq_ok.mp read
    obtain ⟨item, parsed, read⟩ := bind_eq_ok.mp read
    cases read
    obtain ⟨rfl, rfl, _⟩ := splitVariant_eq_ok.mp cut
    rw [encodeStep, sound _ _ _ parsed, map_ok, List.append_assoc]
    rfl
  all_goals
    obtain ⟨x, decoded, rfl⟩ := map_eq_ok.mp read
    rw [encodeStep]
  case h_1 => rw [decodeBool_eq_ok.mp decoded]
  case h_2 => rw [decodeByte_eq_ok.mp decoded]
  case h_3 => rw [isScalar_i16.decode_eq_ok.mp decoded]
  case h_4 => rw [isScalar_u16.decode_eq_ok.mp decoded]
  case h_5 | h_6 => rw [isScalar_i32.decode_eq_ok.mp decoded]
  case h_7 => rw [isScalar_u32.decode_eq_ok.mp decoded]
  case h_8 => rw [isScalar_i64.decode_eq_ok.mp decoded]
  case h_9 | h_10 => rw [isScalar_u64.decode_eq_ok.mp decoded]
  case h_11 | h_12 | h_13 => exact decodeStr_eq_ok.mp decoded

end Sound

/-- **Bytes that parse are in normal form.** -/
theorem parse_sound (levels : Nat) (ty : Ty) (data : Bytes) (value : Value)
    (read : parse levels ty data = .ok value) : encode levels ty value = .ok data := by
  induction levels generalizing ty data value with
  | zero => cases read
  | succ levels ih => exact parseStep_sound ih read

/-! ### The normal form parses -/

mutual

/-- The types that the variants inside a value carry. -/
def Value.variantTypes : Value → List Ty
  | .maybe (some inner) => inner.variantTypes
  | .array items | .tuple items => Value.itemsVariantTypes items
  | .variant ty inner => ty :: inner.variantTypes
  | _ => []

def Value.itemsVariantTypes : List Value → List Ty
  | [] => []
  | item :: items => item.variantTypes ++ Value.itemsVariantTypes items

end

/-- Every type that a variant inside the value carries is one that `Type::parse` returns. -/
def Value.ParsedTypes (value : Value) : Prop :=
  ∀ ty ∈ value.variantTypes, ∃ text, Ty.parse text = .ok ty

theorem parsedTypes_plain {value : Value} (plain : value.variantTypes = []) : value.ParsedTypes := by
  intro ty carried
  rw [plain] at carried
  cases carried

theorem Value.variantTypes_subset_of_mem (member : item ∈ items) :
    item.variantTypes ⊆ itemsVariantTypes items := by
  induction items with
  | nil => cases member
  | cons first items ih =>
    rcases List.mem_cons.mp member with rfl | member
    · exact List.subset_append_left _ _
    · exact List.subset_append_of_subset_right _ (ih member)

section Complete

variable {reads : Ty → Bytes → Except Error Value} {child : Ty → Value → Except Error Bytes}

/-- What the level below grants. -/
def Reads (reads : Ty → Bytes → Except Error Value) (child : Ty → Value → Except Error Bytes) : Prop :=
  ∀ ty value data, child ty value = .ok data → value.ParsedTypes → Addressable data →
    reads ty data = .ok value

variable {elem : Ty}

theorem parseMaybe_complete (complete : Reads reads child) {inner : Value}
    (encoded : child elem inner = .ok bytes) (parsed : inner.ParsedTypes)
    (sized : ∀ size, elem.fixedSize = some size → bytes.length = size) (fits : Addressable bytes) :
    parseMaybe reads elem (if elem.fixedSize.isNone then bytes ++ [0] else bytes)
      = .ok (.maybe (some inner)) := by
  have read := complete elem inner bytes encoded parsed fits
  unfold parseMaybe maybeChild
  cases fixed : elem.fixedSize with
  | none => simp [read]
  | some size =>
    have positive := elem.spec_valid.positive size fixed
    have nonempty : bytes ≠ [] := by
      intro empty
      have zero := sized size fixed
      rw [empty, List.length_nil] at zero
      omega
    simp [read, nonempty]

theorem parseArray_complete (complete : Reads reads child) (sized : KeepsSize child)
    (each : List.Forall₂ (fun item part => child elem item = .ok part) items parts)
    (parsed : ∀ item ∈ items, item.ParsedTypes)
    (fits : Addressable (arrayBytes elem.alignment elem.fixedSize.isSome parts)) :
    parseArray reads elem (arrayBytes elem.alignment elem.fixedSize.isSome parts)
      = .ok (.array items) := by
  have read : List.Forall₂ (fun part item => reads elem part = .ok item) parts items :=
    forall₂_swap_imp each fun item member part inside encoded =>
      complete elem item part encoded (parsed item member)
        ((length_le_arrayBytes inside).trans fits)
  have sizes : ArrayReader.Sized elem.fixedSize parts := by
    intro size fixed part member
    obtain ⟨item, _, encoded⟩ := forall₂_exists_left each member
    exact sized _ _ _ _ encoded fixed
  obtain ⟨reader, opened, collected⟩ :=
    ArrayReader.collect_complete elem.spec_valid fits sizes read
  exact bind_eq_ok.mpr ⟨reader, opened, bind_eq_ok.mpr ⟨items, collected, rfl⟩⟩

theorem membersFit_of_sized (sized : KeepsSize child)
    (each : Forall₃ (fun ty item part => child ty item = .ok part) members items parts) :
    MembersFit (members.map Ty.spec) parts := by
  induction each with
  | nil => exact .nil
  | cons encoded _ ih => exact .cons (fun size fixed => sized _ _ _ _ encoded fixed) ih

theorem parseStruct_complete (complete : Reads reads child) (sized : KeepsSize child)
    (same : whole.spec = (Ty.tuple members).spec)
    (encoded : encodeStruct child whole members items = .ok data)
    (parsed : ∀ item ∈ items, item.ParsedTypes) (small : Addressable data) :
    parseStruct reads whole members data = .ok (.tuple items) := by
  rcases eq_or_ne members [] with rfl | nonempty
  · unfold encodeStruct at encoded
    split at encoded
    · cases encoded
    · next arity =>
      cases encoded
      rw [not_not, List.length_nil, List.length_eq_zero_iff] at arity
      subst arity
      rfl
  obtain ⟨parts, each, rfl⟩ := (encodeStruct_eq_ok nonempty).mp encoded
  have fits := membersFit_of_sized sized each
  have specs : members.map Ty.spec ≠ [] := by simpa using nonempty
  have wholePositive := whole.spec_valid.alignment.pos
  rw [Ty.fixedSize_struct same] at small ⊢
  rw [parseStruct_eq_ok nonempty, Ty.fixedSize_struct same]
  refine ⟨parts, items, splitTuple_complete (Ty.spec_positive members) wholePositive specs fits small,
    each.swap_imp fun ty item memberItem part memberPart encoded => ?_, rfl⟩
  refine complete ty item part encoded (parsed item memberItem) (le_trans ?_ small)
  exact length_le_tupleBytes (Ty.spec_positive members) wholePositive specs fits memberPart

theorem parseStep_array (reads : Ty → Bytes → Except Error Value) (other : elem ≠ .byte)
    (data : Bytes) : parseStep reads (.array elem) data = parseArray reads elem data := by
  cases elem
  all_goals first
    | rfl
    | exact absurd rfl other

theorem items_parsedTypes (parsed : ∀ ty ∈ Value.itemsVariantTypes items, ∃ text, Ty.parse text = .ok ty) :
    ∀ item ∈ items, item.ParsedTypes :=
  fun _ member ty carried => parsed ty (Value.variantTypes_subset_of_mem member carried)

theorem parseStep_complete (complete : Reads reads child) (sized : KeepsSize child) :
    Reads (parseStep reads) (encodeStep child) := by
  intro ty value data encoded parsed fits
  unfold encodeStep at encoded
  split at encoded
  case h_14 elem => cases encoded; rfl
  case h_15 elem inner =>
    obtain ⟨bytes, written, rfl⟩ := map_eq_ok.mp encoded
    refine parseMaybe_complete complete written parsed (fun size fixed => sized _ _ _ _ written fixed) ?_
    refine le_trans ?_ fits
    split <;> simp
  case h_16 => cases encoded; rfl
  case h_17 => cases encoded
  case h_18 elem items other =>
    obtain ⟨parts, traversed, rfl⟩ := map_eq_ok.mp encoded
    rw [parseStep_array reads other]
    exact parseArray_complete complete sized (mapM_eq_ok.mp traversed) (items_parsedTypes parsed) fits
  case h_19 members items =>
    exact parseStruct_complete complete sized rfl encoded (items_parsedTypes parsed) fits
  case h_20 key val items =>
    exact parseStruct_complete complete sized (Ty.spec_dictEntry key val) encoded
      (items_parsedTypes parsed) fits
  case h_21 childTy inner =>
    obtain ⟨bytes, written, rfl⟩ := map_eq_ok.mp encoded
    obtain ⟨text, named⟩ := parsed childTy (.head _)
    have cut : splitVariant (bytes ++ [0] ++ childTy.signatureBytes)
        = .ok (bytes, childTy.signatureBytes, childTy) :=
      splitVariant_eq_ok.mpr ⟨by simp, rfl, Ty.parse_signature named⟩
    have read : reads childTy bytes = .ok inner := by
      refine complete childTy inner bytes written
        (fun ty member => parsed ty (.tail _ member)) (le_trans ?_ fits)
      simp only [List.length_append]
      omega
    simp only [parseStep, cut, ok_bind, read]
  case h_22 => cases encoded
  all_goals rw [parseStep]
  case h_1 => rw [decodeBool_eq_ok.mpr (Except.ok.inj encoded), map_ok]
  case h_2 => rw [decodeByte_eq_ok.mpr (Except.ok.inj encoded), map_ok]
  case h_3 => rw [isScalar_i16.decode_eq_ok.mpr (Except.ok.inj encoded), map_ok]
  case h_4 => rw [isScalar_u16.decode_eq_ok.mpr (Except.ok.inj encoded), map_ok]
  case h_5 | h_6 => rw [isScalar_i32.decode_eq_ok.mpr (Except.ok.inj encoded), map_ok]
  case h_7 => rw [isScalar_u32.decode_eq_ok.mpr (Except.ok.inj encoded), map_ok]
  case h_8 => rw [isScalar_i64.decode_eq_ok.mpr (Except.ok.inj encoded), map_ok]
  case h_9 | h_10 => rw [isScalar_u64.decode_eq_ok.mpr (Except.ok.inj encoded), map_ok]
  case h_11 | h_12 | h_13 => rw [decodeStr_eq_ok.mpr encoded, map_ok]

end Complete

/-- **The normal form of a value parses to the value.** -/
theorem parse_complete (levels : Nat) : Reads (parse levels) (encode levels) := by
  induction levels with
  | zero => exact fun _ _ _ encoded _ _ => by cases encoded
  | succ levels ih => exact parseStep_complete ih encode_sized

/-! ### The types of what parses -/

theorem parsedTypes_items (each : ∀ item ∈ items, item.ParsedTypes) :
    ∀ ty ∈ Value.itemsVariantTypes items, ∃ text, Ty.parse text = .ok ty := by
  induction items with
  | nil => exact List.forall_mem_nil _
  | cons item items ih =>
    obtain ⟨first, others⟩ := List.forall_mem_cons.mp each
    exact List.forall_mem_append.mpr ⟨first, ih others⟩

theorem parsedTypes_array :
    (Value.array items).ParsedTypes ↔ ∀ item ∈ items, item.ParsedTypes :=
  ⟨items_parsedTypes, parsedTypes_items⟩

theorem parsedTypes_tuple :
    (Value.tuple items).ParsedTypes ↔ ∀ item ∈ items, item.ParsedTypes :=
  ⟨items_parsedTypes, parsedTypes_items⟩

theorem parsedTypes_variant {inner : Value} :
    (Value.variant ty inner).ParsedTypes ↔ (∃ text, Ty.parse text = .ok ty) ∧ inner.ParsedTypes := by
  simp [Value.ParsedTypes, Value.variantTypes]

section Types

variable {reads : Ty → Bytes → Except Error Value}
  (below : ∀ ty data value, reads ty data = .ok value → value.ParsedTypes)

include below

theorem parseStruct_parsedTypes (read : parseStruct reads whole members data = .ok value) : value.ParsedTypes := by
  by_cases empty : members = []
  · subst empty
    unfold parseStruct at read
    rw [if_pos (by rfl)] at read
    split_ifs at read
    cases read
    exact parsedTypes_tuple.mpr fun item member => by cases member
  · obtain ⟨parts, items, -, each, rfl⟩ := (parseStruct_eq_ok empty).mp read
    rw [parsedTypes_tuple]
    clear read empty
    induction each with
    | nil => exact fun item member => by cases member
    | cons first _ ih => exact List.forall_mem_cons.mpr ⟨below _ _ _ first, ih⟩

theorem parseStep_parsedTypes (read : parseStep reads ty data = .ok value) :
    value.ParsedTypes := by
  unfold parseStep at read
  split at read
  case h_14 elem =>
    unfold parseMaybe at read
    split at read
    · cases read
      exact parsedTypes_plain rfl
    · obtain ⟨bytes, -, read⟩ := bind_eq_ok.mp read
      obtain ⟨inner, parsed, read⟩ := bind_eq_ok.mp read
      cases read
      exact fun ty carried => below _ _ _ parsed ty carried
  case h_16 elem other =>
    obtain ⟨reader, opened, read⟩ := bind_eq_ok.mp read
    obtain ⟨items, collected, read⟩ := bind_eq_ok.mp read
    cases read
    obtain ⟨parts, -, -, each⟩ := ArrayReader.collect_sound elem.spec_valid opened collected
    refine parsedTypes_array.mpr fun item member => ?_
    obtain ⟨part, -, parsed⟩ := forall₂_exists_left each member
    exact below _ _ _ parsed
  case h_17 | h_18 => exact parseStruct_parsedTypes below read
  case h_19 =>
    obtain ⟨⟨inner, signature, childTy⟩, cut, read⟩ := bind_eq_ok.mp read
    obtain ⟨item, parsed, read⟩ := bind_eq_ok.mp read
    cases read
    exact parsedTypes_variant.mpr ⟨⟨_, (splitVariant_eq_ok.mp cut).2.2⟩, below _ _ _ parsed⟩
  case h_15 => cases read; exact parsedTypes_plain rfl
  all_goals
    obtain ⟨x, -, rfl⟩ := map_eq_ok.mp read
    exact parsedTypes_plain rfl

end Types

/-- The parser gives every variant a type that `Type::parse` returns. -/
theorem parse_parsedTypes (levels : Nat) (ty : Ty) (data : Bytes) (value : Value)
    (read : parse levels ty data = .ok value) : value.ParsedTypes := by
  induction levels generalizing ty data value with
  | zero => cases read
  | succ levels ih => exact parseStep_parsedTypes ih read

theorem encode_tuple_eq_ok (nonempty : members ≠ []) : encode (levels + 1) (.tuple members) (.tuple items) = .ok data ↔
      ∃ parts, Forall₃ (fun ty item part => encode levels ty item = .ok part) members items parts ∧
        tupleBytes (members.map Ty.spec) (Ty.tuple members).fixedSize parts = data :=
  encodeStruct_eq_ok nonempty

theorem encode_tuple_member {levels : Nat} {members : List Ty} {items : List Value} {data : Bytes}
    (encoded : encode (levels + 1) (.tuple members) (.tuple items) = .ok data) {index : Nat} {ty : Ty} {item : Value}
    (memberTy : members[index]? = some ty) (memberItem : items[index]? = some item) :
    ∃ part, encode levels ty item = .ok part ∧ part.length ≤ data.length := by
  have nonempty : members ≠ [] := by rintro rfl; cases memberTy
  obtain ⟨parts, each, rfl⟩ := (encode_tuple_eq_ok nonempty).mp encoded
  obtain ⟨part, member, found⟩ := each.exists_of_getElem? memberTy memberItem
  have fits := membersFit_of_sized encode_sized each
  refine ⟨part, found, ?_⟩
  rw [Ty.fixedSize_struct rfl]
  exact length_le_tupleBytes (Ty.spec_positive members) (Ty.tuple members).spec_valid.alignment.pos
    (by simpa using nonempty) fits member

/-! ### The two round trips -/

/-- **Normal form is unique.** Bytes that parse as a value are the bytes that the value serializes
to, for every type and at every depth. -/
theorem toBytes_of_fromBytes {ty : Ty} {data : Bytes} {value : Value}
    (read : fromBytes ty data = .ok value) : toBytes ty value = .ok data := by
  rw [toBytes_eq_encode]
  exact parse_sound _ ty data value read

/-- The dictionary `{'version': <'1'>}`. -/
def versionDict : Value :=
  .array [.tuple [.str "version", .variant .str (.str "1")]]

def versionDictBytes : Bytes :=
  [118, 101, 114, 115, 105, 111, 110, 0, 49, 0, 0, 115, 8, 13]

theorem toBytes_of_fromBytes_versionDict :
    fromBytes (.array (.dictEntry .str .variant)) versionDictBytes = .ok versionDict ∧
      toBytes (.array (.dictEntry .str .variant)) versionDict = .ok versionDictBytes :=
  ⟨rfl, toBytes_of_fromBytes rfl⟩

/-- **Decoding undoes encoding.** The bytes that a value serializes to parse as the value, at the
same depth limit, when the variants carry types that `Type::parse` returns. The serialization is a
`Vec`, so its length is a machine word. -/
theorem fromBytes_of_toBytes {ty : Ty} {data : Bytes} {value : Value}
    (written : toBytes ty value = .ok data) (parsed : value.ParsedTypes) (fits : Addressable data) :
    fromBytes ty data = .ok value := by
  rw [toBytes_eq_encode] at written
  exact parse_complete _ ty value data written parsed fits

theorem fromBytes_of_toBytes_versionDict :
    toBytes (.array (.dictEntry .str .variant)) versionDict = .ok versionDictBytes ∧
      fromBytes (.array (.dictEntry .str .variant)) versionDictBytes = .ok versionDict := by
  refine ⟨rfl, fromBytes_of_toBytes rfl ?_ (by decide)⟩
  intro ty carried
  obtain rfl := List.mem_singleton.mp carried
  exact ⟨"s", rfl⟩

end Ostrya.Gvariant
