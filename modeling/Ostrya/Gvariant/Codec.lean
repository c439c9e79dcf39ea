/-
**The typed codec** (`GvType`, `GvDecode`, `GvEncode` and their implementations in `codec.rs`).

A decoder cuts slices with the same readers as the dynamic parser, and an encoder appends with the same
writers as the dynamic serializer. The tuple implementations that `impl_tuple!` generates are one
definition over the list of members. An encoder carries its law: at the end of an aligned buffer it
appends what it writes to an empty one.

* `GvDecode.tuple_eq_ok`, `GvEncode.tuple_eq_ok`: both sides of a tuple, over the same member bytes;
* `GvEncode.slice_of_collect`, `collect_of_slice`: a drained array and an encoded slice.
-/

import Ostrya.Gvariant.Tuple
import Ostrya.Gvariant.Leaf

namespace Ostrya.Gvariant

open ByteFormat

/-- `GvDecode`, with the alignment and the fixed size of `GvType`. -/
structure GvDecode (α : Type) where
  spec : MemberSpec
  decode : Bytes → Except Error α
  valid : ValidSpec spec

/-- `GvEncode`, with the alignment and the fixed size of `GvType`. -/
structure GvEncode (α : Type) where
  spec : MemberSpec
  encode : α → Writer
  valid : ValidSpec spec
  /-- Where an aligned buffer ends, the encoder appends what it writes to an empty buffer. -/
  appends : ∀ value, Appends spec.1 (encode value) (encode value [])
  sized : ∀ value bytes, encode value [] = .ok bytes → ∀ size, spec.2 = some size → bytes.length = size

/-- `encode_to_vec`. -/
def encodeToVec {α : Type} (encoder : GvEncode α) (value : α) : Except Error Bytes :=
  encoder.encode value []

/-! ### Leaves -/

theorem nil_append_map (result : Except Error Bytes) : result.map (([] : Bytes) ++ ·) = result := by
  cases result <;> rfl

/-- A leaf appends bytes that depend on its value alone. -/
def GvEncode.leaf {α : Type} (spec : MemberSpec) (valid : ValidSpec spec) (bytes : α → Except Error Bytes)
    (sized : ∀ value b, bytes value = .ok b → ∀ size, spec.2 = some size → b.length = size) :
    GvEncode α where
  spec := spec
  encode := fun value out => (bytes value).map (out ++ ·)
  valid := valid
  appends := fun value out _ => by rw [nil_append_map]
  sized := fun value b written => sized value b (by rwa [nil_append_map] at written)

variable {α β : Type} {parts : List Bytes} {value : α} {data : Bytes}

theorem encodeToVec_leaf (value : α) :
    encodeToVec (.leaf spec valid bytes sized) value = bytes value := nil_append_map _

/-- An encoder of a type that converts to an encodable one. -/
def GvEncode.contramap {α β : Type} (convert : β → α) (encoder : GvEncode α) : GvEncode β where
  spec := encoder.spec
  encode := fun value => encoder.encode (convert value)
  valid := encoder.valid
  appends := fun value => encoder.appends (convert value)
  sized := fun value => encoder.sized (convert value)

theorem valid_dynamic : ValidSpec (1, none) := .variableSize (Or.inl rfl)

theorem valid_variant : ValidSpec (8, none) := .variableSize (Or.inr (Or.inr (Or.inr rfl)))

theorem sized_variant (value part : Bytes) (_ : Except.ok value = (.ok part : Except Error Bytes))
    (size : Nat) (fixed : ((8, none) : MemberSpec).2 = some size) : part.length = size := by
  cases fixed

theorem valid_one : ValidSpec (1, some 1) := .scalar (Or.inl rfl)

theorem valid_four : ValidSpec (4, some 4) := .scalar (Or.inr (Or.inr (Or.inl rfl)))

theorem valid_eight : ValidSpec (8, some 8) := .scalar (Or.inr (Or.inr (Or.inr rfl)))

/-- A leaf of variable size. -/
def GvEncode.dynamic {α : Type} (bytes : α → Except Error Bytes) : GvEncode α :=
  .leaf (1, none) valid_dynamic bytes fun _ _ _ _ impossible => by cases impossible

/-- `&[u8]`. -/
def GvDecode.bytes : GvDecode Bytes := ⟨(1, none), .ok, valid_dynamic⟩

def GvEncode.bytes : GvEncode Bytes := .dynamic .ok

/-- `&str`. -/
def GvDecode.str : GvDecode String := ⟨(1, none), decodeStr, valid_dynamic⟩

def GvEncode.str : GvEncode String := .dynamic strBytes

@[simp] theorem encodeToVec_bytes (bytes : Bytes) : encodeToVec .bytes bytes = .ok bytes := rfl

@[simp] theorem encodeToVec_str (text : String) : encodeToVec .str text = strBytes text :=
  nil_append_map _

theorem str_eq_ok :
    GvDecode.str.decode part = .ok text ↔ encodeToVec .str text = .ok part := by
  rw [encodeToVec_str]
  exact decodeStr_eq_ok

theorem bytes_eq_ok :
    GvDecode.bytes.decode part = .ok bytes ↔ encodeToVec .bytes bytes = .ok part := by
  rw [encodeToVec_bytes, Except.ok.injEq]
  exact Except.ok.injEq part bytes ▸ eq_comm

/-- `u8`. -/
def GvDecode.byte : GvDecode UInt8 := ⟨(1, some 1), decodeByte, valid_one⟩

/-- `u32`. -/
def GvDecode.u32 : GvDecode UInt32 := ⟨(4, some 4), decodeScalar 4 u32OfNat, valid_four⟩

/-- `u64`. -/
def GvDecode.u64 : GvDecode UInt64 := ⟨(8, some 8), decodeScalar 8 u64OfNat, valid_eight⟩

/-! ### Tuples -/

/-- The alignment and the fixed size of a tuple. -/
def tupleSpec (specs : List MemberSpec) : MemberSpec :=
  (maxAlign (specs.map Prod.fst), structFixedSize specs (maxAlign (specs.map Prod.fst)))

/-- The decoders of the members of a tuple. A Rust tuple is a right-nested pair. -/
inductive DecodeMembers : Type → Type 1
  | last {α : Type} (member : GvDecode α) : DecodeMembers α
  | cons {α β : Type} (member : GvDecode α) (rest : DecodeMembers β) : DecodeMembers (α × β)

namespace DecodeMembers

def specs : {α : Type} → DecodeMembers α → List MemberSpec
  | _, .last member => [member.spec]
  | _, .cons member rest => member.spec :: rest.specs

/-- The members in order, each cut and decoded before the next. -/
def read : {α : Type} → DecodeMembers α → TupleReader → Except Error (α × TupleReader)
  | _, .last member, r => do
    let (slice, r) ← r.field member.spec.1 member.spec.2 true
    let value ← member.decode slice
    .ok (value, r)
  | _, .cons member rest, r => do
    let (slice, r) ← r.field member.spec.1 member.spec.2 false
    let value ← member.decode slice
    let (values, r) ← rest.read r
    .ok ((value, values), r)

/-- The slices decode to the members. -/
def Holds : {α : Type} → DecodeMembers α → List Bytes → α → Prop
  | _, .last member, [part], value => member.decode part = .ok value
  | _, .cons member rest, part :: parts, (value, values) =>
    member.decode part = .ok value ∧ rest.Holds parts values
  | _, _, _, _ => False

theorem holds_last
    (held : (DecodeMembers.last member).Holds parts value) : ∃ part, parts = [part] ∧
      member.decode part = .ok value := by
  cases parts with
  | nil => exact held.elim
  | cons part parts =>
    cases parts with
    | nil => exact ⟨part, rfl, held⟩
    | cons _ _ => exact held.elim

theorem holds_cons {member : GvDecode α} {value : α × β} (held : (DecodeMembers.cons member rest).Holds parts value) :
    ∃ part others, parts = part :: others ∧ member.decode part = .ok value.1 ∧ rest.Holds others value.2 := by
  cases parts with
  | nil => exact held.elim
  | cons part others => exact ⟨part, others, rfl, held⟩

theorem specs_ne_nil (members : DecodeMembers α) : members.specs ≠ [] := by
  cases members <;> exact List.cons_ne_nil _ _

theorem specs_valid (members : DecodeMembers α) : ∀ spec ∈ members.specs, ValidSpec spec := by
  induction members with
  | last member => exact List.forall_mem_singleton.mpr member.valid
  | cons member rest ih => exact List.forall_mem_cons.mpr ⟨member.valid, ih⟩

theorem read_eq_ok {members : DecodeMembers α} {r last : TupleReader} :
    members.read r = .ok (value, last) ↔
      ∃ parts, r.fields members.specs = .ok (parts, last) ∧ members.Holds parts value := by
  induction members generalizing r last with
  | last member =>
    simp only [read, specs, TupleReader.fields, bind_eq_ok, Prod.exists, Except.ok.injEq,
      Prod.mk.injEq, List.isEmpty_nil]
    constructor
    · rintro ⟨part, next, cut, item, decoded, rfl, rfl⟩
      exact ⟨[part], ⟨part, next, cut, [], next, ⟨rfl, rfl⟩, rfl, rfl⟩, decoded⟩
    · rintro ⟨_, ⟨part, next, cut, _, _, ⟨rfl, rfl⟩, rfl, rfl⟩, decoded⟩
      exact ⟨part, next, cut, value, decoded, rfl, rfl⟩
  | cons member rest ih =>
    have more : rest.specs.isEmpty = false := by simpa using rest.specs_ne_nil
    simp only [read, specs, TupleReader.fields, bind_eq_ok, Prod.exists, Except.ok.injEq,
      Prod.mk.injEq, more, ih]
    constructor
    · rintro ⟨part, next, cut, item, decoded, items, last, ⟨parts, others, held⟩, rfl, rfl⟩
      exact ⟨part :: parts, ⟨part, next, cut, parts, last, others, rfl, rfl⟩, decoded, held⟩
    · rintro ⟨_, ⟨part, next, cut, parts, last, others, rfl, rfl⟩, decoded, held⟩
      exact ⟨part, next, cut, value.1, decoded, value.2, last, ⟨parts, others, held⟩, rfl, rfl⟩

end DecodeMembers

/-- A tuple, as `impl_tuple!` decodes it. -/
def GvDecode.tuple {α : Type} (members : DecodeMembers α) : GvDecode α where
  spec := tupleSpec members.specs
  decode := fun data => do
    let r ← TupleReader.new data (nOffsets members.specs) (tupleSpec members.specs).2
    let (value, r) ← members.read r
    r.finish
    .ok value
  valid := validSpec_struct members.specs_valid

theorem GvDecode.tuple_eq_ok {members : DecodeMembers α} :
    (GvDecode.tuple members).decode data = .ok value ↔
      ∃ parts, splitTuple members.specs (tupleSpec members.specs).2 data = .ok parts ∧
        members.Holds parts value := by
  simp only [GvDecode.tuple, splitTuple, bind_eq_ok, Prod.exists, DecodeMembers.read_eq_ok, Except.ok.injEq]
  constructor
  · rintro ⟨r, opened, value, last, ⟨parts, cut, held⟩, done, finished, rfl⟩
    exact ⟨parts, ⟨r, opened, parts, last, cut, done, finished, rfl⟩, held⟩
  · rintro ⟨_, ⟨r, opened, parts, last, cut, done, finished, rfl⟩, held⟩
    exact ⟨r, opened, value, last, ⟨parts, cut, held⟩, done, finished, rfl⟩

/-- The encoders of the members of a tuple. -/
inductive EncodeMembers : Type → Type 1
  | last {α : Type} (member : GvEncode α) : EncodeMembers α
  | cons {α β : Type} (member : GvEncode α) (rest : EncodeMembers β) : EncodeMembers (α × β)

variable {members : EncodeMembers α} {items : List α}

namespace EncodeMembers

def specs : {α : Type} → EncodeMembers α → List MemberSpec
  | _, .last member => [member.spec]
  | _, .cons member rest => member.spec :: rest.specs

def writers : {α : Type} → EncodeMembers α → α → List (MemberSpec × Writer)
  | _, .last member, value => [(member.spec, member.encode value)]
  | _, .cons member rest, (value, values) =>
    (member.spec, member.encode value) :: rest.writers values

/-- What each member writes to an empty buffer. -/
def encodings : {α : Type} → EncodeMembers α → α → List (Except Error Bytes)
  | _, .last member, value => [encodeToVec member value]
  | _, .cons member rest, (value, values) => encodeToVec member value :: rest.encodings values

/-- The slices are what the members write. -/
def Holds : {α : Type} → EncodeMembers α → List Bytes → α → Prop
  | _, .last member, [part], value => encodeToVec member value = .ok part
  | _, .cons member rest, part :: parts, (value, values) =>
    encodeToVec member value = .ok part ∧ rest.Holds parts values
  | _, _, _, _ => False

theorem holds_last (held : (EncodeMembers.last member).Holds parts value) :
    ∃ part, parts = [part] ∧ encodeToVec member value = .ok part := by
  cases parts with
  | nil => exact held.elim
  | cons part parts =>
    cases parts with
    | nil => exact ⟨part, rfl, held⟩
    | cons _ _ => exact held.elim

theorem holds_cons {member : GvEncode α} {value : α × β} (held : (EncodeMembers.cons member rest).Holds parts value) :
    ∃ part others, parts = part :: others ∧ encodeToVec member value.1 = .ok part ∧ rest.Holds others value.2 := by
  cases parts with
  | nil => exact held.elim
  | cons part others => exact ⟨part, others, rfl, held⟩

theorem specs_ne_nil (members : EncodeMembers α) : members.specs ≠ [] := by
  cases members <;> exact List.cons_ne_nil _ _

theorem specs_valid (members : EncodeMembers α) : ∀ spec ∈ members.specs, ValidSpec spec := by
  induction members with
  | last member => exact List.forall_mem_singleton.mpr member.valid
  | cons member rest ih => exact List.forall_mem_cons.mpr ⟨member.valid, ih⟩

theorem writers_specs (members : EncodeMembers α) (value : α) :
    (members.writers value).map Prod.fst = members.specs := by
  induction members with
  | last member => rfl
  | cons member rest ih => exact congrArg _ (ih value.2)

theorem writers_append (members : EncodeMembers α) (value : α) :
    MembersAppend (members.writers value) (members.encodings value) := by
  induction members with
  | last member => exact .cons (member.appends value) .nil
  | cons member rest ih => exact .cons (member.appends value.1) (ih value.2)

theorem encodings_eq_ok : (members.encodings value).mapM id = .ok parts ↔ members.Holds parts value := by
  induction members generalizing parts with
  | last member =>
    simp only [encodings, mapM_eq_ok, id]
    constructor
    · rintro (_ | ⟨first, rest⟩)
      cases rest
      exact first
    · intro held
      match parts, held with
      | [_], held => exact .cons held .nil
  | cons member rest ih =>
    simp only [encodings, mapM_eq_ok, id] at ih ⊢
    constructor
    · rintro (_ | ⟨first, others⟩)
      exact ⟨first, ih.mp others⟩
    · intro held
      match parts, held with
      | _ :: _, ⟨first, others⟩ => exact .cons first (ih.mpr others)

theorem fits_of_holds (held : members.Holds parts value) : MembersFit members.specs parts := by
  induction members generalizing parts with
  | last member =>
    match parts, held with
    | [part], held => exact .cons (member.sized value part held) .nil
  | cons member rest ih =>
    match parts, held with
    | part :: _, ⟨first, others⟩ => exact .cons (member.sized value.1 part first) (ih others)

/-- **The tuple writer over the members.** -/
theorem writeTuple_appends (members : EncodeMembers α) (value : α) (fixedSize : Option Nat) :
    Appends (maxAlign (members.specs.map Prod.fst)) (writeTuple (members.writers value) fixedSize)
      (((members.encodings value).mapM id).map (tupleBytes members.specs fixedSize)) := by
  have inside : ∀ entry ∈ members.writers value, entry.1 ∈ members.specs := by
    intro entry member
    rw [← members.writers_specs value]
    exact List.mem_map_of_mem member
  have aligns : ∀ a ∈ members.specs.map Prod.fst, IsAlignment a := by
    intro a member
    obtain ⟨spec, within, rfl⟩ := List.mem_map.mp member
    exact (members.specs_valid spec within).alignment
  rw [← members.writers_specs value]
  refine writeTuple_eq (members.writers_append value) ?_ ?_ fixedSize
  · exact fun entry member => (members.specs_valid _ (inside entry member)).alignment.pos
  · intro entry member
    rw [members.writers_specs value]
    exact dvd_maxAlign aligns (List.mem_map_of_mem (inside entry member))

end EncodeMembers

theorem writeTuple_nil (members : EncodeMembers α) (value : α) (fixedSize : Option Nat) :
    writeTuple (members.writers value) fixedSize []
      = ((members.encodings value).mapM id).map (tupleBytes members.specs fixedSize) := by
  rw [members.writeTuple_appends value fixedSize [] (Nat.dvd_zero _), nil_append_map]

/-- A tuple, as `impl_tuple!` encodes it. -/
def GvEncode.tuple {α : Type} (members : EncodeMembers α) : GvEncode α where
  spec := tupleSpec members.specs
  encode := fun value => writeTuple (members.writers value) (tupleSpec members.specs).2
  valid := validSpec_struct members.specs_valid
  appends := fun value => by
    rw [writeTuple_nil]
    exact members.writeTuple_appends value _
  sized := fun value bytes written size fixed => by
    rw [writeTuple_nil] at written
    obtain ⟨parts, _, rfl⟩ := map_eq_ok.mp written
    rw [fixed]
    exact tupleBytes_length_of_fixed

theorem GvEncode.tuple_eq_ok : encodeToVec (GvEncode.tuple members) value = .ok data ↔
      ∃ parts, members.Holds parts value ∧
        tupleBytes members.specs (tupleSpec members.specs).2 parts = data := by
  simp only [encodeToVec, GvEncode.tuple, writeTuple_nil, map_eq_ok, EncodeMembers.encodings_eq_ok]

/-- Two lists of members that frame in the same way. -/
structure Alike (first second : List MemberSpec) : Prop where
  fixed : (tupleSpec first).2 = (tupleSpec second).2
  bytes : ∀ fixedSize parts, tupleBytes first fixedSize parts = tupleBytes second fixedSize parts
  fits : ∀ parts, MembersFit second parts → MembersFit first parts

theorem Alike.refl (specs : List MemberSpec) : Alike specs specs := ⟨rfl, fun _ _ => rfl, fun _ => id⟩

theorem alignUp_zero (alignment : Nat) : alignUp 0 alignment = 0 := by
  rw [alignUp, Nat.zero_add]
  cases alignment with
  | zero => rfl
  | succ a => rw [Nat.div_eq_of_lt (Nat.sub_lt (Nat.succ_pos a) Nat.one_pos), Nat.zero_mul]

/-- The first member starts at offset zero, so its alignment pads nothing. -/
theorem Alike.of_first
    (fixed : (tupleSpec ((alignment, size) :: specs)).2 = (tupleSpec ((alignment', size) :: specs)).2) :
    Alike ((alignment, size) :: specs) ((alignment', size) :: specs) where
  fixed := fixed
  bytes := fun fixedSize parts => by
    cases parts with
    | nil => rfl
    | cons part parts =>
      simp only [tupleBytes, memberParts_cons, area, tupleOffsets, alignUp_zero]
  fits := fun parts fits => by
    cases fits with
    | cons first rest => exact .cons first rest

/-- **What a tuple decodes to encodes to the same bytes**, when the slices that decode are the ones
that the encoder writes. -/
theorem GvEncode.tuple_of_decode {encoders : EncodeMembers β} (alike : Alike decoders.specs encoders.specs) {read : α}
    (held : ∀ parts, decoders.Holds parts read → encoders.Holds parts written)
    (decoded : (GvDecode.tuple decoders).decode data = .ok read) :
    encodeToVec (GvEncode.tuple encoders) written = .ok data := by
  obtain ⟨parts, cut, holds⟩ := GvDecode.tuple_eq_ok.mp decoded
  refine GvEncode.tuple_eq_ok.mpr ⟨parts, held parts holds, ?_⟩
  rw [← alike.fixed, ← alike.bytes]
  exact (splitTuple_sound (fun spec inside => (decoders.specs_valid spec inside).alignment.pos) cut).2

/-- **What a tuple encodes to splits into what its members wrote.** -/
theorem GvDecode.tuple_of_encode {α β : Type} {decoders : DecodeMembers α} {encoders : EncodeMembers β}
    (alike : Alike decoders.specs encoders.specs) {data : Bytes} {written : β}
    (encoded : encodeToVec (GvEncode.tuple encoders) written = .ok data) (small : Addressable data) :
    ∃ parts, encoders.Holds parts written ∧ (∀ part ∈ parts, Addressable part) ∧
      ∀ read, decoders.Holds parts read → (GvDecode.tuple decoders).decode data = .ok read := by
  obtain ⟨parts, held, rfl⟩ := GvEncode.tuple_eq_ok.mp encoded
  rw [← alike.fixed, ← alike.bytes] at small ⊢
  have positive : ∀ spec ∈ decoders.specs, 0 < spec.1 :=
    fun spec inside => (decoders.specs_valid spec inside).alignment.pos
  have whole := (validSpec_struct decoders.specs_valid).alignment.pos
  have fits := alike.fits parts (EncodeMembers.fits_of_holds held)
  refine ⟨parts, held, fun part member => ?_, fun read holds => ?_⟩
  · exact (length_le_tupleBytes positive whole decoders.specs_ne_nil fits member).trans small
  · exact GvDecode.tuple_eq_ok.mpr
      ⟨parts, splitTuple_complete positive whole decoders.specs_ne_nil fits small, holds⟩

/-- The decoder reads `raw` from exactly the bytes that the encoder writes for `value`. -/
structure Codes {α β : Type} (decoder : GvDecode α) (encoder : GvEncode β) (raw : α) (value : β) : Prop where
  write : ∀ part, decoder.decode part = .ok raw → encodeToVec encoder value = .ok part
  read : ∀ part, encodeToVec encoder value = .ok part → Addressable part → decoder.decode part = .ok raw

theorem Codes.of_iff {decoder : GvDecode β} {raw : β}
    (same : ∀ part, decoder.decode part = .ok raw ↔ encodeToVec encoder value = .ok part) :
    Codes decoder encoder raw value := ⟨fun part => (same part).mp, fun part wrote _ => (same part).mpr wrote⟩

theorem Codes.str (text : String) : Codes .str .str text text := .of_iff fun _ => str_eq_ok

theorem Codes.bytes (bytes : Bytes) : Codes .bytes .bytes bytes bytes := .of_iff fun _ => bytes_eq_ok

inductive CodesMembers : {α β : Type} → DecodeMembers α → EncodeMembers β → α → β → Prop
  | last (only : Codes reader writer raw written) : CodesMembers (.last reader) (.last writer) raw written
  | cons (first : Codes reader writer raw written) (rest : CodesMembers readers writers raws others) :
    CodesMembers (.cons reader readers) (.cons writer writers) (raw, raws) (written, others)

variable {decoders : DecodeMembers β} {encoders : EncodeMembers α} {raw : β}

theorem CodesMembers.holds (codes : CodesMembers decoders encoders raw value) (parts : List Bytes) :
    (decoders.Holds parts raw → encoders.Holds parts value) ∧
      (encoders.Holds parts value → (∀ part ∈ parts, Addressable part) → decoders.Holds parts raw) := by
  induction codes generalizing parts with
  | last only =>
    rcases parts with _ | ⟨part, _ | ⟨_, _⟩⟩
    · exact ⟨False.elim, False.elim⟩
    · exact ⟨only.write part, fun wrote small => only.read part wrote (small part (.head _))⟩
    · exact ⟨False.elim, False.elim⟩
  | cons first rest ih =>
    rcases parts with _ | ⟨part, parts⟩
    · exact ⟨False.elim, False.elim⟩
    · exact ⟨fun held => ⟨first.write part held.1, (ih parts).1 held.2⟩,
        fun held small => ⟨first.read part held.1 (small part (.head _)),
          (ih parts).2 held.2 fun other member => small other (.tail _ member)⟩⟩

/-- **Tuples code when their members do.** -/
theorem Codes.tuple (alike : Alike decoders.specs encoders.specs) (codes : CodesMembers decoders encoders raw value) :
    Codes (.tuple decoders) (.tuple encoders) raw value where
  write := fun _ => GvEncode.tuple_of_decode alike fun parts => (codes.holds parts).1
  read := fun _ encoded fits => by
    obtain ⟨parts, held, small, decodes⟩ := GvDecode.tuple_of_encode alike encoded fits
    exact decodes _ ((codes.holds parts).2 held small)

/-! ### Arrays -/

/-- `ArrayIter`: the framing is read, the elements are not. -/
def GvDecode.arrayIter {α : Type} (elem : GvDecode α) : GvDecode ArrayReader where
  spec := (elem.spec.1, none)
  decode := fun data => ArrayReader.new data elem.spec.1 elem.spec.2
  valid := .variableSize elem.valid.alignment

theorem writeSlice_appends (elem : GvEncode α) (items : List α) :
    Appends elem.spec.1 (writeArray elem.spec.1 elem.spec.2.isSome (items.map elem.encode))
      ((items.mapM (encodeToVec elem)).map (arrayBytes elem.spec.1 elem.spec.2.isSome)) := by
  have each : List.Forall₂ (Appends elem.spec.1) (items.map elem.encode) (items.map (encodeToVec elem)) := by
    rw [List.forall₂_map_left_iff, List.forall₂_map_right_iff, List.forall₂_same]
    exact fun item _ => elem.appends item
  have whole := @writeArray_eq elem.spec.1 _ _ elem.valid.alignment.pos elem.spec.2.isSome each
    (by
      intro fixed part member
      obtain ⟨item, _, encoded⟩ := List.mem_map.mp member
      obtain ⟨size, fixedSize⟩ := Option.isSome_iff_exists.mp fixed
      rw [elem.sized item part encoded size fixedSize]
      exact elem.valid.multiple size fixedSize)
  rwa [mapM_id_map] at whole

theorem writeSlice_nil (elem : GvEncode α) (items : List α) :
    writeArray elem.spec.1 elem.spec.2.isSome (items.map elem.encode) []
      = (items.mapM (encodeToVec elem)).map (arrayBytes elem.spec.1 elem.spec.2.isSome) := by
  rw [writeSlice_appends elem items [] (Nat.dvd_zero _), nil_append_map]

/-- `Slice`. -/
def GvEncode.slice {α : Type} (elem : GvEncode α) : GvEncode (List α) where
  spec := (elem.spec.1, none)
  encode := fun items => writeArray elem.spec.1 elem.spec.2.isSome (items.map elem.encode)
  valid := .variableSize elem.valid.alignment
  appends := fun items => by
    rw [writeSlice_nil]
    exact writeSlice_appends elem items
  sized := fun _ _ _ _ impossible => by cases impossible

theorem encodeToVec_slice (elem : GvEncode α) (items : List α) :
    encodeToVec (GvEncode.slice elem) items
      = (items.mapM (encodeToVec elem)).map (arrayBytes elem.spec.1 elem.spec.2.isSome) :=
  writeSlice_nil elem items

theorem encodeToVec_slice_succeeds :
    (∃ data, encodeToVec (GvEncode.slice elem) items = .ok data) ↔
      ∀ item ∈ items, ∃ part, encodeToVec elem item = .ok part := by
  simp only [encodeToVec_slice, map_eq_ok, mapM_eq_ok]
  constructor
  · rintro ⟨_, parts, each, _⟩ item member
    obtain ⟨part, _, written⟩ := forall₂_exists_left each.flip member
    exact ⟨part, written⟩
  · intro each
    choose! part written using each
    refine ⟨_, items.map part, ?_, rfl⟩
    rw [List.forall₂_map_right_iff, List.forall₂_same]
    exact written

/-- **A drained array encodes to the bytes it was read from.** -/
theorem GvEncode.slice_of_collect (same : decoder.spec = encoder.spec)
    (opened : (GvDecode.arrayIter decoder).decode data = .ok r) (drained : r.collect decoder.decode = .ok items)
    (each : List.Forall₂ (Codes decoder encoder) items written) :
    encodeToVec (GvEncode.slice encoder) written = .ok data := by
  obtain ⟨parts, whole, _, decoded⟩ := ArrayReader.collect_sound decoder.valid opened drained
  rw [encodeToVec_slice, map_eq_ok]
  refine ⟨parts, mapM_eq_ok.mpr ?_, by rw [← same]; exact whole⟩
  exact forall₂_comp each.flip decoded.flip fun value item part _ codes read => codes.write part read

/-- **An encoded slice drains to what its elements decode to.** -/
theorem GvDecode.collect_of_slice {α β : Type} {decoder : GvDecode α} {encoder : GvEncode β}
    (same : decoder.spec = encoder.spec) {data : Bytes} {items : List α} {written : List β}
    (encoded : encodeToVec (GvEncode.slice encoder) written = .ok data) (fits : Addressable data)
    (each : List.Forall₂ (fun item value => ∀ part, encodeToVec encoder value = .ok part →
      Addressable part → decoder.decode part = .ok item) items written) :
    ∃ r, (GvDecode.arrayIter decoder).decode data = .ok r ∧ r.collect decoder.decode = .ok items := by
  rw [encodeToVec_slice, map_eq_ok] at encoded
  obtain ⟨parts, wrote, rfl⟩ := encoded
  have encodings := mapM_eq_ok.mp wrote
  have decoded : List.Forall₂ (fun item part => decoder.decode part = .ok item) items parts :=
    forall₂_comp each encodings fun item value part member reads wrote =>
      reads part wrote ((length_le_arrayBytes member).trans fits)
  have sizes : ArrayReader.Sized decoder.spec.2 parts := by
    intro size fixed part member
    obtain ⟨value, _, wrote⟩ := forall₂_exists_left encodings member
    exact encoder.sized value part wrote size (same ▸ fixed)
  rw [← same] at fits ⊢
  exact ArrayReader.collect_complete decoder.valid fits sizes decoded.flip

end Ostrya.Gvariant
