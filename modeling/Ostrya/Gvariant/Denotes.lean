/-
**Normal form with no depth limit, and what a typed decoder reads of it.**

`Denotes ty data value`: for some depth limit, the serializer writes `data` for `value`. One equation per
container takes the relation apart (`denotes_tuple`, `denotes_array`, `denotes_variant`), and the typed decoders
read exactly what the relation says: `ReadsTo.tuple` and `ReadsTo.array` from a value to the decoder,
`denotes_of_tuple` and `denotes_of_collect` from the decoder to a value.
-/

import Ostrya.Gvariant.NormalForm
import Ostrya.Gvariant.Validate
import Ostrya.Gvariant.Codec

namespace Ostrya.Gvariant

open ByteFormat

/-- The bytes are the normal form of the value, nesting depth aside. -/
def Denotes (ty : Ty) (data : Bytes) (value : Value) : Prop :=
  value.ParsedTypes ∧ ∃ levels, serialize levels ty value [] = .ok data

variable {value : Value} {ty elem : Ty} {data : Bytes}

theorem denotes_iff : Denotes ty data value ↔ value.ParsedTypes ∧ ∃ levels, encode levels ty value = .ok data := by
  simp only [Denotes, serialize_nil]

/-! ### Inside and outside the depth limit -/

theorem denotes_of_toBytes (parsed : value.ParsedTypes)
    (written : toBytes ty value = .ok data) : Denotes ty data value := ⟨parsed, _, written⟩

theorem denotes_of_validate (valid : validate ty data = .ok ()) :
    ∃ value, Denotes ty data value := by
  obtain ⟨value, read⟩ := validate_eq_ok.mp valid
  exact ⟨value, denotes_iff.mpr ⟨parse_parsedTypes _ ty data value read, _, parse_sound _ ty data value read⟩⟩

theorem Denotes.sized (denoted : Denotes ty data value) (fixed : ty.fixedSize = some size) : data.length = size := by
  obtain ⟨_, levels, written⟩ := denotes_iff.mp denoted
  exact encode_sized _ _ _ _ written fixed

theorem Denotes.unique {other : Bytes} (one : Denotes ty data value)
    (two : Denotes ty other value) : data = other := by
  obtain ⟨_, levels, written⟩ := denotes_iff.mp one
  obtain ⟨_, levels', written'⟩ := denotes_iff.mp two
  have both := encode_mono (le_max_left levels levels') written
  rw [encode_mono (le_max_right levels levels') written'] at both
  exact (Except.ok.inj both).symm

/-! ### Leaves -/

section Leaves

variable {data : Bytes}

/-- A value with no child writes its bytes at every level. -/
theorem denotes_leaf (plain : value.variantTypes = [])
    (leaf : ∀ child, encodeStep child ty value = result) : Denotes ty data value ↔ result = .ok data := by
  rw [denotes_iff]
  constructor
  · rintro ⟨_, levels, written⟩
    cases levels with
    | zero => cases written
    | succ levels => rwa [encode, leaf] at written
  · intro written
    refine ⟨fun ty inside => by simp [plain] at inside, 1, ?_⟩
    rwa [encode, leaf]

theorem denotes_fixed (plain : value.variantTypes = [])
    (leaf : ∀ child, encodeStep child ty value = .ok bytes) : Denotes ty data value ↔ bytes = data := by
  rw [denotes_leaf plain leaf, Except.ok.injEq]

theorem denotes_str : Denotes .str data (.str text) ↔ strBytes text = .ok data :=
  denotes_leaf rfl fun _ => rfl

theorem denotes_u32 : Denotes .u32 data (.u32 x) ↔ leBytes 4 x.toNat = data :=
  denotes_fixed rfl fun _ => rfl

theorem denotes_u64 : Denotes .u64 data (.u64 x) ↔ leBytes 8 x.toNat = data :=
  denotes_fixed rfl fun _ => rfl

theorem denotes_byte : Denotes .byte data (.byte b) ↔ [b] = data :=
  denotes_fixed rfl fun _ => rfl

theorem denotes_bool : Denotes .bool data (.bool b) ↔ [boolByte b] = data :=
  denotes_fixed rfl fun _ => rfl

theorem denotes_bytes : Denotes (.array .byte) data (.bytes bytes) ↔ bytes = data :=
  denotes_fixed rfl fun _ => rfl

theorem denotes_nothing : Denotes (.maybe elem) data (.maybe none) ↔ [] = data :=
  denotes_fixed rfl fun _ => rfl

theorem denotes_unit : Denotes (.tuple []) data (.tuple []) ↔ [0] = data :=
  denotes_fixed rfl fun _ => rfl

end Leaves

/-! ### Containers -/

variable {items : List Value} {tys : List Ty} {parts : List Bytes}

section Containers

variable {data : Bytes}

/-- The parts of a tuple denote its members. -/
abbrev MembersDenote (tys : List Ty) (items : List Value) (parts : List Bytes) : Prop :=
  Forall₃ (fun ty item part => Denotes ty part item) tys items parts

theorem exists_encode_iff :
    (∃ levels, encode levels ty value = .ok data) ↔ ∃ levels, encodeStep (encode levels) ty value = .ok data := by
  constructor
  · rintro ⟨levels, written⟩
    cases levels with
    | zero => cases written
    | succ levels => exact ⟨levels, written⟩
  · rintro ⟨levels, written⟩
    exact ⟨levels + 1, written⟩

theorem denotes_just {inner : Value} :
    Denotes (.maybe elem) data (.maybe (some inner)) ↔
      ∃ part, Denotes elem part inner ∧ (if elem.fixedSize.isNone then part ++ [0] else part) = data := by
  rw [denotes_iff, exists_encode_iff]
  simp only [encodeStep, map_eq_ok]
  constructor
  · rintro ⟨parsed, levels, part, written, rfl⟩
    exact ⟨part, denotes_iff.mpr ⟨parsed, levels, written⟩, rfl⟩
  · rintro ⟨part, denoted, rfl⟩
    obtain ⟨parsed, levels, written⟩ := denotes_iff.mp denoted
    exact ⟨parsed, levels, part, written, rfl⟩

theorem denotes_variant {inner : Value} :
    Denotes .variant data (.variant ty inner) ↔
      (∃ text, Ty.parse text = .ok ty) ∧ ∃ part, Denotes ty part inner ∧ part ++ 0 :: ty.signatureBytes = data := by
  rw [denotes_iff, exists_encode_iff, parsedTypes_variant]
  simp only [encodeStep, map_eq_ok, List.append_assoc, List.singleton_append]
  constructor
  · rintro ⟨⟨named, parsed⟩, levels, part, written, rfl⟩
    exact ⟨named, part, denotes_iff.mpr ⟨parsed, levels, written⟩, rfl⟩
  · rintro ⟨named, part, denoted, rfl⟩
    obtain ⟨parsed, levels, written⟩ := denotes_iff.mp denoted
    exact ⟨⟨named, parsed⟩, levels, part, written, rfl⟩

/-- One depth limit serves all the members. -/
theorem forall₃_denotes : MembersDenote tys items parts ↔
      (∀ item ∈ items, item.ParsedTypes) ∧
        ∃ levels, Forall₃ (fun ty item part => encode levels ty item = .ok part) tys items parts := by
  constructor
  · intro each
    induction each with
    | nil => exact ⟨by simp, 0, .nil⟩
    | cons first _ ih =>
      obtain ⟨parsed, levels, written⟩ := denotes_iff.mp first
      obtain ⟨parsedRest, others, rest⟩ := ih
      refine ⟨by simpa using ⟨parsed, parsedRest⟩, max levels others, .cons ?_ ?_⟩
      · exact encode_mono (le_max_left _ _) written
      · exact rest.imp fun _ _ _ written => encode_mono (le_max_right _ _) written
  · rintro ⟨parsed, levels, each⟩
    induction each with
    | nil => exact .nil
    | cons first _ ih =>
      refine .cons (denotes_iff.mpr ⟨parsed _ (by simp), levels, first⟩) (ih fun item inside => ?_)
      exact parsed item (.tail _ inside)

theorem forall₂_denotes : List.Forall₂ (fun item part => Denotes elem part item) items parts ↔
      (∀ item ∈ items, item.ParsedTypes) ∧
        ∃ levels, List.Forall₂ (fun item part => encode levels elem item = .ok part) items parts := by
  simp only [← forall₃_replicate (fun ty item part => Denotes ty part item), forall₃_denotes,
    forall₃_replicate fun ty item part => encode _ ty item = .ok part]

theorem denotes_array (other : elem ≠ .byte) :
    Denotes (.array elem) data (.array items) ↔
      ∃ parts, List.Forall₂ (fun item part => Denotes elem part item) items parts ∧
        arrayBytes elem.alignment elem.fixedSize.isSome parts = data := by
  rw [denotes_iff, exists_encode_iff, parsedTypes_array]
  simp only [encodeStep_array _ other, map_eq_ok, mapM_eq_ok, forall₂_denotes]
  constructor
  · rintro ⟨parsed, levels, parts, each, rfl⟩
    exact ⟨parts, ⟨parsed, levels, each⟩, rfl⟩
  · rintro ⟨parts, ⟨parsed, levels, each⟩, rfl⟩
    exact ⟨parsed, levels, parts, each, rfl⟩

private theorem denotes_struct (nonempty : members ≠ [])
    (step : ∀ child, encodeStep child whole (.tuple items) = encodeStruct child whole members items) :
    Denotes whole data (.tuple items) ↔
      ∃ parts, MembersDenote members items parts ∧
        tupleBytes (members.map Ty.spec) whole.fixedSize parts = data := by
  rw [denotes_iff, exists_encode_iff, parsedTypes_tuple]
  simp only [step, encodeStruct_eq_ok nonempty, forall₃_denotes]
  constructor
  · rintro ⟨parsed, levels, parts, each, rfl⟩
    exact ⟨parts, ⟨parsed, levels, each⟩, rfl⟩
  · rintro ⟨parts, ⟨parsed, levels, each⟩, rfl⟩
    exact ⟨parsed, levels, parts, each, rfl⟩

theorem denotes_tuple (nonempty : members ≠ []) :
    Denotes (.tuple members) data (.tuple items) ↔
      ∃ parts, MembersDenote members items parts ∧
        tupleBytes (members.map Ty.spec) (Ty.tuple members).fixedSize parts = data :=
  denotes_struct nonempty fun _ => rfl

theorem denotes_dictEntry {key value : Ty} :
    Denotes (.dictEntry key value) data (.tuple items) ↔ Denotes (.tuple [key, value]) data (.tuple items) := by
  have same : (Ty.dictEntry key value).fixedSize = (Ty.tuple [key, value]).fixedSize :=
    congrArg Prod.snd (Ty.spec_dictEntry key value)
  rw [denotes_tuple (List.cons_ne_nil _ _), ← same]
  exact denotes_struct (List.cons_ne_nil _ _) fun _ => rfl

end Containers

/-! ### Typed decoders -/

section Typed

variable {α : Type} {data : Bytes}

theorem tupleSpec_eq (same : specs = tys.map Ty.spec) :
    tupleSpec specs = (Ty.tuple tys).spec := by
  rw [same, Ty.spec_tuple]
  rfl

theorem membersFit_of_denotes (each : MembersDenote tys items parts) :
    MembersFit (tys.map Ty.spec) parts := by
  induction each with
  | nil => exact .nil
  | cons first _ ih => exact .cons (fun size fixed => first.sized fixed) ih

/-- Bytes that denote the value decode to something with `P`. -/
def ReadsTo (decoder : GvDecode α) (ty : Ty) (value : Value) (P : α → Prop) : Prop :=
  ∀ part, Denotes ty part value → Addressable part → ∃ a, decoder.decode part = .ok a ∧ P a

theorem ReadsTo.imp {decoder : GvDecode α} (reads : ReadsTo decoder ty value P)
    (implies : ∀ a, P a → Q a) : ReadsTo decoder ty value Q :=
  fun part denoted fits => (reads part denoted fits).imp fun a => And.imp_right (implies a)

/-- `ReadsTo`, member by member. -/
inductive ReadsMembers : {α : Type} → DecodeMembers α → List Ty → List Value → (α → Prop) → Prop
  | last {ty : Ty} {value : Value} (reads : ReadsTo member ty value P) : ReadsMembers (.last member) [ty] [value] P
  | cons {ty : Ty} {value : Value} (reads : ReadsTo member ty value P) (others : ReadsMembers rest types values Q) :
      ReadsMembers (.cons member rest) (ty :: types) (value :: values) fun a => P a.1 ∧ Q a.2

theorem ReadsMembers.exists_holds {members : DecodeMembers α} (each : ReadsMembers members tys items P)
    (denotes : MembersDenote tys items parts) (bound : ∀ part ∈ parts, Addressable part) :
    ∃ a, members.Holds parts a ∧ P a := by
  induction each generalizing parts with
  | last reads =>
    obtain _ | ⟨denoted, _ | _⟩ := denotes
    exact reads _ denoted (bound _ (.head _))
  | cons reads _ ih =>
    obtain _ | ⟨denoted, denotes⟩ := denotes
    obtain ⟨a, read, holds⟩ := reads _ denoted (bound _ (.head _))
    obtain ⟨as, held, others⟩ := ih denotes fun part inside => bound part (.tail _ inside)
    exact ⟨(a, as), ⟨read, held⟩, holds, others⟩

/-- **A tuple reads the members that the bytes denote.** -/
theorem ReadsTo.tuple {members : DecodeMembers α} (each : ReadsMembers members tys items P)
    (same : members.specs = tys.map Ty.spec) : ReadsTo (.tuple members) (.tuple tys) (.tuple items) P := by
  intro data denoted small
  have nonempty : tys ≠ [] := by
    rintro rfl
    exact members.specs_ne_nil same
  obtain ⟨parts, denotes, rfl⟩ := (denotes_tuple nonempty).mp denoted
  have fits : MembersFit members.specs parts := by
    rw [same]
    exact membersFit_of_denotes denotes
  have framed : tupleBytes members.specs (tupleSpec members.specs).2 parts
      = tupleBytes (tys.map Ty.spec) (Ty.tuple tys).fixedSize parts := by
    rw [tupleSpec_eq same, ← same]
    rfl
  rw [← framed] at small ⊢
  have positive : ∀ spec ∈ members.specs, 0 < spec.1 :=
    fun spec inside => (members.specs_valid spec inside).alignment.pos
  have whole := (validSpec_struct members.specs_valid).alignment.pos
  obtain ⟨a, held, holds⟩ := each.exists_holds denotes fun part inside =>
    (length_le_tupleBytes positive whole members.specs_ne_nil fits inside).trans small
  exact ⟨a, GvDecode.tuple_eq_ok.mpr
    ⟨parts, splitTuple_complete positive whole members.specs_ne_nil fits small, held⟩, holds⟩

theorem ReadsTo.dictEntry {members : DecodeMembers α} {key val : Ty}
    (each : ReadsMembers members [key, val] items P) (same : members.specs = [key.spec, val.spec]) :
    ReadsTo (.tuple members) (.dictEntry key val) (.tuple items) P :=
  fun part denoted => ReadsTo.tuple each same part (denotes_dictEntry.mp denoted)

/-- **A tuple that decodes denotes what its members do.** -/
theorem denotes_of_tuple {members : DecodeMembers α} {tys : List Ty} (same : members.specs = tys.map Ty.spec)
    {value : α} (decoded : (GvDecode.tuple members).decode data = .ok value) :
    ∃ parts, members.Holds parts value ∧
      ∀ items, MembersDenote tys items parts →
        Denotes (.tuple tys) data (.tuple items) := by
  have nonempty : tys ≠ [] := by
    rintro rfl
    exact members.specs_ne_nil same
  obtain ⟨parts, cut, held⟩ := GvDecode.tuple_eq_ok.mp decoded
  refine ⟨parts, held, fun items each => (denotes_tuple nonempty).mpr ⟨parts, each, ?_⟩⟩
  have framed := (splitTuple_sound (fun spec inside => (members.specs_valid spec inside).alignment.pos) cut).2
  rw [← framed, ← same]
  exact congrArg (tupleBytes members.specs · parts) (congrArg Prod.snd (tupleSpec_eq same)).symm

/-- **A drained array reads the elements that the bytes denote.** -/
theorem ReadsTo.array {decoder : GvDecode α} (same : decoder.spec = elem.spec)
    (other : elem ≠ .byte) {write : γ → Value} {items : List γ} {R : γ → α → Prop}
    (each : ∀ item ∈ items, ReadsTo decoder elem (write item) (R item)) :
    ReadsTo (.arrayIter decoder) (.array elem) (.array (items.map write)) fun r =>
      ∃ as, r.collect decoder.decode = .ok as ∧ List.Forall₂ R items as := by
  intro data denoted fits
  obtain ⟨parts, denotes, rfl⟩ := (denotes_array other).mp denoted
  have align : elem.alignment = decoder.spec.1 := by rw [same]; rfl
  have fixed : elem.fixedSize = decoder.spec.2 := by rw [same]; rfl
  have sized : ArrayReader.Sized decoder.spec.2 parts := by
    intro size known part inside
    obtain ⟨item, _, first⟩ := forall₂_exists_left denotes inside
    exact first.sized (fixed.trans known)
  rw [List.forall₂_map_left_iff] at denotes
  obtain ⟨as, decoded, related⟩ : ∃ as, ArrayReader.Decoded decoder.decode parts as ∧ List.Forall₂ R items as := by
    have bound : ∀ part ∈ parts, Addressable part :=
      fun part inside => (length_le_arrayBytes inside).trans fits
    clear fits denoted sized
    induction denotes with
    | nil => exact ⟨[], .nil, .nil⟩
    | cons first _ ih =>
      obtain ⟨a, read, holds⟩ := each _ (.head _) _ first (bound _ (.head _))
      obtain ⟨as, rest, others⟩ := ih (fun item inside => each item (.tail _ inside))
        (fun part inside => bound part (.tail _ inside))
      exact ⟨a :: as, .cons read rest, .cons holds others⟩
  rw [align, fixed] at fits ⊢
  obtain ⟨r, opened, drained⟩ := ArrayReader.collect_complete decoder.valid fits sized decoded
  exact ⟨r, opened, as, drained, related⟩

/-- **A drained array denotes what its elements do.** -/
theorem denotes_of_collect {elem : Ty} {decoder : GvDecode α} (same : decoder.spec = elem.spec)
    (other : elem ≠ .byte) {r : ArrayReader} {as : List α}
    (opened : (GvDecode.arrayIter decoder).decode data = .ok r) (drained : r.collect decoder.decode = .ok as) :
    ∃ parts, ArrayReader.Decoded decoder.decode parts as ∧
      ∀ items, List.Forall₂ (fun item part => Denotes elem part item) items parts →
        Denotes (.array elem) data (.array items) := by
  obtain ⟨parts, framed, _, decoded⟩ := ArrayReader.collect_sound decoder.valid opened drained
  refine ⟨parts, decoded, fun items each => (denotes_array other).mpr ⟨parts, each, ?_⟩⟩
  rw [← framed, same]
  rfl

/-- **An encoded tuple denotes what its members do.** -/
theorem denotes_of_encodeTuple {members : EncodeMembers α} {tys : List Ty} (same : members.specs = tys.map Ty.spec)
    {value : α} (encoded : encodeToVec (GvEncode.tuple members) value = .ok data) :
    ∃ parts, members.Holds parts value ∧
      ∀ items, MembersDenote tys items parts →
        Denotes (.tuple tys) data (.tuple items) := by
  have nonempty : tys ≠ [] := by
    rintro rfl
    exact members.specs_ne_nil same
  obtain ⟨parts, held, rfl⟩ := GvEncode.tuple_eq_ok.mp encoded
  refine ⟨parts, held, fun items each => (denotes_tuple nonempty).mpr ⟨parts, each, ?_⟩⟩
  rw [← same]
  exact congrArg (tupleBytes members.specs · parts) (congrArg Prod.snd (tupleSpec_eq same)).symm

/-- **An encoded slice denotes what its elements do.** -/
theorem denotes_of_encodeSlice (same : encoder.spec = elem.spec) (other : elem ≠ .byte)
    {items : List α} (encoded : encodeToVec (GvEncode.slice encoder) items = .ok data)
    (each : List.Forall₂ (fun value item => ∀ part, encodeToVec encoder item = .ok part → Denotes elem part value)
      values items) : Denotes (.array elem) data (.array values) := by
  rw [encodeToVec_slice, map_eq_ok] at encoded
  obtain ⟨parts, written, rfl⟩ := encoded
  refine (denotes_array other).mpr ⟨parts, ?_, by rw [same]; rfl⟩
  exact forall₂_comp each (mapM_eq_ok.mp written) fun value item part _ denotes wrote => denotes part wrote

end Typed

/-! ### One member of a tuple -/

/-- The loop of `tuple_field_from_bytes`: it frames each member and decodes the one at `index`. -/
def fieldAt (index : Nat) : (i : Nat) → TupleReader → List Ty → Option Value → Except Error (Option Value × TupleReader)
  | _, r, [], field => .ok (field, r)
  | i, r, ty :: tys, field => do
    let (slice, r) ← r.field ty.alignment ty.fixedSize tys.isEmpty
    if i = index then do
      let value ← parse maxValueDepth ty slice
      fieldAt index (i + 1) r tys (some value)
    else fieldAt index (i + 1) r tys field

/-- `tuple_field_from_bytes`. -/
def tupleFieldFromBytes (ty : Ty) (data : Bytes) (index : Nat) : Except Error Value :=
  match ty with
  | .tuple members =>
    if members.length ≤ index then .error (.notNormal "the tuple holds no member of that index")
    else do
      let r ← TupleReader.new data (nOffsets (members.map Ty.spec)) (Ty.tuple members).fixedSize
      let (field, r) ← fieldAt index 0 r members none
      r.finish
      match field with
      | some value => .ok value
      -- the index names a member of the tuple
      | none => .error (.notNormal "the tuple holds no member of that index")
  | _ => .error (.notNormal "the type is not a tuple")

section Members

variable {index i : Nat} {r r' : TupleReader} {tys : List Ty}

/-- The framing of the members, which no decode changes. -/
def skipMembers : TupleReader → List Ty → Except Error TupleReader
  | reader, [] => .ok reader
  | reader, ty :: tys => do
    let (_, reader) ← reader.field ty.alignment ty.fixedSize tys.isEmpty
    skipMembers reader tys

/-- Past the member, the loop only reads the framing. -/
theorem fieldAt_of_lt (past : index < i) (field : Option Value) :
    fieldAt index i r tys field = (skipMembers r tys).map fun reader => (field, reader) := by
  induction tys generalizing r i with
  | nil => rfl
  | cons ty tys ih =>
    rw [fieldAt, skipMembers]
    cases r.field ty.alignment ty.fixedSize tys.isEmpty with
    | error fault => rfl
    | ok cut =>
      simp only [ok_bind, if_neg (Nat.ne_of_gt past)]
      exact ih (by omega)

theorem skipMembers_of_fieldAt (run : fieldAt index i r tys field = .ok (out, r')) :
    skipMembers r tys = .ok r' := by
  induction tys generalizing r i field with
  | nil =>
    cases run
    rfl
  | cons ty tys ih =>
    obtain ⟨cut, framed, run⟩ := bind_eq_ok.mp run
    rw [skipMembers, framed, ok_bind]
    dsimp only at run ⊢
    split at run
    · obtain ⟨value, -, run⟩ := bind_eq_ok.mp run
      exact ih run
    · exact ih run

/-- **The members decode together exactly if each of them decodes alone.** -/
theorem parseMembers_iff_fieldAt (i : Nat) :
    parseMembers (parse maxValueDepth) r tys = .ok (items, r') ↔
      items.length = tys.length ∧ skipMembers r tys = .ok r' ∧
        ∀ j < tys.length, fieldAt (i + j) i r tys none = .ok (items[j]?, r') := by
  induction tys generalizing r items i with
  | nil =>
    simp only [parseMembers, skipMembers, Except.ok.injEq, Prod.mk.injEq, List.length_nil,
      Nat.not_lt_zero, false_imp_iff,
      implies_true, and_true, List.length_eq_zero_iff]
    exact and_congr_left' eq_comm
  | cons ty tys ih =>
    rw [parseMembers, skipMembers]
    simp only [fieldAt]
    cases r.field ty.alignment ty.fixedSize tys.isEmpty with
    | error fault => simp [bind, Except.bind]
    | ok cut =>
      simp only [ok_bind]
      constructor
      · intro run
        obtain ⟨item, decoded, run⟩ := bind_eq_ok.mp run
        obtain ⟨⟨rest, last⟩, members, run⟩ := bind_eq_ok.mp run
        cases run
        obtain ⟨length, framed, alone⟩ := (ih (i + 1)).mp members
        refine ⟨congrArg Nat.succ length, framed, fun j inside => ?_⟩
        cases j with
        | zero => simp [decoded, fieldAt_of_lt, framed]
        | succ j =>
          rw [if_neg (by omega), show i + (j + 1) = i + 1 + j by omega]
          exact alone j (Nat.lt_of_succ_lt_succ inside)
      · rintro ⟨length, framed, alone⟩
        obtain ⟨item, rest, rfl⟩ := List.exists_cons_of_length_eq_add_one length
        have first := alone 0 (Nat.succ_pos _)
        rw [Nat.add_zero, if_pos rfl] at first
        obtain ⟨value, decoded, first⟩ := bind_eq_ok.mp first
        rw [fieldAt_of_lt (Nat.lt_succ_self i), framed] at first
        cases first
        rw [decoded, ok_bind, (ih (i + 1)).mpr ⟨Nat.succ.inj length, framed, fun j inside => ?_⟩]
        · rfl
        · have later := alone (j + 1) (Nat.succ_lt_succ inside)
          rw [if_neg (by omega), show i + (j + 1) = i + 1 + j by omega] at later
          exact later

theorem tupleFieldFromBytes_eq_ok (inside : index < tys.length) :
    tupleFieldFromBytes (.tuple tys) data index = .ok value ↔
      ∃ r r', TupleReader.new data (nOffsets (tys.map Ty.spec)) (Ty.tuple tys).fixedSize = .ok r ∧
        fieldAt index 0 r tys none = .ok (some value, r') ∧ r'.finish = .ok () := by
  rw [tupleFieldFromBytes, if_neg (by omega)]
  simp only [bind_eq_ok]
  constructor
  · grind
  · rintro ⟨r, r', framed, member, finished⟩
    exact ⟨r, framed, (some value, r'), member, (), finished, rfl⟩

end Members

/-- **The reads of the single members agree with the whole decode.** -/
theorem tuple_fields_agree {members : List Ty} (some_member : members ≠ []) (data : Bytes)
    (items : List Value) : fromBytes (.tuple members) data = .ok (.tuple items) ↔
      items.length = members.length ∧
        ∀ i (inside : i < items.length), tupleFieldFromBytes (.tuple members) data i = .ok items[i] := by
  have whole : fromBytes (.tuple members) data = parseStruct (parse maxValueDepth) (.tuple members) members data := rfl
  rw [whole, parseStruct, if_neg (by simpa using some_member)]
  constructor
  · intro run
    obtain ⟨r, framed, run⟩ := bind_eq_ok.mp run
    obtain ⟨⟨parsed, last⟩, together, run⟩ := bind_eq_ok.mp run
    obtain ⟨_, finished, run⟩ := bind_eq_ok.mp run
    cases run
    obtain ⟨length, -, alone⟩ := (parseMembers_iff_fieldAt 0).mp together
    refine ⟨length, fun i inside => (tupleFieldFromBytes_eq_ok (length ▸ inside)).mpr ⟨r, last, framed, ?_, finished⟩⟩
    have here := alone i (length ▸ inside)
    rwa [Nat.zero_add, List.getElem?_eq_getElem inside] at here
  · rintro ⟨length, alone⟩
    have reads := fun i inside => (tupleFieldFromBytes_eq_ok (length ▸ inside)).mp (alone i inside)
    obtain ⟨r, r', framed, first, finished⟩ := reads 0 (length ▸ List.length_pos_iff.mpr some_member)
    have skipped := skipMembers_of_fieldAt first
    have together : parseMembers (parse maxValueDepth) r members = .ok (items, r') := by
      refine (parseMembers_iff_fieldAt 0).mpr ⟨length, skipped, fun i inside => ?_⟩
      obtain ⟨_, last, framed', member, -⟩ := reads i (length ▸ inside)
      cases framed.symm.trans framed'
      cases skipped.symm.trans (skipMembers_of_fieldAt member)
      rwa [Nat.zero_add, List.getElem?_eq_getElem]
    rw [framed, ok_bind, together, ok_bind]
    simp only [finished, ok_bind]

/-- A byte and a boolean, read one by one. -/
theorem tuple_fields_agree_pair :
    tupleFieldFromBytes (.tuple [.byte, .bool]) [7, 1] 0 = .ok (.byte 7) ∧
      tupleFieldFromBytes (.tuple [.byte, .bool]) [7, 1] 1 = .ok (.bool true) := by
  have whole : fromBytes (.tuple [.byte, .bool]) [7, 1] = .ok (.tuple [.byte 7, .bool true]) := rfl
  obtain ⟨-, alone⟩ := (tuple_fields_agree (List.cons_ne_nil _ _) _ _).mp whole
  exact ⟨alone 0 (by decide), alone 1 (by decide)⟩

end Ostrya.Gvariant
