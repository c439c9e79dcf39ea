/-
**Scalars, strings and byte arrays** (the leaf implementations of `GvEncode` and `GvDecode` in
`codec.rs`, and `exact` of `de.rs`).

Each leaf has the bytes it appends and a decoder, and a lemma `decode… = .ok x ↔ bytes of x = data`:
the decoder accepts exactly the bytes of a value, as that value.
-/

import Ostrya.Gvariant.Offsets
import Ostrya.ByteFormat.Utf8

namespace Ostrya.Gvariant

open ByteFormat

/-- `exact`. -/
def exact (width : Nat) (data : Bytes) : Except Error Bytes :=
  if data.length = width then .ok data else .error (.notNormal "scalar has the wrong size")

variable {data : Bytes}

theorem exact_eq_ok :
    exact width data = .ok bytes ↔ data.length = width ∧ data = bytes := by
  unfold exact
  split
  · next sized => simp [sized]
  · next sized => simp [sized]

/-- A scalar read from exactly `width` little-endian bytes. -/
def decodeScalar {α : Type} (width : Nat) (ofNat : Nat → α) (data : Bytes) : Except Error α :=
  (exact width data).map fun bytes => ofNat (leNat bytes)

/-- A scalar type whose values are the numbers of `width` bytes. -/
structure IsScalar {α : Type} (width : Nat) (toNat : α → Nat) (ofNat : Nat → α) : Prop where
  small : ∀ x, toNat x < 256 ^ width
  ofNat_toNat : ∀ x, ofNat (toNat x) = x
  toNat_ofNat : ∀ n, n < 256 ^ width → toNat (ofNat n) = n

theorem IsScalar.decode_eq_ok {α : Type} {toNat : α → Nat} {ofNat : Nat → α}
    (scalar : IsScalar width toNat ofNat) {x : α} :
    decodeScalar width ofNat data = .ok x ↔ leBytes width (toNat x) = data := by
  simp only [decodeScalar, map_eq_ok, exact_eq_ok]
  constructor
  · rintro ⟨bytes, ⟨sized, rfl⟩, rfl⟩
    rw [scalar.toNat_ofNat _ (sized ▸ leNat_lt data), leBytes_leNat_of_length sized]
  · rintro rfl
    refine ⟨_, ⟨leBytes_length _ _, rfl⟩, ?_⟩
    rw [leNat_leBytes (scalar.small x), scalar.ofNat_toNat]

/-! ### Integers -/

/-- `u16::from_le_bytes` and its companions, on the number that the bytes hold. -/
def u16OfNat (n : Nat) : UInt16 := UInt16.ofNat n
def u32OfNat (n : Nat) : UInt32 := UInt32.ofNat n
def u64OfNat (n : Nat) : UInt64 := UInt64.ofNat n
def i16OfNat (n : Nat) : Int16 := (UInt16.ofNat n).toInt16
def i32OfNat (n : Nat) : Int32 := (UInt32.ofNat n).toInt32
def i64OfNat (n : Nat) : Int64 := (UInt64.ofNat n).toInt64

/-- `i16::to_le_bytes` and its companions write the two's complement. -/
def i16ToNat (x : Int16) : Nat := x.toUInt16.toNat
def i32ToNat (x : Int32) : Nat := x.toUInt32.toNat
def i64ToNat (x : Int64) : Nat := x.toUInt64.toNat

theorem isScalar_u16 : IsScalar 2 UInt16.toNat u16OfNat where
  small := fun x => x.toNat_lt
  ofNat_toNat := fun _ => UInt16.ofNat_toNat
  toNat_ofNat := fun _ small => UInt16.toNat_ofNat_of_lt' small

theorem isScalar_u32 : IsScalar 4 UInt32.toNat u32OfNat where
  small := fun x => x.toNat_lt
  ofNat_toNat := fun _ => UInt32.ofNat_toNat
  toNat_ofNat := fun _ small => UInt32.toNat_ofNat_of_lt' small

theorem isScalar_u64 : IsScalar 8 UInt64.toNat u64OfNat where
  small := fun x => x.toNat_lt
  ofNat_toNat := fun _ => UInt64.ofNat_toNat
  toNat_ofNat := fun _ small => UInt64.toNat_ofNat_of_lt' small

theorem isScalar_i16 : IsScalar 2 i16ToNat i16OfNat where
  small := fun x => x.toUInt16.toNat_lt
  ofNat_toNat := fun x => by rw [i16OfNat, i16ToNat, UInt16.ofNat_toNat, Int16.toInt16_toUInt16]
  toNat_ofNat := fun n small => by
    rw [i16OfNat, i16ToNat, UInt16.toUInt16_toInt16]
    exact isScalar_u16.toNat_ofNat n small

theorem isScalar_i32 : IsScalar 4 i32ToNat i32OfNat where
  small := fun x => x.toUInt32.toNat_lt
  ofNat_toNat := fun x => by rw [i32OfNat, i32ToNat, UInt32.ofNat_toNat, Int32.toInt32_toUInt32]
  toNat_ofNat := fun n small => by
    rw [i32OfNat, i32ToNat, UInt32.toUInt32_toInt32]
    exact isScalar_u32.toNat_ofNat n small

theorem isScalar_i64 : IsScalar 8 i64ToNat i64OfNat where
  small := fun x => x.toUInt64.toNat_lt
  ofNat_toNat := fun x => by rw [i64OfNat, i64ToNat, UInt64.ofNat_toNat, Int64.toInt64_toUInt64]
  toNat_ofNat := fun n small => by
    rw [i64OfNat, i64ToNat, UInt64.toUInt64_toInt64]
    exact isScalar_u64.toNat_ofNat n small

/-! ### Bytes and booleans -/

/-- `u8::decode`. -/
def decodeByte (data : Bytes) : Except Error UInt8 := (exact 1 data).map fun bytes => bytes.headD 0

theorem decodeByte_eq_ok : decodeByte data = .ok byte ↔ [byte] = data := by
  simp only [decodeByte, map_eq_ok, exact_eq_ok]
  constructor
  · rintro ⟨bytes, ⟨sized, rfl⟩, rfl⟩
    obtain ⟨only, rfl⟩ := List.length_eq_one_iff.mp sized
    rfl
  · rintro rfl
    exact ⟨[byte], ⟨rfl, rfl⟩, rfl⟩

/-- `bool::encode`: the byte of a boolean. -/
def boolByte (b : Bool) : UInt8 := if b then 1 else 0

/-- `bool::decode`. -/
def decodeBool (data : Bytes) : Except Error Bool := do
  match ← decodeByte data with
  | 0 => .ok false
  | 1 => .ok true
  | _ => .error (.notNormal "boolean is not 0 or 1")

theorem decodeBool_eq_ok : decodeBool data = .ok b ↔ [boolByte b] = data := by
  simp only [decodeBool, bind_eq_ok, decodeByte_eq_ok]
  constructor
  · rintro ⟨byte, rfl, read⟩
    split at read
    · cases read; rfl
    · cases read; rfl
    · cases read
  · rintro rfl
    cases b
    · exact ⟨0, rfl, rfl⟩
    · exact ⟨1, rfl, rfl⟩

/-! ### Strings -/

/-- `<&str>::encode`: the bytes of a string value. -/
def strBytes (text : String) : Except Error Bytes :=
  if (asBytes text).contains 0 then .error (.invalidValue "string contains an interior NUL byte")
  else .ok (asBytes text ++ [0])

/-- `<&str>::decode`. -/
def decodeStr (data : Bytes) : Except Error String :=
  if data.getLast? ≠ some 0 then .error (.notNormal "string is not NUL-terminated")
  else if data.dropLast.contains 0 then
    .error (.notNormal "string contains an interior NUL byte")
  else
    match fromUtf8 data.dropLast with
    | some text => .ok text
    | none => .error (.notNormal "string is not valid UTF-8")

theorem strBytes_eq_ok :
    strBytes text = .ok bytes ↔ 0 ∉ asBytes text ∧ asBytes text ++ [0] = bytes := by
  unfold strBytes
  split
  · next nul => simp only [reduceCtorEq, false_iff, not_and, List.contains_iff_mem.mp nul,
      not_true_eq_false, false_implies]
  · next clean =>
    rw [List.contains_iff_mem] at clean
    simp [clean]

theorem decodeStr_eq_ok :
    decodeStr data = .ok text ↔ strBytes text = .ok data := by
  rw [strBytes_eq_ok]
  unfold decodeStr
  constructor
  · intro read
    split at read
    · cases read
    · next ended =>
      split at read
      · cases read
      · next clean =>
        split at read
        · next found =>
          cases read
          rw [fromUtf8_eq_some] at found
          rw [found]
          rw [List.contains_iff_mem] at clean
          refine ⟨clean, ?_⟩
          exact List.dropLast_append_getLast? 0 (not_not.mp ended)
        · cases read
  · rintro ⟨clean, rfl⟩
    rw [if_neg (by simp), List.dropLast_concat, if_neg (by rwa [List.contains_iff_mem]),
      fromUtf8_asBytes]

end Ostrya.Gvariant
