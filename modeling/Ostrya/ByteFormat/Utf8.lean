/-
**Strings as UTF-8 bytes.**

`asBytes` is the bytes of a string and `fromUtf8` the string of a byte list, if it is valid UTF-8.
A byte list has at most one string, and that string has exactly those bytes (`fromUtf8_eq_some`).
-/

import Mathlib.Data.List.Basic

namespace ByteFormat

/-- The UTF-8 bytes of a string. -/
def asBytes (text : String) : List UInt8 := text.toByteArray.data.toList

/-- The string with the given UTF-8 bytes, if they are valid UTF-8. -/
def fromUtf8 (bytes : List UInt8) : Option String := String.fromUTF8? ⟨bytes.toArray⟩

theorem asBytes_injective : Function.Injective asBytes := by
  intro first second same
  apply String.toByteArray_inj.mp
  apply ByteArray.ext
  exact Array.toList_inj.mp same

theorem fromUtf8_eq_some :
    fromUtf8 bytes = some text ↔ asBytes text = bytes := by
  unfold fromUtf8 String.fromUTF8?
  constructor
  · intro found
    split at found
    · cases found
      rfl
    · cases found
  · rintro rfl
    have valid : (ByteArray.mk (asBytes text).toArray).IsValidUTF8 := text.isValidUTF8
    rw [dif_pos valid]
    rfl

@[simp] theorem fromUtf8_asBytes (text : String) : fromUtf8 (asBytes text) = some text :=
  fromUtf8_eq_some.mpr rfl

@[simp] theorem asBytes_ofList (chars : List Char) :
    asBytes (String.ofList chars) = chars.flatMap String.utf8EncodeChar := by
  rw [asBytes, String.toByteArray_ofList, List.utf8Encode, List.data_toByteArray]

theorem asBytes_eq_flatMap (text : String) :
    asBytes text = text.toList.flatMap String.utf8EncodeChar := by
  rw [← asBytes_ofList, String.ofList_toList]

/-- A string of ASCII characters has one byte for each character. -/
theorem flatMap_utf8EncodeChar_of_ascii {chars : List Char} (ascii : ∀ c ∈ chars, c.toNat < 128) :
    chars.flatMap String.utf8EncodeChar = chars.map fun c => UInt8.ofNat c.toNat := by
  induction chars with
  | nil => rfl
  | cons c chars ih =>
    have small : c.val.toNat ≤ 127 := Nat.le_of_lt_succ (ascii c (.head _))
    rw [List.flatMap_cons, ih fun d member => ascii d (.tail _ member),
      String.utf8EncodeChar, if_pos small]
    rfl

/-- The code of an ASCII character stands only in the encoding of that character. -/
theorem mem_utf8EncodeChar_ascii (ascii : c.toNat < 128)
    (inside : UInt8.ofNat c.toNat ∈ String.utf8EncodeChar d) : d = c := by
  have byte : ∀ n, n < 256 → UInt8.ofNat c.toNat = UInt8.ofNat n → c.toNat = n := by
    intro n small same
    have values := congrArg UInt8.toNat same
    simp only [UInt8.toNat_ofNat'] at values
    omega
  -- a byte of a longer encoding is 128 or more
  have high : ∀ n, 128 ≤ n → n < 256 → UInt8.ofNat c.toNat ≠ UInt8.ofNat n := by
    intro n large small same
    have := byte n small same
    omega
  unfold String.utf8EncodeChar at inside
  dsimp only at inside
  split at inside
  · have small : d.toNat < 256 := Nat.lt_of_le_of_lt ‹_› (by decide)
    have same := byte d.toNat small (List.mem_singleton.mp inside)
    exact Char.toNat_inj.mp same.symm
  simp only [List.mem_cons, List.not_mem_nil, or_false, apply_ite (UInt8.ofNat c.toNat ∈ ·)] at inside
  split at inside
  · rcases inside with same | same <;> exact absurd same (high _ (by omega) (by omega))
  split at inside
  · rcases inside with same | same | same <;> exact absurd same (high _ (by omega) (by omega))
  · rcases inside with same | same | same | same <;> exact absurd same (high _ (by omega) (by omega))

theorem mem_of_mem_asBytes (ascii : c.toNat < 128)
    (inside : UInt8.ofNat c.toNat ∈ asBytes text) : c ∈ text.toList := by
  rw [asBytes_eq_flatMap, List.mem_flatMap] at inside
  obtain ⟨d, member, encoded⟩ := inside
  exact mem_utf8EncodeChar_ascii ascii encoded ▸ member

/-- A byte stands for an ASCII character exactly when it is the character's code. -/
theorem ofUInt8_eq_iff (ascii : c.toNat < 128) (byte : UInt8) :
    Char.ofUInt8 byte = c ↔ byte = UInt8.ofNat c.toNat := by
  have same : (Char.ofUInt8 byte).toNat = byte.toNat := by
    show byte.toUInt32.toNat = byte.toNat
    simp
  rw [← Char.toNat_inj, same, ← UInt8.toNat_inj, UInt8.toNat_ofNat']
  omega

end ByteFormat
