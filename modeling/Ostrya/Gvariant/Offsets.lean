/-
**Framing offsets and padding** (`choose_offset_size`, `write_offset` of `ser.rs`; `offset_size_for`,
`read_offset`, `check_padding` of `de.rs`; `pad_to` of `codec.rs`).

A writer picks the offset width from the size of the data and the number of offsets, a reader from
the total size. `offsetSizeFor_chooseOffsetSize` says that they agree, and `lt_of_chooseOffsetSize`
that the picked width holds every offset.
-/

import Ostrya.Gvariant.Ty
import Ostrya.ByteFormat.Results

namespace Ostrya.Gvariant

open ByteFormat

/-- `usize::MAX` on a 64-bit target. -/
def usizeMax : Nat := 2 ^ 64 - 1

/-- A vector or a slice of this length exists: its length is a `usize`. -/
def Addressable (bytes : Bytes) : Prop := bytes.length ≤ usizeMax

instance (bytes : Bytes) : Decidable (Addressable bytes) := inferInstanceAs (Decidable (_ ≤ _))

/-- `offset_max`. -/
def offsetMax : Nat → Nat
  | 1 => 0xFF
  | 2 => 0xFFFF
  | 4 => 0xFFFFFFFF
  | _ => usizeMax

/-- `choose_offset_size`. -/
def chooseOffsetSize (dataLen nOffsets : Nat) : Nat :=
  ([1, 2, 4].find? fun z => dataLen + nOffsets * z ≤ offsetMax z).getD 8

/-- `offset_size_for`. -/
def offsetSizeFor (len : Nat) : Nat := ([1, 2, 4].find? fun z => len ≤ offsetMax z).getD 8

/-- `write_offset`: the bytes appended for one offset. -/
def writeOffset (buf : Bytes) (value z : Nat) : Bytes := buf ++ (leBytes 8 value).take z

/-- `read_offset`: the bytes are copied over the front of eight zero bytes. -/
def readOffset (bytes : Bytes) (z : Nat) : Nat := leNat (bytes ++ zeros (8 - z))

/-- `check_padding`. -/
def checkPadding (padding : Bytes) : Except Error Unit :=
  if padding.any (· != 0) then .error (.notNormal "padding bytes are not zero") else .ok ()

/-- `Vec::resize` with zero bytes. -/
def resize (buf : Bytes) (len : Nat) : Bytes := buf.take len ++ zeros (len - buf.length)

theorem checkPadding_eq_ok :
    checkPadding padding = .ok () ↔ padding = zeros padding.length := by
  unfold checkPadding
  rw [List.eq_replicate_iff]
  by_cases nonzero : padding.any (· != 0) = true
  · rw [if_pos nonzero]
    obtain ⟨byte, member, different⟩ := List.any_eq_true.mp nonzero
    simp only [reduceCtorEq, true_and, false_iff, not_forall]
    exact ⟨byte, member, by simpa using different⟩
  · rw [if_neg nonzero]
    simp only [List.any_eq_true, bne_iff_ne, ne_eq, not_exists, not_and, not_not] at nonzero
    exact ⟨fun _ => ⟨rfl, nonzero⟩, fun _ => rfl⟩

@[simp] theorem readOffset_eq_leNat (bytes : Bytes) (z : Nat) : readOffset bytes z = leNat bytes :=
  leNat_append_zeros bytes (8 - z)

theorem chooseOffsetSize_eq (dataLen nOffsets : Nat) :
    chooseOffsetSize dataLen nOffsets =
      if dataLen + nOffsets * 1 ≤ 0xFF then 1
      else if dataLen + nOffsets * 2 ≤ 0xFFFF then 2
      else if dataLen + nOffsets * 4 ≤ 0xFFFFFFFF then 4 else 8 := by
  simp only [chooseOffsetSize, List.find?_cons, List.find?_nil, offsetMax]
  by_cases one : dataLen + nOffsets * 1 ≤ 0xFF
  · simp only [one, decide_true, if_true, Option.getD_some]
  by_cases two : dataLen + nOffsets * 2 ≤ 0xFFFF
  · simp only [one, two, decide_true, decide_false, if_true, if_false, Option.getD_some]
  by_cases four : dataLen + nOffsets * 4 ≤ 0xFFFFFFFF
  · simp only [one, two, four, decide_true, decide_false, if_true, if_false, Option.getD_some]
  · simp only [one, two, four, decide_false, if_false, Option.getD_none]

theorem offsetSizeFor_eq (len : Nat) :
    offsetSizeFor len =
      if len ≤ 0xFF then 1 else if len ≤ 0xFFFF then 2 else if len ≤ 0xFFFFFFFF then 4 else 8 := by
  have same : offsetSizeFor len = chooseOffsetSize len 0 := by
    simp [offsetSizeFor, chooseOffsetSize]
  rw [same, chooseOffsetSize_eq]
  simp

/-- **The reader derives the width that the writer picked.** -/
theorem offsetSizeFor_chooseOffsetSize (dataLen nOffsets : Nat) :
    offsetSizeFor (dataLen + nOffsets * chooseOffsetSize dataLen nOffsets)
      = chooseOffsetSize dataLen nOffsets := by
  rw [offsetSizeFor_eq, chooseOffsetSize_eq]
  split_ifs <;> omega

theorem offsetSizeFor_pos (len : Nat) : 0 < offsetSizeFor len := by
  rw [offsetSizeFor_eq]
  split_ifs <;> omega

theorem chooseOffsetSize_pos (dataLen nOffsets : Nat) : 0 < chooseOffsetSize dataLen nOffsets := by
  rw [chooseOffsetSize_eq]
  split_ifs <;> omega

theorem chooseOffsetSize_le (dataLen nOffsets : Nat) : chooseOffsetSize dataLen nOffsets ≤ 8 := by
  rw [chooseOffsetSize_eq]
  split_ifs <;> omega

theorem lt_of_chooseOffsetSize (inside : value ≤ dataLen)
    (fits : dataLen ≤ usizeMax) : value < 256 ^ chooseOffsetSize dataLen nOffsets := by
  unfold usizeMax at fits
  rw [chooseOffsetSize_eq]
  split_ifs
  · omega
  · omega
  · omega
  · omega

theorem writeOffset_eq (buf : Bytes) (value : Nat) (narrow : z ≤ 8) :
    writeOffset buf value z = buf ++ leBytes z value := by
  rw [writeOffset, leBytes_take narrow]

end Ostrya.Gvariant
