/-
**Aligned parts laid end to end.**

A container body is a run of parts, each preceded by zero bytes up to the part's alignment.
`area position parts` is the bytes of such a run that starts at `position`, and `ends position parts`
the position after each part. `Tiles data position parts stop` says that the run is found in `data`
between the two positions; a reader that walks a buffer part by part needs only
`tiles_nil_iff` and `tiles_cons_iff`.
-/

import Mathlib.Algebra.Order.BigOperators.Group.List
import Ostrya.ByteFormat.LittleEndian

namespace ByteFormat

/-- The least multiple of `alignment` that is at least `position`. -/
def alignUp (position alignment : Nat) : Nat :=
  (position + alignment - 1) / alignment * alignment

variable {alignment : Nat}

theorem le_alignUp (positive : 0 < alignment) (position : Nat) :
    position ≤ alignUp position alignment := by
  have split := Nat.div_add_mod (position + alignment - 1) alignment
  have remainder := Nat.mod_lt (position + alignment - 1) positive
  rw [Nat.mul_comm] at split
  unfold alignUp
  omega

theorem dvd_alignUp (position alignment : Nat) : alignment ∣ alignUp position alignment :=
  Nat.dvd_mul_left _ _

theorem alignUp_add_of_dvd (positive : 0 < alignment) (aligned : alignment ∣ base)
    (position : Nat) : alignUp (base + position) alignment = base + alignUp position alignment := by
  obtain ⟨count, rfl⟩ := aligned
  unfold alignUp
  rw [show alignment * count + position + alignment - 1
      = (position + alignment - 1) + count * alignment by rw [Nat.mul_comm alignment count]; omega,
    Nat.add_mul_div_right _ _ positive, Nat.add_mul, Nat.mul_comm alignment count, Nat.add_comm]

/-- `count` zero bytes. -/
abbrev zeros (count : Nat) : List UInt8 := List.replicate count 0

/-- `bytes` extended with zero bytes to a multiple of `alignment`. -/
def padTo (bytes : List UInt8) (alignment : Nat) : List UInt8 :=
  bytes ++ zeros (alignUp bytes.length alignment - bytes.length)

theorem padTo_length (positive : 0 < alignment) (bytes : List UInt8) :
    (padTo bytes alignment).length = alignUp bytes.length alignment := by
  have le := le_alignUp positive bytes.length
  simp only [padTo, List.length_append, List.length_replicate]
  omega

/-! ### Slices -/

section Slices

variable {data : List UInt8} {first middle last : Nat}

theorem extract_length (inside : last ≤ data.length) :
    (data.extract first last).length = last - first := by
  simp
  omega

theorem extract_append_extract (ordered : first ≤ middle) (onward : middle ≤ last) :
    data.extract first middle ++ data.extract middle last = data.extract first last := by
  simp
  rw [show last - first = (middle - first) + (last - middle) by omega, List.take_add,
    List.drop_drop, show first + (middle - first) = middle by omega]

theorem extract_take (inside : last ≤ bound) :
    (data.take bound).extract first last = data.extract first last := by
  simp only [List.extract_eq_take_drop, List.drop_take, List.take_take]
  congr 1
  omega

theorem extract_zero_eq_take (data : List UInt8) (last : Nat) :
    data.extract 0 last = data.take last := by
  simp [List.extract_eq_take_drop]

theorem extract_append_middle (before part after : List UInt8) :
    (before ++ part ++ after).extract before.length (before.length + part.length) = part := by
  rw [List.extract_eq_take_drop, List.append_assoc, List.drop_left, Nat.add_sub_cancel_left,
    List.take_left]

end Slices

/-! ### Areas -/

variable {stop : Nat}

/-- One part of a container body: its alignment and its bytes. -/
abbrev Part := Nat × List UInt8

/-- The bytes of a run of parts that starts at `position`. -/
def area : (position : Nat) → List Part → List UInt8
  | _, [] => []
  | position, (alignment, bytes) :: parts =>
    zeros (alignUp position alignment - position) ++ bytes
      ++ area (alignUp position alignment + bytes.length) parts

/-- A run of parts from position zero starts with the first part. -/
theorem head_isPrefix_area (alignment : Nat) (part : List UInt8) (parts : List Part) :
    part <+: area 0 ((alignment, part) :: parts) := by
  have start : alignUp 0 alignment = 0 := by
    rcases Nat.eq_zero_or_pos alignment with rfl | positive
    · rfl
    · rw [alignUp, Nat.zero_add, Nat.div_eq_of_lt (by omega), Nat.zero_mul]
  rw [area, start, Nat.sub_zero, List.append_assoc]
  exact List.prefix_append part _

/-- The position after a run of parts that starts at `position`. -/
def areaEnd : (position : Nat) → List Part → Nat
  | position, [] => position
  | position, (alignment, bytes) :: parts =>
    areaEnd (alignUp position alignment + bytes.length) parts

/-- The position after each part of a run that starts at `position`. -/
def ends : (position : Nat) → List Part → List Nat
  | _, [] => []
  | position, (alignment, bytes) :: parts =>
    (alignUp position alignment + bytes.length)
      :: ends (alignUp position alignment + bytes.length) parts

/-- Every part has a positive alignment. -/
def Aligned (parts : List Part) : Prop := ∀ part ∈ parts, 0 < part.1

variable {part : Part} {parts : List Part}

theorem Aligned.tail (aligned : Aligned (part :: parts)) :
    Aligned parts := fun other member => aligned other (.tail _ member)

theorem Aligned.head (aligned : Aligned (part :: parts)) :
    0 < part.1 := aligned part (.head _)

@[simp] theorem ends_length (position : Nat) (parts : List Part) :
    (ends position parts).length = parts.length := by
  induction parts generalizing position with
  | nil => rfl
  | cons part parts ih => simp [ends, ih]

theorem le_areaEnd (aligned : Aligned parts) (position : Nat) :
    position ≤ areaEnd position parts := by
  induction parts generalizing position with
  | nil => exact le_rfl
  | cons part parts ih =>
    have here := le_alignUp aligned.head position
    have rest := ih aligned.tail (alignUp position part.1 + part.2.length)
    exact le_trans (le_trans here (Nat.le_add_right _ _)) rest

theorem area_length (aligned : Aligned parts) (position : Nat) :
    (area position parts).length = areaEnd position parts - position := by
  induction parts generalizing position with
  | nil => simp [area, areaEnd]
  | cons part parts ih =>
    have here := le_alignUp aligned.head position
    have rest := le_areaEnd aligned.tail (alignUp position part.1 + part.2.length)
    simp only [area, areaEnd, List.length_append, List.length_replicate, ih aligned.tail]
    omega

/-- The parts together are not longer than the run. -/
theorem sum_length_le_area (parts : List Part) (position : Nat) :
    (parts.map fun part => part.2.length).sum ≤ (area position parts).length := by
  induction parts generalizing position with
  | nil => exact Nat.zero_le _
  | cons first parts ih =>
    have rest := ih (alignUp position first.1 + first.2.length)
    rw [area, List.map_cons, List.sum_cons, List.length_append, List.length_append]
    omega

theorem length_le_area (member : part ∈ parts) (position : Nat) :
    part.2.length ≤ (area position parts).length :=
  (List.le_sum_of_mem (List.mem_map_of_mem member)).trans (sum_length_le_area parts position)

theorem le_areaEnd_of_mem_ends (aligned : Aligned parts) (position : Nat)
    (member : stop ∈ ends position parts) : stop ≤ areaEnd position parts := by
  induction parts generalizing position with
  | nil => simp [ends] at member
  | cons part parts ih =>
    rcases List.mem_cons.mp member with rfl | member
    · exact le_areaEnd aligned.tail _
    · exact ih aligned.tail _ member

theorem getLast?_ends (position : Nat) (nonempty : parts ≠ []) :
    (ends position parts).getLast? = some (areaEnd position parts) := by
  induction parts generalizing position with
  | nil => exact absurd rfl nonempty
  | cons part parts ih =>
    cases parts with
    | nil => rfl
    | cons next parts =>
      have rest := ih (alignUp position part.1 + part.2.length) (List.cons_ne_nil _ _)
      rw [areaEnd, ← rest]
      simp [ends]

/-! ### Tiles -/

variable {data : List UInt8} {position : Nat}

/-- `parts` are found in `data` between `position` and `stop`, padded with zero bytes. -/
structure Tiles (data : List UInt8) (position : Nat) (parts : List Part) (stop : Nat) : Prop where
  ending : areaEnd position parts = stop
  inside : stop ≤ data.length
  bytes : data.extract position stop = area position parts

theorem tiles_nil_iff :
    Tiles data position [] stop ↔ stop = position ∧ position ≤ data.length := by
  constructor
  · rintro ⟨rfl, inside, _⟩
    exact ⟨rfl, inside⟩
  · rintro ⟨rfl, inside⟩
    exact ⟨rfl, inside, by simp [area, List.extract_eq_take_drop]⟩

/-- **One step of a walk**: the padding is zero, the slice is the part, and the rest tiles. -/
theorem tiles_cons_iff (positive : 0 < alignment) (aligned : Aligned parts) :
    Tiles data position ((alignment, bytes) :: parts) stop ↔
      (data.extract position (alignUp position alignment)
          = zeros (alignUp position alignment - position) ∧
        data.extract (alignUp position alignment) (alignUp position alignment + bytes.length)
          = bytes) ∧
      Tiles data (alignUp position alignment + bytes.length) parts stop := by
  have padded := le_alignUp positive position
  have within : alignUp position alignment ≤ alignUp position alignment + bytes.length :=
    Nat.le_add_right _ _
  have onward := le_areaEnd aligned (alignUp position alignment + bytes.length)
  constructor
  · rintro ⟨rfl, inside, whole⟩
    simp only [areaEnd] at inside whole ⊢
    rw [area, ← extract_append_extract (le_trans padded within) onward,
      ← extract_append_extract padded within] at whole
    have sized : (data.extract position (alignUp position alignment)).length
        = (zeros (alignUp position alignment - position)).length := by
      rw [extract_length (by omega), List.length_replicate]
    have sized' : (data.extract (alignUp position alignment)
        (alignUp position alignment + bytes.length)).length = bytes.length := by
      rw [extract_length (by omega)]
      omega
    obtain ⟨front, back⟩ := List.append_inj whole
      (by rw [List.length_append, List.length_append, sized, sized'])
    obtain ⟨padding, part⟩ := List.append_inj front sized
    exact ⟨⟨padding, part⟩, rfl, inside, back⟩
  · rintro ⟨⟨padding, part⟩, rfl, inside, back⟩
    refine ⟨rfl, inside, ?_⟩
    rw [area, ← extract_append_extract (le_trans padded within) onward,
      ← extract_append_extract padded within, padding, part, back]

theorem Tiles.le (aligned : Aligned parts) (tiles : Tiles data position parts stop) : position ≤ stop := by
  rw [← tiles.ending]
  exact le_areaEnd aligned position

/-- A run of parts is found where it was written. -/
theorem tiles_of_area {before after : List UInt8} (aligned : Aligned parts) :
    Tiles (before ++ area before.length parts ++ after) before.length parts
      (areaEnd before.length parts) := by
  have sized := area_length aligned before.length
  have le := le_areaEnd aligned before.length
  refine ⟨rfl, ?_, ?_⟩
  · simp only [List.length_append]
    omega
  · rw [show areaEnd before.length parts
        = before.length + (area before.length parts).length by omega]
    exact extract_append_middle before (area before.length parts) after

/-- A run from the start of `data` is a front part of `data`. -/
theorem Tiles.take (tiles : Tiles data 0 parts stop) : data.take stop = area 0 parts := by
  rw [← tiles.bytes, extract_zero_eq_take]

end ByteFormat
