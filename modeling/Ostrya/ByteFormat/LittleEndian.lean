/-
**Fixed-width little-endian integers as byte lists.**

`leBytes width value` is the low `width` bytes of `value`, least significant first, and `leNat` reads
a byte list back. The two are inverse on `width` bytes (`leBytes_leNat`) and on the values that
`width` bytes hold (`leNat_leBytes`). The second half specialises them to the machine integers.
-/

import Mathlib.Tactic.Ring
import Mathlib.Data.List.Basic

namespace ByteFormat

/-- The low `width` bytes of `value`, least significant first. -/
def leBytes : (width value : Nat) → List UInt8
  | 0, _ => []
  | width + 1, value => UInt8.ofNat value :: leBytes width (value / 256)

/-- The number whose little-endian bytes are given. -/
def leNat : List UInt8 → Nat
  | [] => 0
  | byte :: bytes => byte.toNat + 256 * leNat bytes

@[simp] theorem leBytes_length (width value : Nat) : (leBytes width value).length = width := by
  induction width generalizing value with
  | zero => rfl
  | succ width ih => simp [leBytes, ih]

theorem leNat_lt (bytes : List UInt8) : leNat bytes < 256 ^ bytes.length := by
  induction bytes with
  | nil => simp [leNat]
  | cons byte bytes ih =>
    have low := byte.toNat_lt
    simp only [leNat, List.length_cons, pow_succ]
    omega

variable {width : Nat}

theorem leNat_leBytes (small : value < 256 ^ width) :
    leNat (leBytes width value) = value := by
  induction width generalizing value with
  | zero => simp only [pow_zero] at small; simp only [leBytes, leNat]; omega
  | succ width ih =>
    have high : value / 256 < 256 ^ width := by
      omega
    simp only [leBytes, leNat, ih high, UInt8.toNat_ofNat']
    omega

theorem leBytes_leNat (bytes : List UInt8) : leBytes bytes.length (leNat bytes) = bytes := by
  induction bytes with
  | nil => rfl
  | cons byte bytes ih =>
    have low := byte.toNat_lt
    have quotient : (byte.toNat + 256 * leNat bytes) / 256 = leNat bytes := by omega
    have digit : UInt8.ofNat (byte.toNat + 256 * leNat bytes) = byte := by
      apply UInt8.toNat_inj.mp
      rw [UInt8.toNat_ofNat']
      omega
    simp [leNat, leBytes, quotient, digit, ih]

variable {bytes : List UInt8}

theorem leBytes_leNat_of_length (sized : bytes.length = width) :
    leBytes width (leNat bytes) = bytes := by
  rw [← sized, leBytes_leNat]

/-- A truncated little-endian integer is the integer at the smaller width. -/
theorem leBytes_take (le : width ≤ wide) (value : Nat) :
    (leBytes wide value).take width = leBytes width value := by
  induction width generalizing wide value with
  | zero => rfl
  | succ width ih =>
    obtain ⟨wide, rfl⟩ : ∃ w, wide = w + 1 := ⟨wide - 1, by omega⟩
    simp [leBytes, ih (Nat.le_of_succ_le_succ le)]

theorem leNat_append (first second : List UInt8) :
    leNat (first ++ second) = leNat first + 256 ^ first.length * leNat second := by
  induction first with
  | nil => simp [leNat]
  | cons byte first ih =>
    rw [List.cons_append, leNat, leNat, ih, List.length_cons, Nat.pow_succ', Nat.mul_assoc]
    omega

theorem leNat_append_zeros (bytes : List UInt8) (count : Nat) :
    leNat (bytes ++ List.replicate count 0) = leNat bytes := by
  have zero : leNat (List.replicate count 0) = 0 := by
    induction count with
    | zero => rfl
    | succ count ih =>
      rw [List.replicate_succ, leNat, ih]
      rfl
  rw [leNat_append, zero, Nat.mul_zero, Nat.add_zero]

/-! ### Runs of equal-width integers -/

/-- The first `count` integers of `width` bytes each. -/
def leInts (width : Nat) : (count : Nat) → List UInt8 → List Nat
  | 0, _ => []
  | count + 1, bytes => leNat (bytes.take width) :: leInts width count (bytes.drop width)

@[simp] theorem length_flatMap_leBytes (width : Nat) (values : List Nat) :
    (values.flatMap (leBytes width)).length = values.length * width := by
  induction values with
  | nil => simp
  | cons value values ih =>
    simp only [List.flatMap_cons, List.length_append, leBytes_length, ih, List.length_cons]
    ring

@[simp] theorem leInts_length (width count : Nat) (bytes : List UInt8) :
    (leInts width count bytes).length = count := by
  induction count generalizing bytes with
  | zero => rfl
  | succ count ih => rw [leInts, List.length_cons, ih]

theorem leInts_flatMap (small : ∀ value ∈ values, value < 256 ^ width) :
    leInts width values.length (values.flatMap (leBytes width)) = values := by
  induction values with
  | nil => rfl
  | cons value values ih =>
    have front : (leBytes width value ++ values.flatMap (leBytes width)).take width
        = leBytes width value := by
      rw [List.take_append_of_le_length (by simp), List.take_of_length_le (by simp)]
    have back : (leBytes width value ++ values.flatMap (leBytes width)).drop width
        = values.flatMap (leBytes width) := by
      rw [List.drop_append, leBytes_length, Nat.sub_self, List.drop_zero,
        List.drop_eq_nil_of_le (by simp), List.nil_append]
    rw [List.flatMap_cons, List.length_cons, leInts, front, back,
      leNat_leBytes (small value (.head _)),
      ih fun other member => small other (.tail _ member)]

theorem flatMap_leInts (sized : bytes.length = count * width) :
    (leInts width count bytes).flatMap (leBytes width) = bytes := by
  induction count generalizing bytes with
  | zero =>
    rw [Nat.zero_mul] at sized
    rw [List.length_eq_zero_iff.mp sized]
    rfl
  | succ count ih =>
    have total : bytes.length = count * width + width := by rw [sized]; ring
    rw [leInts, List.flatMap_cons, ih (by rw [List.length_drop]; omega),
      leBytes_leNat_of_length (by rw [List.length_take]; omega), List.take_append_drop]

theorem getLast?_leInts (sized : bytes.length = (count + 1) * width) :
    (leInts width (count + 1) bytes).getLast? = some (leNat (bytes.drop (count * width))) := by
  induction count generalizing bytes with
  | zero =>
    rw [leInts, leInts, List.getLast?_singleton, List.take_of_length_le (by omega), Nat.zero_mul,
      List.drop_zero]
  | succ count ih =>
    have total : bytes.length = (count + 1) * width + width := by rw [sized]; ring
    have rest := @ih (bytes.drop width) (by rw [List.length_drop]; omega)
    rw [leInts, leInts, List.getLast?_cons_cons, ← leInts, rest, List.drop_drop]
    congr 3
    ring

end ByteFormat
