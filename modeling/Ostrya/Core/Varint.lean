/-
**LEB128 numbers** (`varint.rs`).

The operands of a static delta: seven bits in each byte, low bits first, the top bit set on every byte but
the last. The decoder refuses a number of more than 64 bits and one that is longer than it need be.
`decode_encode`: an encoded number decodes from the front of any bytes.
-/

import Ostrya.Core.Basic
import Mathlib.Tactic.Ring

namespace Ostrya.Core.Varint

open ByteFormat Gvariant

/-- The loop of `encode`, for at most `fuel` bytes. -/
def encodeLoop : (fuel : Nat) → Nat → Bytes
  | 0, _ => []
  | fuel + 1, value =>
    if value / 128 = 0 then [UInt8.ofNat (value % 128)]
    else UInt8.ofNat (value % 128 + 128) :: encodeLoop fuel (value / 128)

/-- `varint::encode`. A number of 64 bits takes at most ten bytes. -/
def encode (value : Nat) : Bytes := encodeLoop 10 value

/-- The loop of `decode` at byte `i`, which holds bits `7 * i` and up of the number. -/
def decodeLoop (i value : Nat) : Bytes → Except Error (Nat × Nat)
  | [] => .error (.invalidVarint "varint is truncated")
  | byte :: rest =>
    let shift := 7 * i
    let payload := byte.toNat % 128
    if shift ≥ 64 ∨ (shift = 63 ∧ payload > 1) then .error (.invalidVarint "varint overflows 64 bits")
    else
      let value := value ||| payload <<< shift
      if byte.toNat < 128 then
        if i > 0 ∧ byte = 0 then .error (.invalidVarint "varint is not minimally encoded")
        else .ok (value, i + 1)
      else decodeLoop (i + 1) value rest

/-- `varint::decode`: the number and the bytes it took. -/
def decode (input : Bytes) : Except Error (Nat × Nat) := decodeLoop 0 0 input

/-- The numbers that fit in 64 bits. -/
def limit : Nat := 2 ^ 64

theorem encodeLoop_step (many : value / 128 ≠ 0) :
    encodeLoop (fuel + 1) value = UInt8.ofNat (value % 128 + 128) :: encodeLoop fuel (value / 128) := by
  rw [encodeLoop, if_neg many]

theorem not_overflow (bits : value * 2 ^ (7 * i) < limit) (minimal : i = 0 ∨ 0 < value) :
    ¬ (7 * i ≥ 64 ∨ (7 * i = 63 ∧ value % 128 > 1)) := by
  unfold limit at bits
  rcases minimal with rfl | positive
  · omega
  have inside : 7 * i < 64 := by
    refine (Nat.pow_lt_pow_iff_right (Nat.lt_succ_self 1)).mp (lt_of_le_of_lt ?_ bits)
    exact Nat.le_mul_of_pos_left _ positive
  rintro (large | ⟨last, more⟩)
  · omega
  · rw [last] at bits
    omega

/-- The bits that a byte adds are above those of the bytes before it, so `|=` is addition. -/
theorem or_shift (below : sum < 2 ^ shift) (payload : Nat) : sum ||| payload <<< shift = sum + payload * 2 ^ shift := by
  rw [Nat.shiftLeft_eq, Nat.or_comm, Nat.mul_comm, ← Nat.two_pow_add_eq_or_of_lt below, Nat.add_comm]

theorem below_step (below : sum < 2 ^ (7 * i)) (value : Nat) :
    sum + value % 128 * 2 ^ (7 * i) < 2 ^ (7 * (i + 1)) := by
  have payload : value % 128 * 2 ^ (7 * i) ≤ 127 * 2 ^ (7 * i) := Nat.mul_le_mul_right _ (by omega)
  rw [Nat.mul_add, Nat.pow_add]
  omega

theorem shift_step (i value sum : Nat) :
    sum + value % 128 * 2 ^ (7 * i) + value / 128 * 2 ^ (7 * (i + 1)) = sum + value * 2 ^ (7 * i) := by
  conv_rhs => rw [← Nat.mod_add_div value 128]
  ring

/-- The loop of the reader undoes that of the writer. -/
theorem decodeLoop_encodeLoop {fuel i value sum : Nat} (rest : Bytes) (short : 0 < fuel)
    (fits : value < 128 ^ fuel) (bits : value * 2 ^ (7 * i) < limit) (minimal : i = 0 ∨ 0 < value)
    (below : sum < 2 ^ (7 * i)) :
    decodeLoop i sum (encodeLoop fuel value ++ rest)
      = .ok (sum + value * 2 ^ (7 * i), i + (encodeLoop fuel value).length) := by
  induction fuel generalizing i value sum with
  | zero => omega
  | succ fuel ih =>
    have room := not_overflow bits minimal
    by_cases single : value / 128 = 0
    · have small : value < 128 := by omega
      have self : value % 128 = value := Nat.mod_eq_of_lt small
      have byte : (UInt8.ofNat value).toNat = value := by rw [UInt8.toNat_ofNat']; omega
      have nonzero : ¬ (i > 0 ∧ UInt8.ofNat value = 0) := by
        rintro ⟨later, zero⟩
        rw [zero, UInt8.toNat_zero] at byte
        omega
      rw [self] at room
      rw [encodeLoop, if_pos single, self]
      simp only [List.singleton_append, decodeLoop, byte, self, or_shift below, if_neg room,
        if_pos small, if_neg nonzero, List.length_singleton]
    · have byte : (UInt8.ofNat (value % 128 + 128)).toNat = value % 128 + 128 := by
        rw [UInt8.toNat_ofNat']; omega
      have payload : (value % 128 + 128) % 128 = value % 128 := by omega
      have above : ¬ value % 128 + 128 < 128 := by omega
      have more : 0 < fuel := by
        rcases Nat.eq_zero_or_pos fuel with rfl | more
        · omega
        · exact more
      have step := shift_step i value sum
      have rest := @ih (i + 1) (value / 128) (sum + value % 128 * 2 ^ (7 * i)) more
        (by rw [Nat.pow_succ] at fits; omega) (by omega) (Or.inr (by omega)) (below_step below value)
      rw [encodeLoop_step single]
      simp only [List.cons_append, decodeLoop, byte, payload, or_shift below, if_neg room,
        if_neg above, rest, step, List.length_cons]
      congr 2
      omega

/-- **An encoded number decodes from the front of any bytes.** -/
theorem decode_encode (small : value < limit) (rest : Bytes) :
    decode (encode value ++ rest) = .ok (value, (encode value).length) := by
  have read := @decodeLoop_encodeLoop 10 0 value 0 rest (by decide)
    (by unfold limit at small; omega) (by simpa using small) (Or.inl rfl) (by decide)
  simpa [decode, encode] using read

end Ostrya.Core.Varint
