/-
**Sizes entries** (`sizes.rs`), and the one spelling of a LEB128 number.

* `decode_eq_ok`: `decode` accepts the spelling that `encode` writes, and no other.
* `sizes_canonical`: a number and an entry have one form each.
-/

import Ostrya.Core.Varint
import Mathlib.Data.Nat.Log
import Mathlib.Tactic.IntervalCases

namespace Ostrya.Core

open ByteFormat Gvariant

namespace Varint

variable {value : Nat} {bytes : Bytes}

/-- As few bytes as the number has groups of seven bits. -/
theorem encodeLoop_length (short : 0 < fuel) (fits : value < 128 ^ fuel) :
    (encodeLoop fuel value).length = Nat.log 128 value + 1 := by
  induction fuel generalizing value with
  | zero => omega
  | succ fuel ih =>
    rw [encodeLoop]
    split
    · next single => rw [Nat.log_of_lt (by omega)]; rfl
    · next many =>
      have more : 0 < fuel := by
        rcases Nat.eq_zero_or_pos fuel with rfl | more
        · omega
        · exact more
      rw [List.length_cons, ih more (by rw [Nat.pow_succ] at fits; omega),
        Nat.log_of_one_lt_of_le (by decide) (by omega : 128 ≤ value)]

theorem ofNat_high (byte : UInt8) (high : ¬ byte.toNat < 128) : UInt8.ofNat (byte.toNat % 128 + 128) = byte := by
  have := byte.toNat_lt
  rw [show byte.toNat % 128 + 128 = byte.toNat by omega, UInt8.ofNat_toNat]

theorem decodeLoop_eq_ok (below : sum < 2 ^ (7 * i)) (read : decodeLoop i sum bytes = .ok (total, n)) :
    ∃ value rest, bytes = encodeLoop (10 - i) value ++ rest ∧ total = sum + value * 2 ^ (7 * i) ∧
      n = i + (encodeLoop (10 - i) value).length ∧ value < 2 ^ (64 - 7 * i) ∧ (i = 0 ∨ 0 < value) := by
  induction bytes generalizing i sum with
  | nil => cases read
  | cons byte rest ih =>
    rw [decodeLoop, or_shift below] at read
    split at read
    · cases read
    next room =>
    obtain ⟨fuel, left⟩ : ∃ fuel, 10 - i = fuel + 1 := ⟨9 - i, by omega⟩
    split at read
    · next low =>
      split at read
      · cases read
      next minimal =>
      cases read
      have last : encodeLoop (10 - i) byte.toNat = [byte] := by
        rw [left, encodeLoop, if_pos (by omega), Nat.mod_eq_of_lt low, UInt8.ofNat_toNat]
      refine ⟨byte.toNat, rest, by rw [last]; rfl, by rw [Nat.mod_eq_of_lt low], by rw [last]; rfl, ?_, ?_⟩
      · have : i ≤ 9 := by omega
        interval_cases i <;> omega
      · by_contra none
        exact minimal ⟨by omega, UInt8.toNat_inj.mp (by rw [UInt8.toNat_zero]; omega)⟩
    · next high =>
      obtain ⟨value, rest, rfl, rfl, rfl, bound, positive⟩ := ih (below_step below byte.toNat) read
      have step : encodeLoop (10 - i) (byte.toNat % 128 + 128 * value) = byte :: encodeLoop (10 - (i + 1)) value := by
        rw [left, encodeLoop_step (by omega), show (byte.toNat % 128 + 128 * value) / 128 = value by omega,
          show (byte.toNat % 128 + 128 * value) % 128 = byte.toNat % 128 by omega, ofNat_high byte high,
          show 10 - (i + 1) = fuel by omega]
      refine ⟨byte.toNat % 128 + 128 * value, rest, by rw [step]; rfl, ?_, ?_, ?_, .inr (by omega)⟩
      · have whole := shift_step i (byte.toNat % 128 + 128 * value) sum
        rwa [show (byte.toNat % 128 + 128 * value) % 128 = byte.toNat % 128 by omega,
          show (byte.toNat % 128 + 128 * value) / 128 = value by omega] at whole
      · rw [step, List.length_cons]
        omega
      · have : i ≤ 9 := by omega
        interval_cases i <;> omega

/-- **`decode` accepts the spelling that `encode` writes, and no other.** -/
theorem decode_eq_ok : decode bytes = .ok (value, n) ↔
    value < limit ∧ ∃ rest, bytes = encode value ++ rest ∧ n = (encode value).length := by
  constructor
  · intro read
    obtain ⟨value, rest, rfl, rfl, rfl, bound, -⟩ := decodeLoop_eq_ok (by decide) read
    simp only [Nat.mul_zero, Nat.pow_zero, Nat.mul_one, Nat.zero_add]
    exact ⟨bound, rest, rfl, rfl⟩
  · rintro ⟨small, rest, rfl, rfl⟩
    exact decode_encode small rest

end Varint

/-- `SizeEntry`. The sizes are numbers of 64 bits. -/
structure SizeEntry where
  checksum : Checksum
  compressed : Fin Varint.limit
  unpacked : Fin Varint.limit
  objtype : Option ObjectType

/-- `pack_entry`. -/
def packEntry (entry : SizeEntry) : Bytes :=
  entry.checksum.bytes ++ (Varint.encode entry.compressed ++ (Varint.encode entry.unpacked ++
    (entry.objtype.map fun ty => ty.asU32.toUInt8).toList))

/-- The type byte of an entry, if it has one. -/
def unpackType : Bytes → Except Error (Option ObjectType)
  | [] => .ok none
  | [tag] => (ObjectType.fromU32 tag.toUInt32).map some
  | _ => .error (.invalidSizeEntry "entry has trailing bytes")

/-- A size of an entry, and the bytes after it. -/
def takeSize (bytes : Bytes) : Except Error (Fin Varint.limit × Bytes) :=
  match read : Varint.decode bytes with
  | .error fault => .error fault
  | .ok (value, n) => .ok (⟨value, (Varint.decode_eq_ok.mp read).1⟩, bytes.drop n)

/-- `unpack_entry`. -/
def unpackEntry (bytes : Bytes) : Except Error SizeEntry :=
  if bytes.length < 32 then .error (.invalidSizeEntry "entry is shorter than a checksum")
  else do
    let checksum ← Checksum.fromAy (bytes.take 32)
    let (compressed, rest) ← takeSize (bytes.drop 32)
    let (unpacked, rest) ← takeSize rest
    let objtype ← unpackType rest
    .ok { checksum, compressed, unpacked, objtype }

theorem unpackType_eq_ok {objtype : Option ObjectType} :
    unpackType bytes = .ok objtype ↔ bytes = (objtype.map fun ty => ty.asU32.toUInt8).toList := by
  unfold unpackType
  constructor
  · split
    · rintro ⟨⟩
      rfl
    · next tag =>
      intro read
      obtain ⟨ty, known, rfl⟩ := map_eq_ok.mp read
      unfold ObjectType.fromU32 at known
      split at known
      all_goals cases known
      all_goals exact congrArg (fun tag => [tag]) (UInt8.toNat_inj.mp (by assumption))
    · rintro ⟨⟩
  · rintro rfl
    cases objtype with
    | none => rfl
    | some ty => cases ty <;> rfl

theorem takeSize_eq_ok {size : Fin Varint.limit} : takeSize bytes = .ok (size, rest) ↔
    bytes = Varint.encode size ++ rest := by
  unfold takeSize
  constructor
  · split
    · rintro ⟨⟩
    · next value n read =>
      rintro ⟨⟩
      obtain ⟨-, rest, rfl, rfl⟩ := Varint.decode_eq_ok.mp read
      rw [List.drop_left]
  · rintro rfl
    have read := Varint.decode_encode size.isLt rest
    split
    · next refused => cases refused.symm.trans read
    · next value n found =>
      cases found.symm.trans read
      rw [List.drop_left]

theorem unpackEntry_eq_ok {entry : SizeEntry} : unpackEntry bytes = .ok entry ↔ bytes = packEntry entry := by
  unfold unpackEntry
  constructor
  · intro read
    split at read
    · cases read
    simp only [bind_eq_ok, Prod.exists, Checksum.fromAy_eq_ok, takeSize_eq_ok, unpackType_eq_ok] at read
    obtain ⟨checksum, front, compressed, _, first, unpacked, _, rfl, objtype, rfl, ⟨⟩⟩ := read
    rw [packEntry, ← first, front, List.take_append_drop]
  · rintro rfl
    have long := entry.checksum.length
    rw [if_neg (by rw [packEntry, List.length_append]; omega)]
    simp only [bind_eq_ok, Prod.exists, Checksum.fromAy_eq_ok, takeSize_eq_ok, unpackType_eq_ok]
    exact ⟨entry.checksum, (List.take_left' long).symm, entry.compressed, _, List.drop_left' long,
      entry.unpacked, _, rfl, entry.objtype, rfl, rfl⟩

/-- **A number and an entry have one form each.** -/
theorem sizes_canonical :
    (∀ value rest, value < Varint.limit →
      Varint.decode (Varint.encode value ++ rest) = .ok (value, (Varint.encode value).length)) ∧
    (∀ bytes value n, Varint.decode bytes = .ok (value, n) ↔ value < Varint.limit ∧
      ∃ rest, bytes = Varint.encode value ++ rest ∧ n = (Varint.encode value).length) ∧
    (∀ value < Varint.limit, (Varint.encode value).length = Nat.log 128 value + 1) ∧
    (∀ entry, unpackEntry (packEntry entry) = .ok entry) ∧
    ∀ bytes entry, unpackEntry bytes = .ok entry → packEntry entry = bytes := by
  refine ⟨fun _ rest small => Varint.decode_encode small rest, fun _ _ _ => Varint.decode_eq_ok, fun value small => ?_,
    fun _ => unpackEntry_eq_ok.mpr rfl, fun _ _ read => (unpackEntry_eq_ok.mp read).symm⟩
  exact Varint.encodeLoop_length (by decide) (by unfold Varint.limit at small; omega)

end Ostrya.Core
