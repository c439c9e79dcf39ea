/-
**The sizes of serialized containers.**

The size of a container depends on the sizes of its parts alone: `framed` adds the framing offsets to the data, in
the width that the writer picks (`arrayBytes_length`, `tupleBytes_length`). The width only grows with the data, so a
container with shorter parts is not longer, across every change of the width. `Covers ty long short` carries this
through the levels of a value, one rule for each container.
-/

import Ostrya.Gvariant.NormalForm

namespace Ostrya.Gvariant

open ByteFormat

/-! ### Framing offsets -/

/-- The size of a container of `data` bytes with `count` framing offsets. -/
def framed (data count : Nat) : Nat := data + count * chooseOffsetSize data count

theorem chooseOffsetSize_mono (le : data ≤ more) (count : Nat) :
    chooseOffsetSize data count ≤ chooseOffsetSize more count := by
  rw [chooseOffsetSize_eq, chooseOffsetSize_eq]
  split_ifs <;> omega

theorem framed_mono (le : data ≤ more) (count : Nat) : framed data count ≤ framed more count :=
  Nat.add_le_add le (Nat.mul_le_mul_left _ (chooseOffsetSize_mono le count))

theorem framed_le (data count : Nat) : framed data count ≤ data + 8 * count := by
  rw [framed, Nat.mul_comm 8]
  exact Nat.add_le_add_left (Nat.mul_le_mul_left _ (chooseOffsetSize_le _ _)) _

theorem le_framed (data count : Nat) : data + count ≤ framed data count :=
  Nat.add_le_add_left (Nat.le_mul_of_pos_right _ (chooseOffsetSize_pos _ _)) _

/-! ### Data -/

theorem alignUp_mono (le : position ≤ further) (alignment : Nat) :
    alignUp position alignment ≤ alignUp further alignment :=
  Nat.mul_le_mul_right _ (Nat.div_le_div_right (by omega))

@[simp] theorem alignUp_one (position : Nat) : alignUp position 1 = position := by
  rw [alignUp, Nat.add_sub_cancel, Nat.div_one, Nat.mul_one]

theorem areaEnd_mono
    (each : List.Forall₂ (fun part more => part.1 = more.1 ∧ part.2.length ≤ more.2.length) short long)
    (le : position ≤ further) : areaEnd position short ≤ areaEnd further long := by
  induction each generalizing position further with
  | nil => exact le
  | @cons part more short long first _ ih =>
    obtain ⟨alignment, part⟩ := part
    obtain ⟨rfl, within⟩ := first
    exact ih (Nat.add_le_add (alignUp_mono le _) within)

variable {alignment : Nat}

theorem arrayBytes_length (positive : 0 < alignment) (parts : List Bytes) :
    (arrayBytes alignment false parts).length = framed (areaEnd 0 (elemParts alignment parts)) parts.length := by
  simp [arrayBytes, ends_length, area_length (aligned_elemParts positive parts), framed]

theorem tupleBytes_length (positive : ∀ spec ∈ specs, 0 < spec.1) (count : specs.length = parts.length) :
    (tupleBytes specs none parts).length = framed (areaEnd 0 (memberParts specs parts)) (nOffsets specs) := by
  simp [tupleBytes, tupleOffsets_length count, area_length (aligned_memberParts positive parts), framed]

/-- Elements of variable size that need no alignment stand back to back. -/
theorem areaEnd_elemParts_one (parts : List Bytes) (position : Nat) :
    areaEnd position (elemParts 1 parts) = position + (parts.map List.length).sum := by
  induction parts generalizing position with
  | nil => rfl
  | cons part parts ih =>
    rw [List.map_cons, List.sum_cons, elemParts, List.map_cons, areaEnd, ih, alignUp_one]
    omega

theorem alignUp_le (position : Nat) (positive : 0 < alignment) :
    alignUp position alignment ≤ position + (alignment - 1) := by
  have bound := Nat.div_mul_le_self (position + alignment - 1) alignment
  unfold alignUp
  omega

/-- Each element takes its own bytes and at most the padding before it. -/
theorem areaEnd_elemParts_le (positive : 0 < alignment) (parts : List Bytes) (position : Nat) :
    areaEnd position (elemParts alignment parts) ≤
      position + (parts.map fun part => part.length + (alignment - 1)).sum := by
  induction parts generalizing position with
  | nil => exact le_rfl
  | cons part parts ih =>
    grind [alignUp, alignUp_le, areaEnd]

/-! ### Values of which one is never longer -/

/-- Wherever `long` is written, `short` is written too, in no more bytes. -/
def Covers (ty : Ty) (long short : Value) : Prop :=
  ∀ levels data, encode levels ty long = .ok data →
    ∃ less, encode levels ty short = .ok less ∧ less.length ≤ data.length

variable {ty elem : Ty} {long short : Value}

theorem Covers.refl (ty : Ty) (value : Value) : Covers ty value value := fun _ data written => ⟨data, written, le_rfl⟩

theorem Covers.toBytes (covers : Covers ty long short) (written : toBytes ty long = .ok data) :
    ∃ less, Gvariant.toBytes ty short = .ok less ∧ less.length ≤ data.length := by
  rw [toBytes_eq_encode] at written ⊢
  exact covers _ data written

/-- It is enough to compare one level. -/
theorem covers_of_step (step : ∀ levels data, encodeStep (encode levels) ty long = .ok data →
      ∃ less, encodeStep (encode levels) ty short = .ok less ∧ less.length ≤ data.length) : Covers ty long short := by
  intro levels data written
  cases levels with
  | zero => cases written
  | succ levels => exact step levels data written

theorem covers_bytes (le : bytes.length ≤ more.length) :
    Covers (.array .byte) (.bytes more) (.bytes bytes) :=
  covers_of_step fun _ _ written => ⟨bytes, rfl, Except.ok.inj written ▸ le⟩

theorem covers_u32 (x y : UInt32) : Covers .u32 (.u32 x) (.u32 y) :=
  covers_of_step fun _ _ written => ⟨leBytes 4 y.toNat, rfl, by rw [← Except.ok.inj written]; simp⟩

theorem covers_nothing (elem : Ty) (value : Option Value) : Covers (.maybe elem) (.maybe value) (.maybe none) :=
  covers_of_step fun _ _ _ => ⟨[], rfl, Nat.zero_le _⟩

theorem covers_just (inner : Covers elem long short) : Covers (.maybe elem) (.maybe (some long))
    (.maybe (some short)) := by
  refine covers_of_step fun levels data written => ?_
  obtain ⟨part, child, rfl⟩ := map_eq_ok.mp written
  obtain ⟨less, written, le⟩ := inner levels part child
  refine ⟨_, map_eq_ok.mpr ⟨less, written, rfl⟩, ?_⟩
  split
  · simpa using le
  · exact le

theorem covers_variant (inner : Covers elem long short) :
    Covers .variant (.variant elem long) (.variant elem short) := by
  refine covers_of_step fun levels data written => ?_
  obtain ⟨part, child, rfl⟩ := map_eq_ok.mp written
  obtain ⟨less, written, le⟩ := inner levels part child
  exact ⟨_, map_eq_ok.mpr ⟨less, written, rfl⟩, by simpa using le⟩

theorem covers_array (other : elem ≠ .byte) (dynamic : elem.fixedSize = none)
    (each : List.Forall₂ (Covers elem) longs shorts) : Covers (.array elem) (.array longs) (.array shorts) := by
  refine covers_of_step fun levels data written => ?_
  rw [encodeStep_array _ other, dynamic] at written ⊢
  obtain ⟨parts, children, rfl⟩ := map_eq_ok.mp written
  -- the elements, one by one
  obtain ⟨lesser, written, within⟩ : ∃ lesser, shorts.mapM (encode levels elem) = .ok lesser ∧
      List.Forall₂ (fun less part => less.length ≤ part.length) lesser parts := by
    clear written
    simp only [mapM_eq_ok] at children ⊢
    induction each generalizing parts with
    | nil =>
      cases children
      exact ⟨[], .nil, .nil⟩
    | cons covers _ ih =>
      obtain _ | ⟨child, children⟩ := children
      obtain ⟨less, written, le⟩ := covers levels _ child
      obtain ⟨lesser, rest, within⟩ := ih _ children
      exact ⟨less :: lesser, .cons written rest, .cons le within⟩
  refine ⟨_, map_eq_ok.mpr ⟨lesser, written, rfl⟩, ?_⟩
  have positive : 0 < elem.alignment := elem.spec_valid.alignment.pos
  simp only [Option.isSome_none, arrayBytes_length positive, within.length_eq]
  refine framed_mono (areaEnd_mono ?_ le_rfl) _
  rw [List.forall₂_map_left_iff, List.forall₂_map_right_iff]
  exact within.imp fun _ _ le => ⟨rfl, le⟩

theorem encodeStruct_covers (nonempty : members ≠ []) (dynamic : whole.fixedSize = none)
    (each : Forall₃ (fun ty long short => ∀ data, child ty long = .ok data →
      ∃ less, child ty short = .ok less ∧ less.length ≤ data.length) members longs shorts)
    (written : encodeStruct child whole members longs = .ok data) :
    ∃ less, encodeStruct child whole members shorts = .ok less ∧ less.length ≤ data.length := by
  simp only [encodeStruct_eq_ok nonempty, dynamic] at written ⊢
  obtain ⟨parts, children, rfl⟩ := written
  obtain ⟨lesser, written, within⟩ :
      ∃ lesser, Forall₃ (fun ty item part => child ty item = .ok part) members shorts lesser ∧
      List.Forall₂ (fun less part => less.length ≤ part.length) lesser parts := by
    clear nonempty
    induction each generalizing parts with
    | nil =>
      cases children
      exact ⟨[], .nil, .nil⟩
    | cons covers _ ih =>
      obtain _ | ⟨child, children⟩ := children
      obtain ⟨less, written, le⟩ := covers _ child
      obtain ⟨lesser, rest, within⟩ := ih _ children
      exact ⟨less :: lesser, .cons written rest, .cons le within⟩
  have positive := Ty.spec_positive members
  have counted : (members.map Ty.spec).length = lesser.length := by simpa using written.length_eq.2
  refine ⟨_, ⟨lesser, written, rfl⟩, ?_⟩
  rw [tupleBytes_length positive counted, tupleBytes_length positive (counted.trans within.length_eq)]
  refine framed_mono (areaEnd_mono ?_ le_rfl) _
  clear positive counted written children
  generalize members.map Ty.spec = specs
  induction within generalizing specs with
  | nil => cases specs <;> exact .nil
  | cons le _ ih =>
    cases specs with
    | nil => exact .nil
    | cons spec specs => exact .cons ⟨rfl, le⟩ (ih specs)

theorem covers_tuple (nonempty : members ≠ [])
    (dynamic : (Ty.tuple members).fixedSize = none) (each : Forall₃ Covers members longs shorts) :
    Covers (.tuple members) (.tuple longs) (.tuple shorts) :=
  covers_of_step fun levels _ written =>
    encodeStruct_covers nonempty dynamic (each.imp fun _ _ _ covers => covers levels) written

theorem covers_dictEntry
    (dynamic : (Ty.dictEntry key value).fixedSize = none) (each : Forall₃ Covers [key, value] longs shorts) :
    Covers (.dictEntry key value) (.tuple longs) (.tuple shorts) :=
  covers_of_step fun levels _ written =>
    encodeStruct_covers (List.cons_ne_nil _ _) dynamic (each.imp fun _ _ _ covers => covers levels) written

end Ostrya.Gvariant
