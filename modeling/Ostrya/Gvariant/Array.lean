/-
**Serialized arrays** (`ArrayReader`, `ArrayIter` and `write_array` of `codec.rs`).

The elements of an array of fixed-size elements stand back to back. Elements of variable size are
padded to their alignment, and their end offsets follow the data. `arrayBytes` is the array as a
function of the bytes of its elements, with no buffer and no cursor:

* `writeArray_eq`: the writer appends `arrayBytes` of what the element writers append;
* `collect_sound`, `collect_complete`: a drained reader yields `items` from `data` exactly when
  `data` is `arrayBytes` of element bytes that decode to `items`.
-/

import Ostrya.Gvariant.Offsets

namespace Ostrya.Gvariant

open ByteFormat

/-! ### The reader -/

/-- `ArrayReader`. -/
structure ArrayReader where
  data : Bytes
  elemAlignment : Nat
  elemSize : Option Nat
  z : Nat
  dataEnd : Nat
  n : Nat
  i : Nat
  pos : Nat

namespace ArrayReader

/-- `ArrayReader::new`. -/
def new (data : Bytes) (elemAlignment : Nat) (elemFixedSize : Option Nat) :
    Except Error ArrayReader :=
  let r : ArrayReader := ⟨data, elemAlignment, elemFixedSize, 0, 0, 0, 0, 0⟩
  if data.isEmpty then .ok r
  else
    match elemFixedSize with
    | some size =>
      if data.length % size ≠ 0 then
        .error (.notNormal "array size is not a multiple of the element size")
      else .ok { r with n := data.length / size }
    | none =>
      let z := offsetSizeFor data.length
      if data.length < z then .error (.notNormal "array is too small for its framing")
      else
        let dataEnd := readOffset (data.drop (data.length - z)) z
        if dataEnd > data.length - z then
          .error (.notNormal "array framing offset is out of bounds")
        else if (data.length - dataEnd) % z ≠ 0 then
          .error (.notNormal "array framing area has a partial offset")
        else if chooseOffsetSize dataEnd ((data.length - dataEnd) / z) ≠ z then
          .error (.notNormal "array framing offset size is not normal-form")
        else .ok { r with z := z, dataEnd := dataEnd, n := (data.length - dataEnd) / z }

/-- The framing offset at index `idx`. -/
def offsetAt (r : ArrayReader) (idx : Nat) : Nat :=
  readOffset (r.data.extract (r.dataEnd + idx * r.z) (r.dataEnd + idx * r.z + r.z)) r.z

/-- `next_slice`: the yielded slice or error, if any, and the reader after the call. -/
def nextSlice (r : ArrayReader) : Option (Except Error Bytes) × ArrayReader :=
  if r.i ≥ r.n then (none, r)
  else
    let idx := r.i
    let next := { r with i := r.i + 1 }
    match r.elemSize with
    | some size => (some (.ok (r.data.extract (idx * size) (idx * size + size))), next)
    | none =>
      let stop := r.offsetAt idx
      let start := alignUp r.pos r.elemAlignment
      if start > stop ∨ stop > r.dataEnd then
        -- A framing error leaves `pos` unusable, so the reader is fused.
        (some (.error (.notNormal "array element offsets are out of order")), { next with i := r.n })
      else
        match checkPadding (r.data.extract r.pos start) with
        | .error fault => (some (.error fault), { next with i := r.n })
        | .ok () => (some (.ok (r.data.extract start stop)), { next with pos := stop })

/-- The loop that drains the reader and decodes each slice, for at most `fuel` slices. -/
def collectFrom {α : Type} (decode : Bytes → Except Error α) :
    (fuel : Nat) → ArrayReader → Except Error (List α)
  | 0, _ => .ok []
  | fuel + 1, r =>
    match r.nextSlice with
    | (none, _) => .ok []
    | (some slice, next) => do
      let item ← decode (← slice)
      let items ← collectFrom decode fuel next
      .ok (item :: items)

/-- Drains the reader. It yields one slice for each index from `i` to `n`. -/
def collect {α : Type} (decode : Bytes → Except Error α) (r : ArrayReader) :
    Except Error (List α) :=
  r.collectFrom decode (r.n - r.i)

end ArrayReader

/-! ### The writer -/

/-- A function that appends to a buffer. -/
abbrev Writer := Bytes → Except Error Bytes

/-- The loop of `write_array` over fixed-size elements. -/
def writeFixed : List Writer → Writer
  | [], out => .ok out
  | write :: writers, out => do writeFixed writers (← write out)

/-- The loop of `write_array` over variable-size elements: the buffer and the end offsets. -/
def writeElems (elemAlignment start : Nat) : List Writer → Bytes → Except Error (Bytes × List Nat)
  | [], out => .ok (out, [])
  | write :: writers, out => do
    let out ← write (padTo out elemAlignment)
    let (last, ends) ← writeElems elemAlignment start writers out
    .ok (last, (out.length - start) :: ends)

/-- The offsets at the end of an array. -/
def writeOffsets (out : Bytes) (ends : List Nat) (z : Nat) : Bytes :=
  ends.foldl (fun out stop => writeOffset out stop z) out

/-- `write_array`, with the element writers as a list. -/
def writeArray (elemAlignment : Nat) (elemFixed : Bool) (writers : List Writer) : Writer := fun out =>
  let start := out.length
  if elemFixed then writeFixed writers out
  else do
    let (last, ends) ← writeElems elemAlignment start writers out
    if ends.isEmpty then .ok last
    else .ok (writeOffsets last ends (chooseOffsetSize (last.length - start) ends.length))

/-! ### The bytes of an array -/

/-- The parts of an array of variable-size elements. -/
abbrev elemParts (elemAlignment : Nat) (parts : List Bytes) : List Part :=
  parts.map fun part => (elemAlignment, part)

/-- **An array, from the bytes of its elements.** -/
def arrayBytes (elemAlignment : Nat) (elemFixed : Bool) (parts : List Bytes) : Bytes :=
  if elemFixed then parts.flatten
  else
    let body := area 0 (elemParts elemAlignment parts)
    body ++ (ends 0 (elemParts elemAlignment parts)).flatMap
      (leBytes (chooseOffsetSize body.length parts.length))

/-- At every aligned end of a buffer, `write` appends what `result` holds or fails as it does. -/
def Appends (alignment : Nat) (write : Writer) (result : Except Error Bytes) : Prop :=
  ∀ out : Bytes, alignment ∣ out.length → write out = result.map (out ++ ·)

variable {elemAlignment : Nat} {parts : List Bytes}

theorem aligned_elemParts (positive : 0 < elemAlignment) (parts : List Bytes) :
    Aligned (elemParts elemAlignment parts) := by
  intro part member
  obtain ⟨bytes, _, rfl⟩ := List.mem_map.mp member
  exact positive

theorem sum_length_le_arrayBytes (elemAlignment : Nat) (elemFixed : Bool) (parts : List Bytes) :
    (parts.map List.length).sum ≤ (arrayBytes elemAlignment elemFixed parts).length := by
  unfold arrayBytes
  cases elemFixed with
  | true => rw [if_pos rfl, List.length_flatten]
  | false =>
    have inside := sum_length_le_area (elemParts elemAlignment parts) 0
    rw [List.map_map] at inside
    simp only [Bool.false_eq_true, if_false, List.length_append]
    exact le_trans inside (Nat.le_add_right _ _)

theorem length_le_arrayBytes
    (member : part ∈ parts) : part.length ≤ (arrayBytes elemAlignment elemFixed parts).length :=
  (List.le_sum_of_mem (List.mem_map_of_mem member)).trans (sum_length_le_arrayBytes _ _ parts)

theorem count_le_arrayBytes (elemAlignment : Nat) (parts : List Bytes) :
    parts.length ≤ (arrayBytes elemAlignment false parts).length := by
  simp [arrayBytes, ends_length]
  exact le_trans (Nat.le_mul_of_pos_right _ (chooseOffsetSize_pos _ _)) (Nat.le_add_left _ _)

theorem writeOffsets_eq (narrow : z ≤ 8) (ends : List Nat) (out : Bytes) :
    writeOffsets out ends z = out ++ ends.flatMap (leBytes z) := by
  induction ends generalizing out with
  | nil => simp [writeOffsets]
  | cons stop ends ih =>
    rw [List.flatMap_cons, ← List.append_assoc, ← writeOffset_eq out stop narrow]
    exact ih _

section Writing

variable {elemAlignment : Nat} {writers : List Writer} {results : List (Except Error Bytes)}

theorem writeFixed_eq (each : List.Forall₂ (Appends elemAlignment) writers results)
    (whole : ∀ part, .ok part ∈ results → elemAlignment ∣ part.length) (out : Bytes)
    (aligned : elemAlignment ∣ out.length) :
    writeFixed writers out = (results.mapM id).map fun parts => out ++ parts.flatten := by
  induction each generalizing out with
  | nil => simp [writeFixed, Except.map]
  | @cons write result writers results first _ ih =>
    rw [writeFixed, first out aligned, List.mapM_cons]
    cases result with
    | error fault => rfl
    | ok part =>
      have next := ih (fun p member => whole p (.tail _ member)) (out ++ part) (by
        rw [List.length_append]
        exact Nat.dvd_add aligned (whole part (.head _)))
      simp only [Except.map, ok_bind, id, next]
      cases results.mapM id with
      | error fault => rfl
      | ok parts => simp

/-- Writing the elements lays them out as `area` does. -/
theorem writeElems_eq (positive : 0 < elemAlignment) (each : List.Forall₂ (Appends elemAlignment) writers results)
    (base : elemAlignment ∣ start) (out : Bytes) (after : start ≤ out.length) :
    writeElems elemAlignment start writers out = (results.mapM id).map fun parts =>
      (out ++ area (out.length - start) (elemParts elemAlignment parts),
        ends (out.length - start) (elemParts elemAlignment parts)) := by
  induction each generalizing out with
  | nil => simp [writeElems, Except.map, area, ends]
  | @cons write result writers results first _ ih =>
    have padded := padTo_length positive out
    have relative : alignUp out.length elemAlignment
        = start + alignUp (out.length - start) elemAlignment := by
      rw [← alignUp_add_of_dvd positive base, Nat.add_sub_cancel' after]
    rw [writeElems, first _ (padded ▸ dvd_alignUp _ _), List.mapM_cons]
    cases result with
    | error fault => rfl
    | ok part =>
      have length : (padTo out elemAlignment ++ part).length - start
          = alignUp (out.length - start) elemAlignment + part.length := by
        rw [List.length_append, padded]
        omega
      have next := ih (padTo out elemAlignment ++ part) (by rw [List.length_append, padded]; omega)
      simp only [Except.map, ok_bind, id, next, length]
      cases results.mapM id with
      | error fault => rfl
      | ok parts =>
        have gap : alignUp out.length elemAlignment - out.length
            = alignUp (out.length - start) elemAlignment - (out.length - start) := by omega
        simp [elemParts, area, ends, padTo, gap]

/-- **`write_array` appends the array of what its element writers append.** -/
theorem writeArray_eq (positive : 0 < elemAlignment) {elemFixed : Bool}
    (each : List.Forall₂ (Appends elemAlignment) writers results)
    (whole : elemFixed = true → ∀ part, .ok part ∈ results → elemAlignment ∣ part.length) :
    Appends elemAlignment (writeArray elemAlignment elemFixed writers)
      ((results.mapM id).map (arrayBytes elemAlignment elemFixed)) := by
  intro out aligned
  unfold writeArray
  cases elemFixed with
  | true =>
    rw [if_pos rfl, writeFixed_eq each (whole rfl) out aligned]
    cases results.mapM id with
    | error fault => rfl
    | ok parts => simp [Except.map, arrayBytes]
  | false =>
    simp only [Bool.false_eq_true, if_false]
    rw [writeElems_eq positive each aligned out le_rfl, Nat.sub_self]
    cases results.mapM id with
    | error fault => rfl
    | ok parts =>
      simp only [Except.map, ok_bind]
      cases parts with
      | nil => simp [elemParts, ends, area, arrayBytes]
      | cons part parts =>
        rw [if_neg (by simp [elemParts, ends]), writeOffsets_eq (chooseOffsetSize_le _ _),
          ends_length, List.length_map, List.length_append, Nat.add_sub_cancel_left]
        simp [arrayBytes]

end Writing

/-! ### Reading back -/

namespace ArrayReader

variable {α : Type} {decode : Bytes → Except Error α} {r : ArrayReader} {data : Bytes} {size : Nat}

/-- What the bytes of the elements decode to. -/
abbrev Decoded (decode : Bytes → Except Error α) (parts : List Bytes) (items : List α) : Prop :=
  List.Forall₂ (fun part item => decode part = .ok item) parts items

/-- What the reader checks of the next variable-size element. -/
def NextFits (r : ArrayReader) : Prop :=
  alignUp r.pos r.elemAlignment ≤ r.offsetAt r.i ∧ r.offsetAt r.i ≤ r.dataEnd ∧
    r.data.extract r.pos (alignUp r.pos r.elemAlignment)
      = zeros (alignUp r.pos r.elemAlignment - r.pos)

theorem nextSlice_of_fits (dynamic : r.elemSize = none) (more : r.i < r.n)
    (inside : r.dataEnd ≤ r.data.length) (fits : r.NextFits) :
    r.nextSlice = (some (.ok (r.data.extract (alignUp r.pos r.elemAlignment) (r.offsetAt r.i))),
      { r with i := r.i + 1, pos := r.offsetAt r.i }) := by
  obtain ⟨ordered, bounded, padding⟩ := fits
  have checked : checkPadding (r.data.extract r.pos (alignUp r.pos r.elemAlignment)) = .ok () := by
    rw [checkPadding_eq_ok, extract_length (by omega)]
    exact padding
  rw [nextSlice, if_neg (by omega), dynamic]
  simp only [checked]
  rw [if_neg (by omega)]

theorem nextSlice_of_not_fits (dynamic : r.elemSize = none) (more : r.i < r.n)
    (inside : r.dataEnd ≤ r.data.length) (unfit : ¬ r.NextFits) :
    ∃ fault next, r.nextSlice = (some (.error fault), next) := by
  rw [nextSlice, if_neg (by omega), dynamic]
  simp only
  split
  · exact ⟨_, _, rfl⟩
  · next ordered =>
    split
    · exact ⟨_, _, rfl⟩
    · next checked =>
      rw [checkPadding_eq_ok, extract_length (by omega)] at checked
      exact absurd ⟨by omega, by omega, checked⟩ unfit

/-- **Draining a reader of variable-size elements** cuts the data at the framing offsets. -/
theorem collectFrom_eq_ok_iff (dynamic : r.elemSize = none) (positive : 0 < r.elemAlignment)
    (within : r.pos ≤ r.dataEnd) (inside : r.dataEnd ≤ r.data.length) (count : r.i + fuel = r.n) {items : List α} :
    r.collectFrom decode fuel = .ok items ↔
      ∃ parts stop, Tiles (r.data.take r.dataEnd) r.pos (elemParts r.elemAlignment parts) stop ∧
        ends r.pos (elemParts r.elemAlignment parts) = (List.range' r.i fuel).map r.offsetAt ∧
        Decoded decode parts items := by
  induction fuel generalizing r items with
  | zero =>
    rw [collectFrom, Except.ok.injEq]
    constructor
    · rintro rfl
      exact ⟨[], r.pos, tiles_nil_iff.mpr ⟨rfl, by rw [List.length_take]; omega⟩, rfl, .nil⟩
    · rintro ⟨parts, stop, _, offsets, each⟩
      have none_left := congrArg List.length offsets
      simp only [ends_length, List.length_map, List.length_range'] at none_left
      obtain rfl := List.length_eq_zero_iff.mp none_left
      cases each
      rfl
  | succ fuel ih =>
    have sized : (r.data.take r.dataEnd).length = r.dataEnd := by
      rw [List.length_take]
      omega
    rw [collectFrom, List.range'_succ, List.map_cons]
    by_cases fits : r.NextFits
    · rw [nextSlice_of_fits dynamic (by omega) inside fits]
      obtain ⟨ordered, bounded, padding⟩ := fits
      have slice := @extract_length _ (alignUp r.pos r.elemAlignment) _ (le_trans bounded inside)
      have step := @ih { r with i := r.i + 1, pos := r.offsetAt r.i } dynamic positive bounded
        inside (by simp only; omega)
      have stop_eq : alignUp r.pos r.elemAlignment
          + (r.data.extract (alignUp r.pos r.elemAlignment) (r.offsetAt r.i)).length
          = r.offsetAt r.i := by
        omega
      simp only [ok_bind, bind_eq_ok, Except.ok.injEq, step]
      constructor
      · rintro ⟨item, first, rest, ⟨parts, stop, tiles, offsets, each⟩, rfl⟩
        refine ⟨_ :: parts, stop, (tiles_cons_iff positive (aligned_elemParts positive _)).mpr
          ⟨⟨?_, ?_⟩, ?_⟩, ?_, .cons first each⟩
        · rw [extract_take (le_trans ordered bounded)]
          exact padding
        · rw [stop_eq, extract_take bounded]
        · rw [stop_eq]
          exact tiles
        · simp only [List.map_cons, ends, stop_eq]
          exact congrArg _ offsets
      · rintro ⟨parts, stop, tiles, offsets, each⟩
        cases each with
        | nil => cases offsets
        | @cons part item parts items first others =>
          obtain ⟨⟨_, here⟩, rest⟩ := (tiles_cons_iff positive (aligned_elemParts positive _)).mp tiles
          simp only [List.map_cons, ends, List.cons.injEq] at offsets
          rw [offsets.1] at here rest
          rw [extract_take bounded] at here
          refine ⟨item, here ▸ first, items, ⟨parts, stop, rest, ?_, others⟩, rfl⟩
          rw [← offsets.1]
          exact offsets.2
    · obtain ⟨fault, next, failed⟩ := nextSlice_of_not_fits dynamic (by omega) inside fits
      rw [failed]
      constructor
      · intro impossible
        cases impossible
      · rintro ⟨parts, stop, tiles, offsets, each⟩
        cases parts with
        | nil => cases offsets
        | cons part parts =>
          obtain ⟨⟨padding, here⟩, rest⟩ :=
            (tiles_cons_iff positive (aligned_elemParts positive _)).mp tiles
          simp only [List.map_cons, ends, List.cons.injEq] at offsets
          have last := (rest.le (aligned_elemParts positive _)).trans rest.inside
          refine absurd ⟨by omega, by omega, ?_⟩ fits
          exact (extract_take (by omega)).symm.trans padding

theorem map_offsetAt (r : ArrayReader) (first count : Nat) :
    (List.range' first count).map r.offsetAt
      = leInts r.z count (r.data.drop (r.dataEnd + first * r.z)) := by
  induction count generalizing first with
  | zero => rfl
  | succ count ih =>
    have next : r.dataEnd + (first + 1) * r.z = r.dataEnd + first * r.z + r.z := by ring
    rw [List.range'_succ, List.map_cons, ih, leInts, List.drop_drop, next, offsetAt,
      readOffset_eq_leNat, List.extract_eq_take_drop, Nat.add_sub_cancel_left]

/-- The framing of a nonempty array of variable-size elements that `new` accepts. -/
structure Framed (data : Bytes) (z dataEnd n : Nat) : Prop where
  last : dataEnd = leNat (data.drop (data.length - z))
  total : data.length = dataEnd + n * z
  nonempty : 0 < n
  width : chooseOffsetSize dataEnd n = z

theorem new_eq_ok (nonempty : data ≠ []) (opened : new data elemAlignment none = .ok r) :
    ∃ z dataEnd n, r = ⟨data, elemAlignment, none, z, dataEnd, n, 0, 0⟩ ∧ Framed data z dataEnd n := by
  have positive := offsetSizeFor_pos data.length
  unfold new at opened
  rw [if_neg (by simpa using nonempty)] at opened
  simp only [readOffset_eq_leNat] at opened
  generalize stop_eq : leNat (data.drop (data.length - offsetSizeFor data.length)) = dataEnd at opened
  split_ifs at opened with small bounded whole width
  cases opened
  have split := Nat.div_add_mod (data.length - dataEnd) (offsetSizeFor data.length)
  rw [not_not.mp whole, Nat.add_zero, Nat.mul_comm] at split
  exact ⟨_, _, _, rfl, stop_eq.symm, by omega, Nat.div_pos (by omega) positive, not_not.mp width⟩

theorem new_of_framed {z dataEnd n : Nat} (framed : Framed data z dataEnd n) :
    new data elemAlignment none = .ok ⟨data, elemAlignment, none, z, dataEnd, n, 0, 0⟩ := by
  obtain ⟨last, total, nonempty, width⟩ := framed
  have positive : 0 < z := width ▸ chooseOffsetSize_pos _ _
  have derived : offsetSizeFor data.length = z := by
    have agree := offsetSizeFor_chooseOffsetSize dataEnd n
    rwa [width, ← total] at agree
  have room : z ≤ n * z := Nat.le_mul_of_pos_left _ nonempty
  have offsets : data.length - dataEnd = n * z := by omega
  have filled : ¬ data.isEmpty = true := by
    rw [List.isEmpty_iff, ← List.length_eq_zero_iff]
    omega
  unfold new
  simp only [derived, readOffset_eq_leNat, ← last, offsets, Nat.mul_div_cancel _ positive, width,
    Nat.mul_mod_left]
  rw [if_neg filled, if_neg (by omega), if_neg (by omega), if_neg (by simp), if_neg (by simp)]

/-- A drained array of variable-size elements is the framing of its element bytes. -/
theorem sound_of_dynamic (positive : 0 < elemAlignment)
    (opened : new data elemAlignment none = .ok r) (read : r.collect decode = .ok items) :
    ∃ parts, arrayBytes elemAlignment false parts = data ∧
      Decoded decode parts items := by
  by_cases empty : data = []
  · subst empty
    cases opened
    cases read
    exact ⟨[], rfl, .nil⟩
  obtain ⟨z, dataEnd, n, rfl, last, total, nonempty, width⟩ := new_eq_ok empty opened
  rw [collect, Nat.sub_zero, collectFrom_eq_ok_iff rfl positive (Nat.zero_le _) (by simp only; omega)
    (Nat.zero_add _)] at read
  obtain ⟨parts, stop, tiles, offsets, each⟩ := read
  simp only [map_offsetAt, Nat.zero_mul, Nat.add_zero] at tiles offsets
  have area_sized : (data.drop dataEnd).length = n * z := by
    rw [List.length_drop]
    omega
  -- The last offset is the one that `new` read as the end of the data.
  have finish : stop = dataEnd := by
    obtain ⟨less, rfl⟩ : ∃ less, n = less + 1 := ⟨n - 1, by omega⟩
    have ending := getLast?_leInts area_sized
    have filled : elemParts elemAlignment parts ≠ [] := by
      intro none_left
      rw [none_left] at offsets
      cases offsets
    have start : dataEnd + less * z = data.length - z := by
      have expand : (less + 1) * z = less * z + z := by ring
      omega
    rw [← offsets, getLast?_ends 0 filled, tiles.ending, List.drop_drop, start, ← last] at ending
    exact Option.some.inj ending
  subst finish
  have body : area 0 (elemParts elemAlignment parts) = data.take stop := by
    rw [← tiles.take, List.take_take, Nat.min_self]
  have count : parts.length = n := by
    have sized := congrArg List.length offsets
    rwa [ends_length, List.length_map, leInts_length] at sized
  refine ⟨parts, ?_, each⟩
  have bodyLength : (data.take stop).length = stop := by
    rw [List.length_take]
    omega
  simp only [arrayBytes, Bool.false_eq_true, if_false]
  rw [body, bodyLength, count, width, offsets, flatMap_leInts area_sized, List.take_append_drop]

/-- A written array of variable elements is read back. -/
theorem complete_of_dynamic (positive : 0 < elemAlignment)
    (fits : Addressable (arrayBytes elemAlignment false parts)) {items : List α}
    (each : Decoded decode parts items) :
    ∃ r, new (arrayBytes elemAlignment false parts) elemAlignment none = .ok r ∧
      r.collect decode = .ok items := by
  by_cases empty : parts = []
  · subst empty
    cases each
    exact ⟨⟨[], elemAlignment, none, 0, 0, 0, 0, 0⟩, rfl, rfl⟩
  have aligned := aligned_elemParts positive parts
  have bodyEnd : (area 0 (elemParts elemAlignment parts)).length
      = areaEnd 0 (elemParts elemAlignment parts) := area_length aligned 0
  have filled : elemParts elemAlignment parts ≠ [] := by simpa using empty
  have count : 0 < parts.length := List.length_pos_iff.mpr empty
  simp only [arrayBytes, Bool.false_eq_true, if_false, bodyEnd, Addressable] at fits ⊢
  have bounded : ∀ value ∈ ends 0 (elemParts elemAlignment parts), value ≤ areaEnd 0 (elemParts elemAlignment parts) :=
    fun _ => le_areaEnd_of_mem_ends aligned 0
  have final := getLast?_ends 0 filled
  have number : (ends 0 (elemParts elemAlignment parts)).length = parts.length := by simp
  have tiles := @tiles_of_area _ [] [] aligned
  simp only [List.nil_append, List.append_nil, List.length_nil] at tiles
  generalize areaEnd 0 (elemParts elemAlignment parts) = stop at *
  generalize area 0 (elemParts elemAlignment parts) = body at *
  generalize stored : ends 0 (elemParts elemAlignment parts) = offsets at *
  generalize width : chooseOffsetSize stop parts.length = z at *
  have offsetsLength : (offsets.flatMap (leBytes z)).length = parts.length * z := by
    rw [length_flatMap_leBytes, number]
  have small : ∀ value ∈ offsets, value < 256 ^ z := by
    intro value member
    have le := bounded value member
    rw [← width]
    rw [List.length_append, bodyEnd] at fits
    exact lt_of_chooseOffsetSize (by omega) (by omega)
  have back : (body ++ offsets.flatMap (leBytes z)).drop stop = offsets.flatMap (leBytes z) := by
    rw [← bodyEnd, List.drop_left]
  have recovered := leInts_flatMap small
  rw [number] at recovered
  have framed : Framed (body ++ offsets.flatMap (leBytes z)) z stop parts.length := by
    refine ⟨?_, by rw [List.length_append, bodyEnd, offsetsLength], count, width⟩
    obtain ⟨less, count_eq⟩ : ∃ less, parts.length = less + 1 := ⟨parts.length - 1, by omega⟩
    have ending := getLast?_leInts (count_eq ▸ offsetsLength)
    rw [← count_eq, recovered, final, Option.some.injEq] at ending
    have start : stop + parts.length * z - z = stop + less * z := by
      rw [count_eq, show (less + 1) * z = less * z + z by ring]
      omega
    rw [List.length_append, bodyEnd, offsetsLength, start, ← List.drop_drop, back]
    exact ending
  refine ⟨_, new_of_framed framed, ?_⟩
  rw [collect, Nat.sub_zero, collectFrom_eq_ok_iff rfl positive (Nat.zero_le _)
    (by simp only [List.length_append, bodyEnd]; omega) (Nat.zero_add _)]
  refine ⟨parts, stop, ?_, ?_, each⟩
  · simp only [← bodyEnd, List.take_left]
    rw [bodyEnd]
    exact tiles
  · simp [map_offsetAt, back, recovered, stored]

/-! #### Fixed-size elements -/

/-- Draining a reader cuts the rest into equal parts. -/
theorem collectFrom_fixed_iff (fixed : r.elemSize = some size)
    (count : r.i + fuel = r.n) (total : r.data.length = r.n * size) {items : List α} :
    r.collectFrom decode fuel = .ok items ↔
      ∃ parts : List Bytes, parts.flatten = r.data.drop (r.i * size) ∧
        (∀ part ∈ parts, part.length = size) ∧ parts.length = fuel ∧
        Decoded decode parts items := by
  induction fuel generalizing r items with
  | zero =>
    rw [collectFrom, Except.ok.injEq]
    constructor
    · rintro rfl
      refine ⟨[], ?_, fun _ member => (by cases member), rfl, .nil⟩
      rw [List.drop_eq_nil_of_le (by rw [total, ← count, Nat.add_zero])]
      rfl
    · rintro ⟨parts, _, _, none_left, each⟩
      obtain rfl := List.length_eq_zero_iff.mp none_left
      cases each
      rfl
  | succ fuel ih =>
    have step := @ih { r with i := r.i + 1 } fixed (by simp only; omega) total
    have rest : r.data.drop ((r.i + 1) * size) = (r.data.drop (r.i * size)).drop size := by
      rw [List.drop_drop]
      congr 1
      ring
    have room : size ≤ (r.data.drop (r.i * size)).length := by
      have le : (r.i + 1) * size ≤ r.n * size := Nat.mul_le_mul_right _ (by omega)
      have expand : (r.i + 1) * size = r.i * size + size := by ring
      rw [List.length_drop]
      omega
    have front : ((r.data.drop (r.i * size)).take size).length = size := by
      rw [List.length_take]
      omega
    have next : r.nextSlice
        = (some (.ok ((r.data.drop (r.i * size)).take size)), { r with i := r.i + 1 }) := by
      rw [nextSlice, if_neg (by omega), fixed]
      simp
    rw [collectFrom, next]
    simp only [ok_bind, bind_eq_ok, Except.ok.injEq, step]
    constructor
    · rintro ⟨item, first, others, ⟨parts, joined, sizes, length, each⟩, rfl⟩
      refine ⟨_ :: parts, ?_, ?_, by rw [List.length_cons, length], .cons first each⟩
      · rw [List.flatten_cons, joined, rest, List.take_append_drop]
      · exact List.forall_mem_cons.mpr ⟨front, sizes⟩
    · rintro ⟨parts, joined, sizes, length, each⟩
      cases each with
      | nil => cases length
      | @cons part item parts items first others =>
        have here := sizes part (.head _)
        rw [List.flatten_cons] at joined
        have same : part = (r.data.drop (r.i * size)).take size := by
          rw [← joined, ← here, List.take_left]
        refine ⟨item, same ▸ first, items, ⟨parts, ?_, fun p member =>
          sizes p (.tail _ member), Nat.succ_injective length, others⟩, rfl⟩
        rw [rest, ← joined, ← here, List.drop_left]

theorem length_flatten_of_fixed
    (sizes : ∀ part ∈ parts, part.length = size) : parts.flatten.length = parts.length * size := by
  induction parts with
  | nil => simp
  | cons part parts ih =>
    rw [List.flatten_cons, List.length_append, sizes part (.head _),
      ih fun p member => sizes p (.tail _ member), List.length_cons]
    ring

theorem sound_of_fixed (opened : new data elemAlignment (some size) = .ok r) (read : r.collect decode = .ok items) :
    ∃ parts : List Bytes, parts.flatten = data ∧ (∀ part ∈ parts, part.length = size) ∧
      Decoded decode parts items := by
  unfold new at opened
  split at opened
  · next empty =>
    cases opened
    cases read
    exact ⟨[], (List.isEmpty_iff.mp empty).symm, fun _ member => (by cases member), .nil⟩
  · simp only at opened
    split at opened
    · cases opened
    · next whole =>
      cases opened
      have split := Nat.div_add_mod data.length size
      rw [not_not.mp whole, Nat.add_zero, Nat.mul_comm] at split
      rw [collect, Nat.sub_zero, collectFrom_fixed_iff rfl (Nat.zero_add _) split.symm] at read
      obtain ⟨parts, joined, sizes, _, each⟩ := read
      rw [Nat.zero_mul, List.drop_zero] at joined
      exact ⟨parts, joined, sizes, each⟩

/-- So is one of fixed elements. -/
theorem complete_of_fixed (positive : 0 < size) (sizes : ∀ part ∈ parts, part.length = size)
    (each : Decoded decode parts items) :
    ∃ r, new parts.flatten elemAlignment (some size) = .ok r ∧ r.collect decode = .ok items := by
  have total := length_flatten_of_fixed sizes
  by_cases empty : parts.flatten = []
  · have none_left : parts = [] := by
      rw [empty, List.length_nil] at total
      rcases Nat.mul_eq_zero.mp total.symm with zero | zero
      · exact List.length_eq_zero_iff.mp zero
      · omega
    subst none_left
    cases each
    exact ⟨⟨[], elemAlignment, some size, 0, 0, 0, 0, 0⟩, rfl, rfl⟩
  · refine ⟨⟨parts.flatten, elemAlignment, some size, 0, 0, parts.length, 0, 0⟩, ?_, ?_⟩
    · unfold new
      rw [if_neg (by simpa using empty)]
      simp only [total, Nat.mul_mod_left, Nat.mul_div_cancel _ positive]
      rw [if_neg (by simp)]
    · rw [collect, Nat.sub_zero, collectFrom_fixed_iff rfl (Nat.zero_add _) total]
      exact ⟨parts, by rw [Nat.zero_mul, List.drop_zero], sizes, rfl, each⟩

/-! #### Both kinds of elements -/

/-- The bytes of each element have the fixed size of the element type, if it has one. -/
def Sized (size : Option Nat) (parts : List Bytes) : Prop :=
  ∀ n, size = some n → ∀ part ∈ parts, part.length = n

/-- **A drained array is the array of its element bytes.** -/
theorem collect_sound (valid : ValidSpec spec)
    (opened : new data spec.1 spec.2 = .ok r) (read : r.collect decode = .ok items) :
    ∃ parts, arrayBytes spec.1 spec.2.isSome parts = data ∧ Sized spec.2 parts ∧
      Decoded decode parts items := by
  obtain ⟨alignment, size⟩ := spec
  cases size with
  | none =>
    obtain ⟨parts, whole, each⟩ := sound_of_dynamic valid.alignment.pos opened read
    exact ⟨parts, whole, fun _ impossible => (by cases impossible), each⟩
  | some size =>
    obtain ⟨parts, whole, sizes, each⟩ := sound_of_fixed opened read
    exact ⟨parts, by simpa [arrayBytes] using whole, fun _ same => (by cases same; exact sizes), each⟩

/-- **The array of some element bytes drains to what they decode to.** -/
theorem collect_complete (valid : ValidSpec spec)
    (fits : Addressable (arrayBytes spec.1 spec.2.isSome parts)) (sized : Sized spec.2 parts)
    (each : Decoded decode parts items) :
    ∃ r, new (arrayBytes spec.1 spec.2.isSome parts) spec.1 spec.2 = .ok r ∧
      r.collect decode = .ok items := by
  obtain ⟨alignment, size⟩ := spec
  cases size with
  | none => exact complete_of_dynamic valid.alignment.pos fits each
  | some size => exact complete_of_fixed (valid.positive size rfl) (sized size rfl) each

/-- Two decoders over the slices of one reader. -/
theorem collectFrom_imp {α β : Type} {decode : Bytes → Except Error α} {decode' : Bytes → Except Error β}
    {R : α → β → Prop} (step : ∀ part item, decode part = .ok item → ∃ item', decode' part = .ok item' ∧ R item item')
    {items : List α} (read : r.collectFrom decode fuel = .ok items) :
    ∃ items', r.collectFrom decode' fuel = .ok items' ∧ List.Forall₂ R items items' := by
  induction fuel generalizing r items with
  | zero =>
    cases read
    exact ⟨[], rfl, .nil⟩
  | succ fuel ih =>
    rw [collectFrom] at read ⊢
    generalize r.nextSlice = yielded at read ⊢
    rcases yielded with ⟨_ | slice, next⟩
    · cases read
      exact ⟨[], rfl, .nil⟩
    · simp only [bind_eq_ok, Except.ok.injEq] at read ⊢
      obtain ⟨part, cut, item, decoded, rest, others, rfl⟩ := read
      obtain ⟨item', decoded', related⟩ := step part item decoded
      obtain ⟨rest', others', each⟩ := ih others
      exact ⟨item' :: rest', ⟨part, cut, item', decoded', rest', others', rfl⟩, .cons related each⟩

end ArrayReader

end Ostrya.Gvariant
