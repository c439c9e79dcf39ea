/-
**Serialized tuples and dict entries** (`TupleReader` and `TupleWriter` of `codec.rs`).

The members of a tuple are padded to their alignments. A variable-size member other than the last
has its end offset at the end of the tuple, in reverse member order; a tuple of fixed size has no
offsets and is padded to its size. `tupleBytes` is the tuple as a function of the bytes of its
members:

* `writeTuple_eq`: the writer appends `tupleBytes` of what the member writers append;
* `splitTuple_sound`, `splitTuple_complete`: the reader cuts `data` into `parts` exactly when `data`
  is `tupleBytes` of `parts`.
-/

import Ostrya.Gvariant.Array

namespace Ostrya.Gvariant

open ByteFormat

/-! ### The reader -/

/-- `usize::checked_add`. -/
def checkedAdd (first second : Nat) : Option Nat :=
  if first + second ≤ usizeMax then some (first + second) else none

/-- `TupleReader`. -/
structure TupleReader where
  data : Bytes
  framingStart : Nat
  z : Nat
  pos : Nat
  offsetIndex : Nat
  fixed : Bool

namespace TupleReader

/-- `TupleReader::new`. -/
def new (data : Bytes) (nOffsets : Nat) (fixedSize : Option Nat) : Except Error TupleReader :=
  if fixedSize.any (data.length != ·) then
    .error (.notNormal "fixed-size tuple has the wrong size")
  else
    let z := offsetSizeFor data.length
    if data.length < nOffsets * z then .error (.notNormal "tuple is too small for its framing")
    else
      let framingStart := data.length - nOffsets * z
      if nOffsets > 0 ∧ chooseOffsetSize framingStart nOffsets ≠ z then
        .error (.notNormal "tuple framing offset size is not normal-form")
      else .ok ⟨data, framingStart, z, 0, 0, fixedSize.isSome⟩

/-- The framing offset at index `idx`, counted from the end of the tuple. -/
def offsetAt (r : TupleReader) (idx : Nat) : Nat :=
  let start := r.data.length - (idx + 1) * r.z
  readOffset (r.data.extract start (start + r.z)) r.z

/-- The end that a member which starts at `start` states, `none` on overflow. -/
def memberEnd (r : TupleReader) (start : Nat) (fixedSize : Option Nat) (isLast : Bool) : Option Nat :=
  match fixedSize with
  | some size => checkedAdd start size
  | none => if isLast then some r.framingStart else some (r.offsetAt r.offsetIndex)

/-- A variable-size member other than the last takes one offset. -/
def offsetsOf (fixedSize : Option Nat) (isLast : Bool) : Nat :=
  if fixedSize.isNone && !isLast then 1 else 0

/-- `TupleReader::field`. -/
def field (r : TupleReader) (alignment : Nat) (fixedSize : Option Nat) (isLast : Bool) :
    Except Error (Bytes × TupleReader) :=
  let start := alignUp r.pos alignment
  match r.memberEnd start fixedSize isLast with
  | none => .error (.notNormal "tuple member offset overflows")
  | some stop =>
    if start > stop ∨ stop > r.framingStart then
      .error (.notNormal "tuple member offsets are out of order")
    else do
      checkPadding (r.data.extract r.pos start)
      .ok (r.data.extract start stop,
        { r with pos := stop, offsetIndex := r.offsetIndex + offsetsOf fixedSize isLast })

/-- `TupleReader::finish`. -/
def finish (r : TupleReader) : Except Error Unit :=
  if r.fixed then checkPadding (r.data.drop r.pos)
  else if r.pos ≠ r.framingStart then .error (.notNormal "tuple members do not fill the tuple")
  else .ok ()

end TupleReader

/-! ### The writer -/

/-- `TupleWriter`. -/
structure TupleWriter where
  out : Bytes
  start : Nat
  offsets : List Nat

namespace TupleWriter

/-- `TupleWriter::new`. -/
def new (out : Bytes) : TupleWriter := ⟨out, out.length, []⟩

/-- `TupleWriter::field_dyn`. -/
def field (w : TupleWriter) (alignment : Nat) (fixedSize : Option Nat) (isLast : Bool)
    (write : Writer) : Except Error TupleWriter := do
  let out ← write (padTo w.out alignment)
  if !isLast && fixedSize.isNone then
    .ok { w with out := out, offsets := w.offsets ++ [out.length - w.start] }
  else .ok { w with out := out }

/-- `TupleWriter::finish`. -/
def finish (w : TupleWriter) (fixedSize : Option Nat) : Bytes :=
  match fixedSize with
  | some size => resize w.out (w.start + size)
  | none =>
    if w.offsets.isEmpty then w.out
    else
      writeOffsets w.out w.offsets.reverse
        (chooseOffsetSize (w.out.length - w.start) w.offsets.length)

/-- The member fields in order, the last one marked as such. -/
def fields (w : TupleWriter) : List (MemberSpec × Writer) → Except Error TupleWriter
  | [] => .ok w
  | (spec, write) :: members => do
    let w ← w.field spec.1 spec.2 members.isEmpty write
    w.fields members

end TupleWriter

/-- A whole tuple: `new`, one `field` for each member, and `finish`. -/
def writeTuple (members : List (MemberSpec × Writer)) (fixedSize : Option Nat) : Writer := fun out => do
  let w ← (TupleWriter.new out).fields members
  .ok (w.finish fixedSize)

/-! ### The bytes of a tuple -/

variable {specs : List MemberSpec} {parts : List Bytes} {size : Nat} {data : Bytes}

/-- The parts of a tuple with the given members. -/
abbrev memberParts (specs : List MemberSpec) (parts : List Bytes) : List Part :=
  (specs.map Prod.fst).zip parts

@[simp] theorem memberParts_cons (spec : MemberSpec) (specs : List MemberSpec) (part : Bytes) (parts : List Bytes) :
    memberParts (spec :: specs) (part :: parts) = (spec.1, part) :: memberParts specs parts := rfl

theorem aligned_memberParts (positive : ∀ spec ∈ specs, 0 < spec.1)
    (parts : List Bytes) : Aligned (memberParts specs parts) := by
  intro part member
  obtain ⟨spec, inside, same⟩ := List.mem_map.mp (List.of_mem_zip member).1
  exact same ▸ positive spec inside

/-- The end offsets that a tuple stores: one for each variable-size member other than the last. -/
def tupleOffsets : (position : Nat) → List MemberSpec → List Bytes → List Nat
  | position, spec :: specs, part :: parts =>
    let stop := alignUp position spec.1 + part.length
    if spec.2.isNone && !specs.isEmpty then stop :: tupleOffsets stop specs parts
    else tupleOffsets stop specs parts
  | _, _, _ => []

/-- **A tuple, from the bytes of its members.** -/
def tupleBytes (specs : List MemberSpec) (fixedSize : Option Nat) (parts : List Bytes) : Bytes :=
  let body := area 0 (memberParts specs parts)
  match fixedSize with
  | some size => resize body size
  | none =>
    let offsets := tupleOffsets 0 specs parts
    body ++ offsets.reverse.flatMap (leBytes (chooseOffsetSize body.length offsets.length))

/-- The number of offsets of a tuple: its variable-size members other than the last. -/
def nOffsets (specs : List MemberSpec) : Nat :=
  ((specs.take (specs.length - 1)).filter fun spec => spec.2.isNone).length

/-- Each part has the fixed size of its member, if the member has one. -/
abbrev MembersFit (specs : List MemberSpec) (parts : List Bytes) : Prop :=
  List.Forall₂ (fun spec part => ∀ size, spec.2 = some size → part.length = size) specs parts

theorem nOffsets_cons (spec : MemberSpec) (specs : List MemberSpec) :
    nOffsets (spec :: specs) = TupleReader.offsetsOf spec.2 specs.isEmpty + nOffsets specs := by
  cases specs with
  | nil => simp [nOffsets, TupleReader.offsetsOf]
  | cons next specs =>
    simp only [nOffsets, List.length_cons, Nat.add_sub_cancel, List.take_succ_cons,
      List.filter_cons, TupleReader.offsetsOf, List.isEmpty_cons, Bool.not_false, Bool.and_true]
    split
    · rw [List.length_cons, Nat.add_comm]
    · rw [Nat.zero_add]

theorem tupleOffsets_length (count : specs.length = parts.length) (position : Nat) :
    (tupleOffsets position specs parts).length = nOffsets specs := by
  induction specs generalizing position parts with
  | nil =>
    cases parts with
    | nil => rfl
    | cons => cases count
  | cons spec specs ih =>
    cases parts with
    | nil => cases count
    | cons part parts =>
      grind [Nat.succ_injective, alignUp, nOffsets_cons, tupleOffsets, TupleReader.offsetsOf,
        List.length_cons, Nat.add_comm]

theorem le_areaEnd_of_mem_tupleOffsets (positive : ∀ spec ∈ specs, 0 < spec.1)
    (member : stop ∈ tupleOffsets position specs parts) :
    stop ≤ areaEnd position (memberParts specs parts) := by
  induction specs generalizing position parts with
  | nil => simp [tupleOffsets] at member
  | cons spec specs ih =>
    cases parts with
    | nil => simp [tupleOffsets] at member
    | cons part parts =>
      grind [tupleOffsets, memberParts_cons, areaEnd, le_areaEnd, aligned_memberParts]

theorem resize_append (out body : Bytes) (size : Nat) :
    resize (out ++ body) (out.length + size) = out ++ resize body size := by
  simp [resize]
  rw [List.take_append, List.take_of_length_le (Nat.le_add_right _ _), Nat.add_sub_cancel_left,
    List.append_assoc, Nat.add_sub_add_left]

theorem resize_of_le (le : body.length ≤ size) :
    resize body size = body ++ zeros (size - body.length) := by
  rw [resize, List.take_of_length_le le]

section Writing

variable {wholeAlign : Nat} {members : List (MemberSpec × Writer)}
  {results : List (Except Error Bytes)}

/-- What a member writer appends, at a position aligned for it inside the tuple. -/
abbrev MembersAppend (members : List (MemberSpec × Writer)) (results : List (Except Error Bytes)) :
    Prop :=
  List.Forall₂ (fun member result => Appends member.1.1 member.2 result) members results

/-- Writing the members lays them out as `area` does. -/
theorem TupleWriter.fields_eq (each : MembersAppend members results) (positive : ∀ member ∈ members, 0 < member.1.1)
    (divides : ∀ member ∈ members, member.1.1 ∣ wholeAlign) (w : TupleWriter)
    (base : wholeAlign ∣ w.start) (after : w.start ≤ w.out.length) :
    w.fields members = (results.mapM id).map fun parts =>
      { w with
        out := w.out ++ area (w.out.length - w.start) (memberParts (members.map Prod.fst) parts)
        offsets := w.offsets
          ++ tupleOffsets (w.out.length - w.start) (members.map Prod.fst) parts } := by
  induction each generalizing w with
  | nil => simp [TupleWriter.fields, Except.map, area, tupleOffsets]
  | @cons member result members results first rest ih =>
    obtain ⟨⟨alignment, size⟩, write⟩ := member
    change Appends alignment write result at first
    have here : 0 < alignment := positive _ (.head _)
    have multiple : alignment ∣ w.start := (divides _ (.head _)).trans base
    have padded := padTo_length here w.out
    have relative : alignUp w.out.length alignment
        = w.start + alignUp (w.out.length - w.start) alignment := by
      rw [← alignUp_add_of_dvd here multiple, Nat.add_sub_cancel' after]
    have gap : alignUp w.out.length alignment - w.out.length
        = alignUp (w.out.length - w.start) alignment - (w.out.length - w.start) := by omega
    simp only [TupleWriter.fields, TupleWriter.field]
    rw [first _ (padded ▸ dvd_alignUp _ _), List.mapM_cons]
    cases result with
    | error fault => rfl
    | ok part =>
      have length : (padTo w.out alignment ++ part).length - w.start
          = alignUp (w.out.length - w.start) alignment + part.length := by
        rw [List.length_append, padded]
        omega
      have next := fun offsets => ih (fun m inside => positive m (.tail _ inside))
        (fun m inside => divides m (.tail _ inside))
        { w with out := padTo w.out alignment ++ part, offsets := offsets } base
        (by simp only [List.length_append, padded]; omega)
      simp only [length] at next
      simp only [Except.map, ok_bind, id, length]
      split
      all_goals
        next stored =>
        rw [ok_bind, next]
        rw [Bool.and_comm] at stored
        cases results.mapM id with
        | error fault => rfl
        | ok parts =>
          simp [area, padTo, gap, tupleOffsets, stored]

/-- **The tuple writer appends the tuple of what its member writers append.** -/
theorem writeTuple_eq (each : MembersAppend members results) (positive : ∀ member ∈ members, 0 < member.1.1)
    (divides : ∀ member ∈ members, member.1.1 ∣ wholeAlign) (fixedSize : Option Nat) :
    Appends wholeAlign (writeTuple members fixedSize)
      ((results.mapM id).map (tupleBytes (members.map Prod.fst) fixedSize)) := by
  intro out aligned
  rw [writeTuple, TupleWriter.fields_eq each positive divides (TupleWriter.new out) aligned le_rfl]
  simp only [TupleWriter.new, Nat.sub_self, List.nil_append]
  cases results.mapM id with
  | error fault => rfl
  | ok parts =>
    simp only [map_ok, ok_bind, TupleWriter.finish, tupleBytes, Except.ok.injEq]
    cases fixedSize with
    | some size => exact resize_append out _ size
    | none =>
      simp only [List.length_append, Nat.add_sub_cancel_left]
      split
      · next empty => rw [List.isEmpty_iff.mp empty]; simp
      · rw [writeOffsets_eq (chooseOffsetSize_le _ _), List.append_assoc]

end Writing

/-! ### Reading back -/

namespace TupleReader

/-- The slices of the members, the last one marked as such. -/
def fields (r : TupleReader) : List MemberSpec → Except Error (List Bytes × TupleReader)
  | [] => .ok ([], r)
  | spec :: specs => do
    let (part, r) ← r.field spec.1 spec.2 specs.isEmpty
    let (parts, r) ← r.fields specs
    .ok (part :: parts, r)

variable {r : TupleReader}

theorem memberEnd_fixed (start size : Nat) (isLast : Bool) :
    r.memberEnd start (some size) isLast = checkedAdd start size := rfl

theorem memberEnd_last (start : Nat) : r.memberEnd start none true = some r.framingStart := rfl

theorem memberEnd_stored (start : Nat) :
    r.memberEnd start none false = some (r.offsetAt r.offsetIndex) := rfl

theorem field_eq_ok_iff (inside : r.framingStart ≤ r.data.length) {size : Option Nat}
    {part : Bytes} : r.field alignment size isLast = .ok (part, next) ↔
      ∃ stop, r.memberEnd (alignUp r.pos alignment) size isLast = some stop ∧
        (alignUp r.pos alignment ≤ stop ∧ stop ≤ r.framingStart) ∧
        r.data.extract r.pos (alignUp r.pos alignment) = zeros (alignUp r.pos alignment - r.pos) ∧
        part = r.data.extract (alignUp r.pos alignment) stop ∧
        next = { r with pos := stop, offsetIndex := r.offsetIndex + offsetsOf size isLast } := by
  rw [field]
  cases r.memberEnd (alignUp r.pos alignment) size isLast with
  | none => simp
  | some stop =>
    grind [Option.some.injEq, extract_length, check_bind_eq_ok, checkPadding_eq_ok, Except.ok.injEq, Prod.mk.injEq]

/-- The slices that the reader cuts tile the data, at the stored offsets. -/
theorem fields_sound {specs : List MemberSpec} (positive : ∀ spec ∈ specs, 0 < spec.1)
    (within : r.pos ≤ r.framingStart) (inside : r.framingStart ≤ r.data.length)
    (read : r.fields specs = .ok (parts, last)) :
    MembersFit specs parts ∧
      ∃ stop, Tiles (r.data.take r.framingStart) r.pos (memberParts specs parts) stop ∧
        tupleOffsets r.pos specs parts
          = (List.range' r.offsetIndex (nOffsets specs)).map r.offsetAt ∧
        last = { r with pos := stop, offsetIndex := r.offsetIndex + nOffsets specs } := by
  induction specs generalizing r parts last with
  | nil =>
    cases read
    exact ⟨.nil, r.pos, tiles_nil_iff.mpr ⟨rfl, by rw [List.length_take]; omega⟩, rfl, rfl⟩
  | cons spec specs ih =>
    obtain ⟨⟨part, next⟩, first, read⟩ := bind_eq_ok.mp read
    obtain ⟨⟨others, final⟩, rest, read⟩ := bind_eq_ok.mp read
    cases read
    have onward : ∀ s ∈ specs, 0 < s.1 := fun s member => positive s (.tail _ member)
    obtain ⟨stop, ending, ⟨ordered, bounded⟩, padding, rfl, rfl⟩ :=
      (field_eq_ok_iff inside).mp first
    obtain ⟨fits, finish, tiles, offsets, rfl⟩ := ih (r := { r with pos := stop, offsetIndex := _ })
      onward bounded inside rest
    have length := @extract_length _ (alignUp r.pos spec.1) _ (le_trans bounded inside)
    have stop_eq : alignUp r.pos spec.1 + (r.data.extract (alignUp r.pos spec.1) stop).length = stop := by
      omega
    refine ⟨.cons ?_ fits, finish, ?_, ?_, ?_⟩
    · intro size fixed
      rw [fixed, memberEnd_fixed, checkedAdd] at ending
      simp only [Option.ite_none_right_eq_some, Option.some.injEq] at ending
      omega
    · grind [memberParts_cons, tiles_cons_iff, aligned_memberParts, extract_take]
    · rw [tupleOffsets, nOffsets_cons, stop_eq, offsetsOf]
      split
      · next stored =>
        rw [Bool.and_eq_true, Bool.not_eq_true'] at stored
        rw [Option.isNone_iff_eq_none.mp stored.1, stored.2, memberEnd_stored, Option.some.injEq]
          at ending
        rw [Nat.add_comm 1, List.range'_succ, List.map_cons, ending]
        simp only [offsetsOf, stored.1, stored.2, Bool.not_false, Bool.and_true, if_true] at offsets
        exact congrArg _ offsets
      · next absent =>
        simp only [offsetsOf, if_neg absent, Nat.add_zero] at offsets
        rw [Nat.zero_add]
        exact offsets
    · rw [nOffsets_cons, Nat.add_assoc]

/-- Parts that tile the data at the stored offsets are the slices that the reader cuts. -/
theorem fields_complete {specs : List MemberSpec} (positive : ∀ spec ∈ specs, 0 < spec.1)
    (inside : r.framingStart ≤ r.data.length) (fitsUsize : r.framingStart ≤ usizeMax) (fits : MembersFit specs parts)
    (tiles : Tiles (r.data.take r.framingStart) r.pos (memberParts specs parts) stop)
    (offsets : tupleOffsets r.pos specs parts
      = (List.range' r.offsetIndex (nOffsets specs)).map r.offsetAt)
    (fills : ∀ spec, specs.getLast? = some spec → spec.2 = none → stop = r.framingStart) :
    r.fields specs
      = .ok (parts, { r with pos := stop, offsetIndex := r.offsetIndex + nOffsets specs }) := by
  induction fits generalizing r with
  | nil =>
    obtain ⟨rfl, _⟩ := tiles_nil_iff.mp tiles
    rfl
  | @cons spec part specs parts sized fits ih =>
    have here := positive spec (.head _)
    have onward : ∀ s ∈ specs, 0 < s.1 := fun s member => positive s (.tail _ member)
    obtain ⟨⟨padding, slice⟩, rest⟩ :=
      (tiles_cons_iff here (aligned_memberParts onward _)).mp tiles
    have bounded := (rest.le (aligned_memberParts onward _)).trans rest.inside
    rw [List.length_take] at bounded
    rw [extract_take (by omega)] at padding slice
    -- The end that the member states is the end of the part.
    have ending : r.memberEnd (alignUp r.pos spec.1) spec.2 specs.isEmpty
        = some (alignUp r.pos spec.1 + part.length) := by
      cases size : spec.2 with
      | some size' =>
        rw [memberEnd_fixed, checkedAdd, ← sized size' size, if_pos (by omega)]
      | none =>
        cases specs with
        | nil =>
          cases fits
          obtain ⟨finish, _⟩ := tiles_nil_iff.mp rest
          rw [List.isEmpty_nil, memberEnd_last, ← fills spec rfl size, finish]
        | cons next specs =>
          rw [tupleOffsets, nOffsets_cons] at offsets
          simp only [size, offsetsOf, Option.isNone_none, List.isEmpty_cons, Bool.not_false,
            Bool.and_true, if_true, Nat.add_comm 1, List.range'_succ, List.map_cons,
            List.cons.injEq] at offsets
          rw [List.isEmpty_cons, memberEnd_stored, ← offsets.1]
    have first : r.field spec.1 spec.2 specs.isEmpty = .ok (part, { r with
        pos := alignUp r.pos spec.1 + part.length
        offsetIndex := r.offsetIndex + offsetsOf spec.2 specs.isEmpty }) :=
      (field_eq_ok_iff inside).mpr
        ⟨_, ending, ⟨Nat.le_add_right _ _, by omega⟩, padding, slice.symm, rfl⟩
    have next := ih (r := { r with
      pos := alignUp r.pos spec.1 + part.length
      offsetIndex := r.offsetIndex + offsetsOf spec.2 specs.isEmpty }) onward inside fitsUsize rest
      (by
        rw [tupleOffsets, nOffsets_cons] at offsets
        simp only [offsetsOf] at offsets ⊢
        split at offsets
        · next stored =>
          rw [Nat.add_comm 1, List.range'_succ, List.map_cons, List.cons.injEq] at offsets
          rw [if_pos stored]
          exact offsets.2
        · next absent =>
          rw [Nat.zero_add] at offsets
          rw [if_neg absent]
          exact offsets)
      (fun s last => fills s (by
        cases specs with
        | nil => cases last
        | cons => rw [List.getLast?_cons_cons]; exact last))
    rw [fields, first]
    simp only [ok_bind, next, nOffsets_cons, Nat.add_assoc]

/-- The offsets are stored in reverse. -/
theorem map_offsetAt (r : TupleReader) (total : r.data.length = start + count * r.z) :
    ((List.range' 0 count).map r.offsetAt).reverse = leInts r.z count (r.data.drop start) := by
  induction count generalizing start with
  | zero => rfl
  | succ count ih =>
    have expand : (count + 1) * r.z = count * r.z + r.z := by ring
    have first : r.offsetAt count = leNat ((r.data.drop start).take r.z) := by
      rw [offsetAt, readOffset_eq_leNat, List.extract_eq_take_drop, Nat.add_sub_cancel_left,
        show r.data.length - (count + 1) * r.z = start by omega]
    rw [List.range'_concat, List.map_append, List.reverse_append, Nat.one_mul, Nat.zero_add,
      List.map_singleton, List.reverse_singleton, List.singleton_append, first,
      @ih (start + r.z) (by omega), leInts, List.drop_drop]

end TupleReader

/-- The slices of a whole tuple. -/
def splitTuple (specs : List MemberSpec) (fixedSize : Option Nat) (data : Bytes) :
    Except Error (List Bytes) := do
  let r ← TupleReader.new data (nOffsets specs) fixedSize
  let (parts, r) ← r.fields specs
  r.finish
  .ok parts

theorem nOffsets_of_fixed (nonempty : specs ≠ [])
    (fixed : structFixedSize specs wholeAlign = some size) : nOffsets specs = 0 := by
  rw [structFixedSize, if_neg (by simpa using nonempty), Option.map_eq_some_iff] at fixed
  obtain ⟨total, sum, _⟩ := fixed
  have all := (membersSize_isSome 0).mp (by rw [sum]; rfl)
  rw [nOffsets, List.length_eq_zero_iff, List.filter_eq_nil_iff]
  intro spec member dynamic
  have some_size := all spec (List.mem_of_mem_take member)
  rw [Option.isNone_iff_eq_none] at dynamic
  rw [dynamic] at some_size
  cases some_size

theorem TupleReader.new_eq_ok (opened : TupleReader.new data count fixedSize = .ok r) :
    ∃ framingStart z, r = ⟨data, framingStart, z, 0, 0, fixedSize.isSome⟩ ∧
      data.length = framingStart + count * z ∧
      (0 < count → chooseOffsetSize framingStart count = z) ∧
      ∀ size, fixedSize = some size → data.length = size := by
  unfold TupleReader.new at opened
  split at opened
  · cases opened
  simp only at opened
  split at opened
  · cases opened
  split_ifs at opened
  grind

section Split

variable {specs : List MemberSpec} {wholeAlign : Nat}

variable {parts : List Bytes}

/-- **The slices of a tuple frame back to the tuple.** -/
theorem splitTuple_sound (positive : ∀ spec ∈ specs, 0 < spec.1)
    (read : splitTuple specs (structFixedSize specs wholeAlign) data = .ok parts) :
    MembersFit specs parts ∧ tupleBytes specs (structFixedSize specs wholeAlign) parts = data := by
  obtain ⟨r, opened, read⟩ := bind_eq_ok.mp read
  obtain ⟨⟨slices, last⟩, cut, read⟩ := bind_eq_ok.mp read
  obtain ⟨finished, read⟩ := check_bind_eq_ok.mp read
  cases read
  obtain ⟨framingStart, z, rfl, total, width, exactSize⟩ := TupleReader.new_eq_ok opened
  obtain ⟨fits, stop, tiles, offsets, rfl⟩ :=
    TupleReader.fields_sound positive (Nat.zero_le _) (by simp only; omega) cut
  simp only [Nat.zero_add] at tiles offsets finished
  have bounded := tiles.inside
  rw [List.length_take] at bounded
  have body : area 0 (memberParts specs parts) = data.take stop := by
    rw [← tiles.take, List.take_take, Nat.min_eq_left (by omega)]
  have bodyLength : (data.take stop).length = stop := by
    rw [List.length_take]
    omega
  refine ⟨fits, ?_⟩
  cases fixed : structFixedSize specs wholeAlign with
  | some size =>
    grind [TupleReader.finish, Option.isSome_some, checkPadding_eq_ok, List.length_drop, tupleBytes,
      resize_of_le, List.take_append_drop]
  | none =>
    simp only [TupleReader.finish, fixed, Option.isSome_none, Bool.false_eq_true, if_false,
      ite_eq_right_iff, reduceCtorEq,
      imp_false, not_not] at finished
    subst finished
    have stored : (tupleOffsets 0 specs parts).reverse = leInts z (nOffsets specs) (data.drop stop) := by
      rw [offsets]
      exact TupleReader.map_offsetAt ⟨data, stop, z, 0, 0, _⟩ total
    have count : (tupleOffsets 0 specs parts).length = nOffsets specs :=
      tupleOffsets_length fits.length_eq 0
    have offsetsLength : (data.drop stop).length = nOffsets specs * z := by
      rw [List.length_drop]
      omega
    simp only [tupleBytes, body, bodyLength, count, stored]
    by_cases some_offset : 0 < nOffsets specs
    · rw [width some_offset, flatMap_leInts offsetsLength, List.take_append_drop]
    · grind [nOffsets, leInts, List.take_append_drop, List.length_eq_zero_iff]

theorem TupleReader.new_of_framing {count framingStart : Nat}
    (total : data.length = framingStart + count * offsetSizeFor data.length)
    (width : 0 < count → chooseOffsetSize framingStart count = offsetSizeFor data.length)
    (exactSize : ∀ size, fixedSize = some size → data.length = size) :
    TupleReader.new data count fixedSize
      = .ok ⟨data, framingStart, offsetSizeFor data.length, 0, 0, fixedSize.isSome⟩ := by
  have start : data.length - count * offsetSizeFor data.length = framingStart := by omega
  have sized : ¬ fixedSize.any (data.length != ·) = true := by
    cases fixedSize with
    | none => simp
    | some size => simp [exactSize size rfl]
  unfold TupleReader.new
  rw [if_neg sized]
  simp only [start]
  rw [if_neg (by omega), if_neg (fun ⟨positive, other⟩ => other (width positive))]

section

variable (positive : ∀ spec ∈ specs, 0 < spec.1)

include positive

/-- So is one of fixed size, which stores none. -/
theorem splitTuple_complete_of_fixed (whole : 0 < wholeAlign) (nonempty : specs ≠ [])
    (fits : MembersFit specs parts) (fixed : structFixedSize specs wholeAlign = some size)
    (small : Addressable (tupleBytes specs (some size) parts)) :
    splitTuple specs (some size) (tupleBytes specs (some size) parts) = .ok parts := by
  have aligned := aligned_memberParts positive parts
  have noOffsets := nOffsets_of_fixed nonempty fixed
  rw [structFixedSize, if_neg (by simpa using nonempty), Option.map_eq_some_iff] at fixed
  obtain ⟨sum, sized, total⟩ := fixed
  have all := (membersSize_isSome 0).mp (by rw [sized]; rfl)
  have ending : areaEnd 0 (memberParts specs parts) = sum := areaEnd_of_membersSize sized fits
  have bodyLength : (area 0 (memberParts specs parts)).length = sum := by
    rw [area_length aligned, ending, Nat.sub_zero]
  have room : sum ≤ size := total ▸ le_alignUp whole sum
  have written : tupleBytes specs (some size) parts = area 0 (memberParts specs parts) ++ zeros (size - sum) := by
    simp only [tupleBytes]
    rw [resize_of_le (by omega), bodyLength]
  have length : (tupleBytes specs (some size) parts).length = size := by
    rw [written, List.length_append, bodyLength, List.length_replicate]
    omega
  have tiles := @tiles_of_area _ [] (zeros (size - sum)) aligned
  simp only [List.nil_append, List.length_nil, ending, ← written] at tiles
  have noneStored : tupleOffsets 0 specs parts = [] := by
    rw [← List.length_eq_zero_iff, tupleOffsets_length fits.length_eq, noOffsets]
  have rest : (tupleBytes specs (some size) parts).drop sum = zeros (size - sum) := by
    rw [written, ← bodyLength, List.drop_left]
  generalize tupleBytes specs (some size) parts = data at *
  have opened : TupleReader.new data (nOffsets specs) (some size)
      = .ok ⟨data, data.length, offsetSizeFor data.length, 0, 0, true⟩ :=
    TupleReader.new_of_framing (by rw [noOffsets]; omega) (fun some_offset => by omega)
      (fun size same => by cases same; exact length)
  have cut := TupleReader.fields_complete (r := ⟨data, data.length, offsetSizeFor data.length, 0, 0, true⟩)
    positive le_rfl small fits (by simp only [List.take_length]; exact tiles)
    (by simp [noneStored, noOffsets])
    (fun spec last dynamic => by
      have some_size := all spec (List.mem_of_getLast? last)
      rw [dynamic] at some_size
      cases some_size)
  have finished : checkPadding (data.drop sum) = .ok () := by
    rw [checkPadding_eq_ok, List.length_drop, rest, length]
  rw [splitTuple, opened, ok_bind, cut]
  simp [ok_bind, TupleReader.finish, finished]

/-- A tuple with stored offsets is cut where it was joined. -/
theorem splitTuple_complete_of_dynamic
    (fits : MembersFit specs parts) (short : Addressable (tupleBytes specs none parts)) :
    splitTuple specs none (tupleBytes specs none parts) = .ok parts := by
  have aligned := aligned_memberParts positive parts
  have count := tupleOffsets_length fits.length_eq 0
  have bodyLength : (area 0 (memberParts specs parts)).length
      = areaEnd 0 (memberParts specs parts) := area_length aligned 0
  simp only [tupleBytes, count, bodyLength] at short ⊢
  have bounded : ∀ value ∈ tupleOffsets 0 specs parts, value ≤ areaEnd 0 (memberParts specs parts) :=
    fun _ => le_areaEnd_of_mem_tupleOffsets positive
  have tiles := @tiles_of_area _ [] [] aligned
  simp only [List.nil_append, List.append_nil, List.length_nil] at tiles
  generalize areaEnd 0 (memberParts specs parts) = stop at *
  generalize area 0 (memberParts specs parts) = body at *
  generalize stored : tupleOffsets 0 specs parts = offsets at *
  generalize width : chooseOffsetSize stop (nOffsets specs) = z at *
  have length : (body ++ offsets.reverse.flatMap (leBytes z)).length = stop + nOffsets specs * z := by
    rw [List.length_append, bodyLength, length_flatMap_leBytes, List.length_reverse, count]
  rw [Addressable, length] at short
  have small : ∀ value ∈ offsets.reverse, value < 256 ^ z := by
    intro value member
    have le := bounded value (List.mem_reverse.mp member)
    rw [← width]
    exact lt_of_chooseOffsetSize (by omega) (by omega)
  have front : (body ++ offsets.reverse.flatMap (leBytes z)).take stop = body := by rw [← bodyLength, List.take_left]
  have back : (body ++ offsets.reverse.flatMap (leBytes z)).drop stop = offsets.reverse.flatMap (leBytes z) := by
    rw [← bodyLength, List.drop_left]
  have recovered := leInts_flatMap small
  rw [List.length_reverse, count] at recovered
  generalize body ++ offsets.reverse.flatMap (leBytes z) = data at *
  -- With no offset to read, the width that the reader derives does not matter.
  have derived : 0 < nOffsets specs → offsetSizeFor data.length = z := by
    intro _
    have agree := offsetSizeFor_chooseOffsetSize stop (nOffsets specs)
    rwa [width, ← length] at agree
  have total : data.length = stop + nOffsets specs * offsetSizeFor data.length := by
    grind
  have opened : TupleReader.new data (nOffsets specs) none
      = .ok ⟨data, stop, offsetSizeFor data.length, 0, 0, false⟩ :=
    TupleReader.new_of_framing total (fun some_offset => by rw [width, derived some_offset])
      (fun _ impossible => by cases impossible)
  have read : offsets = (List.range' 0 (nOffsets specs)).map
      (TupleReader.offsetAt ⟨data, stop, offsetSizeFor data.length, 0, 0, false⟩) := by
    apply List.reverse_injective
    rw [TupleReader.map_offsetAt _ total, back]
    rcases Nat.eq_zero_or_pos (nOffsets specs) with zero | some_offset
    · rw [zero] at recovered ⊢
      exact recovered.symm
    · simp only [derived some_offset, recovered]
  have cut := TupleReader.fields_complete (r := ⟨data, stop, offsetSizeFor data.length, 0, 0, false⟩)
    positive (by simp only; omega) (by simp only; omega) fits (by simp only [front]; exact tiles)
    (stored.trans read) (fun _ _ _ => rfl)
  rw [splitTuple, opened, ok_bind, cut]
  simp [ok_bind, TupleReader.finish]

/-- **The tuple of some member bytes splits back into them.** -/
theorem splitTuple_complete (whole : 0 < wholeAlign) (nonempty : specs ≠ []) (fits : MembersFit specs parts)
    (small : Addressable (tupleBytes specs (structFixedSize specs wholeAlign) parts)) :
    splitTuple specs (structFixedSize specs wholeAlign)
      (tupleBytes specs (structFixedSize specs wholeAlign) parts) = .ok parts := by
  cases fixed : structFixedSize specs wholeAlign with
  | some size =>
    rw [fixed] at small
    exact splitTuple_complete_of_fixed positive whole nonempty fits fixed small
  | none =>
    rw [fixed] at small
    exact splitTuple_complete_of_dynamic positive fits small

theorem length_le_tupleBytes (whole : 0 < wholeAlign)
    (nonempty : specs ≠ []) (fits : MembersFit specs parts) (member : part ∈ parts) :
    part.length ≤ (tupleBytes specs (structFixedSize specs wholeAlign) parts).length := by
  obtain ⟨index, inside, rfl⟩ := List.mem_iff_getElem.mp member
  have count : index < specs.length := by rw [fits.length_eq]; exact inside
  have zipped : (specs[index].1, parts[index]) ∈ memberParts specs parts := by
    refine List.mem_iff_getElem.mpr ⟨index, by simp [inside, count], ?_⟩
    rw [List.getElem_zip, List.getElem_map]
  have body : parts[index].length ≤ (area 0 (memberParts specs parts)).length :=
    length_le_area zipped 0
  cases fixed : structFixedSize specs wholeAlign with
  | none =>
    simp only [tupleBytes, List.length_append]
    exact le_trans body (Nat.le_add_right _ _)
  | some size =>
    grind [structFixedSize, Option.map_eq_some_iff, areaEnd_of_membersSize, le_alignUp, area_length,
      aligned_memberParts, tupleBytes, resize]

end

theorem tupleBytes_length_of_fixed : (tupleBytes specs (some size) parts).length = size := by
  simp [tupleBytes, resize]
  omega

end Split

end Ostrya.Gvariant
