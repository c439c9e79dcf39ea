/-
**The size check of detached metadata** (`size_over` of `receive/finish.rs`).

The check skips the serialization if a bound from the sizes of the inputs shows that the written
dict fits. `dictCost` is what the
entries of a dict take at most, wherever they stand: their keys and values, 31 bytes each for
padding and offsets, and 8 bytes for
the offset of each blob of a signature list. Every step from the sources to the written dict is
measured in it: a source pays for
its entries 16 times over (`dict_cost`), a merge adds nothing (`dictCost_merge`), a new signature
adds its bytes and its offset, and
at most 64 bytes for a list that no source holds (`dictCost_append`). So the bound is never below the size.
-/

import Ostrya.Effect.Checked
import Ostrya.Gvariant.Size
import Ostrya.Receive.DetachedMerge

namespace Ostrya.Receive

open ByteFormat Gvariant Ostrya.Core Repo Delta Remote

/-! ### The check -/

/-- The dict that an edit writes: the merge, with the signatures appended. -/
def editDict (stored incoming : Option Bytes) (signatures : List (String × Bytes))
    (keep : List String) : Except Fault Value := do
  let dict ← mergedDict stored incoming keep
  appendSignatures (dict.getD emptyDict) signatures

/-- `serialize_signature_dict`. -/
def serializeSignatureDict (dict : Value) : Except Fault Bytes :=
  (toBytes dictType dict).mapError fun fault => .core (.gvariant fault)

/-- The bound of `size_over`. -/
def sizeBound (stored incoming : Option Bytes) (signatures : List (String × Bytes)) : Nat :=
  16 * ((stored.elim 0 List.length) + incoming.elim 0 List.length) +
    (signatures.map fun signature => signature.2.length + 8).sum + 64 * signatureKeys.length

open Checked in
/-- The bound as it is computed, in numbers of 64 bits. -/
def sizeBoundChecked (stored incoming : Option Bytes) (signatures : List (String × Bytes)) : Except Halt Nat := do
  let sources ← unsigned 64 (stored.elim 0 List.length + incoming.elim 0 List.length)
  let scaled ← unsigned 64 (16 * sources)
  let added ← signatures.foldlM (fun sum signature => do
    let gain ← unsigned 64 (signature.2.length + 8)
    unsigned 64 (sum + gain)) 0
  let both ← unsigned 64 (scaled + added)
  unsigned 64 (both + 64 * signatureKeys.length)

open Checked in
/-- No step overflows for sources and signatures whose bound fits in 64 bits. -/
theorem sizeBoundChecked_eq_ok {stored : Option Bytes}
    (small : sizeBound stored incoming signatures < 2 ^ 64) :
    sizeBoundChecked stored incoming signatures = .ok (sizeBound stored incoming signatures) := by
  have sums (signatures : List (String × Bytes)) (sum : Nat)
      (fits : sum + (signatures.map fun signature => signature.2.length + 8).sum < 2 ^ 64) :
      signatures.foldlM (fun sum signature => do
        let gain ← unsigned 64 (signature.2.length + 8)
        unsigned 64 (sum + gain)) sum =
          .ok (sum + (signatures.map fun signature => signature.2.length + 8).sum) := by
    induction signatures generalizing sum with
    | nil => rfl
    | cons signature signatures ih =>
      rw [List.map_cons, List.sum_cons] at fits ⊢
      rw [List.foldlM_cons, unsigned_of_lt (by omega), ok_bind, unsigned_of_lt (by omega), ok_bind,
        ih _ (by omega), Nat.add_assoc]
  unfold sizeBound at small
  rw [sizeBoundChecked, unsigned_of_lt (by omega), ok_bind, unsigned_of_lt (by omega), ok_bind,
    sums _ _ (by omega), ok_bind, unsigned_of_lt (by omega), ok_bind, unsigned_of_lt (by omega),
      Nat.zero_add, sizeBound]

/-- `size_over`. -/
def sizeOver (limit : Nat) (stored incoming : Option Bytes) (signatures : List (String × Bytes))
    (written : Option Value)
    (keep : List String) : Except Fault (Option Nat) :=
  if sizeBound stored incoming signatures ≤ limit then .ok none
  else do
    let dict ← written.elim (editDict stored incoming signatures keep) .ok
    let bytes ← serializeSignatureDict dict
    .ok (if limit < bytes.length then some bytes.length else none)

/-! ### What an entry takes -/

/-- The bytes of a value, in whatever depth it stands. -/
def Written (ty : Ty) (value : Value) (data : Bytes) : Prop := ∃ levels, encode levels ty value = .ok data

variable {data : Bytes} {ty : Ty}

theorem Written.unique {value : Value} {other : Bytes} (one : Written ty value data)
    (two : Written ty value other) : data = other := by
  obtain ⟨levels, one⟩ := one
  obtain ⟨levels', two⟩ := two
  have both := encode_mono (le_max_left levels levels') one
  rw [encode_mono (le_max_right levels levels') two] at both
  exact (Except.ok.inj both).symm

theorem Written.step (written : Written ty value data) :
    ∃ levels, encodeStep (encode levels) ty value = .ok data := exists_encode_iff.mp written

/-- The bytes of a blob and its offset. -/
def blobCost (blob : Bytes) : Nat := blob.length + 8

open Classical in
/-- What a value takes at most, with the type of its variant: each blob of a signature list may need
a longer offset than where it comes from. -/
noncomputable def valueCost (value : Ty × Value) : Nat :=
  if list : ∃ blobs, value = signatureValue blobs then (list.choose.map blobCost).sum + 4
  else if written : ∃ data, Written .variant (.variant value.1 value.2) data then written.choose.length
  else 0

/-- What an entry takes besides its value: its key, and at most 15 bytes of padding and 16 of
offsets. -/
def keyCost (key : String) : Nat := (asBytes key).length + 31

noncomputable def dictCost (entries : DictBuilder) : Nat :=
  (entries.map fun entry => keyCost entry.1 + valueCost entry.2).sum

@[simp] theorem valueCost_signatureValue (blobs : List Bytes) :
    valueCost (signatureValue blobs) = (blobs.map blobCost).sum + 4 := by
  have list : ∃ others, signatureValue blobs = signatureValue others := ⟨blobs, rfl⟩
  rw [valueCost, dif_pos list, ← signatureValue_injective list.choose_spec]

theorem valueCost_of_written (other : ¬ ∃ blobs, value = signatureValue blobs)
    (written : Written .variant (.variant value.1 value.2) data) : valueCost value = data.length := by
  have some_data : ∃ data, Written .variant (.variant value.1 value.2) data := ⟨data, written⟩
  rw [valueCost, dif_neg other, dif_pos some_data, some_data.choose_spec.unique written]

/-- A variant takes at most the cost of its value, and at least an eighth of it. -/
theorem variant_cost (written : Written .variant (.variant value.1 value.2) data) :
    data.length ≤ valueCost value ∧ valueCost value ≤ 8 * data.length := by
  by_cases list : ∃ blobs, value = signatureValue blobs
  · obtain ⟨blobs, rfl⟩ := list
    obtain ⟨levels, written⟩ := written.step
    obtain ⟨inner, child, rfl⟩ := map_eq_ok.mp written
    obtain ⟨levels, child⟩ := Written.step ⟨levels, child⟩
    obtain ⟨parts, each, rfl⟩ := map_eq_ok.mp child
    obtain rfl : blobs = parts := by
      rw [mapM_eq_ok, List.forall₂_map_left_iff] at each
      have same : List.Forall₂ (· = ·) blobs parts := each.imp fun blob part same => by
        obtain ⟨_, same⟩ := Written.step ⟨levels, same⟩
        exact Except.ok.inj same
      rwa [List.forall₂_eq_eq_eq] at same
    have sum : (blobs.map blobCost).sum = (blobs.map List.length).sum + 8 * blobs.length := by
      change (blobs.map fun blob => blob.length + 8).sum = _
      simp [List.sum_map_add, Nat.mul_comm]
    have size : (arrayBytes 1 false blobs).length = framed ((blobs.map List.length).sum) blobs.length := by
      rw [arrayBytes_length Nat.one_pos, areaEnd_elemParts_one, Nat.zero_add]
    have lower := le_framed (blobs.map List.length).sum blobs.length
    have upper := framed_le (blobs.map List.length).sum blobs.length
    have whole : (arrayBytes 1 false blobs ++ [0] ++ signatureArray.signatureBytes).length =
        framed ((blobs.map List.length).sum) blobs.length + 4 := by
      rw [List.length_append, List.length_append, size]
      rfl
    change (arrayBytes 1 false blobs ++ [0] ++ signatureArray.signatureBytes).length ≤ _ ∧
      _ ≤ 8 * (arrayBytes 1 false blobs ++ [0] ++ signatureArray.signatureBytes).length
    rw [valueCost_signatureValue, sum, whole]
    omega
  · have same := valueCost_of_written list written
    omega

variable {entries : DictBuilder} {keep : List String} {bytes : Bytes}

/-- The bytes of a dict, from the bytes of its variants. -/
theorem written_dict (written : Written dictType entries.build bytes) :
    ∃ parts, arrayBytes 8 false parts = bytes ∧ List.Forall₂ (fun entry part =>
      ∃ inner, Written .variant (.variant entry.2.1 entry.2.2) inner ∧
        tupleBytes [(1, none), (8, none)] none [asBytes entry.1 ++ [0], inner] = part) entries parts := by
  obtain ⟨levels, written⟩ := written.step
  obtain ⟨parts, each, rfl⟩ := map_eq_ok.mp written
  rw [mapM_eq_ok, List.forall₂_map_left_iff] at each
  refine ⟨parts, rfl, each.imp fun entry part member => ?_⟩
  obtain ⟨levels, member⟩ := Written.step ⟨levels, member⟩
  obtain ⟨_, members, rfl⟩ := (encodeStruct_eq_ok (List.cons_ne_nil _ _)).mp member
  obtain _ | ⟨key, _ | ⟨value, _ | _⟩⟩ := members
  refine ⟨_, ⟨levels, value⟩, ?_⟩
  obtain ⟨_, key⟩ := Written.step ⟨levels, key⟩
  simp only [encodeStep, strBytes] at key
  split_ifs at key
  cases key
  rfl

/-- **A dict takes at most the cost of its entries, and pays for them 16 times over.** -/
theorem dict_cost (written : Written dictType entries.build bytes) :
    bytes.length ≤ dictCost entries ∧ dictCost entries ≤ 16 * bytes.length := by
  obtain ⟨parts, rfl, each⟩ := written_dict written
  have size := arrayBytes_length (show 0 < 8 by decide) parts
  have upper := framed_le (areaEnd 0 (elemParts 8 parts)) parts.length
  have lower := le_framed (areaEnd 0 (elemParts 8 parts)) parts.length
  have padded : areaEnd 0 (elemParts 8 parts) ≤ 0 + (parts.map fun part => part.length + 7).sum :=
    areaEnd_elemParts_le (by decide) parts 0
  have inside := sum_length_le_area (elemParts 8 parts) 0
  rw [area_length (aligned_elemParts (by decide) parts), Nat.sub_zero, List.map_map] at inside
  have total : (parts.map fun part => part.length + 7).sum + 8 * parts.length ≤ dictCost entries ∧
      dictCost entries ≤ 16 * ((parts.map List.length).sum + parts.length) := by
    clear size upper lower padded inside written
    induction each with
    | nil => exact ⟨le_rfl, le_rfl⟩
    | @cons entry part entries parts first _ ih =>
      obtain ⟨inner, written, rfl⟩ := first
      have value := variant_cost written
      have up := alignUp_le ((asBytes entry.1).length + 1) (show 0 < 8 by decide)
      have here := le_alignUp (show 0 < 8 by decide) ((asBytes entry.1).length + 1)
      have size : (tupleBytes [(1, none), (8, none)] none [asBytes entry.1 ++ [0], inner]).length =
          framed (alignUp ((asBytes entry.1).length + 1) 8 + inner.length) 1 := by
        rw [tupleBytes_length (by simp) rfl]
        simp [areaEnd, memberParts, show nOffsets [(1, none), (8, none)] = 1 from rfl]
      have more := framed_le (alignUp ((asBytes entry.1).length + 1) 8 + inner.length) 1
      have less := le_framed (alignUp ((asBytes entry.1).length + 1) 8 + inner.length) 1
      simp only [dictCost, keyCost, List.map_cons, List.sum_cons, List.length_cons, size] at ih ⊢
      omega
  change (parts.map List.length).sum ≤ _ at inside
  omega

/-! ### From the sources to the written dict -/

theorem dictCost_merge (run : mergeInto (mergeValue keep) newValue held offered = .ok merged) :
    dictCost merged ≤ dictCost held + dictCost offered := by
  have fresh : ∀ seen blobs, ((freshBlobs seen blobs).map blobCost).sum ≤ (blobs.map blobCost).sum := fun seen blobs =>
    ((freshBlobs_sublist seen blobs).map blobCost).sum_le_sum fun _ _ => Nat.zero_le _
  refine weight_mergeFrom keyCost (fun key old value result made => ?_) (fun key value result made => ?_) run
  · grind [mergeValue_eq_ok, valueCost_signatureValue, union]
  · grind [newValue_eq_ok, valueCost_signatureValue, union]

/-- Only an array of byte arrays holds a blob. -/
theorem type_of_blob (written : Written ty (.array (items ++ [.bytes signature])) data) : ty = signatureArray := by
  obtain ⟨levels, written⟩ := written.step
  cases ty with
  | array elem =>
    by_cases byte : elem = .byte
    · subst byte
      simp [encodeStep] at written
    rw [encodeStep_array _ byte] at written
    obtain ⟨parts, each, -⟩ := map_eq_ok.mp written
    rw [mapM_eq_ok] at each
    obtain ⟨part, -, blob⟩ := forall₂_exists_left each.flip (List.mem_append_right _ (.head _))
    obtain ⟨_, blob⟩ := Written.step ⟨levels, blob⟩
    cases elem with
    | array inner => cases inner <;> first | rfl | simp [encodeStep] at blob
    | _ => simp [encodeStep] at blob
  | _ => simp [encodeStep] at written

/-- A blob pushed on a value that is no signature list leaves nothing that can be written. -/
theorem valueCost_push {inner pushed : Value} {signature : Bytes} (run : pushInner signature inner = .ok pushed) :
    valueCost (ty, pushed) ≤ valueCost (ty, inner) + blobCost signature := by
  unfold pushInner at run
  split at run
  · next items =>
    cases run
    by_cases list : ∃ blobs, (ty, Value.array items) = signatureValue blobs
    · obtain ⟨blobs, same⟩ := list
      obtain ⟨rfl, rfl⟩ : ty = signatureArray ∧ items = blobs.map .bytes := by simpa [signatureValue] using same
      have more : (signatureArray, Value.array (blobs.map .bytes ++ [.bytes signature])) =
          signatureValue (blobs ++ [signature]) := by simp [signatureValue]
      rw [more, same, valueCost_signatureValue, valueCost_signatureValue]
      simp
      omega
    · have other : ¬ ∃ blobs, (ty, Value.array (items ++ [.bytes signature])) = signatureValue blobs := by
        rintro ⟨blobs, same⟩
        obtain ⟨rfl, whole⟩ : ty = signatureArray ∧ items ++ [.bytes signature] = blobs.map .bytes := by
          simpa [signatureValue] using same
        obtain ⟨front, back, rfl, rfl, -⟩ := List.append_eq_map_iff.mp whole
        exact list ⟨front, rfl⟩
      have unwritten : ¬ ∃ data, Written .variant (.variant ty (.array (items ++ [.bytes signature]))) data := by
        rintro ⟨data, written⟩
        obtain ⟨levels, written⟩ := written.step
        obtain ⟨data, child, -⟩ := map_eq_ok.mp written
        obtain rfl : ty = signatureArray := type_of_blob ⟨levels, child⟩
        obtain ⟨blobs, same⟩ := blobs_of_encode child
        exact other ⟨blobs, by rw [same]; rfl⟩
      rw [valueCost, dif_neg other, dif_neg unwritten]
      exact Nat.zero_le _
  · cases run

/-- The signature keys that a dict does not hold. -/
def missingKeys (entries : DictBuilder) : Nat := (signatureKeys.filter fun key => key ∉ entries.map Prod.fst).length

/-- A signature goes to the first entry of its key, or to a new entry at the end. -/
theorem appendEntry_cases (run : appendEntry key signature entries = .ok next) :
    (next.map Prod.fst = entries.map Prod.fst ∧ dictCost next ≤ dictCost entries + blobCost signature) ∨
      key ∉ entries.map Prod.fst ∧ next = entries ++ [(key, signatureValue [signature])] := by
  induction entries generalizing next with
  | nil =>
    cases run
    exact .inr ⟨List.not_mem_nil, rfl⟩
  | cons entry entries ih =>
    obtain ⟨name, ty, inner⟩ := entry
    rw [appendEntry] at run
    split at run
    · obtain ⟨pushed, push, rfl⟩ := map_eq_ok.mp run
      have bound := @valueCost_push ty _ _ _ push
      refine .inl ⟨rfl, ?_⟩
      simp only [dictCost, List.map_cons, List.sum_cons]
      omega
    · next different =>
      obtain ⟨rest, appended, rfl⟩ := map_eq_ok.mp run
      obtain ⟨keys, bound⟩ | ⟨absent, rfl⟩ := ih appended
      · refine .inl ⟨by rw [List.map_cons, List.map_cons, keys], ?_⟩
        simp only [dictCost, List.map_cons, List.sum_cons] at bound ⊢
        omega
      · exact .inr ⟨by simpa [Ne.symm different] using absent, rfl⟩

/-- A signature adds its bytes and its offset; a list that the dict does not hold is one of four. -/
theorem dictCost_append (known : key ∈ signatureKeys) (run : appendEntry key signature entries = .ok next) :
    dictCost next + 64 * missingKeys next ≤ dictCost entries + 64 * missingKeys entries + blobCost signature := by
  obtain ⟨keys, bound⟩ | ⟨absent, rfl⟩ := appendEntry_cases run
  · rw [missingKeys, keys, ← missingKeys]
    omega
  · have fewer : missingKeys (entries ++ [(key, signatureValue [signature])]) < missingKeys entries := by
      have split : (signatureKeys.filter fun name =>
        name ∉ (entries ++ [(key, signatureValue [signature])]).map Prod.fst) =
          (signatureKeys.filter fun name => name ∉ entries.map Prod.fst).filter (· ≠ key) := by
        rw [List.filter_filter]
        refine List.filter_congr fun name _ => ?_
        rw [Bool.eq_iff_iff]
        simp [and_comm]
      rw [missingKeys, split]
      refine List.length_filter_lt_length_iff_exists.mpr
        ⟨key, List.mem_filter.mpr ⟨known, by simpa using absent⟩, by simp⟩
    have short : ∀ name ∈ signatureKeys, keyCost name ≤ 50 := by decide +kernel
    have here := short key known
    simp only [dictCost, List.map_append, List.sum_append, List.map_cons, List.map_nil,
      List.sum_cons, List.sum_nil, valueCost_signatureValue]
    omega

theorem dictCost_appends (known : ∀ entry ∈ signatures, entry.1 ∈ signatureKeys)
    {dict : Value} (run : appendSignatures entries.build signatures = .ok dict) :
    ∃ final : DictBuilder, dict = final.build ∧ dictCost final ≤ dictCost entries + 64 * missingKeys entries +
      (signatures.map fun signature => signature.2.length + 8).sum := by
  induction signatures generalizing entries with
  | nil =>
    cases run
    exact ⟨entries, rfl, by omega⟩
  | cons entry signatures ih =>
    rw [List.forall_mem_cons] at known
    obtain ⟨next, appended, rest⟩ := bind_eq_ok.mp run
    rw [mapError_eq_ok, appendSignature_build] at appended
    obtain ⟨next, pushed, rfl⟩ := map_eq_ok.mp appended
    obtain ⟨final, rfl, bound⟩ := ih known.2 rest
    have step := dictCost_append known.1 pushed
    refine ⟨final, rfl, ?_⟩
    rw [List.map_cons, List.sum_cons]
    unfold blobCost at step
    omega

/-- The entries of a source, which pays for them. An empty file holds no dict. -/
theorem source_entries {dict : Option Value} (read : parseOptional source = .ok dict) :
    ∃ entries : DictBuilder, dict.getD emptyDict = entries.build ∧
      storedEntries dict = .ok entries ∧ dictCost entries ≤ 16 * source.elim 0 List.length := by
  have nothing : ∃ entries : DictBuilder, Option.getD none emptyDict = entries.build ∧
      storedEntries none = .ok entries ∧
      dictCost entries ≤ 16 * source.elim 0 List.length := ⟨[], rfl, rfl, Nat.zero_le _⟩
  cases source with
  | none =>
    cases read
    exact nothing
  | some bytes =>
    rw [parseOptional, parseSignatureDict] at read
    split at read
    · cases read
      exact nothing
    · obtain ⟨value, parsed, rfl⟩ := map_eq_ok.mp read
      rw [mapError_eq_ok, liftGvariant_eq_ok] at parsed
      have written := parse_sound _ _ _ _ parsed
      obtain ⟨entries, rfl, -⟩ := dict_shape (denotes_iff.mpr ⟨parse_parsedTypes _ _ _ _ parsed, _, written⟩)
      exact ⟨entries, rfl, dictEntries_build _ _, (dict_cost ⟨_, written⟩).2⟩

theorem merged_cost {stored incoming : Option Bytes} {dict : Option Value}
    (run : mergedDict stored incoming keep = .ok dict) :
    ∃ entries : DictBuilder, dict.getD emptyDict = entries.build ∧
      dictCost entries ≤ 16 * (stored.elim 0 List.length + incoming.elim 0 List.length) := by
  obtain ⟨held, read, run⟩ := bind_eq_ok.mp run
  obtain ⟨offered, reads, run⟩ := bind_eq_ok.mp run
  obtain ⟨entries, same, stored_entries, paid⟩ := source_entries read
  cases offered with
  | none =>
    cases run
    exact ⟨entries, same, by omega⟩
  | some offered =>
    obtain ⟨value, merges, rfl⟩ := map_eq_ok.mp run
    obtain ⟨others, same, -, pays⟩ := source_entries reads
    obtain ⟨_, read_back, merges⟩ := bind_eq_ok.mp merges
    obtain rfl := build_injective ((build_of_dictEntries read_back).symm.trans same)
    rw [check_bind_eq_ok, stored_entries, ok_bind] at merges
    obtain ⟨merged, joined, built⟩ := bind_eq_ok.mp merges.2
    cases built
    have cost := dictCost_merge joined
    exact ⟨merged, rfl, by omega⟩

/-- **The bound is never below the size of the written dict.** -/
theorem size_le_bound {stored incoming : Option Bytes}
    (known : ∀ entry ∈ signatures, entry.1 ∈ signatureKeys) {dict : Value}
    (run : editDict stored incoming signatures keep = .ok dict) (written : serializeSignatureDict dict = .ok bytes) :
    bytes.length ≤ sizeBound stored incoming signatures := by
  obtain ⟨merged, joined, appended⟩ := bind_eq_ok.mp run
  obtain ⟨entries, same, paid⟩ := merged_cost joined
  rw [same] at appended
  obtain ⟨final, rfl, cost⟩ := dictCost_appends known appended
  rw [serializeSignatureDict, mapError_eq_ok, toBytes_eq_encode] at written
  have fits := (dict_cost ⟨_, written⟩).1
  have missing : missingKeys entries ≤ signatureKeys.length := List.length_filter_le _ _
  unfold sizeBound
  omega

/-- **The size check is exact.** Whether the dict is already built or not, the check names the size
of the written dict exactly if that size is over the limit: the bound that skips the serialization
is never below the size. -/
theorem size_over_exact {stored incoming : Option Bytes} {signatures : List (String × Bytes)} {keep : List String}
    (known : ∀ entry ∈ signatures, entry.1 ∈ signatureKeys) {built : Option Value}
    (same : ∀ dict, built = some dict → editDict stored incoming signatures keep = .ok dict) :
    (∀ limit size, sizeOver limit stored incoming signatures built keep = .ok (some size) ↔
      ∃ dict bytes, editDict stored incoming signatures keep = .ok dict ∧
        serializeSignatureDict dict = .ok bytes ∧ limit < bytes.length ∧ bytes.length = size) ∧
    ∀ dict bytes, editDict stored incoming signatures keep = .ok dict → serializeSignatureDict dict = .ok bytes →
      bytes.length ≤ sizeBound stored incoming signatures := by
  refine ⟨fun limit size => ?_, fun _ _ edited written => size_le_bound known edited written⟩
  have source : built.elim (editDict stored incoming signatures keep) .ok =
      editDict stored incoming signatures keep := by
    cases built with
    | none => rfl
    | some dict => exact (same dict rfl).symm
  rw [sizeOver, source]
  constructor
  · intro run
    split at run
    · cases run
    · obtain ⟨dict, edited, run⟩ := bind_eq_ok.mp run
      obtain ⟨bytes, written, run⟩ := bind_eq_ok.mp run
      split at run
      · next larger =>
        cases run
        exact ⟨dict, bytes, edited, written, larger, rfl⟩
      · cases run
  · rintro ⟨dict, bytes, edited, written, larger, rfl⟩
    have bound := size_le_bound known edited written
    rw [if_neg (by omega), edited, ok_bind, written, ok_bind, if_pos larger]

/-- A signature is appended to a stored dict that holds no list for it. -/
theorem size_over_exact_append :
    sizeOver 40 (some duplicateDict) none [("ostree.gpgsigs", [1, 2, 3])] none [] = .ok (some 60) := by
  have written : ((editDict (some duplicateDict) none [("ostree.gpgsigs", [1, 2, 3])] [] >>= serializeSignatureDict).map
      List.length).toOption = some 60 := by decide +kernel
  have known : ∀ entry ∈ [("ostree.gpgsigs", ([1, 2, 3] : Bytes))], entry.1 ∈ signatureKeys := by decide +kernel
  generalize run : editDict (some duplicateDict) none [("ostree.gpgsigs", [1, 2, 3])] [] >>=
    serializeSignatureDict = result
    at written
  cases result with
  | error _ => cases written
  | ok bytes =>
    obtain ⟨dict, edited, serialized⟩ := bind_eq_ok.mp run
    have length : bytes.length = 60 := Option.some.inj written
    exact ((@size_over_exact _ _ _ _ known none nofun).1 40 60).mpr
      ⟨dict, bytes, edited, serialized, by omega, length⟩

end Ostrya.Receive
