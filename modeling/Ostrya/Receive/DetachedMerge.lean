/-
**The merge of detached metadata** (`receive/merge.rs`, `merged_dict` and `check_edit` of `receive/finish.rs`).

A session merges the dict that a client sent for a commit into the dict that the repository holds.
The value-level merge is
an instance of the ordered merge: under a key of `SIGNATURE_KEYS` the lists are united, under
another key the incoming value
wins. Before the publication the session checks both dicts in place, from their bytes, and builds no value; after it the
merge must not fail. What the checks read of an entry, its key and the signature of its type, decides whether
the merge accepts it (`aay_iff`).
-/

import Ostrya.ByteFormat.OrderedMerge
import Ostrya.Delta.Superblock
import Ostrya.Receive.Session
import Ostrya.Remote.Reading

namespace Ostrya.Receive

open ByteFormat Gvariant Ostrya.Core Repo Delta Remote

/-! ### The merge -/

/-- `SIGNATURE_KEYS`. -/
def signatureKeys : List String := ["ostree.gpgsigs", "ostree.sign.ed25519", "ostree.sign.spki", "ostree.sign.dummy"]

/-- The type of a signature list, `SIGNATURE_ARRAY`. -/
def signatureArray : Ty := .array (.array .byte)

/-- `INCOMING`. -/
def incomingSubject : String := "the incoming detached metadata"

/-- `STORED`. -/
def storedSubject : String := "the stored detached metadata"

/-- `not_aay`. -/
def notAay (key subject : String) : Fault :=
  .invalidFormat (subject ++ " holds '" ++ key ++ "' as a value that is not \x60aay\x60")

/-- One entry of `dict_entries`: its key, and the type and the value of its variant. -/
def dictEntry (subject : String) : Value → Except Fault (String × Ty × Value)
  | .tuple [.str key, .variant ty inner] => .ok (key, ty, inner)
  | _ => .error (.invalidFormat (subject ++ " holds an entry that is not \x60\x7bsv\x7d\x60"))

/-- `dict_entries`. -/
def dictEntries (subject : String) : Value → Except Fault DictBuilder
  | .array entries => entries.mapM (dictEntry subject)
  | _ => .error (.invalidFormat (subject ++ " is not a dict"))

/-- The blobs of a list, if each of its elements is one. -/
def asBlobs : List Value → Option (List Bytes)
  | [] => some []
  | .bytes blob :: items => (asBlobs items).map (blob :: ·)
  | _ => none

/-- `signature_list` and `signature_blobs`. -/
def signatureBlobs (subject key : String) : Ty × Value → Except Fault (List Bytes)
  | (.array (.array .byte), .array items) =>
    match asBlobs items with
    | some blobs => .ok blobs
    | none => .error (notAay key subject)
  | _ => .error (notAay key subject)

/-- `signature_value`. -/
def signatureValue (blobs : List Bytes) : Ty × Value := (signatureArray, .array (blobs.map .bytes))

/-- The incoming blobs that `union` appends: those that were not seen before. -/
def freshBlobs : (seen incoming : List Bytes) → List Bytes
  | _, [] => []
  | seen, blob :: incoming =>
    if blob ∈ seen then freshBlobs seen incoming else blob :: freshBlobs (blob :: seen) incoming

/-- `union`. -/
def union (list incoming : List Bytes) : List Bytes := list ++ freshBlobs list incoming

/-- The value under a key that both dicts hold. -/
def mergeValue (keep : List String) (key : String) (old value : Ty × Value) : Except Fault (Ty × Value) :=
  if key ∈ signatureKeys then do
    let list ← signatureBlobs storedSubject key old
    let blobs ← signatureBlobs incomingSubject key value
    .ok (signatureValue (union list blobs))
  else .ok (if key ∈ keep then old else value)

/-- The value under a key that only the incoming dict holds. -/
def newValue (key : String) (value : Ty × Value) : Except Fault (Ty × Value) :=
  if key ∈ signatureKeys then do
    let blobs ← signatureBlobs incomingSubject key value
    .ok (signatureValue (union [] blobs))
  else .ok value

def duplicateKey (key : String) : Fault :=
  .invalidFormat ("the incoming detached metadata holds the key '" ++ key ++ "' more than once")

/-- The check of the incoming keys. -/
def checkDistinct : (seen : List String) → DictBuilder → Except Fault Unit
  | _, [] => .ok ()
  | seen, (key, _) :: entries => if key ∈ seen then .error (duplicateKey key) else checkDistinct (key :: seen) entries

/-- The entries of the stored dict, if there is one. -/
def storedEntries : Option Value → Except Fault DictBuilder
  | some stored => dictEntries storedSubject stored
  | none => .ok []

/-- `merge_detached`. -/
def mergeDetached (stored : Option Value) (incoming : Value) (keep : List String) : Except Fault Value := do
  let incoming ← dictEntries incomingSubject incoming
  checkDistinct [] incoming
  let stored ← storedEntries stored
  let merged ← mergeInto (mergeValue keep) newValue stored incoming
  .ok (DictBuilder.build merged)

/-- `parse_signature_dict` of a dict that may be absent. -/
def parseOptional : Option Bytes → Except Fault (Option Value)
  | some bytes => parseSignatureDict .core bytes
  | none => .ok none

/-- `merged_dict`. -/
def mergedDict (stored incoming : Option Bytes) (keep : List String) : Except Fault (Option Value) := do
  let stored ← parseOptional stored
  match ← parseOptional incoming with
  | some incoming => (mergeDetached stored incoming keep).map some
  | none => .ok stored

/-! ### The checks in place -/

/-- `VariantBytes`: the bytes of the child and the signature of its type. -/
def GvDecode.variantBytes : GvDecode (Bytes × String) where
  spec := (8, none)
  decode := fun data =>
    match rposition data with
    | none => .error (.notNormal "variant lacks a type separator")
    | some sep =>
      match fromUtf8 (data.drop (sep + 1)) with
      | none => .error (.notNormal "variant type signature is not UTF-8")
      | some signature => .ok (data.take sep, signature)
  valid := valid_variant

/-- An entry `{sv}`, read in place. -/
def GvDecode.entryInPlace : GvDecode (String × Bytes × String) := .tuple (.cons .str (.last GvDecode.variantBytes))

/-- `not_a_dict`. -/
def notADict (subject : String) (fault : Gvariant.Error) : Fault :=
  .invalidFormat (subject ++ " is not a dict \x60a\x7bsv\x7d\x60: " ++ fault.display)

/-- `entries_in_place`. -/
def entriesInPlace (bytes : Bytes) (subject : String) : Except Fault ArrayReader := do
  (validate dictType bytes).mapError (notADict subject)
  ((GvDecode.arrayIter GvDecode.entryInPlace).decode bytes).mapError (notADict subject)

/-- A loop over the entries of a dict, in place. -/
def overEntries {σ : Type} (bytes : Bytes) (subject : String)
    (step : σ → String → String → Except Fault σ) (start : σ) : Except Fault σ := do
  let entries ← entriesInPlace bytes subject
  (validated (notADict subject) GvDecode.entryInPlace.decode
    (fun state (key, _, signature) => (step state key signature).map ((), ·)) entries start).map Prod.snd

/-- One entry of `check_incoming`; `seen` holds the keys before it. -/
def incomingStep (seen : List String) (key signature : String) : Except Fault (List String) :=
  if key ∈ seen then .error (duplicateKey key)
  else if key ∈ signatureKeys ∧ signature ≠ "aay" then .error (notAay key incomingSubject)
  else .ok (key :: seen)

/-- `check_incoming`. -/
def checkIncoming (bytes : Bytes) : Except Fault Unit :=
    (overEntries bytes incomingSubject incomingStep []).map fun _ => ()

/-- `signature_keys_in`. The flags of the signature keys are the list of the keys that are
flagged. -/
def signatureKeysIn (bytes : Bytes) : Except Fault (List String) :=
  overEntries bytes incomingSubject (fun held key _ => .ok (if key ∈ signatureKeys then key :: held else held)) []

/-- One entry of `check_stored`; `checked` holds the keys whose first entry was checked. -/
def storedStep (touched checked : List String) (key signature : String) : Except Fault (List String) :=
  if key ∈ signatureKeys ∧ key ∈ touched then
    if key ∉ checked ∧ signature ≠ "aay" then .error (notAay key storedSubject) else .ok (key :: checked)
  else .ok checked

/-- `check_stored`. -/
def checkStored (stored : Bytes) (touched : List String) : Except Fault Unit :=
  (overEntries stored storedSubject (storedStep touched) []).map fun _ => ()

/-- `empty_dict`. -/
def emptyDict : Value := .array []

/-- The signature keys of the incoming dict, if there is one. -/
def incomingKeys : Option Bytes → Except Fault (List String)
  | some incoming => signatureKeysIn incoming
  | none => .ok []

/-- The part of `check_edit` that reads the stored dict. -/
def checkEditStored (stored incoming : Option Bytes) (keys : List String) : Except Fault Unit :=
  match stored with
  | none => .ok ()
  | some stored => do
    let touched ← incomingKeys incoming
    checkStored stored (touched ++ keys)

/-- `check_edit`. -/
def checkEdit (stored incoming : Option Bytes) (keys : List String) (build : Bool)
    (keep : List String) : Except Failure (Option Value) :=
  if stored = none ∧ incoming = none then .ok (if build then some emptyDict else none)
  else
    (do
      checkEditStored stored incoming keys
      if build then (mergedDict stored incoming keep).map fun dict => some (Option.getD dict emptyDict)
      else .ok none).mapError .internal

/-- An error of the signing crate. -/
def ofSign : Delta.Error → Fault
  | .invalidFormat message => .invalidFormat message
  | .core fault => .core fault
  | .io message => .io message
  | _ => .other ""

/-- The signatures of an edit, appended to a dict one by one. -/
def appendSignatures : Value → List (String × Bytes) → Except Fault Value
  | dict, [] => .ok dict
  | dict, (key, signature) :: signatures => do
    appendSignatures (← (appendSignature dict key signature).mapError ofSign) signatures

/-! ### What the merge accepts, and its result -/

variable {entries : DictBuilder} {value : Ty × Value} {bytes : Bytes}

section Merge

variable {keep : List String} {key : String}

theorem mem_freshBlobs :
    blob ∈ freshBlobs seen incoming ↔ blob ∈ incoming ∧ blob ∉ seen := by
  induction incoming generalizing seen with
  | nil => simp [freshBlobs]
  | cons first incoming ih =>
    unfold freshBlobs
    split
    · grind
    · grind

theorem freshBlobs_nodup (seen incoming : List Bytes) : (freshBlobs seen incoming).Nodup := by
  induction incoming generalizing seen with
  | nil => exact .nil
  | cons first incoming ih =>
    unfold freshBlobs
    split
    · exact ih seen
    · exact List.nodup_cons.mpr ⟨fun again => (mem_freshBlobs.mp again).2 (.head _), ih _⟩

theorem freshBlobs_sublist (seen incoming : List Bytes) : (freshBlobs seen incoming).Sublist incoming := by
  induction incoming generalizing seen with
  | nil => exact .slnil
  | cons first incoming ih =>
    unfold freshBlobs
    split
    · exact .cons _ (ih seen)
    · exact .cons_cons _ (ih _)

theorem union_again (list incoming : List Bytes) : union (union list incoming) incoming = union list incoming := by
  have none_fresh : freshBlobs (union list incoming) incoming = [] := by
    refine List.eq_nil_iff_forall_not_mem.mpr fun blob inside => ?_
    rw [mem_freshBlobs, union, List.mem_append, mem_freshBlobs] at inside
    tauto
  rw [union, none_fresh, List.append_nil]

theorem asBlobs_eq_some :
    asBlobs items = some blobs ↔ items = blobs.map .bytes := by
  induction items generalizing blobs with
  | nil => cases blobs <;> simp [asBlobs]
  | cons item items ih =>
    cases item <;> cases blobs <;> simp [asBlobs, ih]
    tauto

theorem signatureBlobs_eq_ok :
    signatureBlobs subject key value = .ok blobs ↔ value = signatureValue blobs := by
  unfold signatureBlobs
  split
  · next items =>
    simp only [signatureValue, signatureArray, Prod.mk.injEq, true_and, Value.array.injEq, ← asBlobs_eq_some]
    split <;> simp_all
  · next other =>
    simp only [reduceCtorEq, false_iff]
    rintro rfl
    exact other _ rfl

theorem mergeValue_eq_ok :
    mergeValue keep key old value = .ok result ↔
      if key ∈ signatureKeys then ∃ list blobs, old = signatureValue list ∧
        value = signatureValue blobs ∧ result = signatureValue (union list blobs)
      else result = if key ∈ keep then old else value := by
  unfold mergeValue
  split
  · simp only [bind_eq_ok, signatureBlobs_eq_ok, Except.ok.injEq]
    grind
  · simp [eq_comm]

theorem newValue_eq_ok :
    newValue key value = .ok result ↔
      if key ∈ signatureKeys then ∃ blobs, value = signatureValue blobs ∧ result = signatureValue (union [] blobs)
      else result = value := by
  unfold newValue
  split
  · simp only [bind_eq_ok, signatureBlobs_eq_ok, Except.ok.injEq]
    grind
  · simp [eq_comm]

theorem signatureValue_injective : Function.Injective signatureValue := by
  intro first second same
  have same : first.map Value.bytes = second.map Value.bytes := by simpa [signatureValue] using same
  exact List.map_injective_iff.mpr (fun _ _ equal => Value.bytes.inj equal) same

theorem dictEntries_build (subject : String) (entries : DictBuilder) :
    dictEntries subject entries.build = .ok entries := by
  refine mapM_eq_ok.mpr ?_
  rw [List.forall₂_map_left_iff, List.forall₂_same]
  exact fun _ _ => rfl

theorem build_injective (same : entries.build = others.build) : entries = others := by
  have read := dictEntries_build "" others
  rw [← same, dictEntries_build] at read
  exact Except.ok.inj read

theorem build_of_dictEntries {dict : Value}
    (read : dictEntries subject dict = .ok entries) : dict = entries.build := by
  unfold dictEntries at read
  split at read
  · next items =>
    congr 1
    refine List.forall₂_eq_eq_eq ▸ ?_
    rw [List.forall₂_map_right_iff]
    refine (mapM_eq_ok.mp read).imp fun item entry read => ?_
    unfold dictEntry at read
    split at read
    · cases read
      rfl
    · cases read
  · cases read

theorem checkDistinct_eq_ok :
    checkDistinct seen entries = .ok () ↔ (entries.map Prod.fst).Nodup ∧ ∀ key ∈ entries.map Prod.fst, key ∉ seen := by
  induction entries generalizing seen with
  | nil => simp [checkDistinct]
  | cons entry entries ih =>
    grind [checkDistinct, List.nodup_cons]

/-- **What the merge accepts.** -/
theorem mergeDetached_eq_ok {stored : Option Value} {held offered : DictBuilder}
    (read : storedEntries stored = .ok held)
    {merged : Value} :
    mergeDetached stored offered.build keep = .ok merged ↔
      (offered.map Prod.fst).Nodup ∧ (∀ entry ∈ offered, ByteFormat.Accepts (mergeValue keep) newValue held entry) ∧
        DictBuilder.build (mergeResult (mergeValue keep) newValue held offered) = merged := by
  rw [mergeDetached, dictEntries_build, ok_bind, check_bind_eq_ok, checkDistinct_eq_ok, read, ok_bind]
  simp only [List.not_mem_nil, not_false_eq_true, implies_true, and_true]
  refine and_congr_right fun distinct => ?_
  simp only [bind_eq_ok, mergeInto_eq_ok distinct, Except.ok.injEq]
  grind

/-- What the merge of `offered` into `held` is, entry by entry. The first entry under a key
counts. -/
structure Merges (keep : List String) (held offered entries : DictBuilder) : Prop where
  keys : entries.map Prod.fst = held.map Prod.fst ++ (offered.map Prod.fst).filter (· ∉ held.map Prod.fst)
  /-- An entry stays if it is not the first of its key, or if its key is not offered. -/
  stays : ∀ position entry, held[position]? = some entry →
    (held.findIdx? fun other => other.1 = entry.1) ≠ some position ∨ offered.lookup entry.1 = none →
    entries[position]? = some entry
  /-- The stored blobs, then the distinct incoming ones that are not among them. -/
  signatures : ∀ key ∈ signatureKeys, ∀ value, offered.lookup key = some value →
    ∃ list blobs fresh, value = signatureValue blobs ∧ (held.lookup key).getD (signatureValue []) =
      signatureValue list ∧
      entries.lookup key = some (signatureValue (list ++ fresh)) ∧ fresh.Nodup ∧ fresh.Sublist blobs ∧
      ∀ blob, blob ∈ fresh ↔ blob ∈ blobs ∧ blob ∉ list
  others : ∀ key ∉ signatureKeys, ∀ value, offered.lookup key = some value →
    entries.lookup key = some (if key ∈ keep then (held.lookup key).getD value else value)

/-- An accepted offer merges as the specification says. -/
theorem merges_of_accepts (accepted : ∀ entry ∈ offered, ByteFormat.Accepts (mergeValue keep) newValue held entry) :
    Merges keep held offered (mergeResult (mergeValue keep) newValue held offered) where
  keys := keys_mergeResult held offered
  stays := by
    intro position entry here same
    have inside : position < (changeFirst (changed (mergeValue keep) offered) [] held).length := by
      grind [List.length, keys_changeFirst, changed, mergeValue, List.length_map, List.getElem?_eq_some_iff]
    rw [mergeResult, List.getElem?_append_left inside]
    refine getElem?_changeFirst here (.inr (same.imp_right fun absent => ?_))
    rw [changed, absent]
  signatures := by
    intro key signature value offers
    obtain ⟨result, looked, ⟨old, held_there, made⟩ | ⟨absent, made⟩⟩ :=
      lookup_mergeResult offers (accepted _ (mem_of_lookup offers))
    · rw [mergeValue_eq_ok, if_pos signature] at made
      obtain ⟨list, blobs, rfl, rfl, rfl⟩ := made
      exact ⟨list, blobs, freshBlobs list blobs, rfl, by rw [held_there]; rfl, looked,
        freshBlobs_nodup _ _, freshBlobs_sublist _ _, fun _ => mem_freshBlobs⟩
    · rw [newValue_eq_ok, if_pos signature] at made
      obtain ⟨blobs, rfl, rfl⟩ := made
      exact ⟨[], blobs, freshBlobs [] blobs, rfl, by rw [absent]; rfl, looked, freshBlobs_nodup _ _,
        freshBlobs_sublist _ _, fun _ => mem_freshBlobs⟩
  others := by
    intro key plain value offers
    obtain ⟨result, looked, ⟨old, held_there, made⟩ | ⟨absent, made⟩⟩ :=
      lookup_mergeResult offers (accepted _ (mem_of_lookup offers))
    · rw [mergeValue_eq_ok, if_neg plain] at made
      rw [looked, made, held_there, Option.getD_some]
    · rw [newValue_eq_ok, if_neg plain] at made
      rw [looked, made, absent, Option.getD_none, ite_self]

theorem mergeDetached_merges {stored : Option Value} {incoming merged : Value}
    (run : mergeDetached stored incoming keep = .ok merged) :
    ∃ held offered entries : DictBuilder, stored.getD emptyDict = held.build ∧
      incoming = offered.build ∧ merged = entries.build ∧ Merges keep held offered entries ∧
      mergeDetached (some merged) incoming keep = .ok merged := by
  have whole := run
  obtain ⟨offered, offers, run⟩ := bind_eq_ok.mp run
  obtain ⟨-, run⟩ := check_bind_eq_ok.mp run
  obtain ⟨held, holds, -⟩ := bind_eq_ok.mp run
  obtain rfl := build_of_dictEntries offers
  obtain ⟨distinct, accepted, rfl⟩ := (mergeDetached_eq_ok holds).mp whole
  have stored_dict : stored.getD emptyDict = held.build := by
    cases stored with
    | none =>
      cases holds
      rfl
    | some stored => exact build_of_dictEntries holds
  refine ⟨held, offered, _, stored_dict, rfl, rfl, merges_of_accepts accepted, ?_⟩
  have again := mergeInto_idem (fun key old value result step => ?_) (fun key value result step => ?_) distinct
    ((mergeInto_eq_ok distinct).mpr ⟨accepted, rfl⟩)
  · grind [mergeInto_eq_ok, storedEntries, DictBuilder.build, mergeResult, mergeValue, newValue,
      dictEntries_build, mergeDetached_eq_ok]
  · grind [mergeValue_eq_ok, union_again]
  · grind [newValue_eq_ok, mergeValue_eq_ok, union_again]

end Merge

/-! ### What the checks in place read -/

section InPlace

variable {bytes data : Bytes} {subject : String}

theorem encodeStep_of_denotes {value : Value} (denoted : Denotes ty data value) :
    ∃ child, encodeStep child ty value = .ok data := by
  obtain ⟨levels, written⟩ := exists_encode_iff.mp (denotes_iff.mp denoted).2
  exact ⟨_, written⟩

theorem denotes_of_fromBytes {value : Value} (parsed : fromBytes ty data = .ok value) : Denotes ty data value :=
  denotes_iff.mpr ⟨parse_parsedTypes _ _ _ _ parsed, _, parse_sound _ _ _ _ parsed⟩

/-- The value of a variant in normal form. -/
def Shaped (value : Ty × Value) : Prop :=
  (∃ text, Ty.parse text = .ok value.1) ∧ ∃ inner, Denotes value.1 inner value.2

theorem dictEntry_shape {item : Value} (denoted : Denotes (.dictEntry .str .variant) part item) :
    ∃ entry : String × Ty × Value, item = DictBuilder.entryValue entry ∧ Shaped entry.2 := by
  obtain ⟨child, written⟩ := encodeStep_of_denotes denoted
  cases item with
  | tuple items =>
    obtain ⟨parts, each, -⟩ := (denotes_tuple (List.cons_ne_nil _ _)).mp (denotes_dictEntry.mp denoted)
    match items, parts, each with
    | [keyItem, valueItem], [_, _], .cons key (.cons value .nil) =>
      obtain ⟨_, key⟩ := encodeStep_of_denotes key
      obtain ⟨_, inside⟩ := encodeStep_of_denotes value
      cases keyItem <;> simp [encodeStep] at key
      cases valueItem <;> simp [encodeStep] at inside
      obtain ⟨named, inner, holds, -⟩ := denotes_variant.mp value
      exact ⟨(_, _, _), rfl, named, inner, holds⟩
  | _ => simp [encodeStep] at written

/-- A dict in normal form holds entries with types that parse. -/
theorem dict_shape {dict : Value} (denoted : Denotes dictType bytes dict) :
    ∃ entries : DictBuilder, dict = entries.build ∧ ∀ entry ∈ entries, Shaped entry.2 := by
  obtain ⟨child, written⟩ := encodeStep_of_denotes denoted
  cases dict with
  | array items =>
    obtain ⟨parts, each, -⟩ := (denotes_array (by decide)).mp denoted
    obtain ⟨entries, rfl, facts⟩ := exists_map_of_forall₂ each fun _ _ => dictEntry_shape
    exact ⟨entries, rfl, facts⟩
  | _ => simp [encodeStep, dictType] at written

theorem blobs_of_encode {value : Value}
    (written : encode levels signatureArray value = .ok data) :
    ∃ blobs : List Bytes, value = .array (blobs.map .bytes) := by
  obtain ⟨levels, step⟩ := exists_encode_iff.mp ⟨levels, written⟩
  cases value with
  | array items =>
    obtain ⟨parts, each, -⟩ := map_eq_ok.mp step
    have one : ∀ item part, encode levels (.array .byte) item = .ok part → ∃ blob, item = .bytes blob ∧ True := by
      intro item part written
      obtain ⟨_, blob⟩ := exists_encode_iff.mp ⟨levels, written⟩
      cases item <;> simp [encodeStep] at blob
      exact ⟨_, rfl, trivial⟩
    obtain ⟨blobs, rfl, -⟩ := exists_map_of_forall₂ (mapM_eq_ok.mp each) one
    exact ⟨blobs, rfl⟩
  | _ => simp [encodeStep, signatureArray] at step

/-- **The signature of its type tells a signature list.** -/
theorem aay_iff (shaped : Shaped value) :
    value.1.signatureString = "aay" ↔ ∃ blobs, value = signatureValue blobs := by
  obtain ⟨ty, value⟩ := value
  obtain ⟨⟨text, parsed⟩, inner, denoted⟩ := shaped
  constructor
  · intro aay
    have same : Ty.parse "aay" = .ok ty := by
      have own := Ty.parse_signature parsed
      rwa [aay] at own
    obtain rfl : signatureArray = ty :=
      Except.ok.inj ((show Ty.parse "aay" = .ok signatureArray from rfl).symm.trans same)
    obtain ⟨levels, written⟩ := (denotes_iff.mp denoted).2
    obtain ⟨blobs, rfl⟩ := blobs_of_encode written
    exact ⟨blobs, rfl⟩
  · rintro ⟨blobs, same⟩
    rw [show ty = signatureArray from congrArg Prod.fst same]
    rfl

theorem variantBytes_reads {value : Value} :
    ReadsTo GvDecode.variantBytes .variant (.variant ty value) (·.2 = ty.signatureString) := by
  intro data denoted _
  obtain ⟨⟨text, named⟩, child, -, rfl⟩ := denotes_variant.mp denoted
  have cut : splitVariant (child ++ 0 :: ty.signatureBytes) = .ok (child, ty.signatureBytes, ty) :=
    splitVariant_eq_ok.mpr ⟨rfl, rfl, Ty.parse_signature named⟩
  unfold splitVariant at cut
  split at cut
  · cases cut
  · next sep found =>
    dsimp only at cut
    split at cut
    · cases cut
    · next signature read =>
      split at cut
      · cases cut
      · next ty' parsed =>
        obtain rfl : ty' = ty := congrArg (·.2.2) (Except.ok.inj cut)
        exact ⟨(_, signature), by simp only [GvDecode.variantBytes, found, read]; rfl,
          (Ty.signature_of_parse parsed).symm⟩

/-- A dict that parses is read in place entry by entry. -/
theorem inPlace_reads {dict : Value} (parsed : fromBytes dictType bytes = .ok dict) (fits : Addressable bytes) :
    ∃ (entries : DictBuilder) (r : ArrayReader) (raws : List (String × Bytes × String)), dict = entries.build ∧
      entriesInPlace bytes subject = .ok r ∧ r.collect GvDecode.entryInPlace.decode = .ok raws ∧
      List.Forall₂ (fun entry raw => raw.1 = entry.1 ∧ raw.2.2 = entry.2.1.signatureString) entries raws := by
  have denoted := denotes_of_fromBytes parsed
  obtain ⟨entries, rfl, -⟩ := dict_shape denoted
  obtain ⟨r, opened, raws, drained, related⟩ := ReadsTo.array rfl (by decide) (fun (entry : String × Ty × Value) _ =>
    ReadsTo.dictEntry (.cons reads_str (.last variantBytes_reads)) rfl) bytes denoted fits
  refine ⟨entries, r, raws, rfl, ?_, drained, related⟩
  rw [entriesInPlace, check_bind_eq_ok, mapError_eq_ok, mapError_eq_ok]
  exact ⟨validate_eq_ok.mpr ⟨_, parsed⟩, opened⟩

/-- **A loop in place is a loop over the entries of the dict.** -/
theorem overEntries_eq_ok {σ : Type} {step : σ → String → String → Except Fault σ} {start final : σ}
    (fits : Addressable bytes) :
    overEntries bytes subject step start = .ok final ↔
      ∃ entries : DictBuilder, fromBytes dictType bytes = .ok entries.build ∧
        entries.foldlM (fun state entry => step state entry.1 entry.2.1.signatureString) start = .ok final := by
  have loop : ∀ {entries : DictBuilder} {raws : List (String × Bytes × String)}, List.Forall₂
      (fun entry raw => raw.1 = entry.1 ∧ raw.2.2 = entry.2.1.signatureString) entries raws → ∀ start,
      (∃ outs, steps (fun state (key, _, signature) => (step state key signature).map (Prod.mk ())) start raws =
        .ok (outs, final)) ↔
      entries.foldlM (fun state entry => step state entry.1 entry.2.1.signatureString) start = .ok final := by
    intro entries raws related
    induction related with
    | nil => simp [steps, List.foldlM, pure, Except.pure]
    | @cons entry raw _ _ first _ ih =>
      obtain ⟨key, child, signature⟩ := raw
      obtain ⟨rfl, rfl⟩ := first
      intro start
      rw [List.foldlM_cons]
      simp only [steps_cons_eq_ok, bind_eq_ok, map_eq_ok, ← ih]
      constructor
      · rintro ⟨_, _, next, ⟨_, stepped, ⟨⟩⟩, outs, rest, rfl⟩
        exact ⟨next, stepped, outs, rest⟩
      · rintro ⟨next, stepped, outs, rest⟩
        exact ⟨() :: outs, (), next, ⟨next, stepped, rfl⟩, outs, rest, rfl⟩
  simp only [overEntries, bind_eq_ok, map_validated_eq_ok]
  constructor
  · rintro ⟨r, opened, raws, drained, outs, _, run, rfl⟩
    have checked := opened
    rw [entriesInPlace, check_bind_eq_ok, mapError_eq_ok] at checked
    obtain ⟨dict, parsed⟩ := validate_eq_ok.mp checked.1
    obtain ⟨entries, r', raws', rfl, again, drains, related⟩ := @inPlace_reads _ subject _ parsed fits
    cases opened.symm.trans again
    cases drained.symm.trans drains
    exact ⟨entries, parsed, (loop related start).mp ⟨outs, run⟩⟩
  · rintro ⟨entries, parsed, run⟩
    obtain ⟨others, r, raws, same, opened, drained, related⟩ := @inPlace_reads _ subject _ parsed fits
    obtain rfl := build_injective same
    obtain ⟨outs, checked⟩ := (loop related start).mpr run
    exact ⟨r, opened, raws, drained, outs, final, checked, rfl⟩

/-- The entries of a dict that parses, with what is known of them. -/
theorem entries_of_parse (parsed : fromBytes dictType bytes = .ok entries.build) :
    ∀ entry ∈ entries, entry.2.1.signatureString = "aay" ↔ ∃ blobs, entry.2 = signatureValue blobs := by
  obtain ⟨others, same, facts⟩ := dict_shape (denotes_of_fromBytes parsed)
  obtain rfl := build_injective same
  exact fun entry inside => aay_iff (facts entry inside)

end InPlace

/-! ### The checks are exact -/

section Checks

variable {keep : List String}

theorem incomingStep_eq_ok :
    incomingStep seen key signature = .ok next ↔
      (key ∉ seen ∧ (key ∈ signatureKeys → signature = "aay")) ∧ next = key :: seen := by
  unfold incomingStep
  split
  · simp_all
  · split
    · simp_all
    · grind

theorem incomingSteps_eq_ok :
    (∃ final, entries.foldlM (fun state entry =>
      incomingStep state entry.1 entry.2.1.signatureString) seen = .ok final) ↔
      (entries.map Prod.fst).Nodup ∧ (∀ key ∈ entries.map Prod.fst, key ∉ seen) ∧
        ∀ entry ∈ entries, entry.1 ∈ signatureKeys → entry.2.1.signatureString = "aay" := by
  induction entries generalizing seen with
  | nil => simp [List.foldlM, pure, Except.pure]
  | cons entry entries ih =>
    simp only [List.foldlM_cons, bind_eq_ok]
    simp only [exists_and_left, ih, incomingStep_eq_ok, and_assoc, exists_eq_left, List.map_cons,
      List.nodup_cons, List.forall_mem_cons]
    grind

/-- **`check_incoming` accepts exactly what the merge accepts.** -/
theorem checkIncoming_eq_ok (fits : Addressable bytes) :
    checkIncoming bytes = .ok () ↔
      ∃ incoming merged, fromBytes dictType bytes = .ok incoming ∧ mergeDetached none incoming keep = .ok merged := by
  have accepts : ∀ entries : DictBuilder, fromBytes dictType bytes = .ok entries.build →
      ((∃ final, entries.foldlM
        (fun state entry => incomingStep state entry.1 entry.2.1.signatureString) [] = .ok final) ↔
        ∃ merged, mergeDetached none entries.build keep = .ok merged) := by
    intro entries parsed
    have lists := entries_of_parse parsed
    simp only [incomingSteps_eq_ok, mergeDetached_eq_ok (show storedEntries none = .ok [] from rfl), ByteFormat.Accepts,
      List.lookup_nil, newValue_eq_ok, List.not_mem_nil, not_false_eq_true, implies_true, true_and]
    constructor
    · rintro ⟨distinct, typed⟩
      refine ⟨_, distinct, fun entry inside => ?_, rfl⟩
      split
      · grind
      · exact ⟨_, rfl⟩
    · rintro ⟨_, distinct, accepted, _⟩
      refine ⟨distinct, fun entry inside signature => ?_⟩
      grind
  simp only [checkIncoming, map_eq_ok, and_true, overEntries_eq_ok fits]
  constructor
  · grind
  · rintro ⟨incoming, merged, parsed, accepted⟩
    obtain ⟨entries, read, -⟩ := bind_eq_ok.mp accepted
    obtain rfl := build_of_dictEntries read
    obtain ⟨final, run⟩ := (accepts entries parsed).mpr ⟨merged, accepted⟩
    exact ⟨final, entries, parsed, run⟩

theorem storedSteps_aay
    (run : entries.foldlM (fun state entry =>
      storedStep touched state entry.1 entry.2.1.signatureString) checked = .ok final)
    (signature : key ∈ signatureKeys) (touch : key ∈ touched) (unchecked : key ∉ checked)
    (looked : entries.lookup key = some value) : value.1.signatureString = "aay" := by
  induction entries generalizing checked with
  | nil => cases looked
  | cons entry entries ih =>
    obtain ⟨name, held⟩ := entry
    obtain ⟨next, step, run⟩ := bind_eq_ok.mp run
    unfold storedStep at step
    by_cases here : key = name
    · grind
    · grind

theorem signatureKeysIn_holds (fits : Addressable bytes) {held : List String}
    (run : signatureKeysIn bytes = .ok held) (parsed : fromBytes dictType bytes = .ok entries.build)
    {entry : String × Ty × Value} (inside : entry ∈ entries) (signature : entry.1 ∈ signatureKeys) :
      entry.1 ∈ held := by
  have grows : ∀ {entries : DictBuilder} {start final : List String}, entries.foldlM (fun held entry =>
      (.ok (if entry.1 ∈ signatureKeys then entry.1 :: held else held)
        : Except Fault (List String))) start = .ok final →
      ∀ key, key ∈ start ∨ (∃ entry ∈ entries, entry.1 = key ∧ key ∈ signatureKeys) → key ∈ final := by
    intro entries
    induction entries with
    | nil =>
      intro start final run key either
      cases run
      simpa using either
    | cons first entries ih =>
      intro start final run key either
      refine ih run key ?_
      grind
  obtain ⟨others, again, run⟩ := (overEntries_eq_ok fits).mp run
  obtain rfl : entries = others := build_injective (Except.ok.inj (parsed.symm.trans again))
  exact grows run entry.1 (.inr ⟨entry, inside, rfl, signature⟩)

end Checks

/-! ### The signatures of an edit -/

section Append

/-- `push_blob`, on the value of a variant. -/
def pushInner (signature : Bytes) : Value → Except Delta.Error Value
  | .array blobs => .ok (.array (blobs ++ [.bytes signature]))
  | _ => .error (.invalidFormat "detached-metadata signature value is not an array")

/-- `append_signature`, on the entries of a dict. -/
def appendEntry (key : String) (signature : Bytes) : DictBuilder → Except Delta.Error DictBuilder
  | [] => .ok [(key, signatureValue [signature])]
  | (name, ty, inner) :: entries =>
    if name = key then (pushInner signature inner).map fun inner => (name, ty, inner) :: entries
    else (appendEntry key signature entries).map ((name, ty, inner) :: ·)

theorem appendSignature_build (entries : DictBuilder) (key : String) (signature : Bytes) :
    appendSignature entries.build key signature = (appendEntry key signature entries).map DictBuilder.build := by
  have engine : appendToEngine key signature (entries.map DictBuilder.entryValue) =
      (appendEntry key signature entries).map (List.map DictBuilder.entryValue) := by
    induction entries with
    | nil => rfl
    | cons entry entries ih =>
      obtain ⟨name, ty, inner⟩ := entry
      rw [List.map_cons, DictBuilder.entryValue, appendToEngine, appendEntry]
      simp only [Value.asStr, Option.some.injEq]
      split
      · cases inner <;> rfl
      · rw [ih]
        cases appendEntry key signature entries <;> rfl
  rw [DictBuilder.build, appendSignature, engine]
  cases appendEntry key signature entries <;> rfl

/-- A signature goes to a list, or makes one. -/
theorem appendEntry_succeeds
    (fits : ∀ value, entries.lookup key = some value → ∃ blobs, value = signatureValue blobs) (signature : Bytes) :
    ∃ next blobs, appendEntry key signature entries = .ok next ∧ next.lookup key = some (signatureValue blobs) ∧
      ∀ name ≠ key, next.lookup name = entries.lookup name := by
  induction entries with
  | nil => exact ⟨_, [signature],
      rfl, by simp, fun name different => by simp [List.lookup_cons, beq_false_of_ne different]⟩
  | cons entry entries ih =>
    obtain ⟨name, ty, inner⟩ := entry
    rw [appendEntry]
    by_cases here : name = key
    · subst here
      obtain ⟨blobs, same⟩ := fits (ty, inner) (by simp)
      obtain ⟨rfl, rfl⟩ := Prod.mk.inj same
      rw [if_pos rfl]
      refine ⟨_, blobs ++ [signature], rfl, by simp [signatureValue], fun other different => ?_⟩
      simp [List.lookup_cons, beq_false_of_ne different]
    · obtain ⟨next, blobs, appended, looked, others⟩ := ih fun value found =>
        fits value (by rwa [List.lookup_cons, beq_false_of_ne (Ne.symm here)])
      rw [if_neg here, appended]
      refine ⟨_, blobs, rfl, ?_, fun other different => ?_⟩
      · rwa [List.lookup_cons, beq_false_of_ne (Ne.symm here)]
      · rw [List.lookup_cons, List.lookup_cons, others other different]

/-- Signatures can be appended under these keys. -/
def Appendable (keys : List String) (entries : DictBuilder) : Prop :=
  ∀ key ∈ keys, ∀ value, entries.lookup key = some value → ∃ blobs, value = signatureValue blobs

theorem Appendable.succeeds (fits : Appendable keys entries) (under : ∀ entry ∈ signatures, entry.1 ∈ keys) :
    ∃ final, appendSignatures entries.build signatures = .ok final := by
  induction signatures generalizing entries with
  | nil => exact ⟨_, rfl⟩
  | cons entry signatures ih =>
    obtain ⟨key, signature⟩ := entry
    rw [List.forall_mem_cons] at under
    obtain ⟨next, blobs, appended, looked, others⟩ := appendEntry_succeeds (fits key under.1) signature
    obtain ⟨final, rest⟩ := @ih next (fun name inside value found => by
      by_cases here : name = key
      · subst here
        exact ⟨blobs, Option.some.inj (found.symm.trans looked)⟩
      · exact fits name inside value (others name here ▸ found)) under.2
    refine ⟨final, ?_⟩
    rw [appendSignatures, appendSignature_build, appended]
    exact rest

end Append

/-- The entries that `parse_signature_dict` gives. A zero-length dict has none. -/
theorem parseSignatureDict_of_parse (parsed : fromBytes dictType bytes = .ok entries.build) :
    parseSignatureDict Fault.core bytes = .ok (some entries.build) ∨
      parseSignatureDict Fault.core bytes = .ok none ∧ entries = [] := by
  unfold parseSignatureDict
  split
  · next empty =>
    rw [List.isEmpty_iff.mp empty] at parsed
    exact .inr ⟨rfl, build_injective (Except.ok.inj (parsed.symm.trans rfl))⟩
  · exact .inl (by rw [parsed]; rfl)

/-- **An edit that passed its checks cannot fail.** -/
theorem edit_succeeds {stored incoming : Option Bytes} {keys keep : List String} {build : Bool} {result : Option Value}
    (short : ∀ bytes, stored = some bytes ∨ incoming = some bytes → Addressable bytes)
    (checked : ∀ bytes, incoming = some bytes → checkIncoming bytes = .ok ())
    (passed : checkEdit stored incoming keys build keep = .ok result) {signatures : List (String × Bytes)}
    (under : ∀ entry ∈ signatures, entry.1 ∈ signatureKeys ∧ entry.1 ∈ keys) :
    ∃ dict final, mergedDict stored incoming keep = .ok dict ∧
      appendSignatures (dict.getD emptyDict) signatures = .ok final := by
  -- the entries of both dicts
  obtain ⟨offered, offers, distinct, lists, named⟩ : ∃ offered : DictBuilder,
      (parseOptional incoming = .ok (some offered.build) ∨ parseOptional incoming = .ok none ∧ offered = []) ∧
      (offered.map Prod.fst).Nodup ∧
        (∀ entry ∈ offered, entry.1 ∈ signatureKeys → ∃ blobs, entry.2 = signatureValue blobs) ∧
      ∀ bytes, incoming = some bytes → fromBytes dictType bytes = .ok offered.build := by
    cases incoming with
    | none => exact ⟨[], .inr ⟨rfl, rfl⟩, .nil, nofun, nofun⟩
    | some bytes =>
      obtain ⟨_, run, -⟩ := map_eq_ok.mp (checked bytes rfl)
      obtain ⟨offered, parsed, run⟩ := (overEntries_eq_ok (short bytes (.inr rfl))).mp run
      obtain ⟨distinct, -, typed⟩ := incomingSteps_eq_ok.mp ⟨_, run⟩
      exact ⟨offered, parseSignatureDict_of_parse parsed, distinct,
        fun entry inside signature => (entries_of_parse parsed entry inside).mp (typed entry inside signature),
        fun _ same => Option.some.inj same ▸ parsed⟩
  obtain ⟨held, holds, fits⟩ : ∃ held : DictBuilder,
      (parseOptional stored = .ok (some held.build) ∨ parseOptional stored = .ok none ∧ held = []) ∧
      ∀ key ∈ signatureKeys, key ∈ keys ∨ key ∈ offered.map Prod.fst → ∀ value,
        held.lookup key = some value → ∃ blobs, value = signatureValue blobs := by
    cases stored with
    | none => exact ⟨[], .inr ⟨rfl, rfl⟩, nofun⟩
    | some bytes =>
      have small := short bytes (.inl rfl)
      rw [checkEdit, if_neg (by simp), mapError_eq_ok, check_bind_eq_ok] at passed
      simp only [checkEditStored, bind_eq_ok] at passed
      obtain ⟨⟨touched, touches, stored_ok⟩, -⟩ := passed
      obtain ⟨_, run, -⟩ := map_eq_ok.mp stored_ok
      obtain ⟨held, parsed, run⟩ := (overEntries_eq_ok small).mp run
      refine ⟨held, parseSignatureDict_of_parse parsed, fun key signature either value found => ?_⟩
      have inside : key ∈ touched ++ keys := by
        refine List.mem_append.mpr (either.symm.imp_left fun member => ?_)
        obtain ⟨entry, entry_inside, rfl⟩ := List.mem_map.mp member
        cases incoming with
        | none => simp [offers.resolve_left nofun] at entry_inside
        | some incoming => exact signatureKeysIn_holds (short _ (.inr rfl)) touches (named _ rfl) entry_inside signature
      exact (entries_of_parse parsed (key, value) (mem_of_lookup found)).mp
        (storedSteps_aay run signature inside List.not_mem_nil found)
  -- the merged dict, and the lists that signatures are appended to
  have accepted : ∀ entry ∈ offered, ByteFormat.Accepts (mergeValue keep) newValue held entry := by
    intro entry inside
    unfold ByteFormat.Accepts
    split
    · next old found =>
      simp only [mergeValue_eq_ok]
      split
      · grind
      · exact ⟨_, rfl⟩
    · simp only [newValue_eq_ok]
      split
      · next signature =>
        obtain ⟨blobs, same⟩ := lists _ inside signature
        exact ⟨_, blobs, same, rfl⟩
      · exact ⟨_, rfl⟩
  have appendable : Appendable (signatureKeys.filter (· ∈ keys))
      (mergeResult (mergeValue keep) newValue held offered) := by
    intro key inside value found
    obtain ⟨signature, flagged⟩ : key ∈ signatureKeys ∧ key ∈ keys := by simpa using List.mem_filter.mp inside
    cases offers_key : offered.lookup key with
    | some _ =>
      obtain ⟨_, _, _, -, -, looked, -⟩ := (merges_of_accepts accepted).signatures key signature _ offers_key
      exact ⟨_, Option.some.inj (found.symm.trans looked)⟩
    | none =>
      rw [lookup_mergeResult_of_none offers_key] at found
      exact fits key signature (.inl flagged) value found
  have flagged : ∀ entry ∈ signatures, entry.1 ∈ signatureKeys.filter (· ∈ keys) := fun entry inside => by
    simpa using under entry inside
  obtain ⟨final, appended⟩ := appendable.succeeds flagged
  obtain ⟨dict, read, holds⟩ : ∃ dict, parseOptional stored = .ok dict ∧ storedEntries dict = .ok held := by
    obtain read | ⟨read, rfl⟩ := holds
    · exact ⟨_, read, dictEntries_build _ _⟩
    · exact ⟨_, read, rfl⟩
  simp only [mergedDict, read, ok_bind]
  obtain offers | ⟨offers, rfl⟩ := offers
  · have merged := (mergeDetached_eq_ok holds).mpr ⟨distinct, accepted, rfl⟩
    exact ⟨some _, final, by simp only [offers, ok_bind, merged]; rfl, appended⟩
  · refine ⟨dict, final, by rw [offers]; rfl, ?_⟩
    rw [mergeResult_nil] at appended
    cases dict with
    | none =>
      cases holds
      exact appended
    | some dict => exact build_of_dictEntries holds ▸ appended

/-- **The merge keeps every signature, and its checks are exact.** A merge that succeeds is the one
that `Merges` describes, and a second merge of the same dict changes nothing. `check_incoming`
accepts exactly the dicts that the merge accepts with no stored dict. An incoming dict that it
accepted, and an edit that passed `check_edit`, leave the merge and the append of signatures under
the checked keys no way to fail. -/
theorem detached_merge_exact (keep : List String) :
    (∀ stored incoming merged, mergeDetached stored incoming keep = .ok merged →
      ∃ held offered entries : DictBuilder, stored.getD emptyDict = held.build ∧
        incoming = offered.build ∧ merged = entries.build ∧ Merges keep held offered entries ∧
        mergeDetached (some merged) incoming keep = .ok merged) ∧
    (∀ bytes, Addressable bytes → (checkIncoming bytes = .ok () ↔
      ∃ incoming merged, fromBytes dictType bytes = .ok incoming ∧ mergeDetached none incoming keep = .ok merged)) ∧
    ∀ stored incoming keys build result signatures,
      (∀ bytes, stored = some bytes ∨ incoming = some bytes → Addressable bytes) →
      (∀ bytes, incoming = some bytes → checkIncoming bytes = .ok ()) →
      checkEdit stored incoming keys build keep = .ok result →
      (∀ entry ∈ signatures, entry.1 ∈ signatureKeys ∧ entry.1 ∈ keys) →
      ∃ dict final, mergedDict stored incoming keep = .ok dict ∧
        appendSignatures (dict.getD emptyDict) signatures = .ok final :=
  ⟨fun _ _ _ run => mergeDetached_merges run, fun _ fits => checkIncoming_eq_ok fits,
    fun _ _ _ _ _ _ fits checked passed under => edit_succeeds fits checked passed under⟩

/-- A dict that holds the key `a` twice and a list of signatures. -/
def signedDict (first : UInt8) (blobs : List Bytes) : Value :=
  DictBuilder.build [("a", .byte, .byte first), ("a", .byte, .byte 2), ("ostree.sign.dummy", signatureValue blobs)]

def incomingDict : Value :=
  DictBuilder.build [("ostree.sign.dummy", signatureValue [[2], [3]]), ("a", .byte, .byte 3)]

/-- The first entry of the stored dict under `a` is replaced, and the new signature is added to the
stored ones. -/
theorem detached_merge_exact_signed :
    ∃ held offered entries : DictBuilder, signedDict 1 [[1], [2]] = held.build ∧ incomingDict = offered.build ∧
      signedDict 3 [[1], [2], [3]] = entries.build ∧ Merges [] held offered entries ∧
      mergeDetached (some (signedDict 3 [[1], [2], [3]])) incomingDict [] = .ok (signedDict 3 [[1], [2], [3]]) :=
  (detached_merge_exact []).1 (some (signedDict 1 [[1], [2]])) _ _ rfl

/-- A dict that holds the key `a` twice. -/
def duplicateDict : Bytes :=
  [0x61, 0, 0, 0, 0, 0, 0, 0, 1, 0, 0x79, 2, 0, 0, 0, 0, 0x61, 0, 0, 0, 0, 0, 0, 0, 1, 0, 0x79, 2, 12, 28]

/-- `check_edit` alone does not tell that the merge accepts the incoming dict. -/
theorem checkEdit_passes_duplicate :
    checkEdit none (some duplicateDict) [] false [] = .ok none ∧
      (fromBytes dictType duplicateDict).isOk = true ∧ (mergedDict none (some duplicateDict) []).isOk = false :=
  ⟨rfl, by decide +kernel, by decide +kernel⟩

end Ostrya.Receive
