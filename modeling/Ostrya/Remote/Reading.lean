/-
**What the lazy readers of a message body accept.**

Every reader is taken to the relation `Denotes` in both directions: from a value that the body denotes to what the
reader returns (`…_reads`), and from a successful read to a value that the body denotes (`denotes_of_…`). A dict is
checked entry by entry: `dictSteps_checks` says that each entry is either the first one under its key, which the
caller decodes as a field, or was checked for normal form.
-/

import Ostrya.Remote.Message
import Ostrya.ByteFormat.Table

namespace Ostrya.Remote

open ByteFormat Gvariant Ostrya.Core Repo

/-! ### Loops over an array -/

variable {r : ArrayReader}

section Collect

variable {α β : Type} {decoder : GvDecode α} {f : α → Except Error β} {outs : List β}

theorem steps_map_eq_ok :
    steps (fun (_ : Unit) item => (f item).map (·, ())) () items = .ok (outs, final) ↔
      List.Forall₂ (fun item out => f item = .ok out) items outs := by
  induction items generalizing outs with
  | nil => simp [steps, eq_comm]
  | cons item items ih =>
    simp only [steps_cons_eq_ok, map_eq_ok, List.forall₂_cons_left_iff]
    constructor
    · rintro ⟨out, _, ⟨_, mapped, ⟨⟩⟩, rest, others, rfl⟩
      exact ⟨out, rest, mapped, ih.mp others, rfl⟩
    · rintro ⟨out, rest, mapped, others, rfl⟩
      exact ⟨out, (), ⟨out, mapped, rfl⟩, rest, ih.mpr others, rfl⟩

theorem collect_eq_ok : collect decoder f r = .ok outs ↔
      ∃ items, r.collect decoder.decode = .ok items ∧ List.Forall₂ (fun item out => f item = .ok out) items outs := by
  simp [collect, map_validated_eq_ok, steps_map_eq_ok]

theorem parseBody_eq_ok :
    parseBody decoder body = .ok value ↔ decoder.decode body = .ok value := mapError_eq_ok

/-- **An array collects to what its elements map to.** -/
theorem collect_reads (same : decoder.spec = elem.spec) (other : elem ≠ .byte) {write : β → Value}
    (each : ∀ item ∈ outs, ReadsTo decoder elem (write item) (f · = .ok item)) :
    ReadsTo (.arrayIter decoder) (.array elem) (.array (outs.map write)) (collect decoder f · = .ok outs) :=
  (ReadsTo.array same other each).imp fun _ ⟨as, drained, related⟩ => collect_eq_ok.mpr ⟨as, drained, related.flip⟩

/-- **An array that collects denotes the values of its elements.** -/
theorem denotes_of_collects {elem : Ty} (same : decoder.spec = elem.spec) (other : elem ≠ .byte)
    {data : Bytes} {r : ArrayReader} {outs : List β} {R : β → Value → Prop}
    (opened : (GvDecode.arrayIter decoder).decode data = .ok r) (collected : collect decoder f r = .ok outs)
    (each : ∀ part a out, decoder.decode part = .ok a → f a = .ok out →
      ∃ value, Denotes elem part value ∧ R out value) :
    ∃ items, Denotes (.array elem) data (.array items) ∧ List.Forall₂ R outs items := by
  obtain ⟨as, drained, mapped⟩ := collect_eq_ok.mp collected
  obtain ⟨parts, decoded, whole⟩ := denotes_of_collect same other opened drained
  have both : List.Forall₂ (fun part out => ∃ value, Denotes elem part value ∧ R out value) parts outs :=
    forall₂_comp decoded mapped fun part a out _ read maps => each part a out read maps
  obtain ⟨items, denotes, related⟩ : ∃ items, List.Forall₂ (fun item part => Denotes elem part item) items parts ∧
      List.Forall₂ R outs items := by
    clear whole mapped decoded collected
    induction both with
    | nil => exact ⟨[], .nil, .nil⟩
    | cons first _ ih =>
      obtain ⟨value, denoted, holds⟩ := first
      obtain ⟨items, rest, others⟩ := ih
      exact ⟨value :: items, .cons denoted rest, .cons holds others⟩
  exact ⟨items, whole items denotes, related⟩

end Collect

/-! ### Leaves -/

section Leaves

variable {part : Bytes}

theorem decode_str : GvDecode.str.decode part = .ok text ↔ Denotes .str part (.str text) :=
  decodeStr_eq_ok.trans denotes_str.symm

theorem decode_u32 : GvDecode.u32.decode part = .ok x ↔ Denotes .u32 part (.u32 x) :=
  isScalar_u32.decode_eq_ok.trans denotes_u32.symm

theorem decode_u64 : GvDecode.u64.decode part = .ok x ↔ Denotes .u64 part (.u64 x) :=
  isScalar_u64.decode_eq_ok.trans denotes_u64.symm

theorem decode_byte : GvDecode.byte.decode part = .ok b ↔ Denotes .byte part (.byte b) :=
  decodeByte_eq_ok.trans denotes_byte.symm

theorem decode_bool : GvDecode.bool.decode part = .ok b ↔ Denotes .bool part (.bool b) :=
  decodeBool_eq_ok.trans denotes_bool.symm

theorem reads_str : ReadsTo .str .str (.str text) (· = text) := fun _ denoted _ => ⟨_, decode_str.mpr denoted, rfl⟩

theorem reads_u32 : ReadsTo .u32 .u32 (.u32 x) (· = x) := fun _ denoted _ => ⟨_, decode_u32.mpr denoted, rfl⟩

theorem reads_u64 : ReadsTo .u64 .u64 (.u64 x) (· = x) := fun _ denoted _ => ⟨_, decode_u64.mpr denoted, rfl⟩

theorem reads_bool : ReadsTo GvDecode.bool .bool (.bool b) (· = b) := fun _ denoted _ =>
    ⟨_, decode_bool.mpr denoted, rfl⟩

theorem reads_byte : ReadsTo .byte .byte (.byte b) (· = b) := fun _ denoted _ => ⟨_, decode_byte.mpr denoted, rfl⟩

theorem decode_bytes : GvDecode.bytes.decode part = .ok bytes ↔ Denotes (.array .byte) part (.bytes bytes) := by
  rw [denotes_bytes, GvDecode.bytes, Except.ok.injEq, eq_comm]

theorem reads_bytes : ReadsTo .bytes (.array .byte) (.bytes bytes) (· = bytes) :=
  fun _ denoted _ => ⟨_, decode_bytes.mpr denoted, rfl⟩

theorem decode_maybeBytes :
    GvDecode.maybeBytes.decode part = .ok bytes ↔ Denotes maybeChecksumType part (.maybe (bytes.map .bytes)) := by
  have open' : (Ty.array .byte).fixedSize.isNone = true := rfl
  cases bytes with
  | none =>
    rw [Option.map_none, maybeChecksumType, denotes_nothing, GvDecode.maybeBytes]
    dsimp only
    split_ifs with empty last <;> simp [empty]
  | some bytes =>
    grind [maybeChecksumType, denotes_just, GvDecode.maybeBytes, denotes_bytes,
      List.getLast?_eq_some_iff, List.dropLast_concat]

theorem decode_maybeU64 :
    GvDecode.maybeU64.decode part = .ok x ↔ Denotes (.maybe .u64) part (.maybe (x.map .u64)) := by
  have closed : (Ty.u64).fixedSize.isNone = false := rfl
  cases x with
  | none =>
    rw [Option.map_none, denotes_nothing, GvDecode.maybeU64, @eq_comm _ [] part, ← List.length_eq_zero_iff]
    dsimp only
    split_ifs with empty full
    · simp [empty]
    · cases decoded : GvDecode.u64.decode part <;> simp [full]
    · simp [empty]
  | some x =>
    rw [Option.map_some, denotes_just, GvDecode.maybeU64]
    simp only [closed, Bool.false_eq_true, if_false, exists_eq_right]
    constructor
    · intro read
      split_ifs at read with empty full
      · cases read
      · obtain ⟨y, decoded, same⟩ := map_eq_ok.mp read
        cases same
        exact decode_u64.mp decoded
    · intro denoted
      have sized : part.length = 8 := denoted.sized rfl
      rw [if_neg (by omega), if_pos sized, decode_u64.mpr denoted]
      rfl

theorem decode_rawVariant {raw : RawVariant} {value : Value} (inner : Denotes raw.ty raw.child value) :
    GvDecode.rawVariant.decode part = .ok raw ↔ Denotes .variant part (.variant raw.ty value) := by
  rw [denotes_variant, GvDecode.rawVariant]
  simp only [map_eq_ok, Prod.exists, splitVariant_eq_ok]
  constructor
  · rintro ⟨child, signature, ty, ⟨rfl, rfl, named⟩, rfl⟩
    exact ⟨⟨_, named⟩, child, inner, rfl⟩
  · rintro ⟨⟨text, named⟩, child, denoted, rfl⟩
    rw [denoted.unique inner]
    exact ⟨raw.child, _, raw.ty, ⟨rfl, rfl, Ty.parse_signature named⟩, rfl⟩

end Leaves

/-! ### Dicts -/

section Dicts

variable {keys : List String} {found final raws : Found} {units : List Unit}

theorem dictStep_eq_ok :
    dictStep keys found entry = .ok (done, final) ↔
      (entry.1 ∈ keys ∧ found.lookup entry.1 = none) ∧ final = found ++ [entry] ∨
        ¬(entry.1 ∈ keys ∧ found.lookup entry.1 = none) ∧
          validate entry.2.ty entry.2.child = .ok () ∧ final = found := by
  simp only [dictStep, Option.isNone_iff_eq_none]
  split_ifs with fresh
  · simp only [Except.ok.injEq, Prod.mk.injEq, true_and, fresh, not_true_eq_false, false_and,
      or_false, and_self]
    exact eq_comm
  · grind [check_bind_eq_ok, mapError_eq_ok, Except.ok.injEq, Prod.mk.injEq]

section

variable (run : steps (dictStep keys) found raws = .ok (units, final))

include run

/-- Under each of its keys, the loop keeps the first value. -/
theorem dictSteps_lookup (known : key ∈ keys) : final.lookup key = (found.lookup key).or (raws.lookup key) := by
  induction raws generalizing found units with
  | nil =>
    cases run
    simp
  | cons raw raws ih =>
    obtain ⟨_, next, step, rest, others, -⟩ := steps_cons_eq_ok.mp run
    obtain ⟨name, entry⟩ := raw
    rw [ih others]
    rcases dictStep_eq_ok.mp step with ⟨⟨_, absent⟩, rfl⟩ | ⟨seen, _, rfl⟩
    · simp only [List.lookup_append, Option.or_assoc, List.lookup_cons, List.lookup_nil]
      split <;> simp
    · rw [List.lookup_cons]
      split
      · next same =>
        obtain rfl := eq_of_beq same
        obtain ⟨value, present⟩ := Option.ne_none_iff_exists'.mp fun absent => seen ⟨known, absent⟩
        simp [present]
      · rfl

theorem dictSteps_keys (kept : final.lookup key ≠ none) (fresh : found.lookup key = none) : key ∈ keys := by
  induction raws generalizing found units with
  | nil =>
    cases run
    exact absurd fresh kept
  | cons raw raws ih =>
    obtain ⟨_, next, step, rest, others, -⟩ := steps_cons_eq_ok.mp run
    obtain ⟨name, entry⟩ := raw
    rcases dictStep_eq_ok.mp step with ⟨⟨known, _⟩, rfl⟩ | ⟨_, _, rfl⟩
    · by_cases same : key = name
      · exact same ▸ known
      · exact ih others (by simp [List.lookup_append, fresh, List.lookup_cons, beq_false_of_ne same])
    · exact ih others fresh

/-- **Each entry is the value that the loop keeps under its key, or is in normal form.** -/
theorem dictSteps_checks :
    ∀ raw ∈ raws, final.lookup raw.1 = some raw.2 ∨ validate raw.2.ty raw.2.child = .ok () := by
  induction raws generalizing found units with
  | nil => simp
  | cons raw raws ih =>
    obtain ⟨_, next, step, rest, others, -⟩ := steps_cons_eq_ok.mp run
    rintro ⟨name, entry⟩ inside
    rcases List.mem_cons.mp inside with rfl | inside
    · rcases dictStep_eq_ok.mp step with ⟨⟨known, absent⟩, rfl⟩ | ⟨_, valid, _⟩
      · left
        rw [dictSteps_lookup others known]
        simp [List.lookup_append, absent]
      · exact Or.inr valid
    · exact ih others (name, entry) inside

end

theorem dictSteps_of_fresh (known : ∀ raw ∈ raws, raw.1 ∈ keys) (fresh : ((found ++ raws).map Prod.fst).Nodup) :
    ∃ units, steps (dictStep keys) found raws = .ok (units, found ++ raws) := by
  induction raws generalizing found with
  | nil => exact ⟨[], by simp [steps]⟩
  | cons raw raws ih =>
    have absent : found.lookup raw.1 = none := by
      rw [List.lookup_eq_none_iff]
      intro entry inside
      rw [List.map_append, List.map_cons, List.nodup_append] at fresh
      simpa using (fresh.2.2 entry.1 (List.mem_map_of_mem inside) raw.1 (by simp)).symm
    have step : dictStep keys found raw = .ok ((), found ++ [raw]) :=
      dictStep_eq_ok.mpr (Or.inl ⟨⟨known raw (by simp), absent⟩, rfl⟩)
    obtain ⟨units, rest⟩ := @ih (found ++ [raw]) (fun raw inside => known raw (.tail _ inside))
      (by simpa using fresh)
    refine ⟨() :: units, ?_⟩
    simp [steps, step, rest]

theorem dict_eq_ok : dict r keys = .ok found ↔ ∃ raws, r.collect GvDecode.dictEntry.decode = .ok raws ∧
      ∃ units, steps (dictStep keys) [] raws = .ok (units, found) := by
  simp [dict, map_validated_eq_ok]

theorem dict_keys (kept : dict r keys = .ok found) (present : found.lookup key = some entry) : key ∈ keys := by
  obtain ⟨_, _, _, run⟩ := dict_eq_ok.mp kept
  exact dictSteps_keys run (by simp [present]) rfl

theorem denotes_of_dictEntry
    (decoded : GvDecode.dictEntry.decode part = .ok raw) (inner : Denotes raw.2.ty raw.2.child value) :
    Denotes (.dictEntry .str .variant) part (DictBuilder.entryValue (raw.1, raw.2.ty, value)) := by
  obtain ⟨parts, held, whole⟩ := @denotes_of_tuple _ _ _ [.str, .variant] rfl _ decoded
  match parts, held with
  | [first, second], ⟨key, entry⟩ =>
    exact denotes_dictEntry.mpr
      (whole _ (.cons (decode_str.mp key) (.cons ((decode_rawVariant inner).mp entry) .nil)))

/-- **A dict that is read denotes a value**, if the values under its keys do. -/
theorem denotes_of_dict (opened : GvDecode.dict.decode data = .ok r)
    (kept : dict r keys = .ok found) (choice : String → Value)
    (fields : ∀ key entry, found.lookup key = some entry → Denotes entry.ty entry.child (choice key)) :
    ∃ entries : DictBuilder, Denotes dictType data entries.build ∧
      ∀ key ∈ keys, entries.lookup key = (found.lookup key).map fun entry => (entry.ty, choice key) := by
  obtain ⟨raws, drained, units, run⟩ := dict_eq_ok.mp kept
  have each : ∀ raw : String × RawVariant, ∃ value, raw ∈ raws → Denotes raw.2.ty raw.2.child value ∧
      (found.lookup raw.1 = some raw.2 → value = choice raw.1) := by
    intro raw
    by_cases first : found.lookup raw.1 = some raw.2
    · exact ⟨choice raw.1, fun _ => ⟨fields raw.1 raw.2 first, fun _ => rfl⟩⟩
    · grind [dictSteps_checks, denotes_of_validate]
  choose pick picked using each
  obtain ⟨parts, decoded, whole⟩ := @denotes_of_collect _ _ (.dictEntry .str .variant)
    _ rfl (by simp) _ _ opened drained
  refine ⟨raws.map fun raw => (raw.1, raw.2.ty, pick raw), ?_, fun key known => ?_⟩
  · refine whole _ ?_
    rw [List.map_map, List.forall₂_map_left_iff]
    exact forall₂_swap_imp decoded fun part _ raw inside read => denotes_of_dictEntry read (picked raw inside).1
  · have same := dictSteps_lookup run known
    rw [lookup_map raws (fun raw => (raw.2.ty, pick raw)), same]
    cases present : raws.lookup key with
    | none => rfl
    | some entry =>
      have chosen := (picked (key, entry) (mem_of_lookup present)).2 (same.trans present)
      simp [chosen]

/-- The keys of a dict in order, each with the type and the value that the encoder writes, if it
writes one. -/
abbrev Slots := List (String × Option (Ty × Value))

/-- The entries that the encoder writes. -/
def Slots.entries (slots : Slots) : DictBuilder :=
  slots.filterMap fun slot => slot.2.map fun (ty, value) => (slot.1, ty, value)

theorem Slots.keys_sublist (slots : Slots) : (slots.entries.map Prod.fst).Sublist (slots.map Prod.fst) := by
  induction slots with
  | nil => exact .slnil
  | cons slot slots ih =>
    obtain ⟨key, _ | ⟨ty, value⟩⟩ := slot
    · exact ih.cons key
    · exact ih.cons_cons key

theorem Slots.lookup_entries {slots : Slots} (distinct : (slots.map Prod.fst).Nodup) {key : String}
    (found : slots.lookup key = some slot) : slots.entries.lookup key = slot := by
  induction slots with
  | nil => cases found
  | cons first slots ih =>
    obtain ⟨name, entry⟩ := first
    have rest := List.nodup_cons.mp distinct
    rw [List.lookup_cons] at found
    cases same : key == name with
    | true =>
      obtain rfl := eq_of_beq same
      simp only [same, Option.some.injEq] at found
      subst found
      cases entry with
      | none =>
        refine List.lookup_eq_none_iff.mpr fun other inside => ?_
        have outside := fun member => rest.1 ((Slots.keys_sublist slots).subset member)
        have different : key ≠ other.1 := fun equal => outside (equal ▸ List.mem_map_of_mem inside)
        simpa using different
      | some entry => simp [Slots.entries]
    | false =>
      simp only [same] at found
      cases entry with
      | none => exact ih rest.2 found
      | some entry =>
        rw [← ih rest.2 found]
        simp [Slots.entries, List.lookup_cons, same]

/-- What the loop keeps of an entry. -/
def EntryKept (entry : String × Ty × Value) (raw : String × RawVariant) : Prop :=
  raw.1 = entry.1 ∧ raw.2.ty = entry.2.1 ∧ Denotes entry.2.1 raw.2.child entry.2.2 ∧ Addressable raw.2.child

theorem dictEntry_reads (entry : String × Ty × Value) :
    ReadsTo GvDecode.dictEntry (.dictEntry .str .variant) (DictBuilder.entryValue entry) (EntryKept entry) := by
  have variant : ReadsTo GvDecode.rawVariant .variant (.variant entry.2.1 entry.2.2) fun raw =>
      raw.ty = entry.2.1 ∧ Denotes entry.2.1 raw.child entry.2.2 ∧ Addressable raw.child := by
    intro part denoted small
    obtain ⟨_, child, inner, rfl⟩ := denotes_variant.mp denoted
    refine ⟨⟨entry.2.1, child⟩, (@decode_rawVariant _ ⟨entry.2.1, child⟩ _ inner).mpr denoted, rfl, inner, ?_⟩
    simp [Addressable] at small ⊢
    omega
  exact ReadsTo.dictEntry (.cons reads_str (.last variant)) rfl

/-- The entries that a loop kept, against the entries of the dict. -/
abbrev EntriesKept (entries : DictBuilder) (found : Found) : Prop := List.Forall₂ EntryKept entries found

theorem EntriesKept.lookup {entries : DictBuilder} (held : EntriesKept entries found) {key : String} :
    match entries.lookup key with
    | none => found.lookup key = none
    | some (ty, value) => ∃ child, found.lookup key = some ⟨ty, child⟩ ∧ Denotes ty child value ∧
        Addressable child := by
  induction held with
  | nil => rfl
  | @cons entry raw _ _ first _ ih =>
    obtain ⟨name, ⟨entryTy, child⟩⟩ := raw
    obtain ⟨name', ty', value⟩ := entry
    obtain ⟨rfl, rfl, denoted, bound⟩ := first
    simp only [List.lookup_cons]
    cases same : key == name with
    | true => exact ⟨child, rfl, denoted, bound⟩
    | false => exact ih

/-- A dict whose keys are known and distinct is kept whole. -/
theorem entries_kept {data : Bytes} {entries : DictBuilder} (denoted : Denotes dictType data entries.build)
    (fits : Addressable data) (known : ∀ entry ∈ entries, entry.1 ∈ keys)
    (distinct : (entries.map Prod.fst).Nodup) :
    ∃ r found, GvDecode.dict.decode data = .ok r ∧ dict r keys = .ok found ∧ EntriesKept entries found := by
  obtain ⟨r, opened, raws, drained, held⟩ :=
    ReadsTo.array rfl (by simp) (fun entry _ => dictEntry_reads entry) data denoted fits
  have names : raws.map Prod.fst = entries.map Prod.fst := by
    clear denoted known distinct drained opened
    induction held with
    | nil => rfl
    | cons first _ ih => simp [first.1, ih]
  obtain ⟨units, run⟩ := @dictSteps_of_fresh keys [] raws
    (fun raw inside => by
      obtain ⟨entry, member, holds⟩ := forall₂_exists_left held inside
      exact holds.1 ▸ known entry member)
    (by simpa [names] using distinct)
  exact ⟨r, raws, opened, dict_eq_ok.mpr ⟨raws, drained, units, run⟩, held⟩

/-- What a dict of slots keeps under each key. -/
def KeptFrom (slots : Slots) (found : Found) : Prop :=
  ∀ key slot, slots.lookup key = some slot →
    match slot with
    | none => found.lookup key = none
    | some (ty, value) => ∃ child, found.lookup key = some ⟨ty, child⟩ ∧ Denotes ty child value ∧ Addressable child

/-- **A dict that an encoder wrote is read back slot by slot.** -/
theorem dict_reads {slots : Slots} (distinct : (slots.map Prod.fst).Nodup) :
    ReadsTo GvDecode.dict dictType slots.entries.build fun r =>
      ∃ found, dict r (slots.map Prod.fst) = .ok found ∧ KeptFrom slots found := by
  intro data denoted fits
  obtain ⟨r, found, opened, kept, held⟩ := @entries_kept (slots.map Prod.fst) _ _ denoted fits
    (fun entry inside => slots.keys_sublist.subset (List.mem_map_of_mem inside))
    (distinct.sublist slots.keys_sublist)
  refine ⟨r, opened, found, kept, fun key slot present => ?_⟩
  have looked := @EntriesKept.lookup _ _ held key
  rwa [Slots.lookup_entries distinct present] at looked

end Dicts

/-! ### Fields -/

section Fields

variable {α : Type} {decoder : GvDecode α} {slots : Slots} {found : Found} {key : String} {ty : Ty}

section

variable (held : KeptFrom slots found)

include held

theorem KeptFrom.field_absent (absent : slots.lookup key = some none) :
    field decoder found key ty = .ok none := by
  have missing := held key none absent
  rw [field, missing]

theorem KeptFrom.field_present (key : String) (present : slots.lookup key = some (some (ty, value)))
    (reads : ReadsTo decoder ty value P) : ∃ a, field decoder found key ty = .ok (some a) ∧ P a := by
  obtain ⟨child, kept, denoted, bound⟩ := held key _ present
  obtain ⟨a, decoded, holds⟩ := reads child denoted bound
  refine ⟨a, ?_, holds⟩
  simp [field, kept, decoded, Except.mapError]

/-- A string that the encoder leaves out if it is absent. -/
theorem KeptFrom.field_str (key : String) (text : Option String)
    (slot : slots.lookup key = some (text.map fun text => (.str, .str text))) :
    field .str found key .str = .ok text := by
  cases text with
  | none => exact held.field_absent slot
  | some text =>
    obtain ⟨_, read, rfl⟩ := held.field_present key slot reads_str
    exact read

/-- A flag that the encoder writes only if it is set. -/
theorem KeptFrom.field_flag (key : String) (flag : Bool)
    (slot : slots.lookup key = some (if flag then some (.bool, .bool true) else none)) :
    ∃ a, field GvDecode.bool found key .bool = .ok a ∧ a.getD false = flag := by
  cases flag with
  | false => exact ⟨none, held.field_absent slot, rfl⟩
  | true =>
    obtain ⟨_, read, rfl⟩ := held.field_present key slot reads_bool
    exact ⟨some true, read, rfl⟩

end

theorem required_of_field (read : field decoder found key ty = .ok (some value)) :
    required decoder found key ty = .ok value := by
  simp [required, read]

theorem required_eq_ok : required decoder found key ty = .ok value ↔
    field decoder found key ty = .ok (some value) := by
  constructor
  · grind [required, bind_eq_ok]
  · exact required_of_field

theorem field_eq_ok (present : found.lookup key = some entry) (read : field decoder found key ty = .ok got) :
    entry.ty = ty ∧ ∃ a, decoder.decode entry.child = .ok a ∧ got = some a := by
  simp only [field, present] at read
  split_ifs at read with other
  · rw [mapError_eq_ok, map_eq_ok] at read
    obtain ⟨a, decoded, rfl⟩ := read
    exact ⟨not_not.mp other, a, decoded, rfl⟩

end Fields

end Ostrya.Remote
