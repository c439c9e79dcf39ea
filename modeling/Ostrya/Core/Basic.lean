/-
**The primitives of the object formats** (`error.rs`, `checksum.rs`, `be.rs` and `valiter.rs` of
`ostrya-core`).

A checksum is 32 bytes. The object formats write their numbers big-endian. `ValidatedIter` decodes the
entries of an array one by one and runs a check that carries state from entry to entry; where the
check asks for strictly ascending keys, `OrderedStep.steps_eq_ok` says what a whole pass accepts.
-/

import Ostrya.Gvariant.Codec
import Ostrya.ByteFormat.Ascending

namespace Ostrya.Core

open ByteFormat Gvariant

/-- The errors of `ostrya-core` that the modelled functions return. -/
inductive Error where
  | gvariant (fault : Gvariant.Error)
  | invalidChecksum (reason : String)
  | invalidObjectType (tag : Nat)
  | invalidVarint (reason : String)
  | invalidXattrs (reason : String)
  | invalidSizeEntry (reason : String)
  | keyFile (reason : String)
  | invalidCommit (reason : String)
  | invalidDirTree (reason : String)
  | invalidFileHeader (reason : String)
  deriving DecidableEq

/-- `?` on a result of the GVariant layer. -/
def liftGvariant {α : Type} (result : Except Gvariant.Error α) : Except Error α :=
  result.mapError Error.gvariant

theorem liftGvariant_eq_ok {α : Type} {result : Except Gvariant.Error α} {value : α} :
    liftGvariant result = .ok value ↔ result = .ok value := by
  cases result with
  | error fault | ok value => simp [liftGvariant, Except.mapError]

/-! ### Checksums -/

/-- `Checksum`. -/
@[ext] structure Checksum where
  bytes : Bytes
  length : bytes.length = 32
  deriving DecidableEq

variable {bytes : Bytes}

namespace Checksum

theorem length_replicate (byte : UInt8) : (List.replicate 32 byte).length = 32 := List.length_replicate

/-- The checksum of one byte, repeated. -/
def filled (byte : UInt8) : Checksum := ⟨List.replicate 32 byte, length_replicate byte⟩

/-- `Checksum::from_ay`. -/
def fromAy (bytes : Bytes) : Except Error Checksum :=
  if length : bytes.length = 32 then .ok ⟨bytes, length⟩
  else .error (.invalidChecksum "ay checksum is not 32 bytes")

theorem fromAy_eq_ok :
    fromAy bytes = .ok checksum ↔ checksum.bytes = bytes := by
  unfold fromAy
  split
  · rw [Except.ok.injEq, Checksum.ext_iff, eq_comm]
  · next other =>
    simp only [reduceCtorEq, false_iff]
    rintro rfl
    exact other checksum.length

/-- `from_ay` under an error of the caller's own. -/
theorem mapError_fromAy_eq_ok :
    (fromAy bytes).mapError fault = .ok checksum ↔ checksum.bytes = bytes := by
  rw [← fromAy_eq_ok]
  cases fromAy bytes with
  | error reason => simp [Except.mapError]
  | ok found => simp [Except.mapError]

/-- `MOD_ALPHABET`. -/
def modAlphabet : List Char := "ABCDEFGHIJKLMNOPQRSTUVWXYZabcdefghijklmnopqrstuvwxyz0123456789+_".toList

/-- The character of a sextet. -/
def sextet (alphabet : List Char) (bits : UInt8) : Char := alphabet.getD bits.toNat 'A'

/-- `base64_encode`, without pad. -/
def base64Encode (alphabet : List Char) : Bytes → List Char
  | [] => []
  | [b0] => [sextet alphabet (b0 >>> 2), sextet alphabet ((b0 &&& 0x03) <<< 4)]
  | [b0, b1] =>
    [sextet alphabet (b0 >>> 2), sextet alphabet (((b0 &&& 0x03) <<< 4) ||| (b1 >>> 4)),
      sextet alphabet ((b1 &&& 0x0f) <<< 2)]
  | b0 :: b1 :: b2 :: bytes =>
    sextet alphabet (b0 >>> 2) :: sextet alphabet (((b0 &&& 0x03) <<< 4) ||| (b1 >>> 4))
      :: sextet alphabet (((b1 &&& 0x0f) <<< 2) ||| (b2 >>> 6)) :: sextet alphabet (b2 &&& 0x3f)
      :: base64Encode alphabet bytes

/-- `Checksum::to_base64_modified`. -/
def toBase64Modified (checksum : Checksum) : List Char := base64Encode modAlphabet checksum.bytes

end Checksum

/-- `GvEncode for Checksum`. -/
def GvEncode.checksum : GvEncode Checksum := .dynamic fun checksum => .ok checksum.bytes

@[simp] theorem encodeToVec_checksum (checksum : Checksum) :
    encodeToVec GvEncode.checksum checksum = .ok checksum.bytes := rfl

theorem checksum_codes (checksum : Checksum) : Codes .bytes GvEncode.checksum checksum.bytes checksum :=
  .of_iff fun _ => bytes_eq_ok

/-- `MAX_METADATA_SIZE`. -/
def maxMetadataSize : Nat := 128 * 1024 * 1024

/-! ### Object types and repository modes -/

/-- `ObjectType`. -/
inductive ObjectType where
  | file
  | dirTree
  | dirMeta
  | commit
  | tombstoneCommit
  | commitMeta
  | payloadLink
  | fileXattrs
  | fileXattrsLink
  deriving DecidableEq

namespace ObjectType

/-- `ObjectType::as_u32`. -/
def asU32 : ObjectType → UInt32
  | file => 1
  | dirTree => 2
  | dirMeta => 3
  | commit => 4
  | tombstoneCommit => 5
  | commitMeta => 6
  | payloadLink => 7
  | fileXattrs => 8
  | fileXattrsLink => 9

/-- `ObjectType::from_u32`. -/
def fromU32 (tag : UInt32) : Except Error ObjectType :=
  match tag.toNat with
  | 1 => .ok file
  | 2 => .ok dirTree
  | 3 => .ok dirMeta
  | 4 => .ok commit
  | 5 => .ok tombstoneCommit
  | 6 => .ok commitMeta
  | 7 => .ok payloadLink
  | 8 => .ok fileXattrs
  | 9 => .ok fileXattrsLink
  | other => .error (.invalidObjectType other)

/-- `ObjectType::is_meta`. -/
def isMeta : ObjectType → Bool
  | dirTree | dirMeta | commit | tombstoneCommit | commitMeta => true
  | file | payloadLink | fileXattrs | fileXattrsLink => false

end ObjectType

/-- `RepoMode`. -/
inductive RepoMode where
  | bare
  | bareUser
  | bareUserOnly
  | bareSplitXattrs
  | archive
  | bareUserShared
  deriving DecidableEq

/-! ### Big-endian numbers -/

/-- `to_be_bytes`, from a number of `width` bytes. -/
def beBytes (width value : Nat) : Bytes := (leBytes width value).reverse

@[simp] theorem beBytes_length (width value : Nat) : (beBytes width value).length = width := by
  rw [beBytes, List.length_reverse, leBytes_length]

/-- `from_be_bytes`. -/
def beNat (bytes : Bytes) : Nat := leNat bytes.reverse

theorem beNat_beBytes (small : value < 256 ^ width) :
    beNat (beBytes width value) = value := by
  rw [beNat, beBytes, List.reverse_reverse, leNat_leBytes small]

theorem beBytes_beNat (sized : bytes.length = width) :
    beBytes width (beNat bytes) = bytes := by
  rw [beBytes, beNat, leBytes_leNat_of_length (by rw [List.length_reverse, sized]), List.reverse_reverse]

theorem beNat_lt (bytes : Bytes) : beNat bytes < 256 ^ bytes.length := by
  have bound := leNat_lt bytes.reverse
  rwa [List.length_reverse] at bound

/-- `swap_bytes`, of a number of `width` bytes. -/
def swapped {α : Type} (width : Nat) (toNat : α → Nat) (ofNat : Nat → α) (x : α) : α :=
  ofNat (beNat (leBytes width (toNat x)))

section Swapped

variable {α : Type} {width : Nat} {toNat : α → Nat} {ofNat : Nat → α}

/-- A swapped number has the little-endian bytes that the number has big-endian. -/
theorem leBytes_swapped (scalar : IsScalar width toNat ofNat) (x : α) :
    leBytes width (toNat (swapped width toNat ofNat x)) = beBytes width (toNat x) := by
  have small := beNat_lt (leBytes width (toNat x))
  rw [leBytes_length] at small
  rw [swapped, scalar.toNat_ofNat _ small, beNat, leBytes_leNat_of_length (by simp), beBytes]

theorem swapped_swapped (scalar : IsScalar width toNat ofNat) (x : α) :
    swapped width toNat ofNat (swapped width toNat ofNat x) = x := by
  have back := leBytes_swapped scalar x
  rw [swapped, back, beNat_beBytes (scalar.small x)]
  exact scalar.ofNat_toNat x

end Swapped

/-- A big-endian number of exactly `width` bytes. -/
def decodeBe {α : Type} (width : Nat) (ofNat : Nat → α) (fault : String) (data : Bytes) :
    Except Gvariant.Error α :=
  if data.length = width then .ok (ofNat (beNat data)) else .error (.notNormal fault)

theorem decodeBe_eq_ok {α : Type} {width : Nat} {toNat : α → Nat} {ofNat : Nat → α}
    (scalar : IsScalar width toNat ofNat) {fault : String} {x : α} :
    decodeBe width ofNat fault data = .ok x ↔ beBytes width (toNat x) = data := by
  unfold decodeBe
  split
  · next sized =>
    rw [Except.ok.injEq]
    constructor
    · rintro rfl
      rw [scalar.toNat_ofNat _ (sized ▸ beNat_lt data), beBytes_beNat sized]
    · rintro rfl
      rw [beNat_beBytes (scalar.small x), scalar.ofNat_toNat]
  · next sized =>
    simp only [reduceCtorEq, false_iff]
    rintro rfl
    exact sized (beBytes_length _ _)

/-- `Be32`. -/
def GvDecode.be32 : GvDecode UInt32 :=
  ⟨(4, some 4), decodeBe 4 u32OfNat "u32 has the wrong size", valid_four⟩

def GvEncode.be32 : GvEncode UInt32 :=
  .leaf (4, some 4) valid_four (fun x => .ok (beBytes 4 x.toNat)) fun _ _ written _ size => by
    cases written; cases size; exact beBytes_length _ _

/-- `Be64`. -/
def GvDecode.be64 : GvDecode UInt64 :=
  ⟨(8, some 8), decodeBe 8 u64OfNat "u64 has the wrong size", valid_eight⟩

def GvEncode.be64 : GvEncode UInt64 :=
  .leaf (8, some 8) valid_eight (fun x => .ok (beBytes 8 x.toNat)) fun _ _ written _ size => by
    cases written; cases size; exact beBytes_length _ _

@[simp] theorem encodeToVec_be32 (x : UInt32) : encodeToVec GvEncode.be32 x = .ok (beBytes 4 x.toNat) := rfl

@[simp] theorem encodeToVec_be64 (x : UInt64) : encodeToVec GvEncode.be64 x = .ok (beBytes 8 x.toNat) := rfl

theorem be32_eq_ok {x : UInt32} :
    GvDecode.be32.decode part = .ok x ↔ encodeToVec GvEncode.be32 x = .ok part := by
  rw [encodeToVec_be32, Except.ok.injEq]
  exact decodeBe_eq_ok isScalar_u32

theorem be64_eq_ok {x : UInt64} :
    GvDecode.be64.decode part = .ok x ↔ encodeToVec GvEncode.be64 x = .ok part := by
  rw [encodeToVec_be64, Except.ok.injEq]
  exact decodeBe_eq_ok isScalar_u64

/-! ### Checked iteration -/

section ValidatedIter

variable {ε α β σ : Type} {decode : Bytes → Except Gvariant.Error α} {r : ArrayReader}

/-- A check step over entries that decoded: what it makes of each, and its state at the end. -/
def steps (step : σ → α → Except ε (β × σ)) : σ → List α → Except ε (List β × σ)
  | state, [] => .ok ([], state)
  | state, raw :: raws => do
    let (out, state) ← step state raw
    let (outs, state) ← steps step state raws
    .ok (out :: outs, state)

/-- A loop that decodes the entries of an array one by one, checks each before the next, and returns
at the first error, for at most `fuel` entries. -/
def validatedFrom (lift : Gvariant.Error → ε) (decode : Bytes → Except Gvariant.Error α)
    (step : σ → α → Except ε (β × σ)) : (fuel : Nat) → ArrayReader → σ → Except ε (List β × σ)
  | 0, _, state => .ok ([], state)
  | fuel + 1, r, state =>
    match r.nextSlice with
    | (none, _) => .ok ([], state)
    | (some slice, next) => do
      let raw ← (slice >>= decode).mapError lift
      let (out, state) ← step state raw
      let (outs, state) ← validatedFrom lift decode step fuel next state
      .ok (out :: outs, state)

/-- The whole loop. -/
def validated (lift : Gvariant.Error → ε) (decode : Bytes → Except Gvariant.Error α)
    (step : σ → α → Except ε (β × σ)) (r : ArrayReader) (state : σ) : Except ε (List β × σ) :=
  validatedFrom lift decode step (r.n - r.i) r state

theorem mapError_eq_ok {ε ε' γ : Type} {fault : ε → ε'} {result : Except ε γ} {value : γ} :
    result.mapError fault = .ok value ↔ result = .ok value := by
  cases result with
  | error reason => simp [Except.mapError]
  | ok found => simp [Except.mapError]

section Steps

variable {step : σ → α → Except ε (β × σ)} {lift : Gvariant.Error → ε}

/-- One step, then the others. -/
theorem steps_cons_eq_ok : steps step state (raw :: raws) = .ok (outs, final) ↔
    ∃ out next, step state raw = .ok (out, next) ∧
      ∃ rest, steps step next raws = .ok (rest, final) ∧ out :: rest = outs := by
  simp only [steps, bind_eq_ok, Prod.exists, Except.ok.injEq, Prod.mk.injEq, exists_eq_right_right]

theorem validatedFrom_eq_ok {fuel : Nat} {state final : σ} {outs : List β} : validatedFrom lift decode step fuel r state = .ok (outs, final) ↔
      ∃ raws, r.collectFrom decode fuel = .ok raws ∧ steps step state raws = .ok (outs, final) := by
  induction fuel generalizing r state final outs with
  | zero => simp [validatedFrom, ArrayReader.collectFrom, steps]
  | succ fuel ih =>
    rw [validatedFrom, ArrayReader.collectFrom]
    rcases r.nextSlice with ⟨_ | slice, next⟩
    · simp [steps]
    · simp only [bind_eq_ok, mapError_eq_ok, Prod.exists, ih, Except.ok.injEq, Prod.mk.injEq]
      constructor
      · rintro ⟨raw, ⟨part, cut, decoded⟩, out, after, checked, rest, _, ⟨raws, collected, others⟩,
          rfl, rfl⟩
        exact ⟨raw :: raws, ⟨part, cut, raw, decoded, raws, collected, rfl⟩,
          steps_cons_eq_ok.mpr ⟨out, after, checked, rest, others, rfl⟩⟩
      · rintro ⟨_, ⟨part, cut, raw, decoded, raws, collected, rfl⟩, run⟩
        obtain ⟨out, after, checked, rest, others, rfl⟩ := steps_cons_eq_ok.mp run
        exact ⟨raw, ⟨part, cut, decoded⟩, out, after, checked, rest, _, ⟨raws, collected, others⟩,
          rfl, rfl⟩

/-- The loop succeeds exactly when the array drains and the checks of its entries pass. -/
theorem validated_eq_ok :
    validated lift decode step r state = .ok (outs, final) ↔
      ∃ raws, r.collect decode = .ok raws ∧ steps step state raws = .ok (outs, final) := validatedFrom_eq_ok

theorem map_validated_eq_ok {γ : Type} {f : List β × σ → γ} {x : γ} :
    (validated lift decode step r state).map f = .ok x ↔ ∃ raws, r.collect decode = .ok raws ∧
      ∃ outs final, steps step state raws = .ok (outs, final) ∧ f (outs, final) = x := by
  simp only [map_eq_ok, Prod.exists, validated_eq_ok]
  constructor
  · rintro ⟨outs, final, ⟨raws, drains, run⟩, same⟩
    exact ⟨raws, drains, outs, final, run, same⟩
  · rintro ⟨raws, drains, outs, final, run, same⟩
    exact ⟨outs, final, ⟨raws, drains, run⟩, same⟩

end Steps

/-- `ValidatedIter`, drained. -/
def drained (decode : Bytes → Except Gvariant.Error α) (step : σ → α → Except Error (β × σ))
    (r : ArrayReader) (state : σ) : Except Error (List β) :=
  (validated .gvariant decode step r state).map Prod.fst

theorem drained_eq_ok :
    drained decode step r state = .ok outs ↔
      ∃ raws, r.collect decode = .ok raws ∧ ∃ final, steps step state raws = .ok (outs, final) := by
  simp [drained, map_validated_eq_ok]

/-- A step that accepts the stored form of a valid entry, after a strictly smaller key. -/
def OrderedStep {κ : Type} [LinearOrder κ] (step : Option κ → α → Except Error (β × Option κ))
    (valid : β → Prop) (stored : β → α) (key : β → κ) : Prop :=
  ∀ previous raw out next, step previous raw = .ok (out, next) ↔
    (valid out ∧ raw = stored out) ∧ (∀ p, previous = some p → p < key out) ∧ next = some (key out)

/-- The accepted lists are those in strict order. -/
theorem OrderedStep.steps_eq_ok {κ : Type} [LinearOrder κ]
    {step : Option κ → α → Except Error (β × Option κ)} {stored : β → α} {key : β → κ}
    (ordered : OrderedStep step valid stored key) {previous : Option κ} {outs : List β} :
    (∃ final, steps step previous raws = .ok (outs, final)) ↔
      (raws = outs.map stored ∧ ∀ out ∈ outs, valid out) ∧
        (previous.toList ++ outs.map key).Pairwise (· < ·) := by
  induction raws generalizing previous outs with
  | nil =>
    simp only [steps, Except.ok.injEq, Prod.mk.injEq, exists_and_left, exists_eq', and_true]
    constructor
    · rintro rfl
      exact ⟨⟨rfl, List.forall_mem_nil _⟩, by cases previous <;> simp⟩
    · exact fun ⟨⟨empty, _⟩, _⟩ => (List.map_eq_nil_iff.mp empty.symm).symm
  | cons raw raws ih =>
    simp only [steps_cons_eq_ok]
    constructor
    · rintro ⟨final, out, next, checked, rest, others, rfl⟩
      obtain ⟨⟨accepted, rfl⟩, above, rfl⟩ := (ordered previous raw out next).mp checked
      obtain ⟨⟨rfl, each⟩, ascending⟩ := ih.mp ⟨final, others⟩
      exact ⟨⟨rfl, List.forall_mem_cons.mpr ⟨accepted, each⟩⟩, ascending_after.mpr ⟨above, ascending⟩⟩
    · rintro ⟨⟨same, each⟩, ascending⟩
      cases outs with
      | nil => cases same
      | cons out outs =>
        obtain ⟨first, rest⟩ := List.cons.inj same
        obtain ⟨accepted, each⟩ := List.forall_mem_cons.mp each
        obtain ⟨above, ascending⟩ := ascending_after.mp ascending
        obtain ⟨final, others⟩ := (@ih (some _) _).mpr ⟨⟨rest, each⟩, ascending⟩
        exact ⟨final, _, _, (ordered previous raw _ _).mpr ⟨⟨accepted, first⟩, above, rfl⟩, _,
          others, rfl⟩

end ValidatedIter

end Ostrya.Core
