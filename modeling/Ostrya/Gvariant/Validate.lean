/-
**Checking without decoding** (`validate` and `check` of `de.rs`).

`check` mirrors `parse` and keeps no value. `validate_eq`: it accepts exactly what `from_bytes` accepts,
with the same error otherwise.
-/

import Ostrya.Gvariant.Value

namespace Ostrya.Gvariant

open ByteFormat

/-- `map(drop)`. -/
def discard {α : Type} (result : Except Error α) : Except Error Unit := result.map fun _ => ()

/-- The member loop of `check_struct`. -/
def checkMembers (child : Ty → Bytes → Except Error Unit) :
    TupleReader → List Ty → Except Error TupleReader
  | reader, [] => .ok reader
  | reader, ty :: tys => do
    let (slice, reader) ← reader.field ty.alignment ty.fixedSize tys.isEmpty
    child ty slice
    checkMembers child reader tys

/-- `check_struct`. -/
def checkStruct (child : Ty → Bytes → Except Error Unit) (whole : Ty) (members : List Ty)
    (data : Bytes) : Except Error Unit := do
  if members.isEmpty then
    if data ≠ [0] then .error (.notNormal "empty tuple is not a single zero byte") else .ok ()
  else
    let reader ← TupleReader.new data (nOffsets (members.map Ty.spec)) whole.fixedSize
    let reader ← checkMembers child reader members
    reader.finish

/-- The array loop of `check`. -/
def checkArray (child : Ty → Bytes → Except Error Unit) (elem : Ty) (data : Bytes) : Except Error Unit := do
  let reader ← ArrayReader.new data elem.alignment elem.fixedSize
  discard (reader.collect (child elem))

/-- The maybe arm of `check`. -/
def checkMaybe (child : Ty → Bytes → Except Error Unit) (elem : Ty) (data : Bytes) : Except Error Unit := do
  if data.isEmpty then .ok () else child elem (← maybeChild elem data)

/-- The body of `check` below the depth check. -/
def checkStep (child : Ty → Bytes → Except Error Unit) (ty : Ty) (data : Bytes) : Except Error Unit :=
  match ty with
  | .bool => discard (decodeBool data)
  | .byte => discard (decodeByte data)
  | .i16 | .u16 => discard (exact 2 data)
  | .i32 | .handle | .u32 => discard (exact 4 data)
  | .i64 | .u64 | .double => discard (exact 8 data)
  | .str | .objectPath | .signature => discard (decodeStr data)
  | .maybe elem => checkMaybe child elem data
  | .array .byte => .ok ()
  | .array elem => checkArray child elem data
  | .tuple members => checkStruct child (.tuple members) members data
  | .dictEntry key value => checkStruct child (.dictEntry key value) [key, value] data
  | .variant => do
    let (inner, _, childTy) ← splitVariant data
    child childTy inner

/-- `check`, with `levels` the container levels that remain. -/
def check : (levels : Nat) → Ty → Bytes → Except Error Unit
  | 0 => fun _ _ => .error .depthExceeded
  | levels + 1 => checkStep (check levels)

/-- `validate`. -/
def validate (ty : Ty) (data : Bytes) : Except Error Unit := check (maxValueDepth + 1) ty data

/-! ### It mirrors the parser -/

section Mirror

variable {reads : Ty → Bytes → Except Error Value} {checks : Ty → Bytes → Except Error Unit}

theorem discard_map {α β : Type} (f : α → β) (result : Except Error α) : discard (result.map f) = discard result := by
  cases result <;> rfl

theorem discard_decodeScalar {α : Type} (width : Nat) (ofNat : Nat → α) (data : Bytes) :
    discard (decodeScalar width ofNat data) = discard (exact width data) := discard_map _ _

theorem collectFrom_discard {α : Type} {decode : Bytes → Except Error α} {check : Bytes → Except Error Unit}
    (mirror : ∀ data, check data = discard (decode data)) (fuel : Nat) (r : ArrayReader) :
    discard (r.collectFrom check fuel) = discard (r.collectFrom decode fuel) := by
  induction fuel generalizing r with
  | zero => rfl
  | succ fuel ih =>
    rw [ArrayReader.collectFrom, ArrayReader.collectFrom]
    rcases r.nextSlice with ⟨_ | slice, next⟩
    · rfl
    · cases slice with
      | error fault => rfl
      | ok part =>
        simp only [ok_bind, mirror]
        cases decode part with
        | error fault => rfl
        | ok item =>
          have rest := ih next
          cases checked : next.collectFrom check fuel <;> cases decoded : next.collectFrom decode fuel <;>
            simp_all [discard, Except.map, bind, Except.bind]

section

variable (mirror : ∀ ty data, checks ty data = discard (reads ty data))

include mirror

theorem checkMembers_discard (r : TupleReader)
    (tys : List Ty) : checkMembers checks r tys = (parseMembers reads r tys).map Prod.snd := by
  induction tys generalizing r with
  | nil => rfl
  | cons ty tys ih =>
    rw [checkMembers, parseMembers]
    cases r.field ty.alignment ty.fixedSize tys.isEmpty with
    | error fault => rfl
    | ok cut =>
      simp only [ok_bind, mirror]
      cases reads ty cut.1 with
      | error fault => rfl
      | ok item =>
        simp only [discard, map_ok, ok_bind, ih]
        cases parseMembers reads cut.2 tys <;> rfl

theorem checkStruct_discard (whole : Ty) (members : List Ty) (data : Bytes) :
    checkStruct checks whole members data = discard (parseStruct reads whole members data) := by
  unfold checkStruct parseStruct
  split
  · split <;> rfl
  · cases TupleReader.new data (nOffsets (members.map Ty.spec)) whole.fixedSize with
    | error fault => rfl
    | ok r =>
      simp only [ok_bind, checkMembers_discard mirror]
      cases parseMembers reads r members with
      | error fault => rfl
      | ok done =>
        simp only [map_ok, ok_bind]
        cases done.2.finish <;> rfl

theorem checkStep_discard (ty : Ty) (data : Bytes) :
    checkStep checks ty data = discard (parseStep reads ty data) := by
  unfold parseStep
  split
  case h_14 elem =>
    rw [checkStep, checkMaybe, parseMaybe]
    split
    · rfl
    · cases maybeChild elem data with
      | error fault => rfl
      | ok inner =>
        simp only [ok_bind, mirror]
        cases reads elem inner <;> rfl
  case h_15 => rfl
  case h_16 elem other =>
    have generic : checkStep checks (.array elem) data = checkArray checks elem data := by
      cases elem <;> first | rfl | exact absurd rfl other
    rw [generic, checkArray, parseArray]
    cases ArrayReader.new data elem.alignment elem.fixedSize with
    | error fault => rfl
    | ok r =>
      simp only [ok_bind, ArrayReader.collect, collectFrom_discard (mirror elem)]
      cases r.collectFrom (reads elem) (r.n - r.i) <;> rfl
  case h_17 members => exact checkStruct_discard mirror _ members data
  case h_18 key val => exact checkStruct_discard mirror _ [key, val] data
  case h_19 =>
    rw [checkStep]
    cases splitVariant data with
    | error fault => rfl
    | ok cut =>
      simp only [ok_bind, mirror]
      cases reads cut.2.2 cut.1 <;> rfl
  all_goals
    rw [checkStep, discard_map]
    try rw [discard_decodeScalar]

end

end Mirror

theorem check_eq (levels : Nat) (ty : Ty) (data : Bytes) : check levels ty data = discard (parse levels ty data) := by
  induction levels generalizing ty data with
  | zero => rfl
  | succ levels ih => exact checkStep_discard ih ty data

theorem validate_eq_ok :
    validate ty data = .ok () ↔ ∃ value, fromBytes ty data = .ok value := by
  rw [validate, check_eq, discard, map_eq_ok]
  simp [fromBytes]

/-- **`validate` accepts exactly what `from_bytes` accepts**, and fails with the same error. -/
theorem validate_eq (ty : Ty) (data : Bytes) : validate ty data = (fromBytes ty data).map fun _ => () :=
  check_eq _ ty data

end Ostrya.Gvariant
