/-
**GVariant types** (`ty.rs`, `error.rs`).

The types with their alignment and fixed size. A container type of the source caches the layout of
the types inside it; the model computes the layout where it is read, so `Ty.layout` is the value
that the cache holds. `Ty.spec_valid`: an alignment is 1, 2, 4 or 8, and a fixed size is a positive
multiple of it.
-/

import Ostrya.Gvariant.Layout

namespace Ostrya.Gvariant

open ByteFormat

/-- `Error`. -/
inductive Error where
  | invalidTypeString (signature : String) (offset : Nat) (reason : String)
  | typeMismatch (expected found : String)
  | invalidValue (reason : String)
  | notNormal (reason : String)
  | depthExceeded
  deriving DecidableEq, Repr

/-- `Display for Error`. A signature is quoted as it is: the ones that a modelled function reports
have no character to escape. -/
def Error.display : Error → String
  | invalidTypeString signature offset reason =>
    "invalid type signature \"" ++ signature ++ "\" at offset " ++ toString offset ++ ": " ++ reason
  | typeMismatch expected found => "value of kind " ++ found ++ " does not match type \"" ++ expected ++ "\""
  | invalidValue reason => "unrepresentable value: " ++ reason
  | notNormal reason => "data is not normal-form GVariant: " ++ reason
  | depthExceeded => "container nesting exceeds the supported depth"

/-- `Type`. -/
inductive Ty where
  | bool
  | byte
  | i16
  | u16
  | i32
  | u32
  | i64
  | u64
  | handle
  | double
  | str
  | objectPath
  | signature
  | variant
  | maybe (elem : Ty)
  | array (elem : Ty)
  | tuple (members : List Ty)
  | dictEntry (key value : Ty)
  deriving Repr

namespace Ty

/-- Induction over types, with the members of a tuple as one hypothesis. -/
@[elab_as_elim, induction_eliminator]
theorem inductionOn {motive : Ty → Prop} (bool : motive .bool) (byte : motive .byte)
    (i16 : motive .i16) (u16 : motive .u16) (i32 : motive .i32) (u32 : motive .u32)
    (i64 : motive .i64) (u64 : motive .u64) (handle : motive .handle) (double : motive .double)
    (str : motive .str) (objectPath : motive .objectPath) (signature : motive .signature)
    (variant : motive .variant) (maybe : ∀ elem, motive elem → motive (.maybe elem))
    (array : ∀ elem, motive elem → motive (.array elem))
    (tuple : ∀ members, (∀ member ∈ members, motive member) → motive (.tuple members))
    (dictEntry : ∀ key value, motive key → motive value → motive (.dictEntry key value)) :
    ∀ ty, motive ty :=
  @Ty.rec motive (fun members => ∀ member ∈ members, motive member)
    bool byte i16 u16 i32 u32 i64 u64 handle double str objectPath signature variant maybe array
    tuple dictEntry (List.forall_mem_nil _) fun _ _ head tail => List.forall_mem_cons.mpr ⟨head, tail⟩

/-! ### Equality -/

mutual
/-- Equality of types, as `PartialEq` derives it. -/
def beq : Ty → Ty → Bool
  | .bool, .bool | .byte, .byte | .i16, .i16 | .u16, .u16 | .i32, .i32 | .u32, .u32 | .i64, .i64 | .u64, .u64
  | .handle, .handle | .double, .double | .str, .str | .objectPath, .objectPath | .signature, .signature
  | .variant, .variant => true
  | .maybe one, .maybe two | .array one, .array two => one.beq two
  | .tuple ones, .tuple twos => beqs ones twos
  | .dictEntry key value, .dictEntry key' value' => key.beq key' && value.beq value'
  | _, _ => false

def beqs : List Ty → List Ty → Bool
  | [], [] => true
  | one :: ones, two :: twos => one.beq two && beqs ones twos
  | _, _ => false
end

theorem beqs_iff (each : ∀ one ∈ ones, ∀ two, one.beq two = true ↔ one = two) (twos : List Ty) :
    beqs ones twos = true ↔ ones = twos := by
  induction ones generalizing twos with
  | nil => cases twos <;> simp [beqs]
  | cons one ones ih =>
    cases twos with
    | nil => simp [beqs]
    | cons two twos =>
      have rest := ih (fun one inside => each one (.tail _ inside)) twos
      simp [beqs, each one (.head _), rest]

theorem beq_iff (one two : Ty) : one.beq two = true ↔ one = two := by
  induction one generalizing two with
  | tuple ones ih => cases two <;> simp [beq, beqs_iff ih]
  | maybe elem ih | array elem ih => cases two <;> simp [beq, ih]
  | dictEntry key value first second => cases two <;> simp [beq, first, second]
  | _ => cases two <;> simp [beq]

instance : DecidableEq Ty := fun one two => decidable_of_iff _ (beq_iff one two)

/-- `is_basic`: a scalar or a string. -/
def isBasic : Ty → Bool
  | .bool | .byte | .i16 | .u16 | .i32 | .u32 | .i64 | .u64 | .handle | .double | .str
  | .objectPath | .signature => true
  | .variant | .maybe _ | .array _ | .tuple _ | .dictEntry _ _ => false

/-! ### Layout -/

mutual

/-- `Type::layout`. -/
def layout : Ty → Layout
  | .bool | .byte => .scalar 1
  | .i16 | .u16 => .scalar 2
  | .i32 | .u32 | .handle => .scalar 4
  | .i64 | .u64 | .double => .scalar 8
  | .str | .objectPath | .signature => .variableSize 1
  | .variant => .variableSize 8
  | .maybe elem | .array elem => .variableSize elem.layout.alignment
  | .tuple members => .ofStruct (layouts members)
  | .dictEntry key value => .ofStruct [key.layout, value.layout]

/-- The layouts of the members of a tuple. -/
def layouts : List Ty → List Layout
  | [] => []
  | ty :: tys => ty.layout :: layouts tys

end

/-- `Type::alignment`. -/
def alignment (ty : Ty) : Nat := ty.layout.alignment

/-- `Type::fixed_size`. -/
def fixedSize (ty : Ty) : Option Nat := ty.layout.fixed

/-- The description of a member of this type. -/
def spec (ty : Ty) : MemberSpec := (ty.alignment, ty.fixedSize)

theorem layouts_eq_map (tys : List Ty) : layouts tys = tys.map layout := by
  induction tys with
  | nil => rfl
  | cons ty tys ih => rw [layouts, ih, List.map_cons]

private theorem validSpec_scalar (valid : IsAlignment size) :
    ValidSpec (Layout.scalar size).spec := by
  rw [Layout.scalar, Layout.spec_new (.scalar valid)]
  exact .scalar valid

private theorem validSpec_variable {alignment : Nat} (valid : IsAlignment alignment) :
    ValidSpec (Layout.variableSize alignment).spec := by
  rw [Layout.variableSize, Layout.spec_new (.variableSize valid)]
  exact .variableSize valid

private theorem validSpec_ofStruct (valid : ∀ m ∈ members, ValidSpec m.spec) :
    ValidSpec (Layout.ofStruct members).spec := by
  rw [Layout.spec_ofStruct valid]
  refine validSpec_struct fun m inside => ?_
  obtain ⟨layout, member, rfl⟩ := List.mem_map.mp inside
  exact valid layout member

/-- **Every type has a valid description.** -/
theorem layout_valid (ty : Ty) : ValidSpec ty.layout.spec := by
  have one : IsAlignment 1 := Or.inl rfl
  have two : IsAlignment 2 := Or.inr (Or.inl rfl)
  have four : IsAlignment 4 := Or.inr (Or.inr (Or.inl rfl))
  have eight : IsAlignment 8 := Or.inr (Or.inr (Or.inr rfl))
  induction ty with
  | bool | byte => exact validSpec_scalar one
  | i16 | u16 => exact validSpec_scalar two
  | i32 | u32 | handle => exact validSpec_scalar four
  | i64 | u64 | double => exact validSpec_scalar eight
  | str | objectPath | signature => exact validSpec_variable one
  | variant => exact validSpec_variable eight
  | maybe elem ih | array elem ih => exact validSpec_variable ih.alignment
  | tuple members ih =>
    rw [layout, layouts_eq_map]
    refine validSpec_ofStruct fun m inside => ?_
    obtain ⟨member, here, rfl⟩ := List.mem_map.mp inside
    exact ih member here
  | dictEntry key value keyValid valueValid =>
    refine validSpec_ofStruct fun m inside => ?_
    rcases List.mem_pair.mp inside with rfl | rfl
    · exact keyValid
    · exact valueValid

theorem spec_valid (ty : Ty) : ValidSpec ty.spec := ty.layout_valid

theorem spec_tuple (members : List Ty) :
    (Ty.tuple members).spec = (maxAlign ((members.map spec).map Prod.fst),
      structFixedSize (members.map spec) (maxAlign ((members.map spec).map Prod.fst))) := by
  have same : (layouts members).map Layout.spec = members.map spec := by
    rw [layouts_eq_map, List.map_map]
    rfl
  show (Layout.ofStruct (layouts members)).spec = _
  rw [Layout.spec_ofStruct, same]
  intro m inside
  rw [layouts_eq_map] at inside
  obtain ⟨member, _, rfl⟩ := List.mem_map.mp inside
  exact member.layout_valid

theorem fixedSize_struct {whole : Ty} (same : whole.spec = (Ty.tuple members).spec) :
    whole.fixedSize = structFixedSize (members.map spec) whole.alignment := by
  have both := same.trans (spec_tuple members)
  rw [show whole.alignment = _ from congrArg Prod.fst both]
  exact congrArg Prod.snd both

theorem spec_positive (members : List Ty) : ∀ m ∈ members.map spec, 0 < m.1 := by
  intro m inside
  obtain ⟨member, _, rfl⟩ := List.mem_map.mp inside
  exact member.spec_valid.alignment.pos

theorem spec_dictEntry (key value : Ty) :
    (Ty.dictEntry key value).spec = (Ty.tuple [key, value]).spec := rfl

theorem fixedSize_maybe (elem : Ty) : (Ty.maybe elem).fixedSize = none :=
  congrArg Prod.snd (Layout.spec_new (.variableSize elem.layout_valid.alignment))

theorem fixedSize_array (elem : Ty) : (Ty.array elem).fixedSize = none :=
  congrArg Prod.snd (Layout.spec_new (.variableSize elem.layout_valid.alignment))

theorem alignment_maybe (elem : Ty) : (Ty.maybe elem).alignment = elem.alignment :=
  congrArg Prod.fst (Layout.spec_new (.variableSize elem.layout_valid.alignment))

theorem alignment_array (elem : Ty) : (Ty.array elem).alignment = elem.alignment :=
  congrArg Prod.fst (Layout.spec_new (.variableSize elem.layout_valid.alignment))

end Ty

end Ostrya.Gvariant
