/-
**Alignments and fixed sizes** (`Layout` of `ty.rs`, `max_align` and `struct_fixed_size` of
`codec.rs`).

A member of a container is described by its alignment and its fixed size, `none` for a variable
size. The source computes the description of a structure twice, once packed in a `Layout` word for
a dynamic type and once in constants for a typed codec; `Layout.spec_ofStruct` says that the two
agree, so the framing of tuples is argued about once, over `MemberSpec`.
-/

import Ostrya.ByteFormat.Tiling

namespace Ostrya.Gvariant

open ByteFormat

/-- The bytes of a vector or a slice. -/
abbrev Bytes := List UInt8

/-- The alignment and the fixed size of a container member. -/
abbrev MemberSpec := Nat × Option Nat

/-- `max_align`: the greatest alignment, at least 1. -/
def maxAlign (aligns : List Nat) : Nat :=
  aligns.foldl (fun greatest alignment => if alignment > greatest then alignment else greatest) 1

/-- The loop of `struct_fixed_size`: the end of the members after `size` bytes. -/
def membersSize : (size : Nat) → List MemberSpec → Option Nat
  | size, [] => some size
  | size, (alignment, some fixed) :: members =>
    membersSize (alignUp size alignment + fixed) members
  | _, (_, none) :: _ => none

/-- `struct_fixed_size`. -/
def structFixedSize (members : List MemberSpec) (wholeAlign : Nat) : Option Nat :=
  if members.isEmpty then some 1 else (membersSize 0 members).map (alignUp · wholeAlign)

/-- `Layout`: the fixed size (0 for a variable size) above the low four bits, which hold the
alignment. -/
structure Layout where
  inner : Nat
  deriving DecidableEq, Repr

namespace Layout

/-- `Layout::new`. -/
def new (fixed : Option Nat) (alignment : Nat) : Layout :=
  ⟨fixed.getD 0 <<< 4 ||| alignment⟩

/-- `Layout::scalar`. -/
def scalar (size : Nat) : Layout := new (some size) size

/-- `Layout::variable`. -/
def variableSize (alignment : Nat) : Layout := new none alignment

/-- `Layout::alignment`. -/
def alignment (layout : Layout) : Nat := layout.inner &&& 0xf

/-- `Layout::fixed`. -/
def fixed (layout : Layout) : Option Nat :=
  match layout.inner >>> 4 with
  | 0 => none
  | size => some size

/-- One member in the loop of `Layout::of_struct`. -/
def structStep (state : Nat × Option Nat) (member : Layout) : Nat × Option Nat :=
  (max state.1 member.alignment,
    match state.2, member.fixed with
    | some size, some fixed => some (alignUp size member.alignment + fixed)
    | _, _ => none)

/-- `Layout::of_struct`. -/
def ofStruct (members : List Layout) : Layout :=
  let total := members.foldl structStep (1, some 0)
  new (if members.isEmpty then some 1 else total.2.map (alignUp · total.1)) total.1

theorem alignment_new (size : Option Nat) {alignment : Nat} (small : alignment < 16) :
    (new size alignment).alignment = alignment := by
  have low : alignment < 2 ^ 4 := small
  simp only [new, Layout.alignment]
  rw [← Nat.shiftLeft_add_eq_or_of_lt low, show (0xf : Nat) = 2 ^ 4 - 1 from rfl,
    Nat.and_two_pow_sub_one_eq_mod, Nat.shiftLeft_eq]
  omega

theorem fixed_new {alignment : Nat} (small : alignment < 16)
    (nonzero : size ≠ some 0) : (new size alignment).fixed = size := by
  have low : alignment < 2 ^ 4 := small
  have high : (size.getD 0 <<< 4 ||| alignment) >>> 4 = size.getD 0 := by
    rw [← Nat.shiftLeft_add_eq_or_of_lt low, Nat.shiftRight_eq_div_pow, Nat.shiftLeft_eq]
    omega
  simp only [new, fixed, high]
  cases size with
  | none => rfl
  | some size =>
    cases size with
    | zero => exact absurd rfl nonzero
    | succ size => rfl

end Layout

/-! ### Valid descriptions -/

/-- The alignments of the format. -/
def IsAlignment (alignment : Nat) : Prop :=
  alignment = 1 ∨ alignment = 2 ∨ alignment = 4 ∨ alignment = 8

theorem IsAlignment.pos (valid : IsAlignment alignment) : 0 < alignment := by
  rcases valid with rfl | rfl | rfl | rfl <;> decide

theorem IsAlignment.dvd_of_le (one : IsAlignment first)
    (two : IsAlignment second) (le : first ≤ second) : first ∣ second := by
  rcases one with rfl | rfl | rfl | rfl <;> rcases two with rfl | rfl | rfl | rfl <;> omega

/-- **A valid description**: an alignment of the format, and a fixed size that is a positive
multiple of it. -/
structure ValidSpec (spec : MemberSpec) : Prop where
  alignment : IsAlignment spec.1
  positive : ∀ size, spec.2 = some size → 0 < size
  multiple : ∀ size, spec.2 = some size → spec.1 ∣ size

theorem ValidSpec.variableSize {alignment : Nat} (valid : IsAlignment alignment) :
    ValidSpec (alignment, none) :=
  ⟨valid, fun _ size => (by cases size), fun _ size => (by cases size)⟩

theorem ValidSpec.scalar (valid : IsAlignment size) : ValidSpec (size, some size) :=
  ⟨valid, fun _ same => (by cases same; exact valid.pos), fun _ same => (by cases same; exact dvd_rfl)⟩

section MaxAlign

theorem foldl_max_spec {aligns : List Nat} (valid : ∀ a ∈ aligns, IsAlignment a) (first : IsAlignment start) :
    let greatest := aligns.foldl (fun greatest a => if a > greatest then a else greatest) start
    IsAlignment greatest ∧ start ≤ greatest ∧ ∀ a ∈ aligns, a ≤ greatest := by
  induction aligns generalizing start with
  | nil => exact ⟨first, le_rfl, fun _ member => by cases member⟩
  | cons alignment aligns ih =>
    have here := valid alignment (.head _)
    have next : IsAlignment (if alignment > start then alignment else start) := by
      split
      · exact here
      · exact first
    obtain ⟨isAlign, le, above⟩ := ih (fun a member => valid a (.tail _ member)) next
    have both : start ≤ (if alignment > start then alignment else start) ∧
        alignment ≤ (if alignment > start then alignment else start) := by
      split <;> omega
    exact ⟨isAlign, le_trans both.1 le, List.forall_mem_cons.mpr ⟨le_trans both.2 le, above⟩⟩

variable {aligns : List Nat}

theorem maxAlign_isAlignment (valid : ∀ a ∈ aligns, IsAlignment a) : IsAlignment (maxAlign aligns) :=
  (foldl_max_spec valid (Or.inl rfl)).1

theorem dvd_maxAlign (valid : ∀ a ∈ aligns, IsAlignment a)
    (member : alignment ∈ aligns) : alignment ∣ maxAlign aligns :=
  (valid alignment member).dvd_of_le (maxAlign_isAlignment valid)
    ((foldl_max_spec valid (Or.inl rfl)).2.2 alignment member)

end MaxAlign

section StructSize

variable {members : List MemberSpec}

section

variable (valid : ∀ m ∈ members, ValidSpec m)

include valid

theorem le_membersSize (sized : membersSize start members = some size) : start ≤ size := by
  induction members generalizing start with
  | nil => simp only [membersSize, Option.some.injEq] at sized; omega
  | cons member members ih =>
    obtain ⟨alignment, fixed⟩ := member
    have here := valid _ (.head _)
    cases fixed with
    | none => simp [membersSize] at sized
    | some fixed =>
      have rest := ih (fun m member => valid m (.tail _ member)) sized
      have padded : start ≤ alignUp start alignment := le_alignUp here.alignment.pos start
      omega

theorem structFixedSize_spec (sized : structFixedSize members (maxAlign (members.map Prod.fst)) = some size) :
    0 < size ∧ maxAlign (members.map Prod.fst) ∣ size := by
  have aligns : ∀ a ∈ members.map Prod.fst, IsAlignment a := by
    intro a member
    obtain ⟨m, inside, rfl⟩ := List.mem_map.mp member
    exact (valid m inside).alignment
  unfold structFixedSize at sized
  cases members with
  | nil =>
    simp only [List.isEmpty_nil, if_true, Option.some.injEq] at sized
    subst sized
    exact ⟨Nat.one_pos, by decide⟩
  | cons member members =>
    simp only [List.isEmpty_cons, Bool.false_eq_true, if_false, Option.map_eq_some_iff] at sized
    obtain ⟨total, sum, rfl⟩ := sized
    refine ⟨?_, dvd_alignUp _ _⟩
    obtain ⟨alignment, fixed⟩ := member
    cases fixed with
    | none => simp [membersSize] at sum
    | some fixed =>
      have first := (valid _ (.head _)).positive fixed rfl
      have rest := le_membersSize (fun m inside => valid m (.tail _ inside)) sum
      have padded := le_alignUp (maxAlign_isAlignment aligns).pos total
      omega

theorem validSpec_struct :
    ValidSpec (maxAlign (members.map Prod.fst),
      structFixedSize members (maxAlign (members.map Prod.fst))) where
  alignment := maxAlign_isAlignment (by
    intro a member
    obtain ⟨m, inside, rfl⟩ := List.mem_map.mp member
    exact (valid m inside).alignment)
  positive := fun _ sized => (structFixedSize_spec valid sized).1
  multiple := fun _ sized => (structFixedSize_spec valid sized).2

end

/-- Parts of the fixed sizes end where the sizes say. -/
theorem areaEnd_of_membersSize (sized : membersSize start members = some size)
    (fits : List.Forall₂ (fun member part => ∀ n, member.2 = some n → part.length = n) members parts) :
    areaEnd start ((members.map Prod.fst).zip parts) = size := by
  induction fits generalizing start with
  | nil =>
    simp only [membersSize, Option.some.injEq] at sized
    exact sized
  | @cons member part members parts here _ ih =>
    obtain ⟨alignment, fixed⟩ := member
    cases fixed with
    | none => simp [membersSize] at sized
    | some fixed =>
      simp only [List.map_cons, List.zip_cons_cons, areaEnd, here fixed rfl]
      exact ih sized

theorem membersSize_isSome (start : Nat) :
    (membersSize start members).isSome ↔ ∀ m ∈ members, m.2.isSome := by
  induction members generalizing start with
  | nil => simp [membersSize]
  | cons member members ih =>
    obtain ⟨alignment, fixed⟩ := member
    cases fixed with
    | none => simp [membersSize]
    | some fixed => simp [membersSize, ih]

end StructSize

/-! ### The layout of a structure -/

namespace Layout

/-- The description that a layout packs. -/
def spec (layout : Layout) : MemberSpec := (layout.alignment, layout.fixed)

theorem spec_new {alignment : Nat} (valid : ValidSpec (alignment, size)) :
    (new size alignment).spec = (alignment, size) := by
  have small : alignment < 16 := by
    rcases valid.alignment with same | same | same | same <;> simp only at same <;> omega
  have nonzero : size ≠ some 0 := fun zero => absurd (valid.positive 0 zero) (lt_irrefl 0)
  rw [spec, alignment_new size small, fixed_new small nonzero]

theorem foldl_structStep_none (members : List Layout) (alignment : Nat) :
    (members.foldl structStep (alignment, none)).2 = none := by
  induction members generalizing alignment with
  | nil => rfl
  | cons member members ih => exact ih _

theorem foldl_structStep_fst (members : List Layout) (state : Nat × Option Nat) :
    (members.foldl structStep state).1
      = (members.map alignment).foldl
          (fun greatest a => if a > greatest then a else greatest) state.1 := by
  induction members generalizing state with
  | nil => rfl
  | cons member members ih =>
    rw [List.foldl_cons, List.map_cons, List.foldl_cons, ih]
    congr 1
    simp only [structStep]
    split <;> omega

theorem foldl_structStep_snd (members : List Layout) (alignment size : Nat) :
    (members.foldl structStep (alignment, some size)).2 = membersSize size (members.map spec) := by
  induction members generalizing alignment size with
  | nil => rfl
  | cons member members ih =>
    rw [List.foldl_cons, List.map_cons, structStep, spec]
    cases member.fixed with
    | none => exact foldl_structStep_none members _
    | some fixed => exact ih _ _

/-- **The packed layout of a structure is the typed codec's description of it.** -/
theorem spec_ofStruct {members : List Layout} (valid : ∀ m ∈ members, ValidSpec m.spec) :
    (ofStruct members).spec = (maxAlign ((members.map spec).map Prod.fst),
      structFixedSize (members.map spec) (maxAlign ((members.map spec).map Prod.fst))) := by
  have whole := @validSpec_struct (members.map spec) (by
    intro m inside
    obtain ⟨layout, member, rfl⟩ := List.mem_map.mp inside
    exact valid layout member)
  have aligns : (members.map spec).map Prod.fst = members.map alignment := by
    rw [List.map_map]
    rfl
  have greatest : (members.foldl structStep (1, some 0)).1
      = maxAlign ((members.map spec).map Prod.fst) := by
    rw [foldl_structStep_fst, aligns, maxAlign]
  have sized : (if members.isEmpty then some 1
      else (members.foldl structStep (1, some 0)).2.map
        (alignUp · (members.foldl structStep (1, some 0)).1))
      = structFixedSize (members.map spec) (maxAlign ((members.map spec).map Prod.fst)) := by
    rw [structFixedSize, List.isEmpty_map, foldl_structStep_snd, greatest]
  rw [ofStruct, sized, greatest]
  exact spec_new whole

end Layout

end Ostrya.Gvariant
