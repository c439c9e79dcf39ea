/-
**Strictly ascending keys.**

Byte strings in byte order, lists of keys that ascend strictly, and the walk of two cursors that looks
for a key in both of two such lists.
-/

import Mathlib.Data.List.Lex
import Mathlib.Data.List.Sort

namespace ByteFormat

instance linearOrderByte : LinearOrder UInt8 where
  le_refl := fun _ => UInt8.le_refl _
  le_trans := fun _ _ _ => UInt8.le_trans
  le_antisymm := fun _ _ => UInt8.le_antisymm
  le_total := UInt8.le_total
  lt_iff_le_not_ge := fun _ _ => Std.LawfulOrderLT.lt_iff _ _
  toDecidableLE := fun a b => inferInstanceAs (Decidable (a ≤ b))

section Walk

variable {κ : Type} [LinearOrder κ]

/-- One cursor stays on `first`, and the other moves until it passes it. -/
def walkPast (first : κ) (advance : List κ → Bool) : List κ → Bool
  | [] => false
  | second :: seconds =>
    if first < second then advance (second :: seconds)
    else if second < first then walkPast first advance seconds
    else true

/-- Two cursors over ascending lists: the cursor on the smaller key moves, until the keys are equal
or a list ends. -/
def sharesKey : List κ → List κ → Bool
  | [] => fun _ => false
  | first :: firsts => walkPast first (sharesKey firsts)

theorem not_mem_of_lt {key first : κ} (less : key < first) (above : ∀ other ∈ rest, first < other) :
    key ∉ first :: rest := by
  intro member
  rcases List.mem_cons.mp member with rfl | later
  · exact lt_irrefl _ less
  · exact lt_irrefl _ (less.trans (above key later))

/-- **The walk finds a shared key exactly when there is one.** -/
theorem sharesKey_iff {firsts seconds : List κ} (ascending : firsts.Pairwise (· < ·))
    (ascending' : seconds.Pairwise (· < ·)) :
    sharesKey firsts seconds = true ↔ ∃ key ∈ firsts, key ∈ seconds := by
  induction firsts generalizing seconds with
  | nil => simp [sharesKey]
  | cons first firsts ih =>
    obtain ⟨above, ascending⟩ := List.pairwise_cons.mp ascending
    rw [sharesKey]
    -- The outer cursor is fixed, so the inner walk is an induction on the second list.
    induction seconds with
    | nil => simp [walkPast]
    | cons second seconds inner =>
      obtain ⟨above', rest⟩ := List.pairwise_cons.mp ascending'
      rw [walkPast]
      split
      · next less =>
        -- Everything from `second` on is larger than `first`.
        rw [ih ascending ascending']
        refine exists_congr fun key => and_congr_left fun shared => (List.mem_cons.trans (or_iff_right ?_)).symm
        rintro rfl
        exact not_mem_of_lt less above' shared
      split
      · next less =>
        rw [inner rest]
        refine exists_congr fun key => and_congr_right fun member => (List.mem_cons.trans (or_iff_right ?_)).symm
        rintro rfl
        exact not_mem_of_lt less above member
      · next notLess notGreater =>
        obtain rfl := le_antisymm (not_lt.mp notGreater) (not_lt.mp notLess)
        simp

theorem ascending_after {key : κ} :
    (previous.toList ++ key :: keys).Pairwise (· < ·) ↔
      (∀ p, previous = some p → p < key) ∧ (key :: keys).Pairwise (· < ·) := by
  cases previous with
  | none => simp
  | some previous =>
    simp [← List.isChain_iff_pairwise]

end Walk

end ByteFormat
