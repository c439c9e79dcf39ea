/-
**A table with an index beside it.**

Entries are appended once and named by their position. The index answers lookups; the structure carries the
proof that what it answers is a position of the entry. `Positions` is the index that answers for every
entry of its list, so that a lookup is a search.
-/

import Mathlib.Data.List.Nodup
import Ostrya.ByteFormat.Table

namespace ByteFormat

/-- A table of entries in order, and the positions of those that were added. -/
structure Interner (α : Type) where
  entries : List α
  slots : List (α × Nat)
  sound : ∀ slot ∈ slots, entries[slot.2]? = some slot.1

namespace Interner

variable {α : Type} [DecidableEq α]

def empty : Interner α := ⟨[], [], by simp⟩

/-- The table with a new entry at its end. -/
def add (table : Interner α) (entry : α) : Interner α where
  entries := table.entries ++ [entry]
  slots := (entry, table.entries.length) :: table.slots
  sound := by
    intro slot member
    rcases List.mem_cons.mp member with rfl | earlier
    · simp
    · have found := table.sound slot earlier
      rw [List.getElem?_append_left (List.getElem?_eq_some_iff.mp found).1]
      exact found

/-- The position of an entry, which is added if it is new. -/
def intern (table : Interner α) (entry : α) : Nat × Interner α :=
  match table.slots.lookup entry with
  | some position => (position, table)
  | none => (table.entries.length, table.add entry)

/-- **The position that `intern` answers holds the entry.** -/
theorem intern_getElem? (table : Interner α) (entry : α) :
    (table.intern entry).2.entries[(table.intern entry).1]? = some entry := by
  unfold intern
  split
  · next position found => exact table.sound _ (mem_of_lookup found)
  · simp [add]

theorem entries_prefix_intern (table : Interner α) (entry : α) :
    table.entries <+: (table.intern entry).2.entries := by
  unfold intern
  split
  · exact List.prefix_rfl
  · exact List.prefix_append _ _

end Interner

/-! ### Exact indexes -/

/-- The index answers with the position of each name of the list, and for no other name. -/
def Positions {α : Type} (index : α → Option Nat) (names : List α) : Prop :=
  ∀ name i, index name = some i ↔ names[i]? = some name

namespace Positions

variable {α : Type} {index : α → Option Nat} {names : List α}

theorem eq_none (exact : Positions index names) : index name = none ↔ name ∉ names := by
  rw [List.mem_iff_getElem?, Option.eq_none_iff_forall_ne_some]
  simp [exact name]

/-- A name has one position. -/
theorem nodup (exact : Positions index names) : names.Nodup := by
  rw [List.nodup_iff_getElem?_ne_getElem?]
  intro i j before inside same
  obtain ⟨name, here⟩ : ∃ name, names[j]? = some name := ⟨_, List.getElem?_eq_getElem inside⟩
  have first := (exact name i).mpr (same.trans here)
  have second := (exact name j).mpr here
  rw [first, Option.some.injEq] at second
  omega

variable [DecidableEq α]

theorem push (exact : Positions index names) (new : index name = none) :
    Positions (fun other => if other = name then some names.length else index other)
      (names ++ [name]) := by
  have absent := exact.eq_none.mp new
  intro other i
  rw [List.getElem?_append]
  dsimp only
  by_cases same : other = name
  · subst same
    rw [if_pos rfl, Option.some.injEq]
    split
    · next old =>
      have elsewhere : names[i]? ≠ some other := fun found => absent (List.mem_of_getElem? found)
      simp only [elsewhere, iff_false]
      omega
    · rw [List.getElem?_singleton, Option.ite_none_right_eq_some, and_iff_left rfl]
      omega
  · rw [if_neg same, exact]
    split
    · rfl
    · next past =>
      rw [List.getElem?_eq_none (by omega), List.getElem?_singleton]
      simp [Ne.symm same]

/-- A name taken out: the names after it move up by one. -/
theorem eraseIdx (exact : Positions index names) (found : index name = some spot) :
    Positions (fun other => if other = name then none
      else (index other).map fun i => if i > spot then i - 1 else i) (names.eraseIdx spot) := by
  have here := (exact name spot).mp found
  have once : ∀ i, names[i]? = some name → i = spot := by
    intro i again
    have := (exact name i).mpr again
    rw [found, Option.some.injEq] at this
    exact this.symm
  intro other i
  rw [List.getElem?_eraseIdx]
  dsimp only
  by_cases same : other = name
  · subst same
    rw [if_pos rfl]
    constructor
    · intro none_eq
      cases none_eq
    · intro again
      split at again
      · exact absurd (once i again) (by omega)
      · exact absurd (once (i + 1) again) (by omega)
  · have moved : ∀ j, index other = some j → j ≠ spot := by
      rintro j at_ rfl
      rw [exact, here, Option.some.injEq] at at_
      exact same at_.symm
    rw [if_neg same, Option.map_eq_some_iff]
    constructor
    · rintro ⟨j, at_, rfl⟩
      have := moved j at_
      have place := (exact other j).mp at_
      by_cases after : j > spot
      · rw [if_pos after, if_neg (by omega), show j - 1 + 1 = j by omega]
        exact place
      · rw [if_neg after, if_pos (by omega)]
        exact place
    · intro place
      split at place
      · exact ⟨i, (exact other i).mpr place, if_neg (by omega)⟩
      · exact ⟨i + 1, (exact other (i + 1)).mpr place, by rw [if_pos (by omega)]; rfl⟩

end Positions

end ByteFormat
