/-
**Tables**: lists of keyed entries that are searched by key, the first entry of a key deciding.
-/

import Mathlib.Data.List.Forall2

namespace ByteFormat

variable {α β γ : Type} [BEq α] [LawfulBEq α] {key : α}

theorem mem_of_lookup {entries : List (α × β)} (found : entries.lookup key = some value) :
    (key, value) ∈ entries := by
  induction entries with
  | nil => cases found
  | cons entry entries ih =>
    rw [List.lookup_cons] at found
    split at found
    · next same =>
      cases found
      rw [eq_of_beq same]
      exact .head _
    · exact .tail _ (ih found)

theorem lookup_of_mem {entries : List (α × β)} (member : (key, value) ∈ entries) :
    ∃ found, entries.lookup key = some found := by
  induction entries with
  | nil => cases member
  | cons entry entries ih =>
    rw [List.lookup_cons]
    cases same : key == entry.1 with
    | true => exact ⟨entry.2, rfl⟩
    | false =>
      rcases List.mem_cons.mp member with rfl | rest
      · simp at same
      · exact ih rest

theorem lookup_map (entries : List (α × β)) (g : α × β → γ) (key : α) :
    (entries.map fun entry => (entry.1, g entry)).lookup key = (entries.lookup key).map fun value =>
      g (key, value) := by
  induction entries with
  | nil => rfl
  | cons entry entries ih =>
    obtain ⟨name, value⟩ := entry
    simp only [List.map_cons, List.lookup_cons]
    cases same : key == name with
    | true =>
      obtain rfl := eq_of_beq same
      rfl
    | false => exact ih

theorem lookup_zip_of_mem (each : List.Forall₂ R keys values)
    (member : key ∈ keys) : ∃ value, (keys.zip values).lookup key = some value ∧ R key value := by
  induction each with
  | nil => cases member
  | @cons first value _ _ head _ ih =>
    rw [List.zip_cons_cons, List.lookup_cons]
    cases same : key == first with
    | true => exact ⟨value, rfl, eq_of_beq same ▸ head⟩
    | false =>
      rcases List.mem_cons.mp member with rfl | rest
      · simp at same
      · exact ih rest

theorem mem_of_lookup_zip {R : α → β → Prop} {values : List β} (each : List.Forall₂ R keys values)
    (found : (keys.zip values).lookup key = some value) : key ∈ keys ∧ R key value :=
  ⟨(List.of_mem_zip (mem_of_lookup found)).1, (List.forall₂_iff_zip.mp each).2 (mem_of_lookup found)⟩

end ByteFormat
