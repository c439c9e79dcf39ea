/-
**Maps kept as a list in key order.**

Entries in strictly ascending key order, as an ordered map iterates over them. The keys are compared
through an injective `rank` (strings through their bytes). `get_insert` and `get_remove` say what the
two changes do to every lookup; `ext_get` says that the lookups determine the list.
-/

import Mathlib.Data.List.Forall2
import Mathlib.Data.List.Sort
import Mathlib.Order.Basic

set_option linter.unusedSectionVars false

namespace ByteFormat.SortedMap

variable {κ β α γ : Type} [DecidableEq κ] [LinearOrder β] (rank : κ → β)

/-- The value of a key. -/
def get (key : κ) : List (κ × α) → Option α
  | [] => none
  | entry :: entries => if entry.1 = key then some entry.2 else get key entries

/-- Sets the value of a key. -/
def insert (key : κ) (value : α) : List (κ × α) → List (κ × α)
  | [] => [(key, value)]
  | entry :: entries =>
    if rank key < rank entry.1 then (key, value) :: entry :: entries
    else if rank entry.1 < rank key then entry :: insert key value entries
    else (entry.1, value) :: entries

/-- Takes a key out. -/
def remove (key : κ) : List (κ × α) → List (κ × α)
  | [] => []
  | entry :: entries => if entry.1 = key then entries else entry :: remove key entries

/-- The keys ascend strictly. -/
def Sorted (entries : List (κ × α)) : Prop := (entries.map fun entry => rank entry.1).Pairwise (· < ·)

/-- The map of entries inserted one by one. -/
def collect (entries : List (κ × α)) : List (κ × α) :=
  entries.foldl (fun map entry => insert rank entry.1 entry.2 map) []

variable {rank} {key other : κ} {value : α} {entry : κ × α} {entries : List (κ × α)}

@[simp] theorem sorted_nil : Sorted rank ([] : List (κ × α)) := List.Pairwise.nil

theorem sorted_cons : Sorted rank (entry :: entries) ↔
    (∀ later ∈ entries, rank entry.1 < rank later.1) ∧ Sorted rank entries := by
  unfold Sorted
  rw [List.map_cons, List.pairwise_cons, List.forall_mem_map]

theorem mem_of_get (found : get key entries = some value) : (key, value) ∈ entries := by
  induction entries with
  | nil => cases found
  | cons entry entries ih =>
    grind [get, List.mem_cons_self, List.mem_cons_of_mem]

theorem get_eq_none : get key entries = none ↔ key ∉ entries.map Prod.fst := by
  induction entries with
  | nil => simp [get]
  | cons entry entries ih =>
    unfold get
    split
    · next here => simp [here]
    · next other => simp [ih, Ne.symm other]

theorem get_eq_some_iff (sorted : Sorted rank entries) :
    get key entries = some value ↔ (key, value) ∈ entries := by
  refine ⟨mem_of_get, fun member => ?_⟩
  induction entries with
  | nil => cases member
  | cons entry entries ih =>
    obtain ⟨above, sorted⟩ := sorted_cons.mp sorted
    unfold get
    obtain rfl | later := List.mem_cons.mp member
    · rw [if_pos rfl]
    · grind

theorem ext_get (sorted : Sorted rank entries) (sorted' : Sorted rank entries')
    (same : ∀ key, get key entries = get key entries') : entries = entries' := by
  have pairwise : ∀ {list : List (κ × α)}, Sorted rank list →
      list.Pairwise fun a b => rank a.1 < rank b.1 := fun sorted => List.pairwise_map.mp sorted
  have members : ∀ entry, entry ∈ entries ↔ entry ∈ entries' := by
    intro entry
    rw [← get_eq_some_iff sorted, ← get_eq_some_iff sorted', same]
  have perm : entries.Perm entries' := by
    rw [List.perm_ext_iff_of_nodup]
    · exact members
    · exact (pairwise sorted).imp fun less same => by rw [same] at less; exact lt_irrefl _ less
    · exact (pairwise sorted').imp fun less same => by rw [same] at less; exact lt_irrefl _ less
  refine perm.eq_of_pairwise ?_ (pairwise sorted) (pairwise sorted')
  intro a b _ _ less less'
  exact absurd (less.trans less') (lt_irrefl _)

theorem keys_insert :
    ∀ name ∈ (insert rank key value entries).map Prod.fst, name = key ∨ name ∈ entries.map Prod.fst := by
  induction entries with
  | nil => simp [insert]
  | cons entry entries ih =>
    grind [insert, List.mem_cons_of_mem]

theorem get_insert (injective : Function.Injective rank) (sorted : Sorted rank entries) :
    get other (insert rank key value entries) = if other = key then some value else get other entries := by
  induction entries with
  | nil =>
    by_cases same : other = key
    · simp [insert, get, same]
    · simp [insert, get, same, Ne.symm same]
  | cons entry entries ih =>
    obtain ⟨above, sorted⟩ := sorted_cons.mp sorted
    unfold insert
    by_cases less : rank key < rank entry.1
    · rw [if_pos less]
      by_cases same : other = key
      · simp [get, same]
      · simp [get, same, Ne.symm same]
    · by_cases greater : rank entry.1 < rank key
      · grind [get]
      · grind [get]

theorem sorted_insert (sorted : Sorted rank entries) :
    Sorted rank (insert rank key value entries) := by
  induction entries with
  | nil => simp [insert, Sorted]
  | cons entry entries ih =>
    obtain ⟨above, rest⟩ := sorted_cons.mp sorted
    unfold insert
    split
    · next less =>
      refine sorted_cons.mpr ⟨fun later member => ?_, sorted⟩
      obtain rfl | member := List.mem_cons.mp member
      · exact less
      · exact less.trans (above later member)
    split
    · next greater =>
      refine sorted_cons.mpr ⟨fun later member => ?_, ih rest⟩
      obtain same | old := keys_insert later.1 (List.mem_map_of_mem member)
      · rw [same]
        exact greater
      · obtain ⟨entry', member', same⟩ := List.mem_map.mp old
        rw [← same]
        exact above entry' member'
    · exact sorted_cons.mpr ⟨above, rest⟩

theorem insert_after (above : ∀ earlier ∈ entries, rank earlier.1 < rank key) :
    insert rank key value entries = entries ++ [(key, value)] := by
  induction entries with
  | nil => rfl
  | cons entry entries ih =>
    grind [List.mem_cons_self, insert, List.mem_cons_of_mem]

theorem collect_of_sorted (sorted : Sorted rank entries) : collect rank entries = entries := by
  suffices general : ∀ (rest front : List (κ × α)), Sorted rank (front ++ rest) →
      rest.foldl (fun map entry => insert rank entry.1 entry.2 map) front = front ++ rest from
    general entries [] sorted
  intro rest
  induction rest with
  | nil => intro front _; simp
  | cons entry rest ih =>
    grind [Sorted, List.mem_map_of_mem, insert_after]

theorem mem_remove (member : entry ∈ remove key entries) : entry ∈ entries := by
  induction entries with
  | nil => exact member
  | cons head entries ih =>
    grind [remove, List.mem_cons_of_mem, List.mem_cons_self]

theorem sorted_remove (sorted : Sorted rank entries) : Sorted rank (remove key entries) := by
  induction entries with
  | nil => exact sorted
  | cons entry entries ih =>
    obtain ⟨above, rest⟩ := sorted_cons.mp sorted
    unfold remove
    split
    · exact rest
    · exact sorted_cons.mpr ⟨fun later member => above later (mem_remove member), ih rest⟩

theorem get_remove (sorted : Sorted rank entries) :
    get other (remove key entries) = if other = key then none else get other entries := by
  induction entries with
  | nil => simp [remove, get]
  | cons entry entries ih =>
    obtain ⟨above, rest⟩ := sorted_cons.mp sorted
    unfold remove
    by_cases here : entry.1 = key
    · grind [get, get_eq_none]
    · rw [if_neg here, get, ih rest, get]
      by_cases same : other = key
      · simp [same, here]
      · simp [same]

theorem get_map (f : κ × α → γ) :
    get key (entries.map fun entry => (entry.1, f entry)) = (get key entries).map fun value => f (key, value) := by
  induction entries with
  | nil => rfl
  | cons entry entries ih =>
    simp only [List.map_cons, get, ih]
    split
    · next here =>
      subst here
      rfl
    · rfl

theorem sorted_map (f : κ × α → γ) :
    Sorted rank (entries.map fun entry => (entry.1, f entry)) ↔ Sorted rank entries := by
  simp [Sorted, Function.comp_def]

theorem insert_of_get (injective : Function.Injective rank) (sorted : Sorted rank entries)
    (found : get key entries = some old) :
    insert rank key value entries =
      entries.map fun entry => (entry.1, if entry.1 = key then value else entry.2) := by
  refine ext_get (sorted_insert sorted) ((sorted_map _).mpr sorted) fun other => ?_
  rw [get_insert injective sorted, get_map]
  by_cases same : other = key
  · subst same
    simp [found]
  · simp [same]

theorem mem_insert (injective : Function.Injective rank)
    (member : entry ∈ insert rank key value entries) : entry = (key, value) ∨ entry ∈ entries := by
  induction entries with
  | nil => exact .inl (by simpa [insert] using member)
  | cons head entries ih =>
    grind [insert, List.mem_cons_self, List.mem_cons_of_mem]

/-- Entries with the same keys in step have related values under each key. -/
theorem get_of_forall₂ {R : κ × α → κ × γ → Prop} {first : List (κ × α)} {second : List (κ × γ)}
    (related : List.Forall₂ R first second) (keys : ∀ a b, R a b → a.1 = b.1) (key : κ) :
    (get key first = none ∧ get key second = none) ∨
      ∃ a b, get key first = some a ∧ get key second = some b ∧ R (key, a) (key, b) := by
  induction related with
  | nil => exact .inl ⟨rfl, rfl⟩
  | @cons a b first second here rest ih =>
    unfold get
    have same := keys a b here
    by_cases found : a.1 = key
    · rw [if_pos found, if_pos (same ▸ found)]
      obtain ⟨name, a⟩ := a
      obtain ⟨_, b⟩ := b
      cases same
      cases found
      exact .inr ⟨a, b, rfl, rfl, here⟩
    · rw [if_neg found, if_neg (same ▸ found)]
      exact ih

end ByteFormat.SortedMap
