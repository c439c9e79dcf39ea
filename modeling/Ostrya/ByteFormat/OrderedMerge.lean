/-
**The merge of an ordered dict into another.**

A dict is a list of entries in which the first entry under a key counts. `mergeInto stored incoming` takes the incoming
entries one by one: under a key that the stored dict holds, `both` makes the value of its first entry out of the old and
the incoming one; every other entry goes to the end, with the value that `new` makes. Either may refuse.

* `mergeInto_eq_ok`: the merge succeeds exactly if no value is refused, and then it is `mergeResult`;
* `mergeInto_idem`: it changes nothing the second time, if `both` changes no value that was merged before.
-/

import Mathlib.Algebra.GroupWithZero.Nat
import Mathlib.Algebra.Order.BigOperators.Group.List
import Ostrya.ByteFormat.Results

namespace ByteFormat

variable {κ α ε : Type} [DecidableEq κ]

section Merge

variable (both : κ → α → α → Except ε α) (new : κ → α → Except ε α)

/-- The merge of one entry. The positions are those of the stored dict, which the merge keeps. -/
def mergeEntry (stored merged : List (κ × α)) (entry : κ × α) : Except ε (List (κ × α)) :=
  match stored.findIdx? fun held => held.1 = entry.1 with
  | some position =>
    match merged[position]? with
    | some (key, old) => (both key old entry.2).map fun value => merged.set position (key, value)
    | none => .ok merged
  | none => (new entry.1 entry.2).map fun value => merged ++ [(entry.1, value)]

/-- The merge of the entries from the first on. -/
def mergeFrom (stored : List (κ × α)) : List (κ × α) → List (κ × α) → Except ε (List (κ × α))
  | merged, [] => .ok merged
  | merged, entry :: entries => do mergeFrom stored (← mergeEntry both new stored merged entry) entries

/-- The merge. -/
def mergeInto (stored incoming : List (κ × α)) : Except ε (List (κ × α)) := mergeFrom both new stored stored incoming

end Merge

/-- The dict with the first entry under each key changed. -/
def changeFirst (change : κ → α → α) : (seen : List κ) → List (κ × α) → List (κ × α)
  | _, [] => []
  | seen, (key, value) :: entries =>
    (key, if key ∈ seen then value else change key value) :: changeFirst change (key :: seen) entries

/-- The value of a step that succeeds. -/
def valueOr (result : Except ε α) (old : α) : α :=
  match result with
  | .ok value => value
  | .error _ => old

section Result

variable (both : κ → α → α → Except ε α) (new : κ → α → Except ε α)

/-- What the incoming dict makes of the first value under a key. -/
def changed (incoming : List (κ × α)) (key : κ) (old : α) : α :=
  match incoming.lookup key with
  | some value => valueOr (both key old value) old
  | none => old

/-- The incoming entries whose keys the stored dict does not hold. -/
def added (stored incoming : List (κ × α)) : List (κ × α) :=
  (incoming.filter fun entry => entry.1 ∉ stored.map Prod.fst).map fun entry =>
    (entry.1, valueOr (new entry.1 entry.2) entry.2)

/-- The merged dict: the stored entries, the first of each key changed, then the new ones. -/
def mergeResult (stored incoming : List (κ × α)) : List (κ × α) :=
  changeFirst (changed both incoming) [] stored ++ added new stored incoming

/-- The merge refuses no value of this entry. -/
def Accepts (stored : List (κ × α)) (entry : κ × α) : Prop :=
  match stored.lookup entry.1 with
  | some old => ∃ value, both entry.1 old entry.2 = .ok value
  | none => ∃ value, new entry.1 entry.2 = .ok value

end Result

/-! ### The first entry under a key -/

section First

variable {change other : κ → α → α} {seen : List κ} {stored : List (κ × α)} {key : κ}

@[simp] theorem keys_changeFirst (change : κ → α → α) (seen : List κ) (stored : List (κ × α)) :
    (changeFirst change seen stored).map Prod.fst = stored.map Prod.fst := by
  induction stored generalizing seen with
  | nil => rfl
  | cons entry stored ih => simp [changeFirst, ih]

/-- Only the values under keys not seen before matter. -/
theorem changeFirst_congr (same : ∀ key value, key ∉ seen → (key, value) ∈ stored →
    change key value = other key value) :
    changeFirst change seen stored = changeFirst other seen stored := by
  induction stored generalizing seen with
  | nil => rfl
  | cons entry stored ih =>
    grind [changeFirst, List.mem_cons_of_mem, List.mem_cons_self]

theorem lookup_changeFirst (unseen : key ∉ seen) :
    (changeFirst change seen stored).lookup key = (stored.lookup key).map (change key) := by
  induction stored generalizing seen with
  | nil => rfl
  | cons entry stored ih =>
    grind [changeFirst]

theorem changeFirst_eq_self (same : ∀ key value, key ∉ seen → stored.lookup key = some value →
    change key value = value) :
    changeFirst change seen stored = stored := by
  induction stored generalizing seen with
  | nil => rfl
  | cons entry stored ih =>
    grind [changeFirst]

/-- An entry stays if it is not the first of its key, or if the change does nothing to it. -/
theorem getElem?_changeFirst (here : stored[position]? = some entry)
    (same : entry.1 ∈ seen ∨ (stored.findIdx? fun held => held.1 = entry.1) ≠ some position ∨
      change entry.1 entry.2 = entry.2) : (changeFirst change seen stored)[position]? = some entry := by
  induction stored generalizing seen position with
  | nil => cases here
  | cons first stored ih =>
    grind [changeFirst, List.getElem?_cons_zero, Option.some.injEq, Prod.mk.injEq, List.mem_cons_self]

theorem findIdx?_isSome : (stored.findIdx? fun held => held.1 = key).isSome ↔ key ∈ stored.map Prod.fst := by
  rw [List.findIdx?_isSome, List.any_eq_true]
  simp [eq_comm]

/-- The entry at the position of a key is the first one, and a change there is a change of the first
entry. -/
theorem changeFirst_at {position : Nat} (found : (stored.findIdx? fun held => held.1 = key) = some position)
    (unseen : key ∉ seen) (same : ∀ name ≠ key, change name = other name) :
    ∃ old, stored.lookup key = some old ∧ (changeFirst change seen stored)[position]? = some (key, change key old) ∧
      (changeFirst change seen stored).set position (key, other key old) = changeFirst other seen stored := by
  induction stored generalizing seen position with
  | nil => cases found
  | cons entry stored ih =>
    obtain ⟨name, value⟩ := entry
    rw [List.findIdx?_cons] at found
    by_cases here : name = key
    · grind [changeFirst, changeFirst_congr, List.mem_cons_self]
    · obtain ⟨before, rest, rfl⟩ : ∃ before, (stored.findIdx? fun held => held.1 = key) = some before ∧
          before + 1 = position := by simpa [here] using found
      obtain ⟨old, looked, at_position, set_there⟩ := @ih (name :: seen) before rest (by simp [Ne.symm here, unseen])
      refine ⟨old, ?_, by simpa [changeFirst] using at_position, ?_⟩
      · rw [List.lookup_cons, beq_false_of_ne (Ne.symm here)]
        exact looked
      · simp [changeFirst, set_there, same name here]

end First

/-! ### The merge and its result -/

section Merge

variable {both : κ → α → α → Except ε α} {new : κ → α → Except ε α}
  {stored incoming merged entries : List (κ × α)} {key : κ}

theorem lookup_append_ne (different : name ≠ key) :
    (entries ++ [(key, value)]).lookup name = entries.lookup name := by
  rw [List.lookup_append]
  simp [List.lookup_cons, beq_false_of_ne different]

theorem lookup_eq_none_of_keys (absent : key ∉ entries.map Prod.fst) :
    entries.lookup key = none := by
  rw [List.lookup_eq_none_iff]
  intro entry inside
  exact bne_iff_ne.mpr fun same => absent (List.mem_map.mpr ⟨entry, inside, same.symm⟩)

theorem not_mem_keys (absent : entries.lookup key = none) :
    key ∉ entries.map Prod.fst := fun member => by
  obtain ⟨entry, inside, rfl⟩ := List.mem_map.mp member
  simpa using List.lookup_eq_none_iff.mp absent entry inside

/-- **One entry after the others.** -/
theorem mergeEntry_eq_ok (fresh : entry.1 ∉ incoming.map Prod.fst) :
    mergeEntry both new stored (mergeResult both new stored incoming) entry = .ok merged ↔
      Accepts both new stored entry ∧ mergeResult both new stored (incoming ++ [entry]) = merged := by
  obtain ⟨key, value⟩ := entry
  have untouched := lookup_eq_none_of_keys fresh
  have others : ∀ name ≠ key, changed both incoming name = changed both (incoming ++ [(key, value)]) name := by
    intro name different
    funext old
    rw [changed, changed, lookup_append_ne different]
  have here : (incoming ++ [(key, value)]).lookup key = some value := by
    rw [List.lookup_append, untouched]
    simp
  unfold mergeEntry
  cases found : stored.findIdx? fun held => held.1 = key with
  | some position =>
    have held : key ∈ stored.map Prod.fst := findIdx?_isSome.mp (by rw [found]; rfl)
    obtain ⟨old, looked, at_position, set_there⟩ := changeFirst_at found List.not_mem_nil others
    have same : added new stored (incoming ++ [(key, value)]) = added new stored incoming := by
      simp [added, List.filter_append, held]
    have inside : position < (changeFirst (changed both incoming) [] stored).length :=
      (List.getElem?_eq_some_iff.mp at_position).1
    have kept : changed both incoming key old = old := by rw [changed, untouched]
    simp only [mergeResult, same, List.getElem?_append_left inside, at_position, kept, Accepts,
      looked, map_eq_ok, List.set_append_left position _ inside]
    have now : ∀ result, both key old value = .ok result → changed both (incoming ++ [(key, value)]) key old = result :=
      fun result step => by simp only [changed, here, step, valueOr]
    constructor
    · rintro ⟨result, step, rfl⟩
      exact ⟨⟨result, step⟩, by rw [← set_there, now result step]⟩
    · rintro ⟨⟨result, step⟩, rfl⟩
      exact ⟨result, step, by rw [← set_there, now result step]⟩
  | none =>
    have absent : key ∉ stored.map Prod.fst := fun held => by
      have := findIdx?_isSome.mpr held
      rw [found] at this
      cases this
    have same : changeFirst (changed both (incoming ++ [(key, value)])) [] stored =
        changeFirst (changed both incoming) [] stored := by
      refine changeFirst_congr fun name _ _ inside => ?_
      rw [others name fun equal => absent (equal ▸ List.mem_map_of_mem inside)]
    simp only [mergeResult, same, Accepts, lookup_eq_none_of_keys absent, map_eq_ok, added,
      List.filter_append, List.map_append]
    constructor
    · rintro ⟨result, step, rfl⟩
      exact ⟨⟨result, step⟩, by simp [absent, step, valueOr]⟩
    · rintro ⟨⟨result, step⟩, rfl⟩
      exact ⟨result, step, by simp [absent, step, valueOr]⟩

theorem mergeFrom_eq_ok {done : List (κ × α)} (distinct : ((done ++ incoming).map Prod.fst).Nodup) :
    mergeFrom both new stored (mergeResult both new stored done) incoming = .ok merged ↔
      (∀ entry ∈ incoming, Accepts both new stored entry) ∧
        mergeResult both new stored (done ++ incoming) = merged := by
  induction incoming generalizing done with
  | nil => simp [mergeFrom]
  | cons entry incoming ih =>
    have fresh : entry.1 ∉ done.map Prod.fst := by
      intro held
      rw [List.map_append, List.map_cons, List.nodup_append] at distinct
      exact distinct.2.2 entry.1 held entry.1 (.head _) rfl
    simp only [mergeFrom, bind_eq_ok, mergeEntry_eq_ok fresh, List.forall_mem_cons]
    constructor
    · grind
    · rintro ⟨⟨accepted, others⟩, same⟩
      exact ⟨_, ⟨accepted, rfl⟩, (ih (by simpa using distinct)).mpr ⟨others, by simpa using same⟩⟩

@[simp] theorem mergeResult_nil (stored : List (κ × α)) : mergeResult both new stored [] = stored := by
  simp [mergeResult, added]
  exact changeFirst_eq_self fun _ _ _ _ => rfl

/-- **The merge of a dict with distinct keys.** -/
theorem mergeInto_eq_ok (distinct : (incoming.map Prod.fst).Nodup) :
    mergeInto both new stored incoming = .ok merged ↔
      (∀ entry ∈ incoming, Accepts both new stored entry) ∧ mergeResult both new stored incoming = merged := by
  have run := @mergeFrom_eq_ok _ _ _ _ both new stored incoming merged [] distinct
  rwa [mergeResult_nil] at run

/-- The stored keys in their order, then the new ones in theirs. -/
theorem keys_mergeResult (stored incoming : List (κ × α)) :
    (mergeResult both new stored incoming).map Prod.fst =
      stored.map Prod.fst ++ (incoming.map Prod.fst).filter (· ∉ stored.map Prod.fst) := by
  simp [mergeResult, added, List.filter_map, Function.comp_def]

theorem lookup_of_nodup (distinct : (incoming.map Prod.fst).Nodup)
    (inside : (key, value) ∈ incoming) : incoming.lookup key = some value := by
  obtain ⟨before, after, rfl⟩ := List.append_of_mem inside
  refine List.lookup_eq_some_iff.mpr ⟨before, after, rfl, fun entry earlier => bne_iff_ne.mpr fun same => ?_⟩
  rw [List.map_append, List.map_cons, List.nodup_append] at distinct
  exact distinct.2.2 entry.1 (List.mem_map_of_mem earlier) key (.head _) same.symm

theorem lookup_added (absent : key ∉ stored.map Prod.fst) (incoming : List (κ × α)) :
    (added new stored incoming).lookup key = (incoming.lookup key).map fun value => valueOr (new key value) value := by
  induction incoming with
  | nil => rfl
  | cons entry incoming ih =>
    grind [added, List.filter_cons_of_pos, List.filter_cons_of_neg]

theorem lookup_mergeResult_of_none (absent : incoming.lookup key = none) :
    (mergeResult both new stored incoming).lookup key = stored.lookup key := by
  rw [mergeResult, List.lookup_append, lookup_changeFirst List.not_mem_nil]
  cases held : stored.lookup key with
  | some old => simp [changed, absent]
  | none => simp [lookup_added (not_mem_keys held), absent]

/-- The value under an incoming key is one that `both` or `new` made. -/
theorem lookup_mergeResult (offered : incoming.lookup key = some value)
    (accepted : Accepts both new stored (key, value)) :
    ∃ result, (mergeResult both new stored incoming).lookup key = some result ∧
      ((∃ old, stored.lookup key = some old ∧ both key old value = .ok result) ∨
        stored.lookup key = none ∧ new key value = .ok result) := by
  simp only [mergeResult, List.lookup_append, lookup_changeFirst List.not_mem_nil]
  unfold Accepts at accepted
  cases held : stored.lookup key with
  | some old =>
    simp only [held] at accepted
    obtain ⟨result, step⟩ := accepted
    exact ⟨result, by simp [changed, offered, step, valueOr], .inl ⟨old, rfl, step⟩⟩
  | none =>
    grind [lookup_added, not_mem_keys, valueOr]

/-- **A second merge changes nothing.** -/
theorem mergeInto_idem (absorbs : ∀ key old value result, both key old value = .ok result →
    both key result value = .ok result)
    (absorbs_new : ∀ key value result, new key value = .ok result → both key result value = .ok result)
    (distinct : (incoming.map Prod.fst).Nodup) (run : mergeInto both new stored incoming = .ok merged) :
    mergeInto both new merged incoming = .ok merged := by
  obtain ⟨accepted, rfl⟩ := (mergeInto_eq_ok distinct).mp run
  generalize result : mergeResult both new stored incoming = merged
  have again : ∀ entry ∈ incoming, mergeEntry both new merged merged entry = .ok merged := by
    rintro ⟨key, value⟩ inside
    obtain ⟨merged_value, looked, made⟩ := lookup_mergeResult (lookup_of_nodup distinct inside) (accepted _ inside)
    have absorbed : both key merged_value value = .ok merged_value := by
      obtain ⟨old, _, step⟩ | ⟨_, step⟩ := made
      · exact absorbs _ _ _ _ step
      · exact absorbs_new _ _ _ step
    rw [result] at looked
    have held : key ∈ merged.map Prod.fst := by
      obtain ⟨before, after, whole, -⟩ := List.lookup_eq_some_iff.mp looked
      simp [whole]
    obtain ⟨position, found⟩ := Option.isSome_iff_exists.mp (findIdx?_isSome.mpr held)
    obtain ⟨old, same, at_position, set_there⟩ :=
      @changeFirst_at _ _ _ (fun _ value => value) (fun _ value => value) [] _ _ _ found List.not_mem_nil fun _ _ => rfl
    obtain rfl : merged_value = old := Option.some.inj (looked.symm.trans same)
    rw [changeFirst_eq_self fun _ _ _ _ => rfl] at at_position set_there
    simp [mergeEntry, found, at_position, absorbed, set_there]
  clear accepted run distinct result
  unfold mergeInto
  induction incoming with
  | nil => rfl
  | cons entry incoming ih =>
    rw [mergeFrom, again entry (.head _), ok_bind]
    exact ih fun entry inside => again entry (.tail _ inside)

omit [DecidableEq κ] in
theorem sum_set (here : entries[position]? = some old) (entry : κ × α) (weight : κ × α → Nat) :
    ((entries.set position entry).map weight).sum + weight old = (entries.map weight).sum + weight entry := by
  induction entries generalizing position with
  | nil => cases here
  | cons first entries ih =>
    cases position with
    | zero =>
      obtain rfl : first = old := by simpa using here
      simp [Nat.add_comm, Nat.add_left_comm]
    | succ position =>
      have rest := ih (by simpa using here)
      simp only [List.set_cons_succ, List.map_cons, List.sum_cons]
      omega

/-- **The weight of a merge.** If no step makes a value heavier than those it is made of, the merged
dict is not heavier than both dicts together. -/
theorem weight_mergeFrom (overhead : κ → Nat) {weight : α → Nat}
    (light : ∀ key old value result, both key old value = .ok result → weight result ≤ weight old + weight value)
    (light_new : ∀ key value result, new key value = .ok result → weight result ≤ weight value)
    (run : mergeFrom both new stored state incoming = .ok merged) :
    (merged.map fun entry => overhead entry.1 + weight entry.2).sum ≤
      (state.map fun entry => overhead entry.1 + weight entry.2).sum +
        (incoming.map fun entry => overhead entry.1 + weight entry.2).sum := by
  induction incoming generalizing state with
  | nil =>
    cases run
    exact Nat.le_add_right _ _
  | cons entry incoming ih =>
    obtain ⟨next, step, rest⟩ := bind_eq_ok.mp run
    have later := ih rest
    rw [List.map_cons, List.sum_cons]
    unfold mergeEntry at step
    split at step
    · split at step
      · next key old here =>
        obtain ⟨value, made, rfl⟩ := map_eq_ok.mp step
        have changed := sum_set here (key, value) fun entry => overhead entry.1 + weight entry.2
        have bound := light _ _ _ _ made
        simp only at changed
        omega
      · cases step
        omega
    · obtain ⟨value, made, rfl⟩ := map_eq_ok.mp step
      have bound := light_new _ _ _ made
      simp only [List.map_append, List.sum_append, List.map_cons, List.map_nil, List.sum_cons, List.sum_nil] at later
      omega

end Merge

end ByteFormat
