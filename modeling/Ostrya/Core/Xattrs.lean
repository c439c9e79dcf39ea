/-
**Extended attributes** (`xattr.rs`).

An `Xattrs` is a list of `(name, value)` pairs with strictly ascending names in stored form; no other
value can be built. The wire form is `a(ayay)`, and the reader asks for the same order, so bytes and
sets correspond (`fromGvariant_sound`, `fromGvariant_complete`). `Xattrs::new` sorts, so its result does
not depend on the order of the pairs (`new_of_perm`).
-/

import Ostrya.Core.Basic

namespace Ostrya.Core

open ByteFormat Gvariant

abbrev Pair := Bytes × Bytes

/-- `check_name`. -/
def checkXattrName (name : Bytes) : Except Error Unit :=
  match name.getLast? with
  | none => .error (.invalidXattrs "empty xattr name")
  | some last =>
    if last ≠ 0 then .error (.invalidXattrs "xattr name is missing its terminating NUL")
    else if name.dropLast.isEmpty then .error (.invalidXattrs "xattr name is empty before its NUL")
    else if name.dropLast.contains 0 then .error (.invalidXattrs "xattr name has an interior NUL")
    else .ok ()

/-- Strictly ascending names, each in stored form. -/
structure Canonical (pairs : List Pair) : Prop where
  ascending : (pairs.map Prod.fst).Pairwise (· < ·)
  stored : ∀ pair ∈ pairs, checkXattrName pair.1 = .ok ()

/-- `Xattrs`. -/
@[ext] structure Xattrs where
  pairs : List Pair
  canonical : Canonical pairs
  deriving DecidableEq

namespace Xattrs

/-- `Xattrs::empty`. -/
def empty : Xattrs := ⟨[], .nil, fun _ member => by cases member⟩

/-- The set of some pairs that passed the checks. -/
def build (result : Except Error (List Pair))
    (holds : ∀ pairs, result = .ok pairs → Canonical pairs) : Except Error Xattrs :=
  (withProof result holds).map fun pairs => ⟨pairs.val, pairs.property⟩

variable {xattrs : Xattrs}

theorem build_eq_ok : build result holds = .ok xattrs ↔ result = .ok xattrs.pairs := by
  rw [build, map_eq_ok]
  constructor
  · rintro ⟨pairs, checked, rfl⟩
    exact withProof_eq_ok.mp checked
  · intro passed
    exact ⟨⟨xattrs.pairs, xattrs.canonical⟩, withProof_eq_ok.mpr passed, rfl⟩

/-! ### `Xattrs::new` -/

variable {pairs : List Pair}

/-- Two neighbours with one name, as `windows(2)` finds them. -/
def neighboursShareName : List Pair → Bool
  | first :: second :: rest => first.1 == second.1 || neighboursShareName (second :: rest)
  | _ => false

/-- The pairs in a stable sort by name. -/
def sortByName (pairs : List Pair) : List Pair := pairs.insertionSort fun a b => a.1 ≤ b.1

def newPairs (pairs : List Pair) : Except Error (List Pair) := do
  if neighboursShareName (sortByName pairs) then .error (.invalidXattrs "duplicate xattr name")
  else
    checkEach (fun pair => checkXattrName pair.1) (sortByName pairs)
    .ok (sortByName pairs)

instance : IsTrans Pair fun a b => a.1 ≤ b.1 := ⟨fun _ _ _ => le_trans⟩

instance : Std.Total (α := Pair) fun a b => a.1 ≤ b.1 := ⟨fun a b => le_total a.1 b.1⟩

theorem sorted_sortByName (pairs : List Pair) : (sortByName pairs).Pairwise fun a b => a.1 ≤ b.1 :=
  List.pairwise_insertionSort _ pairs

/-- In sorted order, equal names are neighbours. -/
theorem ascending_iff_not_neighbours (sorted : pairs.Pairwise fun a b => a.1 ≤ b.1) :
    (pairs.map Prod.fst).Pairwise (· < ·) ↔ neighboursShareName pairs = false := by
  induction pairs with
  | nil => simp [neighboursShareName]
  | cons first rest ih =>
    obtain ⟨below, sorted⟩ := List.pairwise_cons.mp sorted
    cases rest with
    | nil => simp [neighboursShareName]
    | cons second rest =>
      have ordered := below second (.head _)
      rw [List.map_cons, List.map_cons, ← List.isChain_iff_pairwise, List.isChain_cons_cons,
        List.isChain_iff_pairwise, ← List.map_cons, ih sorted, neighboursShareName, Bool.or_eq_false_iff,
        beq_eq_false_iff_ne]
      exact and_congr_left fun _ => ⟨ne_of_lt, fun other => lt_of_le_of_ne ordered other⟩

theorem ascending_iff_nodup (sorted : pairs.Pairwise fun a b => a.1 ≤ b.1) :
    (pairs.map Prod.fst).Pairwise (· < ·) ↔ (pairs.map Prod.fst).Nodup := by
  constructor
  · exact fun ascending => ascending.imp ne_of_lt
  · intro distinct
    rw [List.Nodup, List.pairwise_map] at distinct
    rw [List.pairwise_map]
    exact sorted.imp₂ (fun _ _ ordered other => lt_of_le_of_ne ordered other) distinct

theorem newPairs_canonical (accepted : newPairs pairs = .ok sorted) :
    Canonical sorted := by
  unfold newPairs at accepted
  split at accepted
  · cases accepted
  next distinct =>
  obtain ⟨named, accepted⟩ := check_bind_eq_ok.mp accepted
  cases accepted
  rw [Bool.not_eq_true] at distinct
  exact ⟨(ascending_iff_not_neighbours (sorted_sortByName pairs)).mpr distinct, checkEach_eq_ok.mp named⟩

/-- `Xattrs::new`. -/
def new (pairs : List Pair) : Except Error Xattrs :=
  build (newPairs pairs) fun _ => newPairs_canonical

/-- The sorted list of distinct names does not depend on the order of the pairs. -/
theorem newPairs_of_perm (perm : pairs.Perm others) :
    newPairs pairs = newPairs others := by
  have same : (sortByName pairs).Perm (sortByName others) :=
    ((List.perm_insertionSort _ pairs).trans perm).trans (List.perm_insertionSort _ others).symm
  have names : neighboursShareName (sortByName pairs) = false ↔
      neighboursShareName (sortByName others) = false := by
    rw [← ascending_iff_not_neighbours (sorted_sortByName _), ascending_iff_nodup (sorted_sortByName _),
      ← ascending_iff_not_neighbours (sorted_sortByName _), ascending_iff_nodup (sorted_sortByName _)]
    exact (same.map Prod.fst).nodup_iff
  unfold newPairs
  cases shared : neighboursShareName (sortByName pairs) with
  | true =>
    rw [shared] at names
    rw [if_pos rfl, if_pos (by simpa using names)]
  | false =>
    have distinct := (ascending_iff_not_neighbours (sorted_sortByName pairs)).mpr shared
    rw [ascending_iff_nodup (sorted_sortByName pairs)] at distinct
    have equal : sortByName pairs = sortByName others := by
      refine List.Perm.eq_of_pairwise ?_ (sorted_sortByName pairs) (sorted_sortByName others) same
      intro a b inside inside' le ge
      exact List.inj_on_of_nodup_map distinct inside (same.symm.subset inside') (le_antisymm le ge)
    rw [names.mp shared, equal]

/-- **`Xattrs::new` gives the same result for every order of its pairs.** -/
theorem new_of_perm (perm : pairs.Perm others) : new pairs = new others := by
  unfold new
  simp only [newPairs_of_perm perm]

/-- The pairs of a set are already in the form that `Xattrs::new` returns. -/
theorem new_pairs (xattrs : Xattrs) : new xattrs.pairs = .ok xattrs := by
  have ordered : xattrs.pairs.Pairwise fun a b => a.1 ≤ b.1 :=
    (List.pairwise_map.mp xattrs.canonical.ascending).imp le_of_lt
  have sorted : sortByName xattrs.pairs = xattrs.pairs := List.Pairwise.insertionSort_eq ordered
  rw [new, build_eq_ok, newPairs, sorted,
    (ascending_iff_not_neighbours ordered).mp xattrs.canonical.ascending]
  simp [checkEach_eq_ok.mpr xattrs.canonical.stored, ok_bind]

/-! ### The wire form -/

variable {data : Bytes}

/-- `(ayay)`. -/
def entryDecode : GvDecode Pair := .tuple (.cons .bytes (.last .bytes))

def entryEncode : GvEncode Pair := .tuple (.cons .bytes (.last .bytes))

/-- `GvEncode for &Xattrs`. -/
def encoder : GvEncode Xattrs := .contramap Xattrs.pairs (.slice entryEncode)

/-- The check of `XattrsRef::iter`. -/
def step (previous : Option Bytes) (entry : Pair) : Except Error (Pair × Option Bytes) := do
  checkXattrName entry.1
  if previous.any fun p => p ≥ entry.1 then .error (.invalidXattrs "xattr names are not strictly sorted")
  else .ok (entry, some entry.1)

theorem step_ordered :
    OrderedStep step (fun out => checkXattrName out.1 = .ok ()) id Prod.fst := by
  intro previous raw out next
  unfold step
  rw [check_bind_eq_ok]
  have order : (previous.any fun p => p ≥ raw.1) = true ↔ ¬ ∀ p, previous = some p → p < raw.1 := by
    cases previous <;> simp
  constructor
  · grind
  · rintro ⟨⟨named, rfl⟩, above, rfl⟩
    exact ⟨named, if_neg (order.not.mpr (not_not.mpr above))⟩

/-- The entries of `XattrsRef::to_owned`. -/
def readPairs (data : Bytes) : Except Error (List Pair) := do
  let entries ← liftGvariant ((GvDecode.arrayIter entryDecode).decode data)
  drained entryDecode.decode step entries none

theorem readPairs_eq_ok :
    readPairs data = .ok pairs ↔
      ∃ r, (GvDecode.arrayIter entryDecode).decode data = .ok r ∧
        r.collect entryDecode.decode = .ok pairs ∧ Canonical pairs := by
  simp only [readPairs, bind_eq_ok, liftGvariant_eq_ok, drained_eq_ok, step_ordered.steps_eq_ok, List.map_id]
  constructor
  · rintro ⟨r, opened, raws, drained, ⟨rfl, each⟩, ascending⟩
    exact ⟨r, opened, drained, ascending, each⟩
  · rintro ⟨r, opened, drained, canonical⟩
    exact ⟨r, opened, pairs, drained, ⟨rfl, canonical.stored⟩, canonical.ascending⟩

/-- `Xattrs::from_gvariant`. -/
def fromGvariant (data : Bytes) : Except Error Xattrs :=
  build (readPairs data) fun _ read =>
    let ⟨_, _, _, canonical⟩ := readPairs_eq_ok.mp read
    canonical

theorem entries_code (pairs : List Pair) : List.Forall₂ (Codes entryDecode entryEncode) pairs pairs :=
  List.forall₂_same.mpr fun _ _ => .tuple (.refl _) (.cons (.bytes _) (.last (.bytes _)))

/-- **A set that was read encodes to the bytes it was read from.** -/
theorem fromGvariant_sound (read : fromGvariant data = .ok xattrs) :
    encodeToVec encoder xattrs = .ok data := by
  obtain ⟨r, opened, drained, _⟩ := readPairs_eq_ok.mp (build_eq_ok.mp read)
  exact GvEncode.slice_of_collect rfl opened drained (entries_code _)

/-- **A set reads back from its encoding.** -/
theorem fromGvariant_complete (encoded : encodeToVec encoder xattrs = .ok data)
    (fits : Addressable data) : fromGvariant data = .ok xattrs := by
  have slice : encodeToVec (.slice entryEncode) xattrs.pairs = .ok data := encoded
  obtain ⟨r, opened, drained⟩ := GvDecode.collect_of_slice rfl slice fits
    ((entries_code _).imp fun _ _ codes => codes.read)
  exact build_eq_ok.mpr (readPairs_eq_ok.mpr ⟨r, opened, drained, xattrs.canonical⟩)

end Xattrs

end Ostrya.Core
