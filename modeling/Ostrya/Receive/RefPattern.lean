/-
**Ref patterns** (`refpattern.rs`).

The declared relation cuts the parts of a name into groups, one for each part of the pattern. The
table carries it in its
rows: a row tells where a cut may stand, and one more part moves each cut (`fillRow_iff`). The flat walk needs no table,
because a part other than `**` covers one name part.
-/

import Ostrya.Receive.Hello

namespace Ostrya.Receive

open ByteFormat

/-- `Part`. -/
inductive Part where
  | literal (text : List Char)
  | one
  | many
  deriving DecidableEq

/-- `RefPattern`. -/
structure RefPattern where
  text : List Char
  parts : List Part

/-- `Error::InvalidRefPattern`: the entry, and why it is refused. -/
structure InvalidRefPattern where
  entry : List Char
  why : String

namespace RefPattern

/-! ### The source -/

/-- One part of `parse_pattern`. -/
def parsePart (isNameCharacter : Char → Bool) (entry part : List Char) : Except InvalidRefPattern Part :=
  if part = [] then .error ⟨entry, "the pattern has an empty part"⟩
  else if part = ['*'] then .ok .one
  else if part = ['*', '*'] then .ok .many
  else if part.contains '*' then .error ⟨entry, "\x60*\x60 is valid only as a whole part"⟩
  else if isRefNameComponent isNameCharacter part then .ok (.literal part)
  else .error ⟨entry, "a part is not a valid ref-name component"⟩

/-- `parse_pattern`. -/
def parsePattern (isNameCharacter : Char → Bool) (pattern entry : List Char) : Except InvalidRefPattern RefPattern :=
  if pattern = [] then .error ⟨entry, "the pattern is empty"⟩
  else if pattern.contains '!' then
    .error ⟨entry, "a \x60!\x60 is valid only as the first character of a selector entry"⟩
  else do
    let parts ← (pattern.splitOn '/').mapM (parsePart isNameCharacter entry)
    .ok ⟨pattern, parts⟩

/-- `RefPattern::parse`. -/
def parse (isNameCharacter : Char → Bool) (pattern : List Char) : Except InvalidRefPattern RefPattern :=
  parsePattern isNameCharacter pattern pattern

/-- One cell of the table, from the row above and the cells to the left. -/
def cell (name : List (List Char)) (prev cur : Nat → Bool) (j : Nat) : Part → Bool
  | .literal text => prev j && name[j]? = some text
  | .one => prev j
  | .many => prev j || cur j

/-- The cells `1..=n` of a row over what the row held before. -/
def fillRow (name : List (List Char)) (part : Part) (prev cur : Nat → Bool) : Nat → Nat → Bool
  | 0 => Function.update cur 0 false
  | j + 1 =>
    let cur := fillRow name part prev cur j
    Function.update cur (j + 1) (cell name prev cur j part)

/-- `match_parts`: the two rows are swapped after each part. The count of the steps is left out. -/
def matchParts (parts : List Part) (name : List (List Char)) : Bool :=
  if name.length < parts.length then false
  else
    (parts.foldl (fun rows part => (fillRow name part rows.1 rows.2 name.length, rows.1))
      (Function.update (fun _ => false) 0 true, fun _ => false)).1 name.length

/-- The parts before a last `**`, and whether there is one. -/
def splitMany (parts : List Part) : List Part × Bool :=
  if parts.getLast? = some .many then (parts.dropLast, true) else (parts, false)

/-- The loop of `match_flat`. -/
def walk (lastMany : Bool) : List Part → List (List Char) → Bool
  | [], pieces => !pieces.isEmpty == lastMany
  | _ :: _, [] => false
  | .literal text :: parts, piece :: pieces => if piece = text then walk lastMany parts pieces else false
  | .one :: parts, _ :: pieces => walk lastMany parts pieces
  | .many :: _, _ :: _ => false

/-- `match_flat`. -/
def matchFlat (parts : List Part) (name : List Char) : Bool :=
  walk (splitMany parts).2 (splitMany parts).1 (name.splitOn '/')

/-- `RefPattern::matches`. -/
def matchesName (pattern : RefPattern) (name : List Char) : Bool :=
  if (splitMany pattern.parts).1.contains .many then matchParts pattern.parts (name.splitOn '/')
  else matchFlat pattern.parts name

/-! ### The declared relation -/

/-- The part that a text stands for. -/
def partOf (text : List Char) : Part :=
  if text = ['*'] then .one else if text = ['*', '*'] then .many else .literal text

/-- The groups of name parts that a part covers. -/
def PartCovers : Part → List (List Char) → Prop
  | .literal text, group => group = [text]
  | .one, group => group.length = 1
  | .many, group => 1 ≤ group.length

/-- The name parts are cut into consecutive groups, one for each part. -/
def Covers (parts : List Part) (name : List (List Char)) : Prop :=
  ∃ groups, List.Forall₂ PartCovers parts groups ∧ groups.flatten = name

variable {part : Part} {parts : List Part} {name group : List (List Char)}

theorem covers_nil : Covers [] name ↔ name = [] := by
  simp [Covers, eq_comm]

theorem covers_cons : Covers (part :: parts) name ↔
    ∃ group rest, group ++ rest = name ∧ PartCovers part group ∧ Covers parts rest := by
  constructor
  · rintro ⟨_, _ | ⟨covered, each⟩, rfl⟩
    exact ⟨_, _, rfl, covered, _, each, rfl⟩
  · rintro ⟨group, _, rfl, covered, groups, each, rfl⟩
    exact ⟨group :: groups, .cons covered each, rfl⟩

theorem PartCovers.length_eq_one (single : part ≠ .many) (covered : PartCovers part group) : group.length = 1 := by
  cases part with
  | literal text =>
    cases covered
    rfl
  | one => exact covered
  | many => exact absurd rfl single

theorem PartCovers.nonempty (covered : PartCovers part group) : 1 ≤ group.length := by
  by_cases many : part = .many
  · subst many
    exact covered
  · exact (covered.length_eq_one many).ge

theorem Covers.length_le (covered : Covers parts name) : parts.length ≤ name.length := by
  induction parts generalizing name with
  | nil => exact Nat.zero_le _
  | cons part parts ih =>
    obtain ⟨group, rest, rfl, first, others⟩ := covers_cons.mp covered
    have := first.nonempty
    have := ih others
    simp only [List.length_cons, List.length_append]
    omega

/-! ### The table -/

variable {prev cur : Nat → Bool}

/-- **One row**: a cut moves over the group that the part covers. What the row held before is not
read. -/
theorem fillRow_iff (inside : k ≤ name.length) (le : j ≤ k) : fillRow name part prev cur k j = true ↔
    ∃ i < j, prev i = true ∧ PartCovers part ((name.drop i).take (j - i)) := by
  induction k generalizing j with
  | zero =>
    obtain rfl := Nat.le_zero.mp le
    simp [fillRow]
  | succ k ih =>
    rcases Nat.lt_or_eq_of_le le with before | rfl
    · rw [fillRow, Function.update_of_ne before.ne]
      exact ih (by omega) (by omega)
    have sized : ∀ i < k + 1, ((name.drop i).take (k + 1 - i)).length = k + 1 - i := by
      intro i _
      rw [List.length_take, List.length_drop]
      omega
    -- a part that covers one name part moves the cut by one
    have single : part ≠ .many → ((∃ i < k + 1, prev i = true ∧ PartCovers part ((name.drop i).take (k + 1 - i))) ↔
        prev k = true ∧ PartCovers part ((name.drop k).take 1)) := by
      intro notMany
      constructor
      · rintro ⟨i, less, held, covered⟩
        obtain rfl : i = k := by
          have := (sized i less).symm.trans (covered.length_eq_one notMany)
          omega
        exact ⟨held, by simpa using covered⟩
      · rintro ⟨held, covered⟩
        exact ⟨k, by omega, held, by simpa using covered⟩
    rw [fillRow, Function.update_self]
    cases part with
    | literal text =>
      rw [single nofun]
      simp only [cell, PartCovers, Bool.and_eq_true, decide_eq_true_eq]
      rw [List.take_one, List.head?_drop]
      cases name[k]? <;> simp
    | one =>
      rw [single nofun]
      simp only [cell, PartCovers, List.length_take, List.length_drop]
      exact ⟨fun held => ⟨held, by omega⟩, And.left⟩
    | many =>
      simp only [cell, Bool.or_eq_true, ih (by omega) le_rfl, PartCovers]
      constructor
      · rintro (held | ⟨i, less, held, _⟩)
        · exact ⟨k, by omega, held, by rw [sized k (by omega)]; omega⟩
        · exact ⟨i, by omega, held, by rw [sized i (by omega)]; omega⟩
      · rintro ⟨i, less, held, _⟩
        rcases Nat.lt_succ_iff_lt_or_eq.mp less with before | rfl
        · refine .inr ⟨i, before, held, ?_⟩
          rw [List.length_take, List.length_drop]
          omega
        · exact .inl held

/-- **All rows**, by induction over the parts: a cut of the first row, and the parts over the rest
of the name. -/
theorem rows_iff (rows : (Nat → Bool) × (Nat → Bool)) :
    (parts.foldl (fun rows part => (fillRow name part rows.1 rows.2 name.length, rows.1)) rows).1 name.length = true ↔
      ∃ i ≤ name.length, rows.1 i = true ∧ Covers parts (name.drop i) := by
  induction parts generalizing rows with
  | nil =>
    simp only [List.foldl_nil, covers_nil, List.drop_eq_nil_iff]
    exact ⟨fun held => ⟨_, le_rfl, held, le_rfl⟩, fun ⟨i, le, held, ge⟩ => le_antisymm le ge ▸ held⟩
  | cons part parts ih =>
    rw [List.foldl_cons, ih]
    constructor
    · rintro ⟨j, le, held, others⟩
      obtain ⟨i, less, held, covered⟩ := (fillRow_iff le_rfl le).mp held
      refine ⟨i, by omega, held, covers_cons.mpr ⟨_, _, ?_, covered, others⟩⟩
      rw [show j = i + (j - i) by omega, ← List.drop_drop, Nat.add_sub_cancel_left, List.take_append_drop]
    · rintro ⟨i, le, held, covered⟩
      obtain ⟨group, rest, cut, first, others⟩ := covers_cons.mp covered
      have total : group.length + rest.length = name.length - i := by
        rw [← List.length_append, cut, List.length_drop]
      have := first.nonempty
      refine ⟨i + group.length, by omega, (fillRow_iff le_rfl (by omega)).mpr ⟨i, by omega, held, ?_⟩, ?_⟩
      · rw [Nat.add_sub_cancel_left, ← cut, List.take_left]
        exact first
      · rw [← List.drop_drop, ← cut, List.drop_left]
        exact others

theorem matchParts_iff : matchParts parts name = true ↔ Covers parts name := by
  unfold matchParts
  split
  · next short => exact iff_of_false Bool.false_ne_true fun covered => short.not_ge covered.length_le
  · rw [rows_iff]
    constructor
    · rintro ⟨i, _, held, covered⟩
      obtain rfl : i = 0 := by
        by_contra later
        simp [Function.update_of_ne later] at held
      exact covered
    · exact fun covered => ⟨0, Nat.zero_le _, rfl, covered⟩

/-! ### The flat walk -/

/-- The part `**`, if there is one. -/
def lastPart (lastMany : Bool) : List Part := if lastMany then [.many] else []

theorem splitMany_append (parts : List Part) : (splitMany parts).1 ++ lastPart (splitMany parts).2 = parts := by
  unfold splitMany
  split
  · next last => exact List.dropLast_append_getLast? _ last
  · exact List.append_nil _

theorem covers_single (single : part ≠ .many) :
    Covers (part :: parts) (piece :: name) ↔ PartCovers part [piece] ∧ Covers parts name := by
  rw [covers_cons]
  constructor
  · rintro ⟨group, rest, cut, covered, others⟩
    obtain ⟨only, rfl⟩ := List.length_eq_one_iff.mp (covered.length_eq_one single)
    cases cut
    exact ⟨covered, others⟩
  · rintro ⟨covered, others⟩
    exact ⟨[piece], name, rfl, covered, others⟩

/-- **The walk**, by induction over the parts before a last `**`. -/
theorem walk_iff (flat : Part.many ∉ parts) :
    walk lastMany parts name = true ↔ Covers (parts ++ lastPart lastMany) name := by
  induction parts generalizing name with
  | nil =>
    cases lastMany with
    | false => simp [walk, lastPart, covers_nil]
    | true =>
      rw [lastPart, if_pos rfl, List.nil_append, covers_cons]
      simp [walk, covers_nil, PartCovers, Nat.one_le_iff_ne_zero]
  | cons part parts ih =>
    obtain ⟨notMany, flatRest⟩ := not_or.mp (List.mem_cons.not.mp flat)
    cases name with
    | nil => exact iff_of_false Bool.false_ne_true fun covered => by simpa using covered.length_le
    | cons piece pieces =>
      rw [List.cons_append, covers_single (Ne.symm notMany), ← ih flatRest]
      cases part with
      | literal text | one => simp [walk, PartCovers]
      | many => exact absurd rfl notMany

/-! ### Patterns -/

theorem parsePart_eq_ok {entry text : List Char}
    (parsed : parsePart isNameCharacter entry text = .ok part) : partOf text = part := by
  unfold parsePart at parsed
  unfold partOf
  split_ifs at parsed ⊢ <;> cases parsed <;> rfl

/-- **A pattern matches the names that its parts cover**, on the table and on the flat walk. -/
theorem matchesName_iff_covers (isNameCharacter : Char → Bool) (text : List Char)
    (pattern : RefPattern) (parsed : parse isNameCharacter text = .ok pattern) (name : List Char) :
    pattern.matchesName name = true ↔ Covers ((text.splitOn '/').map partOf) (name.splitOn '/') := by
  have parts : (text.splitOn '/').map partOf = pattern.parts := by
    unfold parse parsePattern at parsed
    split_ifs at parsed
    obtain ⟨parts, read, ⟨⟩⟩ := bind_eq_ok.mp parsed
    have each := (mapM_eq_ok.mp read).imp fun _ _ => parsePart_eq_ok
    exact List.forall₂_eq_eq_eq ▸ List.forall₂_map_left_iff.mpr each
  rw [parts, matchesName]
  split
  · exact matchParts_iff
  · next flat =>
    rw [matchFlat, walk_iff (by simpa using flat), splitMany_append]

theorem matchesName_iff_covers_sample :
    parse (fun _ => false) "a/**/c".toList = .ok ⟨"a/**/c".toList, [.literal ['a'], .many, .literal ['c']]⟩ ∧
      Covers (("a/**/c".toList.splitOn '/').map partOf) ("a/b/d/c".toList.splitOn '/') :=
  ⟨rfl, (matchesName_iff_covers (fun _ => false) _ _ rfl _).mp (by decide +kernel)⟩

end RefPattern

end Ostrya.Receive
