/-
**Lines of text.**

The operations of a line-based reader on a list of characters: drop one closing character, split at
the first separator, trim at both ends, cut into lines. `lines_unlines` says that a text written line
by line is read as those lines.
-/

import Mathlib.Data.List.DropRight
import Mathlib.Data.List.Infix

set_option linter.unusedSectionVars false

namespace ByteFormat

variable {α : Type} [DecidableEq α]

/-- Drops one `last` from the end, if the text ends with it. -/
def stripSuffix (last : α) (text : List α) : List α :=
  if text.getLast? = some last then text.dropLast else text

@[simp] theorem stripSuffix_append_self (last : α) (text : List α) :
    stripSuffix last (text ++ [last]) = text := by
  simp [stripSuffix]

variable {last : α} {text : List α}

theorem stripSuffix_of_ne (other : text.getLast? ≠ some last) :
    stripSuffix last text = text := if_neg other

variable {c : α}

/-- What is left is a front part of the text. -/
theorem mem_of_mem_stripSuffix (inside : c ∈ stripSuffix last text) :
    c ∈ text := by
  unfold stripSuffix at inside
  split at inside
  · exact List.mem_of_mem_dropLast inside
  · exact inside

theorem stripSuffix_append (front : List α) (more : text ≠ []) :
    stripSuffix last (front ++ text) = front ++ stripSuffix last text := by
  have same : (front ++ text).getLast? = text.getLast? := List.getLast?_append_of_ne_nil front more
  unfold stripSuffix
  rw [same, List.dropLast_append_of_ne_nil more]
  split <;> rfl

/-- The text before and after the first `sep`. -/
def splitOnce (sep : α) : List α → Option (List α × List α)
  | [] => none
  | c :: text =>
    if c = sep then some ([], text) else (splitOnce sep text).map fun cut => (c :: cut.1, cut.2)

theorem splitOnce_eq_some :
    splitOnce sep text = some (before, after) ↔ text = before ++ sep :: after ∧ sep ∉ before := by
  induction text generalizing before with
  | nil => simp [splitOnce]
  | cons c text ih =>
    unfold splitOnce
    by_cases here : c = sep
    · subst here
      rw [if_pos rfl]
      constructor
      · rintro ⟨⟩
        simp
      · rintro ⟨split, absent⟩
        cases before with
        | nil => simpa using split
        | cons b before => simp_all
    · rw [if_neg here]
      constructor
      · intro found
        obtain ⟨⟨front, rest⟩, cut, joined⟩ := Option.map_eq_some_iff.mp found
        obtain ⟨rfl, rfl⟩ := Prod.mk.inj joined
        obtain ⟨rfl, absent⟩ := ih.mp cut
        simp [absent, Ne.symm here]
      · rintro ⟨split, absent⟩
        cases before with
        | nil => simp_all
        | cons b before =>
          obtain ⟨rfl, rest⟩ := List.cons.inj split
          have cut := ih.mpr ⟨rest, fun inside => absent (.tail _ inside)⟩
          rw [cut]
          rfl

/-- Drops what satisfies `blank` at both ends. -/
def trim (blank : α → Bool) (text : List α) : List α := (text.dropWhile blank).rdropWhile blank

variable {blank : α → Bool}

theorem dropWhile_of_head (solid : ∀ c, text.head? = some c → ¬ blank c) :
    text.dropWhile blank = text := by
  cases text with
  | nil => rfl
  | cons c text =>
    have := solid c rfl
    simp [this]

theorem head_dropWhile (first : (text.dropWhile blank).head? = some c) : ¬ blank c := by
  have some_head := List.head?_dropWhile_not blank text
  rw [first] at some_head
  simpa using some_head

theorem rdropWhile_of_last (solid : ∀ c, text.getLast? = some c → ¬ blank c) : text.rdropWhile blank = text := by
  rw [List.rdropWhile_eq_self_iff]
  intro some_text
  exact solid _ (List.getLast?_eq_getLast_of_ne_nil some_text)

theorem rdropWhile_cons (solid : ¬ blank c) (text : List α) :
    ∃ more, (c :: text).rdropWhile blank = c :: more := by
  obtain ⟨rest, joined⟩ := List.rdropWhile_prefix blank (c :: text)
  cases kept : (c :: text).rdropWhile blank with
  | nil =>
    have all := List.rdropWhile_eq_nil_iff.mp kept c (.head _)
    exact absurd all solid
  | cons first more =>
    rw [kept, List.cons_append] at joined
    exact ⟨more, by rw [(List.cons.inj joined).1]⟩

theorem last_rdropWhile (last : (text.rdropWhile blank).getLast? = some c) : ¬ blank c := by
  have some_text : text.rdropWhile blank ≠ [] := by
    intro empty
    simp [empty] at last
  rw [List.getLast?_eq_some_getLast some_text, Option.some.injEq] at last
  rw [← last]
  exact List.rdropWhile_last_not blank text some_text

/-- The lines of a text: a final newline ends the last line and starts none. -/
def lines (newline : α) (text : List α) : List (List α) :=
  (stripSuffix newline text).splitOn newline

/-- A text with `newline` after each line. -/
def unlines (newline : α) (rows : List (List α)) : List α := rows.flatMap (· ++ [newline])

variable {newline : α}

/-- Joined by newlines, and one more at the end. -/
theorem unlines_eq_intercalate (some_rows : rows ≠ []) :
    unlines newline rows = [newline].intercalate rows ++ [newline] := by
  induction rows with
  | nil => exact absurd rfl some_rows
  | cons row rows ih =>
    cases rows with
    | nil => simp [unlines]
    | cons next rows =>
      have rest := ih (by simp)
      unfold unlines at rest ⊢
      rw [List.flatMap_cons, rest]
      simp [List.intercalate]

/-- A text written line by line is read as those lines. -/
theorem lines_unlines (some_rows : rows ≠ [])
    (whole : ∀ row ∈ rows, newline ∉ row) : lines newline (unlines newline rows) = rows := by
  unfold lines
  rw [unlines_eq_intercalate some_rows, stripSuffix_append_self]
  exact List.splitOn_intercalate _ whole some_rows

/-- No piece of a split holds the separator. -/
theorem not_mem_of_mem_splitOn {sep : α} {text row : List α} (piece : row ∈ text.splitOn sep) :
    sep ∉ row := by
  induction text generalizing row with
  | nil => simp_all
  | cons c text ih =>
    rw [List.splitOn_cons_eq_if_modifyHead] at piece
    split at piece
    · rcases List.mem_cons.mp piece with rfl | piece
      · simp
      · exact ih piece
    · next other =>
      obtain ⟨first, rest, rows⟩ := List.exists_cons_of_ne_nil (List.splitOn_ne_nil sep text)
      rw [rows, List.modifyHead_cons] at piece
      rw [rows] at ih
      rcases List.mem_cons.mp piece with rfl | piece
      · have absent := ih (.head _)
        simp only [beq_iff_eq] at other
        simp [absent, Ne.symm other]
      · exact ih (.tail _ piece)

theorem not_mem_of_mem_lines (line : row ∈ lines newline text) : newline ∉ row :=
  not_mem_of_mem_splitOn line

end ByteFormat
