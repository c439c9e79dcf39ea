/-
**The values of a key file** (`keyfile.rs`): the getters, and what they read of a value that was set.

* `unescape_escape` — `get_string` undoes `set_string`.
* `single` — a key file of one group, which `set_value` extends at its end; its text reads back
  (`parse_display_single`), and the getters find each of its entries (`find_single`).
-/

import Ostrya.Core.KeyFileReparse

namespace Ostrya.Core.KeyFile

open ByteFormat

/-- `has_group`. -/
def hasGroup (file : KeyFile) (group : String) : Bool := (file.index group).isSome

/-- `find`. -/
def find (file : KeyFile) (group key : String) : Option String := do
  let i ← file.index group
  let entry ← (file.entriesAt i).find? fun entry => entry.1 = key
  some entry.2

/-- `get_value`. -/
def getValue (file : KeyFile) (group key : String) : Option String := file.find group key

/-- The character of an escape sequence. -/
def escaped : Char → Option Char
  | 's' => some ' '
  | 'n' => some '\n'
  | 't' => some '\t'
  | 'r' => some '\r'
  | '\x5c' => some '\x5c'
  | ';' => some ';'
  | _ => none

/-- `unescape`. -/
def unescape : List Char → Except Error (List Char)
  | [] => .ok []
  | c :: text =>
    if c = '\x5c' then
      match text with
      | [] => .error (.keyFile "value ends with a lone backslash")
      | sign :: text =>
        match escaped sign with
        | none => .error (.keyFile ("invalid escape '\\" ++ sign.toString ++ "'"))
        | some plain => (unescape text).map (plain :: ·)
    else (unescape text).map (c :: ·)

/-- `get_string`. -/
def getString (file : KeyFile) (group key : String) : Except Error (Option String) :=
  match file.find group key with
  | none => .ok none
  | some value => (unescape value.toList).map fun text => some (String.ofList text)

theorem unescape_plain (plain : c ≠ '\x5c') (text : List Char) :
    unescape (c :: text) = (unescape text).map (c :: ·) := by
  rw [unescape.eq_def]
  simp only [if_neg plain]

theorem unescape_sign (reads : escaped sign = some c) (text : List Char) :
    unescape ('\x5c' :: sign :: text) = (unescape text).map (c :: ·) := by
  rw [unescape.eq_def]
  simp [reads]

theorem unescape_escapeFrom (leading : Bool) (text : List Char) :
    unescape (escapeFrom leading text) = .ok text := by
  induction text generalizing leading with
  | nil => rfl
  | cons c text ih =>
    unfold escapeFrom
    split
    · next same => subst same; rw [unescape_sign rfl, ih, map_ok]
    · next plain =>
      split
      · next same => subst same; rw [unescape_sign rfl, ih, map_ok]
      · split
        · next same => subst same; rw [unescape_sign rfl, ih, map_ok]
        · split
          · next same => rw [same.1, unescape_sign rfl, ih, map_ok]
          · split
            · next same => rw [same.1, unescape_sign rfl, ih, map_ok]
            · rw [unescape_plain plain, ih, map_ok]

theorem unescape_of_not_mem (plain : '\x5c' ∉ text) : unescape text = .ok text := by
  induction text with
  | nil => rfl
  | cons c text ih =>
    rw [List.mem_cons, not_or] at plain
    rw [unescape_plain (Ne.symm plain.1), ih plain.2, map_ok]

/-- **`get_string` undoes `set_string`.** -/
theorem unescape_escape (text : String) : unescape (escape text) = .ok text.toList :=
  unescape_escapeFrom true text.toList

theorem oneLine_escapeFrom (leading : Bool) (text : List Char) :
    '\n' ∉ escapeFrom leading text ∧ '\r' ∉ escapeFrom leading text := by
  induction text generalizing leading with
  | nil => simp [escapeFrom]
  | cons c text ih =>
    unfold escapeFrom
    split_ifs with backslash newline return_ space tab
    · simp [ih]
    · simp [ih]
    · simp [ih]
    · simp [ih]
    · simp [ih]
    · simp [ih, Ne.symm newline, Ne.symm return_]

theorem head_escape {text : String} {c : Char} (starts : (escape text).head? = some c) :
    asciiWs c = false := by
  unfold escape at starts
  cases letters : text.toList with
  | nil => rw [letters] at starts; cases starts
  | cons first rest =>
    rw [letters] at starts
    unfold escapeFrom at starts
    split_ifs at starts with backslash newline return_ space tab
    all_goals cases starts
    all_goals first | rfl | skip
    simp only [and_true] at space tab
    simp [asciiWs, space, tab]

theorem length_escapeFrom (leading : Bool) (text : List Char) :
    (escapeFrom leading text).length ≤ 2 * text.length := by
  induction text generalizing leading with
  | nil => simp [escapeFrom]
  | cons c text ih =>
    have rest := ih false
    have same := ih leading
    unfold escapeFrom
    split_ifs <;> simp only [List.length_cons] <;> omega

theorem validateValue_of_plain (oneLine : '\n' ∉ value.toList ∧ '\r' ∉ value.toList)
    (starts : ∀ c, value.toList.head? = some c → asciiWs c = false) : validateValue value = .ok () := by
  have plain : value.toList.any (· ∈ ['\n', '\r']) = false := by
    rw [List.any_eq_false]
    intro c inside
    simp only [List.mem_cons, List.not_mem_nil, or_false, decide_eq_true_eq, not_or]
    exact ⟨fun same => oneLine.1 (same ▸ inside), fun same => oneLine.2 (same ▸ inside)⟩
  have solid : value.toList.head?.any asciiWs = false := by
    cases first : value.toList.head? with
    | none => rfl
    | some c => exact starts c first
  unfold validateValue
  rw [plain, solid, if_neg Bool.false_ne_true, if_neg Bool.false_ne_true]

/-! ### A key file of one group -/

/-- The key file of one group. -/
def single (name : String) (entries : List (String × String)) : KeyFile :=
  { groups := [⟨name, entries⟩]
    index := fun other => if other = name then some 0 else none
    indexed := by
      intro other i
      by_cases same : other = name
      · cases i with
        | zero => simp [same]
        | succ i => simp [same]
      · cases i with
        | zero => simp [same, Ne.symm same]
        | succ i => simp [same] }

theorem setValue_default (valid : validate group key value = .ok ()) :
    KeyFile.default.setValue group key value = (.ok (), single group [(key, value)]) := by
  unfold setValue
  rw [valid]
  refine Prod.ext rfl ?_
  ext1
  rfl

theorem setValue_single (valid : validate group key value = .ok ())
    (new : key ∉ entries.map Prod.fst) : (single group entries).setValue group key value =
      (.ok (), single group (entries ++ [(key, value)])) := by
  have here : (single group entries).groupIndexOrInsert group = (0, single group entries) := by
    unfold groupIndexOrInsert
    split
    · next i found =>
      have : some 0 = some i := by simpa [single] using found
      cases this
      rfl
    · next absent => simp [single] at absent
  unfold setValue
  rw [valid]
  refine Prod.ext rfl ?_
  ext1
  rw [here, ← setEntry_of_not_mem new]
  rfl

theorem hasGroup_single (group : String) (entries : List (String × String)) :
    (single group entries).hasGroup group = true := by
  simp [hasGroup, single]

theorem find_single (group key : String) (entries : List (String × String)) :
    (single group entries).find group key = (entries.find? fun entry => entry.1 = key).map Prod.snd := by
  have here : (single group entries).index group = some 0 := by simp [single]
  have own : (single group entries).entriesAt 0 = entries := rfl
  unfold find
  rw [here]
  rw [Option.bind_eq_bind, Option.bind_some, own]
  cases entries.find? fun entry : String × String => entry.1 = key <;> rfl

/-- The text of one group of plain keys and values reads back. -/
theorem parse_display_single (name : PlainName group.toList) (good : WellFormedEntries entries)
    (ends : ∀ entry ∈ entries, entry.2.toList.getLast? ≠ some '\r') :
    parse (single group entries).display = .ok (single group entries) := by
  have well : (single group entries).WellFormed := by
    intro other member
    obtain rfl := List.mem_singleton.mp member
    exact ⟨name, good⟩
  rw [parse_display well, reparse_eq_self.mpr]
  intro other member entry inside
  obtain rfl := List.mem_singleton.mp member
  exact ends entry inside

end Ostrya.Core.KeyFile
