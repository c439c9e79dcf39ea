/-
**Key files** (`keyfile.rs`): the parser, the setters and the writer.

A key file is an ordered list of groups, each an ordered list of keys with their raw value text. The
source keeps two maps beside the lists, the position of each group by name and, during a parse, the
position of each key in its group. Both are carried here with the fact that they agree with the lists
(`KeyFile.indexed`, `ParseState.keyed`), so that a lookup can be replaced by a search.

* `ParseState.put_keyfile` — an entry line and `set_value` do the same to a group: `setEntry`.
* `Reached.wellFormed` — **every key file a caller can hold is `WellFormed`**: the default one, one that
  was parsed, and what any sequence of calls makes of it.
-/

import Ostrya.Core.Basic
import Ostrya.ByteFormat.Interner
import Ostrya.ByteFormat.Lines

namespace Ostrya.Core

open ByteFormat

/-- `Group`. -/
structure KeyFile.Group where
  name : String
  entries : List (String × String)
  deriving DecidableEq

/-- `KeyFile`. The `index` map gives the position of each group by name. -/
structure KeyFile where
  groups : List KeyFile.Group
  index : String → Option Nat
  indexed : Positions index (groups.map KeyFile.Group.name)

namespace KeyFile

variable {file : KeyFile}

/-- `PartialEq` compares the groups, and they determine the index. -/
@[ext] theorem ext_groups (same : file.groups = other.groups) : file = other := by
  obtain ⟨groups, index, indexed⟩ := file
  obtain ⟨groups', index', indexed'⟩ := other
  obtain rfl : groups = groups' := same
  have : index = index' := by
    funext name
    apply Option.ext
    intro i
    rw [indexed name i, indexed' name i]
  subst this
  rfl

/-- `KeyFile::default`. -/
def default : KeyFile := ⟨[], fun _ => none, by simp [Positions]⟩

/-- `group_index_or_insert`. -/
def groupIndexOrInsert (file : KeyFile) (name : String) : Nat × KeyFile :=
  match absent : file.index name with
  | some i => (i, file)
  | none => (file.groups.length,
    { groups := file.groups ++ [⟨name, []⟩]
      index := fun other => if other = name then some file.groups.length else file.index other
      indexed := by
        have pushed := file.indexed.push absent
        rw [List.length_map] at pushed
        rwa [List.map_append] })

theorem names_modify (groups : List Group) (i : Nat) (f : List (String × String) → List (String × String)) :
    (groups.modify i fun group => { group with entries := f group.entries }).map Group.name =
      groups.map Group.name := by
  apply List.ext_getElem?
  intro j
  rw [List.getElem?_map, List.getElem?_map, List.getElem?_modify]
  cases groups[j]? with
  | none => rfl
  | some group => by_cases here : i = j <;> simp [here]

/-- The entries of the group at a position, rewritten: `&mut self.groups[i].entries`. -/
def modifyEntries (file : KeyFile) (i : Nat) (f : List (String × String) → List (String × String)) :
    KeyFile :=
  { groups := file.groups.modify i fun group => { group with entries := f group.entries }
    index := file.index
    indexed := by
      rw [names_modify]
      exact file.indexed }

/-- The entries of the group at a position. -/
def entriesAt (file : KeyFile) (i : Nat) : List (String × String) :=
  ((file.groups[i]?).map Group.entries).getD []

theorem groupIndexOrInsert_lt (file : KeyFile) (name : String) :
    (file.groupIndexOrInsert name).1 < (file.groupIndexOrInsert name).2.groups.length := by
  unfold groupIndexOrInsert
  split
  · next i found =>
    obtain ⟨inside, -⟩ := List.getElem?_eq_some_iff.mp ((file.indexed name i).mp found)
    simpa using inside
  · simp

theorem entriesAt_groupIndexOrInsert (file : KeyFile) (name : String) (i : Nat) :
    (file.groupIndexOrInsert name).2.entriesAt i = file.entriesAt i := by
  unfold groupIndexOrInsert entriesAt
  split
  · rfl
  · simp only [List.getElem?_append]
    split
    · rfl
    · next past =>
      rw [List.getElem?_singleton, List.getElem?_eq_none (Nat.le_of_not_lt past)]
      split <;> rfl

theorem entriesAt_modifyEntries (file : KeyFile) (inside : i < file.groups.length)
    (f : List (String × String) → List (String × String)) (j : Nat) :
    (file.modifyEntries i f).entriesAt j = if j = i then f (file.entriesAt i) else file.entriesAt j := by
  unfold modifyEntries entriesAt
  simp only [List.getElem?_modify]
  by_cases here : j = i
  · subst here
    simp [List.getElem?_eq_getElem inside]
  · cases file.groups[j]? with
    | none => simp [here]
    | some group => simp [here, Ne.symm here]

/-- The value of a key replaced in place, or the key added at the end. -/
def setEntry (key value : String) : List (String × String) → List (String × String)
  | [] => [(key, value)]
  | entry :: entries =>
    if entry.1 = key then (entry.1, value) :: entries else entry :: setEntry key value entries

/-! ### The parser -/

/-- `ASCII_WS`. -/
def asciiWs (c : Char) : Bool := c = ' ' || c = '\t'

/-- The locals of the loop of `parse`: `keys` gives the position of each key in its group. -/
structure ParseState where
  keyfile : KeyFile
  current : Option Nat
  keys : Nat → String → Option Nat
  inside : ∀ i, current = some i → i < keyfile.groups.length
  keyed : ∀ i, Positions (keys i) ((keyfile.entriesAt i).map Prod.fst)

theorem keys_modify (entries : List (String × String)) (spot : Nat) (value : String) :
    (entries.modify spot fun entry => (entry.1, value)).map Prod.fst = entries.map Prod.fst := by
  apply List.ext_getElem?
  intro j
  rw [List.getElem?_map, List.getElem?_map, List.getElem?_modify]
  cases entries[j]? with
  | none => rfl
  | some entry => by_cases here : spot = j <;> simp [here]

/-- A group header: the group becomes the current one. -/
def ParseState.enter (state : ParseState) (name : String) : ParseState where
  keyfile := (state.keyfile.groupIndexOrInsert name).2
  current := some (state.keyfile.groupIndexOrInsert name).1
  keys := state.keys
  inside := by
    rintro i ⟨⟩
    exact groupIndexOrInsert_lt _ _
  keyed := by
    intro i
    rw [entriesAt_groupIndexOrInsert]
    exact state.keyed i

/-- An entry of the current group: a repeated key keeps its position and takes the value. -/
def ParseState.put (state : ParseState) (i : Nat) (here : state.current = some i)
    (key value : String) : ParseState :=
  match found : state.keys i key with
  | some spot =>
    { keyfile := state.keyfile.modifyEntries i fun entries =>
        entries.modify spot fun entry => (entry.1, value)
      current := state.current
      keys := state.keys
      inside := by simpa [modifyEntries] using state.inside
      keyed := by
        intro j
        rw [entriesAt_modifyEntries _ (state.inside i here)]
        split
        · next same =>
          subst same
          rw [keys_modify]
          exact state.keyed j
        · exact state.keyed j }
  | none =>
    { keyfile := state.keyfile.modifyEntries i fun entries => entries ++ [(key, value)]
      current := state.current
      keys := fun j other =>
        if j = i ∧ other = key then some (state.keyfile.entriesAt i).length else state.keys j other
      inside := by simpa [modifyEntries] using state.inside
      keyed := by
        intro j
        rw [entriesAt_modifyEntries _ (state.inside i here)]
        by_cases same : j = i
        · subst same
          have pushed := (state.keyed j).push found
          rw [List.length_map] at pushed
          simpa using pushed
        · simpa [same] using state.keyed j }

/-- A line error, with the line it is on. -/
def lineError (lineno : Nat) (reason : String) : Error :=
  .keyFile ("line " ++ toString lineno ++ ": " ++ reason)

/-- The text after `[` of a group header. -/
def parseHeader (lineno : Nat) (state : ParseState) (rest : List Char) : Except Error ParseState :=
  match splitOnce ']' rest with
  | none => .error (lineError lineno "group header is not closed with ']'")
  | some (name, after) =>
    if trim asciiWs after ≠ [] then
      .error (lineError lineno "group header has trailing text after ']'")
    else if name = [] then .error (lineError lineno "empty group name")
    else if '[' ∈ name ∨ ']' ∈ name then
      .error (lineError lineno ("group name '" ++ String.ofList name ++ "' contains '[' or ']'"))
    else .ok (state.enter (String.ofList name))

/-- A `key=value` line. -/
def parseEntry (lineno : Nat) (state : ParseState) (line : List Char) : Except Error ParseState :=
  match splitOnce '=' line with
  | none => .error (lineError lineno "expected a key=value pair")
  | some (before, after) =>
    let key := trim asciiWs before
    let value := after.dropWhile asciiWs
    if key = [] then .error (lineError lineno "empty key")
    else match here : state.current with
      | none => .error (lineError lineno ("key '" ++ String.ofList key ++ "' precedes any group"))
      | some i => .ok (state.put i here (String.ofList key) (String.ofList value))

/-- One turn of the loop of `parse`. -/
def parseLine (lineno : Nat) (state : ParseState) (raw : List Char) : Except Error ParseState :=
  let line := stripSuffix '\r' raw
  match trim asciiWs line with
  | [] => .ok state
  | first :: rest =>
    if first = '#' then .ok state
    else if first = '[' then parseHeader lineno state rest
    else parseEntry lineno state line

def parseLines (lineno : Nat) (state : ParseState) : List (List Char) → Except Error ParseState
  | [] => .ok state
  | raw :: rows => do
    let next ← parseLine lineno state raw
    parseLines (lineno + 1) next rows

def ParseState.start : ParseState :=
  ⟨.default, none, fun _ _ => none, by simp, by simp [entriesAt, default, Positions]⟩

/-- `KeyFile::parse`. -/
def parse (input : String) : Except Error KeyFile :=
  (parseLines 1 .start (lines '\n' input.toList)).map ParseState.keyfile

/-! ### The writer -/

/-- The text of one group. -/
def Group.fmt (group : Group) : List Char :=
  '[' :: group.name.toList ++ [']', '\n'] ++
    group.entries.flatMap fun entry => entry.1.toList ++ '=' :: entry.2.toList ++ ['\n']

/-- The groups from the `i`-th on, with a blank line before each but the first. -/
def fmtFrom (i : Nat) : List Group → List Char
  | [] => []
  | group :: groups => (if i > 0 then ['\n'] else []) ++ group.fmt ++ fmtFrom (i + 1) groups

/-- `Display`. -/
def display (file : KeyFile) : String := String.ofList (fmtFrom 0 file.groups)

/-! ### The setters -/

/-- `validate_group`. -/
def validateGroup (name : String) : Except Error Unit :=
  if name = "" then .error (.keyFile "group name is empty")
  else if name.toList.any (· ∈ ['\n', '\r', '[', ']']) then
    .error (.keyFile ("group name '" ++ name ++ "' contains a structural character"))
  else .ok ()

/-- `validate_key`. -/
def validateKey (key : String) : Except Error Unit :=
  if key = "" then .error (.keyFile "key is empty")
  else if key.toList.head?.any asciiWs ∨ key.toList.getLast?.any asciiWs then
    .error (.keyFile ("key '" ++ key ++ "' has leading or trailing whitespace"))
  else if key.toList.any (· ∈ ['\n', '\r', '=']) then
    .error (.keyFile ("key '" ++ key ++ "' contains a structural character"))
  else if key.toList.head? = some '#' ∨ key.toList.head? = some '[' then
    .error (.keyFile ("key '" ++ key ++ "' begins with '#' or '[' and would not reparse"))
  else .ok ()

/-- `validate_value`. -/
def validateValue (value : String) : Except Error Unit :=
  if value.toList.any (· ∈ ['\n', '\r']) then
    .error (.keyFile "value contains a newline; escape it as \\n")
  else if value.toList.head?.any asciiWs then
    .error (.keyFile "value begins with whitespace; escape it as \\s")
  else .ok ()

/-- The three checks of `set_value`. -/
def validate (group key value : String) : Except Error Unit := do
  validateGroup group
  validateKey key
  validateValue value

/-- `set_value`: a failed check leaves the key file as it was. -/
def setValue (file : KeyFile) (group key value : String) : Except Error Unit × KeyFile :=
  match validate group key value with
  | .error fault => (.error fault, file)
  | .ok () =>
    let found := file.groupIndexOrInsert group
    (.ok (), found.2.modifyEntries found.1 (setEntry key value))

/-- The loop of `escape`. -/
def escapeFrom (leading : Bool) : List Char → List Char
  | [] => []
  | c :: text =>
    if c = '\x5c' then '\x5c' :: '\x5c' :: escapeFrom false text
    else if c = '\n' then '\x5c' :: 'n' :: escapeFrom false text
    else if c = '\r' then '\x5c' :: 'r' :: escapeFrom false text
    else if c = ' ' ∧ leading then '\x5c' :: 's' :: escapeFrom leading text
    else if c = '\t' ∧ leading then '\x5c' :: 't' :: escapeFrom leading text
    else c :: escapeFrom false text

/-- `escape`. -/
def escape (text : String) : List Char := escapeFrom true text.toList

/-- `set_string`. -/
def setString (file : KeyFile) (group key value : String) : Except Error Unit × KeyFile :=
  file.setValue group key (String.ofList (escape value))

/-- One item of a list value. -/
def listItem (item : String) : List Char :=
  ((escape item).flatMap fun c => if c = ';' then ['\x5c', c] else [c]) ++ [';']

/-- `set_string_list`. -/
def setStringList (file : KeyFile) (group key : String) (items : List String) :
    Except Error Unit × KeyFile :=
  file.setValue group key (String.ofList (items.flatMap listItem))

/-- `remove_key`. -/
def removeKey (file : KeyFile) (group key : String) : Bool × KeyFile :=
  match file.index group with
  | none => (false, file)
  | some i =>
    match (file.entriesAt i).findIdx? fun entry => entry.1 = key with
    | none => (false, file)
    | some spot => (true, file.modifyEntries i fun entries => entries.eraseIdx spot)

/-- `remove_group`. -/
def removeGroup (file : KeyFile) (group : String) : Bool × KeyFile :=
  match found : file.index group with
  | none => (false, file)
  | some spot => (true,
    { groups := file.groups.eraseIdx spot
      index := fun other =>
        if other = group then none
        else (file.index other).map fun i => if i > spot then i - 1 else i
      indexed := by
        rw [← List.eraseIdx_map]
        exact file.indexed.eraseIdx found })

/-- A call that changes a key file. -/
inductive Edit where
  | setValue (group key value : String)
  | setString (group key value : String)
  | setStringList (group key : String) (items : List String)
  | removeKey (group key : String)
  | removeGroup (group : String)

/-- The key file after a call, whatever the call returned. -/
def Edit.apply (file : KeyFile) : Edit → KeyFile
  | .setValue group key value => (file.setValue group key value).2
  | .setString group key value => (file.setString group key value).2
  | .setStringList group key items => (file.setStringList group key items).2
  | .removeKey group key => (file.removeKey group key).2
  | .removeGroup group => (file.removeGroup group).2

/-- The key files that a caller can hold. -/
inductive Reached : KeyFile → Prop
  | parsed {input : String} {file : KeyFile} (accepted : parse input = .ok file) : Reached file
  | default : Reached .default
  | edited {file : KeyFile} (edit : Edit) (before : Reached file) : Reached (edit.apply file)

/-! ### What every reachable key file satisfies -/

variable {key value : String} {entries : List (String × String)}

/-- A group name that reads back from its header. -/
structure PlainName (name : List Char) : Prop where
  some_name : name ≠ []
  no_open : '[' ∉ name
  no_close : ']' ∉ name
  one_line : '\n' ∉ name

/-- A key that reads back from its line. -/
structure PlainKey (key : List Char) : Prop where
  some_key : key ≠ []
  no_eq : '=' ∉ key
  one_line : '\n' ∉ key
  first : ∀ c, key.head? = some c → ¬ asciiWs c ∧ c ≠ '#' ∧ c ≠ '['
  last : ∀ c, key.getLast? = some c → ¬ asciiWs c

/-- A value whose start reads back. Its end need not: it may be a carriage return. -/
structure PlainValue (value : List Char) : Prop where
  one_line : '\n' ∉ value
  first : ∀ c, value.head? = some c → ¬ asciiWs c

structure WellFormedEntries (entries : List (String × String)) : Prop where
  plain : ∀ entry ∈ entries, PlainKey entry.1.toList ∧ PlainValue entry.2.toList
  once : (entries.map Prod.fst).Nodup

structure Group.WellFormed (group : Group) : Prop where
  name : PlainName group.name.toList
  entries : WellFormedEntries group.entries

/-- Every group reads back, but for carriage returns at the end of values. -/
def WellFormed (file : KeyFile) : Prop := ∀ group ∈ file.groups, group.WellFormed

theorem WellFormed.groupIndexOrInsert (good : file.WellFormed)
    (plain : PlainName name.toList) : (file.groupIndexOrInsert name).2.WellFormed := by
  unfold KeyFile.groupIndexOrInsert
  split
  · exact good
  · intro group member
    obtain old | new := List.mem_append.mp member
    · exact good group old
    · obtain rfl := List.mem_singleton.mp new
      exact ⟨plain, by simp, by simp⟩

theorem WellFormed.modifyEntries (good : file.WellFormed) (i : Nat)
    (keeps : ∀ entries, WellFormedEntries entries → WellFormedEntries (f entries)) :
    (file.modifyEntries i f).WellFormed := by
  intro group member
  obtain ⟨j, here⟩ := List.mem_iff_getElem?.mp member
  simp only [KeyFile.modifyEntries, List.getElem?_modify] at here
  obtain ⟨old, there, rfl⟩ := Option.map_eq_some_iff.mp here
  have well := good old (List.mem_of_getElem? there)
  split
  · exact ⟨well.name, keeps _ well.entries⟩
  · exact well

theorem keys_setEntry (key value : String) (entries : List (String × String)) :
    (setEntry key value entries).map Prod.fst =
      if key ∈ entries.map Prod.fst then entries.map Prod.fst else entries.map Prod.fst ++ [key] := by
  induction entries with
  | nil => simp [setEntry]
  | cons entry entries ih =>
    unfold setEntry
    by_cases here : entry.1 = key
    · simp [here]
    · rw [if_neg here, List.map_cons, ih]
      split <;> simp_all [Ne.symm here]

theorem mem_setEntry (member : entry ∈ setEntry key value entries) : entry = (key, value) ∨ entry ∈ entries := by
  induction entries with
  | nil => exact .inl (by simpa [setEntry] using member)
  | cons head entries ih =>
    grind [setEntry, List.mem_cons_of_mem, List.mem_cons_self]

theorem WellFormedEntries.setEntry (good : WellFormedEntries entries)
    (plainKey : PlainKey key.toList) (plainValue : PlainValue value.toList) :
    WellFormedEntries (setEntry key value entries) where
  plain := by
    intro entry member
    obtain rfl | old := mem_setEntry member
    · exact ⟨plainKey, plainValue⟩
    · exact good.plain entry old
  once := by
    rw [keys_setEntry]
    split
    · exact good.once
    · next new =>
      rw [← List.concat_eq_append]
      exact good.once.concat new

theorem WellFormedEntries.eraseIdx (good : WellFormedEntries entries)
    (spot : Nat) : WellFormedEntries (entries.eraseIdx spot) where
  plain := fun entry member => good.plain entry (List.mem_of_mem_eraseIdx member)
  once := ((List.eraseIdx_sublist entries spot).map _).nodup good.once

theorem plain_of_validate (valid : validate group key value = .ok ()) :
    PlainName group.toList ∧ PlainKey key.toList ∧ PlainValue value.toList := by
  unfold validate at valid
  rw [check_bind_eq_ok, check_bind_eq_ok] at valid
  obtain ⟨groupOk, keyOk, valueOk⟩ := valid
  have absent : ∀ {text marks : List Char}, ¬ text.any (· ∈ marks) = true → ∀ mark ∈ marks, mark ∉ text :=
    fun none mark inside there => none (List.any_eq_true.mpr ⟨mark, there, decide_eq_true inside⟩)
  refine ⟨?_, ?_, ?_⟩
  · unfold validateGroup at groupOk
    split_ifs at groupOk with empty plain
    exact ⟨by simpa using empty, absent plain _ (by simp), absent plain _ (by simp), absent plain _ (by simp)⟩
  · unfold validateKey at keyOk
    split_ifs at keyOk with empty trimmed plain first
    refine ⟨by simpa using empty, absent plain _ (by simp), absent plain _ (by simp), ?_, ?_⟩
    · intro c starts
      simp_all
    · intro c ends
      simp_all
  · unfold validateValue at valueOk
    split_ifs at valueOk with plain trimmed
    refine ⟨absent plain _ (by simp), ?_⟩
    intro c starts
    rw [starts] at trimmed
    simpa using trimmed

section

variable (good : file.WellFormed)

include good

theorem WellFormed.setValue (group key value : String) :
    (file.setValue group key value).2.WellFormed := by
  unfold KeyFile.setValue
  cases valid : validate group key value with
  | error => exact good
  | ok =>
    obtain ⟨plainGroup, plainKey, plainValue⟩ := plain_of_validate valid
    exact (good.groupIndexOrInsert plainGroup).modifyEntries _ fun _ entries =>
      entries.setEntry plainKey plainValue

theorem WellFormed.removeKey (group key : String) :
    (file.removeKey group key).2.WellFormed := by
  unfold KeyFile.removeKey
  split
  · exact good
  · split
    · exact good
    · exact good.modifyEntries _ fun _ entries => entries.eraseIdx _

theorem WellFormed.removeGroup (group : String) :
    (file.removeGroup group).2.WellFormed := by
  unfold KeyFile.removeGroup
  split
  · exact good
  · exact fun other member => good other (List.mem_of_mem_eraseIdx member)

/-- Every call keeps a key file well formed. -/
theorem WellFormed.apply (edit : Edit) :
    (edit.apply file).WellFormed := by
  cases edit with
  | setValue group key value => exact good.setValue group key value
  | setString group key value | setStringList group key items => exact good.setValue group key _
  | removeKey group key => exact good.removeKey group key
  | removeGroup group => exact good.removeGroup group

end

/-! ### The parser keeps the invariant -/

variable {c : Char} {after : List Char} {lineno : Nat}

theorem setEntry_of_not_mem
    (new : key ∉ entries.map Prod.fst) : setEntry key value entries = entries ++ [(key, value)] := by
  induction entries with
  | nil => rfl
  | cons entry entries ih =>
    rw [List.map_cons, List.mem_cons, not_or] at new
    unfold setEntry
    rw [if_neg (Ne.symm new.1), ih new.2]
    rfl

theorem setEntry_of_position (once : (entries.map Prod.fst).Nodup) (here : (entries.map Prod.fst)[spot]? = some key) :
    setEntry key value entries = entries.modify spot fun entry => (entry.1, value) := by
  induction entries generalizing spot with
  | nil => simp at here
  | cons entry entries ih =>
    grind [setEntry]

theorem modifyEntries_congr (file : KeyFile) (i : Nat) (same : f (file.entriesAt i) = g (file.entriesAt i)) :
    file.modifyEntries i f = file.modifyEntries i g := by
  ext1
  apply List.ext_getElem?
  intro j
  simp only [modifyEntries, List.getElem?_modify]
  by_cases here : i = j
  · subst here
    unfold entriesAt at same
    cases at_ : file.groups[i]? with
    | none => rfl
    | some group =>
      rw [at_] at same
      simpa using same
  · simp [here]

/-- **The lookup in `keys` is a search**: an entry line does to its group what `set_value` does. -/
theorem ParseState.put_keyfile (state : ParseState) (i : Nat) (here : state.current = some i) (key value : String) :
    (state.put i here key value).keyfile = state.keyfile.modifyEntries i (setEntry key value) := by
  unfold ParseState.put
  split
  · next spot found =>
    refine modifyEntries_congr _ _ ?_
    exact (setEntry_of_position (state.keyed i).nodup ((state.keyed i key spot).mp found)).symm
  · next found =>
    dsimp only
    refine modifyEntries_congr _ _ ?_
    exact (setEntry_of_not_mem ((state.keyed i).eq_none.mp found)).symm

@[simp] theorem ParseState.put_current (state : ParseState) (i : Nat) (here : state.current = some i)
    (key value : String) : (state.put i here key value).current = some i := by
  unfold ParseState.put
  split <;> exact here

theorem mem_of_mem_trim (inside : c ∈ trim asciiWs text) : c ∈ text :=
  (List.dropWhile_suffix _).mem ((List.rdropWhile_prefix _ _).mem inside)

/-- The first character of a trimmed text is the first one that is not blank. -/
theorem head_trim (starts : (trim asciiWs text).head? = some c) :
    (text.dropWhile asciiWs).head? = some c := by
  obtain ⟨rest, joined⟩ := List.rdropWhile_prefix asciiWs (text.dropWhile asciiWs)
  unfold trim at starts
  rw [← joined, List.head?_append, starts]
  rfl

/-- The key of a line starts where the line starts. -/
theorem head_trim_append {key rest : List Char} (starts : (trim asciiWs key).head? = some c) :
    ((key ++ rest).dropWhile asciiWs).head? = some c := by
  have first := head_trim starts
  rw [List.dropWhile_append]
  split
  · next empty => simp [List.isEmpty_iff.mp empty] at first
  · rw [List.head?_append, first]
    rfl

theorem PlainName.of_header (oneLine : '\n' ∉ rest)
    (closed : splitOnce ']' rest = some (name, after)) (some_name : name ≠ [])
    (plain : ¬ ('[' ∈ name ∨ ']' ∈ name)) : PlainName name := by
  obtain ⟨rfl, -⟩ := splitOnce_eq_some.mp closed
  exact ⟨some_name, fun inside => plain (.inl inside), fun inside => plain (.inr inside),
    fun inside => oneLine (List.mem_append_left _ inside)⟩

theorem PlainKey.of_line {line before : List Char} (oneLine : '\n' ∉ line)
    (cut : splitOnce '=' line = some (before, after)) (some_key : trim asciiWs before ≠ [])
    (first : ∀ c, (line.dropWhile asciiWs).head? = some c → c ≠ '#' ∧ c ≠ '[') :
    PlainKey (trim asciiWs before) := by
  obtain ⟨rfl, absent⟩ := splitOnce_eq_some.mp cut
  refine ⟨some_key, fun inside => absent (mem_of_mem_trim inside),
    fun inside => oneLine (List.mem_append_left _ (mem_of_mem_trim inside)), ?_, ?_⟩
  · intro c starts
    exact ⟨head_dropWhile (head_trim starts), first c (head_trim_append starts)⟩
  · intro c ends
    exact last_rdropWhile ends

theorem PlainValue.of_line (oneLine : '\n' ∉ line)
    (cut : splitOnce '=' line = some (before, after)) : PlainValue (after.dropWhile asciiWs) := by
  obtain ⟨rfl, -⟩ := splitOnce_eq_some.mp cut
  refine ⟨fun inside => oneLine ?_, fun c starts => head_dropWhile starts⟩
  exact List.mem_append_right _ (.tail _ ((List.dropWhile_suffix _).mem inside))

/-- What a line asks for. -/
inductive LineCall where
  | header (name : String)
  | entry (key value : String)

/-- The call of a line: a blank line and a comment ask for nothing. -/
def lineCall (raw : List Char) : Option LineCall :=
  match trim asciiWs (stripSuffix '\r' raw) with
  | [] => none
  | first :: rest =>
    if first = '#' then none
    else if first = '[' then (splitOnce ']' rest).map fun cut => .header (String.ofList cut.1)
    else (splitOnce '=' (stripSuffix '\r' raw)).map fun cut =>
      .entry (String.ofList (trim asciiWs cut.1)) (String.ofList (cut.2.dropWhile asciiWs))

/-- An accepted line is skipped, opens a group, or sets a key. -/
theorem parseLine_cases (oneLine : '\n' ∉ raw) (accepted : parseLine lineno state raw = .ok next) :
    (lineCall raw = none ∧ next = state) ∨
    (∃ name : String, PlainName name.toList ∧ lineCall raw = some (.header name) ∧ next = state.enter name) ∨
    ∃ key value : String, ∃ i here, PlainKey key.toList ∧ PlainValue value.toList ∧
      lineCall raw = some (.entry key value) ∧ next = state.put i here key value := by
  have oneLine' : '\n' ∉ stripSuffix '\r' raw := fun inside => oneLine (mem_of_mem_stripSuffix inside)
  unfold KeyFile.parseLine at accepted
  unfold lineCall
  cases trimmed : trim asciiWs (stripSuffix '\r' raw) with
  | nil =>
    simp only [trimmed, Except.ok.injEq] at accepted
    exact .inl ⟨rfl, accepted.symm⟩
  | cons first rest =>
    simp only [trimmed] at accepted
    dsimp only
    split at accepted
    · next comment =>
      cases accepted
      exact .inl ⟨if_pos comment, rfl⟩
    · next comment =>
      rw [if_neg comment]
      right
      split at accepted
      · next header =>
        have restOneLine : '\n' ∉ rest := fun inside => oneLine' (mem_of_mem_trim (by
          rw [trimmed]
          exact .tail _ inside))
        unfold parseHeader at accepted
        split at accepted
        · cases accepted
        · next name after closed =>
          split_ifs at accepted with trailing empty structural
          cases accepted
          refine .inl ⟨String.ofList name, ?_, by rw [if_pos header, closed]; rfl, rfl⟩
          rw [String.toList_ofList]
          exact .of_header restOneLine closed empty structural
      · next header =>
        unfold parseEntry at accepted
        split at accepted
        · cases accepted
        · next before after cut =>
          dsimp only at accepted
          split at accepted
          · cases accepted
          · next some_key =>
            split at accepted
            · cases accepted
            · next i here =>
              cases accepted
              refine .inr ⟨_, _, i, here, ?_, ?_, by rw [if_neg header, cut]; rfl, rfl⟩
              · rw [String.toList_ofList]
                refine .of_line oneLine' cut some_key fun c at_ => ?_
                have starts : some first = some c := by
                  rw [← at_]
                  exact (head_trim (by rw [trimmed]; rfl)).symm
                cases starts
                exact ⟨comment, header⟩
              · rw [String.toList_ofList]
                exact .of_line oneLine' cut

theorem WellFormed.parseLine (good : state.keyfile.WellFormed) (oneLine : '\n' ∉ raw)
    (accepted : parseLine lineno state raw = .ok next) : next.keyfile.WellFormed := by
  obtain ⟨-, rfl⟩ | ⟨name, plain, -, rfl⟩ | ⟨key, value, i, here, plainKey, plainValue, -, rfl⟩ :=
    parseLine_cases oneLine accepted
  · exact good
  · exact good.groupIndexOrInsert plain
  · rw [ParseState.put_keyfile]
    exact good.modifyEntries _ fun _ entries => entries.setEntry plainKey plainValue

theorem WellFormed.parseLines (good : state.keyfile.WellFormed) (oneLine : ∀ row ∈ rows, '\n' ∉ row)
    (accepted : parseLines lineno state rows = .ok last) : last.keyfile.WellFormed := by
  induction rows generalizing lineno state with
  | nil =>
    cases accepted
    exact good
  | cons row rows ih =>
    obtain ⟨next, step, rest⟩ := bind_eq_ok.mp accepted
    exact ih (good.parseLine (oneLine row (.head _)) step)
      (fun row member => oneLine row (.tail _ member)) rest

/-- **Every key file that a caller can hold is well formed.** -/
theorem Reached.wellFormed (reached : Reached file) : file.WellFormed := by
  induction reached with
  | parsed accepted =>
    obtain ⟨last, rows, rfl⟩ := map_eq_ok.mp accepted
    exact WellFormed.parseLines (by simp [WellFormed, ParseState.start, KeyFile.default])
      (fun row member => not_mem_of_mem_lines member) rows
  | default => simp [WellFormed, KeyFile.default]
  | edited edit before ih => exact ih.apply edit

end KeyFile
end Ostrya.Core
