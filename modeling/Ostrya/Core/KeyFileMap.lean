/-
**A key file as an ordered map** (`keyfile.rs`).

`Ref` is the reference: the groups in order, the keys of each group in order, the value of each key, with no
positions in it. `Run` pairs a key file with the reference that took the same calls.

* `Run.toRef` — whatever was parsed and called, the key file answers as the reference.
* `splitItems_marked` — a list value is cut where its items end, with any text after it.
-/

import Ostrya.Core.KeyFileValues

namespace Ostrya.Core.KeyFile

open ByteFormat Function

variable {file after : KeyFile} {group key value : String} {i : Nat}

/-- `groups`. -/
def groupNames (file : KeyFile) : List String := file.groups.map Group.name

/-- The entries of the group that `group` finds. -/
def groupEntries (file : KeyFile) (group : String) : List (String × String) :=
  ((file.index group).map file.entriesAt).getD []

/-- `keys`. -/
def keys (file : KeyFile) (group : String) : List String := (file.groupEntries group).map Prod.fst

/-- The value of the first entry of a key. -/
def valueIn (entries : List (String × String)) (key : String) : Option String :=
  (entries.find? fun entry => entry.1 = key).map Prod.snd

theorem getValue_eq (file : KeyFile) : file.getValue = valueIn ∘ file.groupEntries := by
  funext group key
  unfold getValue find comp groupEntries valueIn
  cases file.index group with
  | none => rfl
  | some i =>
    simp only [Option.bind_eq_bind, Option.bind_some, Option.map_some, Option.getD_some]
    cases (file.entriesAt i).find? fun entry => decide (entry.1 = key) <;> rfl

/-! ### The reference -/

/-- Ordered maps in an ordered map. -/
structure Ref where
  groups : List String
  keys : String → List String
  value : String → String → Option String

namespace Ref

def empty : Ref := ⟨[], fun _ => [], fun _ _ => none⟩

/-- A new name goes to the end. -/
def addName (name : String) (names : List String) : List String :=
  if name ∈ names then names else names ++ [name]

def openGroup (map : Ref) (group : String) : Ref := { map with groups := addName group map.groups }

def set (map : Ref) (group key value : String) : Ref where
  groups := addName group map.groups
  keys := update map.keys group (addName key (map.keys group))
  value := update map.value group (update (map.value group) key (some value))

def removeKey (map : Ref) (group key : String) : Ref where
  groups := map.groups
  keys := update map.keys group ((map.keys group).filter (· ≠ key))
  value := update map.value group (update (map.value group) key none)

def removeGroup (map : Ref) (group : String) : Ref where
  groups := map.groups.filter (· ≠ group)
  keys := update map.keys group []
  value := update map.value group fun _ => none

/-- The reference and the name of its open group, after a call. -/
def read (state : Ref × Option String) : LineCall → Ref × Option String
  | .header name => (state.1.openGroup name, some name)
  | .entry key value => (state.2.elim state.1 fun group => state.1.set group key value, state.2)

/-- The reference that the lines of a text fill. -/
def parse (input : String) : Ref := (((lines '\n' input.toList).filterMap lineCall).foldl read (empty, none)).1

/-- A call of the API. A setter whose checks fail does nothing. -/
def edit (map : Ref) : Edit → Ref
  | .setValue group key value => checked group key value
  | .setString group key value => checked group key (String.ofList (escape value))
  | .setStringList group key items => checked group key (String.ofList (items.flatMap listItem))
  | .removeKey group key => map.removeKey group key
  | .removeGroup group => map.removeGroup group
where
  checked (group key value : String) : Ref :=
    if (validate group key value).isOk then map.set group key value else map

end Ref

/-- What the key file answers. -/
def toRef (file : KeyFile) : Ref := ⟨file.groupNames, file.keys, file.getValue⟩

/-- A key file, and the reference that took the same calls. -/
inductive Run : KeyFile → Ref → Prop
  | default : Run .default .empty
  | parsed {input : String} {file : KeyFile} (accepted : KeyFile.parse input = .ok file) : Run file (.parse input)
  | edited {file : KeyFile} {map : Ref} (edit : Edit) (before : Run file map) : Run (edit.apply file) (map.edit edit)

theorem WellFormed.nodup_keys (good : file.WellFormed) (group : String) : (file.keys group).Nodup := by
  unfold keys groupEntries
  cases file.index group with
  | none => exact List.nodup_nil
  | some i =>
    rw [Option.map_some, Option.getD_some, entriesAt]
    cases here : file.groups[i]? with
    | none => exact List.nodup_nil
    | some found => exact (good found (List.mem_of_getElem? here)).entries.once

theorem Run.reached (run : Run file map) : Reached file := by
  induction run with
  | default => exact .default
  | parsed accepted => exact .parsed accepted
  | edited edit before ih => exact .edited edit ih

/-! ### One group at a time -/

theorem index_injective (here : file.index group = some i) (there : file.index other = some i) : other = group := by
  have first := (file.indexed group i).mp here
  rw [(file.indexed other i).mp there] at first
  exact Option.some.inj first

theorem toRef_update (changed : after.groupEntries = update file.groupEntries group entries) :
    after.toRef = ⟨after.groupNames, update file.keys group (entries.map Prod.fst),
      update file.getValue group (valueIn entries)⟩ := by
  have sameKeys : after.keys = List.map Prod.fst ∘ after.groupEntries := rfl
  rw [toRef, sameKeys, getValue_eq, changed, comp_update, comp_update, ← getValue_eq]
  rfl

theorem groupEntries_modifyEntries (here : file.index group = some i)
    (f : List (String × String) → List (String × String)) :
    (file.modifyEntries i f).groupEntries = update file.groupEntries group (f (file.groupEntries group)) := by
  obtain ⟨inside, -⟩ := List.getElem?_eq_some_iff.mp ((file.indexed group i).mp here)
  rw [List.length_map] at inside
  funext other
  have found : (file.modifyEntries i f).index = file.index := rfl
  unfold groupEntries
  rw [found]
  by_cases same : other = group
  · rw [same, update_self, here]
    exact (entriesAt_modifyEntries file inside f i).trans (if_pos rfl)
  · rw [update_of_ne same]
    cases there : file.index other with
    | none => rfl
    | some j =>
      refine (entriesAt_modifyEntries file inside f j).trans (if_neg ?_)
      rintro rfl
      exact same (index_injective here there)

theorem groupNames_modifyEntries (file : KeyFile) (i : Nat) (f : List (String × String) → List (String × String)) :
    (file.modifyEntries i f).groupNames = file.groupNames := names_modify file.groups i f

theorem mem_groupNames : group ∈ file.groupNames ↔ (file.index group).isSome := by
  rw [Option.isSome_iff_ne_none, ne_eq, file.indexed.eq_none, not_not]
  rfl

theorem index_groupIndexOrInsert (file : KeyFile) (group other : String) :
    (file.groupIndexOrInsert group).2.index other =
      if other = group then some (file.groupIndexOrInsert group).1 else file.index other := by
  unfold groupIndexOrInsert
  split
  · next i found => grind
  · rfl

theorem groupNames_groupIndexOrInsert (file : KeyFile) (group : String) :
    (file.groupIndexOrInsert group).2.groupNames = Ref.addName group file.groupNames := by
  have known := @mem_groupNames file group
  unfold groupIndexOrInsert Ref.addName
  split
  · next i found => rw [if_pos (known.mpr (by rw [found]; rfl))]
  · next absent =>
    rw [if_neg (by rw [known, absent]; simp)]
    exact List.map_append

/-- A group that is opened keeps its entries, and a new one has none. -/
theorem groupEntries_groupIndexOrInsert (file : KeyFile) (group : String) :
    (file.groupIndexOrInsert group).2.groupEntries = file.groupEntries := by
  have spot : (file.groupIndexOrInsert group).1 = (file.index group).getD file.groups.length := by
    unfold groupIndexOrInsert
    split <;> simp [*]
  funext other
  unfold groupEntries
  rw [index_groupIndexOrInsert, funext (entriesAt_groupIndexOrInsert file group), spot]
  by_cases same : other = group
  · subst same
    cases file.index other with
    | none => simp [entriesAt]
    | some i => simp
  · rw [if_neg same]

theorem toRef_groupIndexOrInsert (file : KeyFile) (group : String) :
    (file.groupIndexOrInsert group).2.toRef = file.toRef.openGroup group := by
  unfold toRef Ref.openGroup keys
  rw [groupNames_groupIndexOrInsert, getValue_eq, getValue_eq, groupEntries_groupIndexOrInsert]

/-! ### The calls -/

theorem valueIn_setEntry (entries : List (String × String)) (key value : String) :
    valueIn (setEntry key value entries) = update (valueIn entries) key (some value) := by
  funext other
  induction entries with
  | nil => by_cases same : other = key <;> grind [valueIn, setEntry]
  | cons entry entries ih => grind [valueIn, setEntry]

/-- A checked `set_value`, and an entry line of the parser. -/
theorem toRef_setEntry (here : file.index group = some i) (key value : String) :
    (file.modifyEntries i (setEntry key value)).toRef = file.toRef.set group key value := by
  have known : group ∈ file.groupNames := mem_groupNames.mpr (by rw [here]; rfl)
  rw [toRef_update (groupEntries_modifyEntries here _), groupNames_modifyEntries, keys_setEntry, valueIn_setEntry]
  unfold Ref.set toRef Ref.addName
  rw [if_pos known, getValue_eq]
  rfl

theorem toRef_setValue (file : KeyFile) (group key value : String) :
    (file.setValue group key value).2.toRef = Ref.edit.checked file.toRef group key value := by
  unfold setValue Ref.edit.checked
  cases validate group key value with
  | error fault => rfl
  | ok =>
    rw [toRef_setEntry ((index_groupIndexOrInsert file group group).trans (if_pos rfl)), toRef_groupIndexOrInsert]
    unfold Ref.set Ref.openGroup Ref.addName
    congr 1
    grind

/-- Taking out the one element of a name leaves the others in order. -/
theorem eraseIdx_eq_filter {α : Type} (name : α → String) {items : List α} (once : (items.map name).Nodup)
    {item : α} (here : items[i]? = some item) : items.eraseIdx i = items.filter (name · ≠ name item) := by
  induction items generalizing i with
  | nil => cases here
  | cons first items ih =>
    rw [List.map_cons, List.nodup_cons] at once
    cases i with
    | zero =>
      cases here
      have others : ∀ other ∈ items, decide (name other ≠ name item) = true := fun other member =>
        decide_eq_true fun same => once.1 (same ▸ List.mem_map_of_mem member)
      rw [List.eraseIdx_cons_zero, List.filter_cons_of_neg (by simp), List.filter_eq_self.mpr others]
    | succ i =>
      have there : items[i]? = some item := by simpa using here
      have other : name first ≠ name item := fun same =>
        once.1 (same ▸ List.mem_map_of_mem (List.mem_of_getElem? there))
      rw [List.eraseIdx_cons_succ, List.filter_cons_of_pos (by simpa using other), ih once.2 there]

theorem valueIn_filter (entries : List (String × String)) (key : String) :
    valueIn (entries.filter (·.1 ≠ key)) = update (valueIn entries) key none := by
  funext other
  induction entries with
  | nil => by_cases same : other = key <;> grind [valueIn]
  | cons entry entries ih => grind [valueIn]

theorem toRef_filter (names : after.groupNames = file.groupNames)
    (changed : after.groupEntries = update file.groupEntries group ((file.groupEntries group).filter (·.1 ≠ key))) :
    after.toRef = file.toRef.removeKey group key := by
  rw [toRef_update changed, valueIn_filter, names]
  unfold Ref.removeKey toRef keys
  rw [List.filter_map, getValue_eq]
  rfl

theorem toRef_removeKey (once : (file.keys group).Nodup) (key : String) :
    (file.removeKey group key).2.toRef = file.toRef.removeKey group key := by
  -- Where the key is absent, the reference is left as it is.
  have absent : key ∉ file.keys group → file.toRef = file.toRef.removeKey group key := by
    intro missing
    refine toRef_filter rfl ?_
    rw [List.filter_eq_self.mpr, update_eq_self]
    exact fun entry member => decide_eq_true fun same => missing (same ▸ List.mem_map_of_mem member)
  unfold removeKey
  cases here : file.index group with
  | none =>
    exact absent (by simp [keys, groupEntries, here])
  | some i =>
    have own : file.groupEntries group = file.entriesAt i := by simp [groupEntries, here]
    rw [keys, own] at once
    dsimp only
    cases spot : (file.entriesAt i).findIdx? fun entry => entry.1 = key with
    | none =>
      refine absent fun member => ?_
      rw [keys, own] at member
      obtain ⟨entry, inside, rfl⟩ := List.mem_map.mp member
      simpa using List.findIdx?_eq_none_iff.mp spot entry inside
    | some j =>
      obtain ⟨inside, named, -⟩ := List.findIdx?_eq_some_iff_getElem.mp spot
      have found := List.getElem?_eq_getElem inside
      refine toRef_filter (groupNames_modifyEntries ..) ?_
      rw [groupEntries_modifyEntries here, own, eraseIdx_eq_filter Prod.fst once found, of_decide_eq_true named]

theorem toRef_cleared (names : after.groupNames = file.groupNames.filter (· ≠ group))
    (changed : after.groupEntries = update file.groupEntries group []) :
    after.toRef = file.toRef.removeGroup group := by
  rw [toRef_update changed, names]
  rfl

theorem toRef_removeGroup (file : KeyFile) (group : String) :
    (file.removeGroup group).2.toRef = file.toRef.removeGroup group := by
  unfold removeGroup
  split
  · next absent =>
    have missing : group ∉ file.groupNames := file.indexed.eq_none.mp absent
    refine toRef_cleared ?_ ?_
    · refine (List.filter_eq_self.mpr fun name member => ?_).symm
      simpa using fun same : name = group => missing (same ▸ member)
    · rw [eq_comm, update_eq_self_iff, groupEntries, absent]
      rfl
  · next spot found =>
    have here := (file.indexed group spot).mp found
    refine toRef_cleared ?_ ?_
    · have erased := eraseIdx_eq_filter id (by rw [List.map_id]; exact file.indexed.nodup) here
      rw [groupNames, ← List.eraseIdx_map]
      exact erased
    · funext other
      by_cases same : other = group
      · rw [same, update_self]
        simp [groupEntries]
      · rw [update_of_ne same]
        unfold groupEntries
        dsimp only
        rw [if_neg same]
        cases there : file.index other with
        | none => rfl
        | some i =>
          have apart : i ≠ spot := by
            rintro rfl
            exact same (index_injective found there)
          simp only [Option.map_some, Option.getD_some, entriesAt, List.getElem?_eraseIdx]
          congr 2
          grind

/-! ### Runs -/

/-- The reference stands where the parser stands: the name of its open group is at the current
position. -/
structure Follows (state : ParseState) (map : Ref × Option String) : Prop where
  same : state.keyfile.toRef = map.1
  current : map.2.map state.keyfile.index = state.current.map some

theorem Follows.line (follows : Follows state map)
    (oneLine : '\n' ∉ raw) (accepted : parseLine lineno state raw = .ok next) :
    Follows next ((lineCall raw).elim map (Ref.read map)) := by
  obtain ⟨map, current⟩ := map
  obtain ⟨same, at_⟩ := follows
  obtain ⟨call, rfl⟩ | ⟨name, -, call, rfl⟩ | ⟨key, value, i, here, -, -, call, rfl⟩ :=
    parseLine_cases oneLine accepted
  · rw [call]
    exact ⟨same, at_⟩
  · rw [call]
    exact ⟨(toRef_groupIndexOrInsert ..).trans (congrArg (Ref.openGroup · name) same),
      congrArg some ((index_groupIndexOrInsert ..).trans (if_pos rfl))⟩
  · rw [here] at at_
    obtain ⟨group, rfl, index⟩ := Option.map_eq_some_iff.mp at_
    rw [call]
    refine ⟨?_, ?_⟩
    · rw [ParseState.put_keyfile, toRef_setEntry index, same]
      rfl
    · rw [ParseState.put_current, ParseState.put_keyfile]
      exact congrArg some index

theorem Follows.lines (follows : Follows state map) (oneLine : ∀ row ∈ rows, '\n' ∉ row)
    (accepted : parseLines lineno state rows = .ok last) :
    Follows last ((rows.filterMap lineCall).foldl Ref.read map) := by
  induction rows generalizing lineno state map with
  | nil =>
    cases accepted
    exact follows
  | cons row rows ih =>
    obtain ⟨next, step, rest⟩ := bind_eq_ok.mp accepted
    have after := ih (follows.line (oneLine row (.head _)) step)
      (fun row member => oneLine row (.tail _ member)) rest
    cases call : lineCall row <;> simpa [call] using after

/-- **Whatever was parsed and called, the key file answers as the reference.** -/
theorem Run.toRef (run : Run file map) : file.toRef = map := by
  induction run with
  | default => rfl
  | parsed accepted =>
    obtain ⟨last, rows, rfl⟩ := map_eq_ok.mp accepted
    exact (Follows.lines ⟨rfl, rfl⟩ (fun row member => not_mem_of_mem_lines member) rows).same
  | @edited file map edit before ih =>
    have once := before.reached.wellFormed.nodup_keys
    subst ih
    cases edit with
    | setValue group key value | setString group key value | setStringList group key items => exact toRef_setValue ..
    | removeKey group key => exact toRef_removeKey (once group) key
    | removeGroup group => exact toRef_removeGroup ..

/-- The setters that returned an error. -/
def Edit.refused (file : KeyFile) : Edit → Bool
  | .setValue group key value => !(file.setValue group key value).1.isOk
  | .setString group key value => !(file.setString group key value).1.isOk
  | .setStringList group key items => !(file.setStringList group key items).1.isOk
  | _ => false

theorem setValue_refused (refused : (!(file.setValue group key value).1.isOk) = true) :
    (file.setValue group key value).2 = file := by
  unfold setValue at refused ⊢
  cases checked : validate group key value with
  | error fault => rfl
  | ok =>
    rw [checked] at refused
    cases refused

/-- **A key file is an ordered map**, whatever sequence of calls made it: its index is exact, its
names are unique, its getters answer as the reference does, and a refused setter changes nothing. -/
theorem keyfile_is_ordered_map {map : Ref} (run : Run file map) :
    Positions file.index file.groupNames ∧ file.groupNames.Nodup ∧ (∀ group, (file.keys group).Nodup) ∧
      file.groupNames = map.groups ∧ file.keys = map.keys ∧ file.getValue = map.value ∧
      (∀ group, file.hasGroup group = decide (group ∈ map.groups)) ∧
      ∀ edit : Edit, edit.refused file = true → edit.apply file = file := by
  have same := run.toRef
  have once := run.reached.wellFormed.nodup_keys
  subst same
  refine ⟨file.indexed, file.indexed.nodup, once, rfl, rfl, rfl, fun group => ?_, ?_⟩
  · rw [Bool.eq_iff_iff, decide_eq_true_iff]
    exact mem_groupNames.symm
  · intro edit refused
    cases edit with
    | setValue group key value | setString group key value | setStringList group key items =>
      exact setValue_refused refused
    | removeKey group key | removeGroup group => cases refused

/-- A group that is opened twice, a repeated key, and a group taken out before another. -/
theorem keyfile_is_ordered_map_sample :
    ∃ file : KeyFile, file.groupNames = ["b"] ∧ file.keys "b" = ["k"] ∧ file.getValue "b" "k" = some "2" := by
  obtain ⟨start, accepted⟩ : ∃ start, parse "[a]\nx=0\n[b]\nk=1\n[a]\ny=0\n[b]\nk=2\n" = .ok start := ⟨_, rfl⟩
  obtain ⟨-, -, -, names, keys, values, -, -⟩ :=
    keyfile_is_ordered_map (.edited (.removeGroup "a") (.parsed accepted))
  refine ⟨_, names.trans ?_, (congrFun keys "b").trans ?_, (congrFun (congrFun values "b") "k").trans ?_⟩
  all_goals decide +kernel

/-! ### Lists -/

/-- The loop of `split_list`. An escape sequence stays as it is. -/
def splitItems (current : List Char) : List Char → Except Error (List (List Char))
  | [] => .ok (if current = [] then [] else [current])
  | c :: text =>
    if c = '\x5c' then
      match text with
      | [] => .error (.keyFile "value ends with a lone backslash")
      | next :: text => splitItems (current ++ ['\x5c', next]) text
    else if c = ';' then (splitItems [] text).map (current :: ·)
    else splitItems (current ++ [c]) text

/-- `split_list`. -/
def splitList (raw : String) : Except Error (List String) := do
  let items ← splitItems [] raw.toList
  items.mapM fun item => (unescape item).map String.ofList

/-- `get_string_list`. -/
def getStringList (file : KeyFile) (group key : String) : Except Error (Option (List String)) :=
  match file.find group key with
  | none => .ok none
  | some value => (splitList value).map some

/-- An item of a list value, less its separator. -/
def marked (leading : Bool) (text : List Char) : List Char :=
  (escapeFrom leading text).flatMap fun c => if c = ';' then ['\x5c', c] else [c]

/-- A character of an item is written as an escape sequence or as itself. -/
theorem marked_cons (leading : Bool) (c : Char) (text : List Char) :
    ∃ leading', (∃ sign, escaped sign = some c ∧ marked leading (c :: text) = '\x5c' :: sign :: marked leading' text) ∨
      (c ≠ '\x5c' ∧ c ≠ ';' ∧ marked leading (c :: text) = c :: marked leading' text) := by
  simp only [marked, escapeFrom]
  split_ifs with backslash newline return_ space tab
  · exact ⟨false, .inl ⟨'\x5c', by rw [backslash]; rfl, rfl⟩⟩
  · exact ⟨false, .inl ⟨'n', newline ▸ rfl, rfl⟩⟩
  · exact ⟨false, .inl ⟨'r', return_ ▸ rfl, rfl⟩⟩
  · exact ⟨leading, .inl ⟨'s', space.1 ▸ rfl, rfl⟩⟩
  · exact ⟨leading, .inl ⟨'t', tab.1 ▸ rfl, rfl⟩⟩
  · by_cases separator : c = ';'
    · exact ⟨false, .inl ⟨';', by rw [separator]; rfl, by rw [separator]; rfl⟩⟩
    · exact ⟨false, .inr ⟨backslash, separator, by rw [List.flatMap_cons, if_neg separator]; rfl⟩⟩

/-- **An item is cut at its own separator**, whatever follows. -/
theorem splitItems_marked (leading : Bool) (text current rest : List Char) :
    splitItems current (marked leading text ++ ';' :: rest) =
      (splitItems [] rest).map ((current ++ marked leading text) :: ·) := by
  induction text generalizing leading current with
  | nil =>
    rw [show marked leading [] = [] from rfl, List.append_nil, List.nil_append, splitItems.eq_def]
    rfl
  | cons c text ih =>
    obtain ⟨leading', ⟨sign, -, written⟩ | ⟨plain, apart, written⟩⟩ := marked_cons leading c text
    · rw [written, List.cons_append, List.cons_append, splitItems.eq_def]
      simp [ih]
    · rw [written, List.cons_append, splitItems.eq_def]
      simp only [if_neg plain, if_neg apart, ih, List.append_assoc, List.cons_append, List.nil_append]

theorem unescape_marked (leading : Bool) (text : List Char) : unescape (marked leading text) = .ok text := by
  induction text generalizing leading with
  | nil => rfl
  | cons c text ih =>
    obtain ⟨leading', ⟨sign, reads, written⟩ | ⟨plain, -, written⟩⟩ := marked_cons leading c text
    · rw [written, unescape_sign reads, ih, map_ok]
    · rw [written, unescape_plain plain, ih, map_ok]

/-- **`split_list` undoes the writer of lists.** -/
theorem splitList_items (items : List String) : splitList (String.ofList (items.flatMap listItem)) = .ok items := by
  have cut : splitItems [] (items.flatMap listItem) = .ok (items.map fun item => marked true item.toList) := by
    induction items with
    | nil => rfl
    | cons item items ih =>
      have first : listItem item = marked true item.toList ++ [';'] := rfl
      rw [List.flatMap_cons, first, List.append_assoc, List.singleton_append, splitItems_marked, ih]
      rfl
  rw [splitList, String.toList_ofList, cut, ok_bind]
  clear cut
  induction items with
  | nil => rfl
  | cons item items ih =>
    rw [List.map_cons, List.mapM_cons, unescape_marked, ih, map_ok, String.ofList_toList]
    rfl

theorem validateValue_items (items : List String) :
    validateValue (String.ofList (items.flatMap listItem)) = .ok () := by
  have letter : ∀ {c}, c ∈ items.flatMap listItem → c = '\x5c' ∨ c = ';' ∨ ∃ item, c ∈ escape item := by
    intro c inside
    obtain ⟨item, -, inside⟩ := List.mem_flatMap.mp inside
    rw [listItem, List.mem_append, List.mem_flatMap, List.mem_singleton] at inside
    grind
  have head : ∀ {item c}, (listItem item).head? = some c → asciiWs c = false := by
    intro item c starts
    unfold listItem at starts
    cases text : escape item with
    | nil =>
      rw [text] at starts
      cases starts
      rfl
    | cons d rest =>
      have solid : asciiWs d = false := @head_escape item d (by rw [text]; rfl)
      rw [text, List.flatMap_cons] at starts
      by_cases separator : d = ';'
      all_goals
        simp only [separator, if_true, if_false] at starts
        cases starts
      · rfl
      · exact solid
  refine validateValue_of_plain ?_ fun c starts => ?_
  · rw [String.toList_ofList]
    constructor
    all_goals
      intro inside
      obtain ends | ends | ⟨item, inside⟩ := letter inside
      · cases ends
      · cases ends
    · exact (oneLine_escapeFrom true item.toList).1 inside
    · exact (oneLine_escapeFrom true item.toList).2 inside
  · rw [String.toList_ofList] at starts
    cases items with
    | nil => cases starts
    | cons item items =>
      refine @head item c ?_
      rwa [List.flatMap_cons, List.head?_append_of_ne_nil _ (by simp [listItem])] at starts

/-- A checked value is there afterwards, and every other key reads as before. -/
theorem find_setValue (valid : validate group key value = .ok ()) :
    (file.setValue group key value).1 = .ok () ∧
      ∀ group' key', (file.setValue group key value).2.find group' key' =
        if group' = group ∧ key' = key then some value else file.find group' key' := by
  have after := congrArg Ref.value (toRef_setValue file group key value)
  refine ⟨by rw [setValue, valid], fun group' key' => ?_⟩
  rw [Ref.edit.checked, valid] at after
  refine (congrFun (congrFun after group') key').trans ?_
  show update file.getValue group (update (file.getValue group) key (some value)) group' key' = _
  by_cases here : group' = group
  · rw [here, update_self, update_apply]
    simp [getValue]
  · rw [update_of_ne here, if_neg (fun both => here both.1), getValue]

/-- **Values survive escaping**: for every key file, and every group and key that the checks
accept. -/
theorem values_survive_escaping (file : KeyFile) {group key : String} (named : validateGroup group = .ok ())
    (keyed : validateKey key = .ok ()) (text : String) (items : List String) :
    ((file.setString group key text).1 = .ok () ∧
      (file.setString group key text).2.getString group key = .ok (some text) ∧
      ∀ group' key', ¬ (group' = group ∧ key' = key) →
        (file.setString group key text).2.find group' key' = file.find group' key') ∧
    (file.setStringList group key items).1 = .ok () ∧
      (file.setStringList group key items).2.getStringList group key = .ok (some items) ∧
      ∀ group' key', ¬ (group' = group ∧ key' = key) →
        (file.setStringList group key items).2.find group' key' = file.find group' key' := by
  have valid : ∀ {value}, validateValue value = .ok () → validate group key value = .ok () := by
    intro value plain
    rw [validate, named, ok_bind, keyed, ok_bind, plain]
  have plain : validateValue (String.ofList (escape text)) = .ok () := by
    refine validateValue_of_plain ?_ fun c starts => ?_
    · rw [String.toList_ofList]
      exact oneLine_escapeFrom true text.toList
    · rw [String.toList_ofList] at starts
      exact head_escape starts
  obtain ⟨first, one⟩ := @find_setValue file _ _ _ (valid plain)
  obtain ⟨second, many⟩ := @find_setValue file _ _ _ (valid (validateValue_items items))
  refine ⟨⟨first, ?_, fun _ _ other => (one _ _).trans (if_neg other)⟩, second, ?_,
    fun _ _ other => (many _ _).trans (if_neg other)⟩
  · rw [getString, setString, one, if_pos ⟨rfl, rfl⟩]
    simp [unescape_escape]
  · rw [getStringList, setStringList, many, if_pos ⟨rfl, rfl⟩]
    simp [splitList_items]

theorem values_survive_escaping_items :
    validateGroup "g" = .ok () ∧ validateKey "k" = .ok () ∧
      (KeyFile.default.setStringList "g" "k" ["", " a;", "\\"]).2.getStringList "g" "k" =
        .ok (some ["", " a;", "\\"]) :=
  ⟨rfl, rfl, (values_survive_escaping .default rfl rfl "" ["", " a;", "\\"]).2.2.1⟩

end Ostrya.Core.KeyFile
