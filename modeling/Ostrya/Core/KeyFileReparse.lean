/-
**The text of a key file reads back** (`keyfile.rs`, `Display` against `KeyFile::parse`).

The writer puts each group header and each entry on a line of its own and escapes nothing. The parser
reads these lines back one by one: the header adds the group, the entry lines fill it, and a value
loses one carriage return at its end, which the parser takes for a part of the line end
(`parse_display`). So a key file reads back as itself exactly where no value ends with one.
-/

import Ostrya.Core.KeyFile

namespace Ostrya.Core.KeyFile

open ByteFormat

/-- The value text that a second parse reads. -/
def reparsed (value : String) : String := String.ofList (stripSuffix '\r' value.toList)

/-- The group that a second parse reads. -/
def Group.reparsed (group : Group) : Group :=
  { group with entries := group.entries.map fun entry => (entry.1, KeyFile.reparsed entry.2) }

/-- The key file that a second parse reads. -/
def reparse (file : KeyFile) : KeyFile :=
  { groups := file.groups.map Group.reparsed
    index := file.index
    indexed := by
      rw [List.map_map]
      exact file.indexed }

/-- The line of an entry. -/
def entryRow (entry : String × String) : List Char := entry.1.toList ++ '=' :: entry.2.toList

/-- The lines of a group. -/
def Group.rows (group : Group) : List (List Char) :=
  ('[' :: group.name.toList ++ [']']) :: group.entries.map entryRow

/-- The lines of the groups from the `i`-th on. -/
def rowsFrom (i : Nat) : List Group → List (List Char)
  | [] => []
  | group :: groups => (if i > 0 then [[]] else []) ++ group.rows ++ rowsFrom (i + 1) groups

theorem fmtFrom_eq_unlines (i : Nat) (groups : List Group) :
    fmtFrom i groups = unlines '\n' (rowsFrom i groups) := by
  induction groups generalizing i with
  | nil => rfl
  | cons group groups ih =>
    have rows : group.fmt = unlines '\n' group.rows := by
      simp [Group.fmt, Group.rows, unlines, List.flatMap_map, entryRow]
    unfold fmtFrom rowsFrom
    rw [ih, rows]
    unfold unlines
    rw [List.flatMap_append, List.flatMap_append]
    split <;> rfl

theorem parseLine_header (plain : PlainName name.toList) (lineno : Nat) (state : ParseState) :
    parseLine lineno state ('[' :: name.toList ++ [']']) = .ok (state.enter name) := by
  have line : stripSuffix '\r' ('[' :: name.toList ++ [']']) = '[' :: name.toList ++ [']'] :=
    stripSuffix_of_ne (by rw [List.getLast?_concat]; decide)
  have trimmed : trim asciiWs ('[' :: name.toList ++ [']']) = '[' :: (name.toList ++ [']']) := by
    unfold trim
    rw [dropWhile_of_head (by intro c starts; cases starts; decide)]
    exact rdropWhile_of_last (by intro c ends; rw [List.getLast?_concat] at ends; cases ends; decide)
  have closed : splitOnce ']' (name.toList ++ [']']) = some (name.toList, []) :=
    splitOnce_eq_some.mpr ⟨rfl, plain.no_close⟩
  have blank : trim asciiWs [] = [] := rfl
  unfold parseLine
  simp only [line, trimmed, parseHeader, closed, blank]
  simp [plain.some_name, plain.no_open, plain.no_close]

theorem stripSuffix_entryRow (key value : List Char) :
    stripSuffix '\r' (key ++ '=' :: value) = key ++ '=' :: stripSuffix '\r' value := by
  rw [stripSuffix_append key (by simp)]
  cases value with
  | nil => rfl
  | cons c value => exact congrArg (key ++ ·) (stripSuffix_append ['='] (by simp))

theorem head_stripSuffix (starts : (stripSuffix '\r' value).head? = some c) :
    value.head? = some c := by
  unfold stripSuffix at starts
  split at starts
  · obtain ⟨rest, joined⟩ := List.dropLast_prefix value
    rw [← joined, List.head?_append, starts]
    rfl
  · exact starts

theorem parseLine_entry (plainKey : PlainKey key.toList)
    (plainValue : PlainValue value.toList) (lineno : Nat) (state : ParseState) (i : Nat)
    (here : state.current = some i) :
    parseLine lineno state (entryRow (key, value)) = .ok (state.put i here key (reparsed value)) := by
  obtain ⟨first, rest, keyIs⟩ := List.exists_cons_of_ne_nil plainKey.some_key
  obtain ⟨solid, comment, header⟩ := plainKey.first first (by rw [keyIs]; rfl)
  have line : stripSuffix '\r' (entryRow (key, value)) =
      key.toList ++ '=' :: stripSuffix '\r' value.toList := stripSuffix_entryRow _ _
  obtain ⟨more, trimmed⟩ : ∃ more,
      trim asciiWs (key.toList ++ '=' :: stripSuffix '\r' value.toList) = first :: more := by
    rw [keyIs]
    unfold trim
    rw [dropWhile_of_head (by intro c starts; cases starts; exact solid)]
    exact rdropWhile_cons solid _
  have cut : splitOnce '=' (key.toList ++ '=' :: stripSuffix '\r' value.toList) =
      some (key.toList, stripSuffix '\r' value.toList) := splitOnce_eq_some.mpr ⟨rfl, plainKey.no_eq⟩
  have keyTrimmed : trim asciiWs key.toList = key.toList := by
    unfold trim
    rw [dropWhile_of_head fun c starts => (plainKey.first c starts).1]
    exact rdropWhile_of_last plainKey.last
  have valueTrimmed : (stripSuffix '\r' value.toList).dropWhile asciiWs = stripSuffix '\r' value.toList :=
    dropWhile_of_head fun c starts => plainValue.first c (head_stripSuffix starts)
  unfold parseLine
  simp only [line, trimmed, if_neg comment, if_neg header]
  unfold parseEntry
  simp only [cut, keyTrimmed, valueTrimmed, if_neg plainKey.some_key, String.ofList_toList]
  split
  · next absent =>
    rw [here] at absent
    cases absent
  · next j found =>
    obtain rfl : i = j := Option.some.inj (here.symm.trans found)
    rfl

/-- The groups of a state whose current group is its last. -/
structure ParseState.At (state : ParseState) (done : List Group) (group : Group) : Prop where
  groups : state.keyfile.groups = done ++ [group]
  current : state.current = some done.length

variable {state : ParseState}

theorem ParseState.At.enter (new : name ∉ state.keyfile.groups.map Group.name) :
    (state.enter name).At state.keyfile.groups ⟨name, []⟩ := by
  have absent := state.keyfile.indexed.eq_none.mpr new
  unfold ParseState.enter groupIndexOrInsert
  constructor
  · dsimp only
    split
    · next found => rw [absent] at found; cases found
    · rfl
  · dsimp only
    split
    · next found => rw [absent] at found; cases found
    · rfl

theorem ParseState.At.put (at_ : state.At done group) (value : String)
    (new : key ∉ group.entries.map Prod.fst) : (state.put done.length at_.current key value).At done
      { group with entries := group.entries ++ [(key, value)] } := by
  refine ⟨?_, ParseState.put_current ..⟩
  rw [ParseState.put_keyfile]
  show state.keyfile.groups.modify _ _ = _
  rw [at_.groups, ← setEntry_of_not_mem new, List.modify_eq_take_cons_drop (by simp)]
  simp

theorem parseLines_entries (at_ : state.At done group)
    (plain : ∀ entry ∈ entries, PlainKey entry.1.toList ∧ PlainValue entry.2.toList)
    (once : ((group.entries ++ entries).map Prod.fst).Nodup) (rest : List (List Char)) (lineno : Nat) :
    ∃ next lineno', next.At done { group with
        entries := group.entries ++ entries.map fun entry => (entry.1, reparsed entry.2) } ∧
      parseLines lineno state (entries.map entryRow ++ rest) = parseLines lineno' next rest := by
  induction entries generalizing state group lineno with
  | nil => exact ⟨state, lineno, by simpa using at_, rfl⟩
  | cons entry entries ih =>
    obtain ⟨key, value⟩ := entry
    obtain ⟨plainKey, plainValue⟩ := plain (key, value) (.head _)
    have new : key ∉ group.entries.map Prod.fst := by
      rw [List.map_append, List.map_cons, List.nodup_append] at once
      exact fun inside => once.2.2 key inside key (.head _) rfl
    have put := at_.put (reparsed value) new
    obtain ⟨next, lineno', full, run⟩ := ih put
      (fun entry member => plain entry (.tail _ member))
      (by simpa using once) (lineno + 1)
    refine ⟨next, lineno', by simpa using full, ?_⟩
    rw [List.map_cons, List.cons_append, parseLines,
      parseLine_entry plainKey plainValue lineno state done.length at_.current]
    exact run

/-- The rows of well-formed groups parse to the reparsed groups. -/
theorem parseLines_rowsFrom {groups : List Group} (state : ParseState) (lineno i : Nat)
    (good : ∀ group ∈ groups, group.WellFormed) (once : ((state.keyfile.groups ++ groups).map Group.name).Nodup) :
    ∃ last, parseLines lineno state (rowsFrom i groups) = .ok last ∧
      last.keyfile.groups = state.keyfile.groups ++ groups.map Group.reparsed := by
  induction groups generalizing state lineno i with
  | nil => exact ⟨state, rfl, by simp⟩
  | cons group groups ih =>
    have well := good group (.head _)
    have new : group.name ∉ state.keyfile.groups.map Group.name := by
      rw [List.map_append, List.map_cons, List.nodup_append] at once
      exact fun inside => once.2.2 _ inside _ (.head _) rfl
    -- the blank line before the header, if there is one
    obtain ⟨lineno₁, blank⟩ : ∃ lineno₁, ∀ rest,
        parseLines lineno state ((if i > 0 then [[]] else []) ++ rest) = parseLines lineno₁ state rest := by
      by_cases later : i > 0
      · refine ⟨lineno + 1, fun rest => ?_⟩
        rw [if_pos later]
        rfl
      · refine ⟨lineno, fun rest => ?_⟩
        rw [if_neg later]
        rfl
    obtain ⟨next, lineno₂, full, run⟩ := parseLines_entries (ParseState.At.enter new)
      well.entries.plain (by simpa using well.entries.once) (rowsFrom (i + 1) groups) (lineno₁ + 1)
    have added : next.keyfile.groups = state.keyfile.groups ++ [group.reparsed] := by
      simpa [Group.reparsed] using full.groups
    obtain ⟨last, rest, all⟩ := ih next lineno₂ (i + 1)
      (fun group member => good group (.tail _ member))
      (by simpa [added, Group.reparsed] using once)
    refine ⟨last, ?_, by simpa [added] using all⟩
    rw [rowsFrom, List.append_assoc, blank, Group.rows, List.cons_append, parseLines,
      parseLine_header well.name]
    exact run.trans rest

theorem oneLine_rowsFrom {groups : List Group} (good : ∀ group ∈ groups, group.WellFormed)
    (i : Nat) : ∀ row ∈ rowsFrom i groups, '\n' ∉ row := by
  induction groups generalizing i with
  | nil => simp [rowsFrom]
  | cons group groups ih =>
    have well := good group (.head _)
    intro row member
    unfold rowsFrom Group.rows at member
    rw [List.mem_append, List.mem_append] at member
    obtain (blank | own) | later := member
    · have : row = [] := by split at blank <;> simp_all
      simp [this]
    · obtain rfl | entry := List.mem_cons.mp own
      · simp [well.name.one_line]
      · obtain ⟨⟨key, value⟩, inside, rfl⟩ := List.mem_map.mp entry
        obtain ⟨plainKey, plainValue⟩ := well.entries.plain _ inside
        simp [entryRow, plainKey.one_line, plainValue.one_line]
    · exact ih (fun group member => good group (.tail _ member)) _ row later

/-- **A second parse reads every group, key and value back, less one carriage return at the end of a
value.** -/
theorem parse_display {file : KeyFile} (good : file.WellFormed) : parse file.display = .ok file.reparse := by
  unfold parse display
  rw [String.toList_ofList, fmtFrom_eq_unlines]
  have rowsOf : ∃ lineno, parseLines 1 .start (lines '\n' (unlines '\n' (rowsFrom 0 file.groups))) =
      parseLines lineno .start (rowsFrom 0 file.groups) := by
    cases groups : file.groups with
    | nil => exact ⟨1, rfl⟩
    | cons group rest =>
      refine ⟨1, congrArg _ (lines_unlines (by simp [rowsFrom, Group.rows]) ?_)⟩
      rw [← groups]
      exact oneLine_rowsFrom good 0
  obtain ⟨lineno, run⟩ := rowsOf
  obtain ⟨last, rows, groups⟩ := parseLines_rowsFrom .start lineno 0 good
    (by simpa [ParseState.start, KeyFile.default] using file.indexed.nodup)
  rw [run, rows, map_ok, Except.ok.injEq]
  ext1
  simpa [ParseState.start, KeyFile.default, reparse] using groups

theorem map_eq_self_iff {α : Type} {f : α → α} {items : List α} :
    items.map f = items ↔ ∀ item ∈ items, f item = item := by
  have fixed := @List.map_inj_left α α items f id
  rwa [List.map_id] at fixed

theorem reparsed_eq_self :
    reparsed value = value ↔ value.toList.getLast? ≠ some '\r' := by
  rw [reparsed, ← String.toList_inj, String.toList_ofList]
  unfold stripSuffix
  split
  · grind
  · next ends => simp [ends]

/-- A second parse changes nothing exactly where no value ends with a carriage return. -/
theorem reparse_eq_self {file : KeyFile} :
    file.reparse = file ↔
      ∀ group ∈ file.groups, ∀ entry ∈ group.entries, entry.2.toList.getLast? ≠ some '\r' := by
  constructor
  · intro same group member entry inside
    have groups : file.groups.map Group.reparsed = file.groups := congrArg KeyFile.groups same
    have own : group.reparsed = group := map_eq_self_iff.mp groups group member
    have entries := congrArg Group.entries own
    have entryIs := map_eq_self_iff.mp entries entry inside
    exact reparsed_eq_self.mp (congrArg Prod.snd entryIs)
  · intro plain
    ext1
    refine map_eq_self_iff.mpr fun group member => ?_
    have entries : group.entries.map (fun entry => (entry.1, reparsed entry.2)) = group.entries :=
      map_eq_self_iff.mpr fun entry inside => by
        rw [reparsed_eq_self.mpr (plain group member entry inside)]
    unfold Group.reparsed
    rw [entries]

/-- **Key file text is faithful exactly where no value ends with a carriage return.** -/
theorem parse_display_eq_self_iff {file : KeyFile} (reached : Reached file) :
    parse file.display = .ok file ↔
      ∀ group ∈ file.groups, ∀ entry ∈ group.entries, entry.2.toList.getLast? ≠ some '\r' := by
  rw [parse_display reached.wellFormed, Except.ok.injEq]
  exact reparse_eq_self

theorem parse_display_eq_self_sample :
    parse ((Edit.setValue "core" "mode" "bare ").apply .default).display =
      .ok ((Edit.setValue "core" "mode" "bare ").apply .default) := by
  have plain : (((Edit.setValue "core" "mode" "bare ").apply .default).groups.all fun group =>
      group.entries.all fun entry => entry.2.toList.getLast? != some '\r') = true := by
    decide +kernel
  exact (parse_display_eq_self_iff (.edited _ .default)).mpr (by simpa using plain)

/-- `\r\r\n` leaves a carriage return in the value, and the second parse drops it. -/
theorem parse_display_doubled_cr :
    (parse "[g]\r\nk=v\r\r\n").map groups = .ok [⟨"g", [("k", "v\r")]⟩] ∧
      ((parse "[g]\r\nk=v\r\r\n").bind fun file => parse file.display).map groups =
        .ok [⟨"g", [("k", "v")]⟩] := by
  decide +kernel

end Ostrya.Core.KeyFile
