/-
**Dirtree objects** (`dirtree.rs`).

A dirtree holds the sorted lists of the files and the directories of one directory, as
`(a(say)a(sayay))`. The reader checks each entry as it drains the lists and then walks both lists for a
shared name; the writer checks first and then encodes. `WellFormed` is what both ask for.
-/

import Ostrya.Core.Basic

namespace Ostrya.Core

open ByteFormat Gvariant

/-- `DirTree`. -/
@[ext] structure DirTree where
  files : List (String × Checksum)
  dirs : List (String × Checksum × Checksum)
  deriving DecidableEq

namespace DirTree

/-- `DirTree::check_name`. -/
def checkName (name : String) : Except Error Unit :=
  if name = "" then .error (.invalidDirTree "empty entry name")
  else if name = "." ∨ name = ".." then .error (.invalidDirTree "entry name is a directory traversal")
  else if name.toList.contains '/' then .error (.invalidDirTree "entry name contains a slash")
  else .ok ()

/-- `check_entry`: strings compare by their bytes. -/
def checkEntry (previous : Option Bytes) (name : String) : Except Error (Option Bytes) := do
  checkName name
  if previous.any fun p => p ≥ asBytes name then .error (.invalidDirTree "entry names are not sorted")
  else .ok (some (asBytes name))

theorem checkEntry_eq_ok :
    checkEntry previous name = .ok next ↔
      checkName name = .ok () ∧ (∀ p, previous = some p → p < asBytes name) ∧ next = some (asBytes name) := by
  unfold checkEntry
  rw [check_bind_eq_ok]
  have order : (previous.any fun p => p ≥ asBytes name) = true ↔
      ¬ ∀ p, previous = some p → p < asBytes name := by
    cases previous <;> simp
  refine and_congr_right fun _ => ?_
  split
  · next unsorted => simp [order.mp unsorted]
  · next sorted =>
    have above := not_not.mp (order.not.mp sorted)
    rw [Except.ok.injEq, eq_comm]
    exact (and_iff_right above).symm

/-- `entry_checksum`. -/
def entryChecksum (bytes : Bytes) : Except Error Checksum :=
  (Checksum.fromAy bytes).mapError fun _ => .invalidDirTree "entry checksum is not 32 bytes"

/-- The names of the files, as bytes. -/
def fileNames (tree : DirTree) : List Bytes := tree.files.map fun entry => asBytes entry.1

def dirNames (tree : DirTree) : List Bytes := tree.dirs.map fun entry => asBytes entry.1

/-- `check_no_shared_names`. -/
def checkNoSharedNames (tree : DirTree) : Except Error Unit :=
  if sharesKey tree.fileNames tree.dirNames then
    .error (.invalidDirTree "a name appears in both the file and directory lists")
  else .ok ()

/-- The loop of `validate` over the names of one list. -/
def checkNames (previous : Option Bytes) : List String → Except Error Unit
  | [] => .ok ()
  | name :: names => do
    let next ← checkEntry previous name
    checkNames next names

/-- `validate`. -/
def validate (tree : DirTree) : Except Error Unit := do
  checkNames none (tree.files.map Prod.fst)
  checkNames none (tree.dirs.map Prod.fst)
  tree.checkNoSharedNames

/-! ### The wire form -/

/-- `(say)` and `(sayay)` as the encoder writes them. -/
def fileEncode : GvEncode (String × Checksum) := .tuple (.cons .str (.last GvEncode.checksum))

def dirEncode : GvEncode (String × Checksum × Checksum) :=
  .tuple (.cons .str (.cons GvEncode.checksum (.last GvEncode.checksum)))

/-- `GvEncode for DirTree`. -/
def encoder : GvEncode (List (String × Checksum) × List (String × Checksum × Checksum)) :=
  .tuple (.cons (.slice fileEncode) (.last (.slice dirEncode)))

/-- `DirTree::serialize`. -/
def serialize (tree : DirTree) : Except Error Bytes := do
  tree.validate
  liftGvariant (encodeToVec encoder (tree.files, tree.dirs))

def fileDecode : GvDecode (String × Bytes) := .tuple (.cons .str (.last .bytes))

def dirDecode : GvDecode (String × Bytes × Bytes) := .tuple (.cons .str (.cons .bytes (.last .bytes)))

/-- `DirTreeRef`: the two arrays, their entries not yet read. -/
def refDecode : GvDecode (ArrayReader × ArrayReader) :=
  .tuple (.cons (.arrayIter fileDecode) (.last (.arrayIter dirDecode)))

/-- The check of `DirTreeRef::files`. -/
def fileStep (previous : Option Bytes) (entry : String × Bytes) :
    Except Error ((String × Checksum) × Option Bytes) := do
  let next ← checkEntry previous entry.1
  let checksum ← entryChecksum entry.2
  .ok ((entry.1, checksum), next)

/-- The check of `DirTreeRef::dirs`. -/
def dirStep (previous : Option Bytes) (entry : String × Bytes × Bytes) :
    Except Error ((String × Checksum × Checksum) × Option Bytes) := do
  let next ← checkEntry previous entry.1
  let tree ← entryChecksum entry.2.1
  let meta_ ← entryChecksum entry.2.2
  .ok ((entry.1, tree, meta_), next)

/-- `DirTreeRef::to_owned`. -/
def toOwned (ref : ArrayReader × ArrayReader) : Except Error DirTree := do
  let files ← drained fileDecode.decode fileStep ref.1 none
  let dirs ← drained dirDecode.decode dirStep ref.2 none
  .ok ⟨files, dirs⟩

/-- `DirTree::parse`. -/
def parse (data : Bytes) : Except Error DirTree := do
  let ref ← liftGvariant (refDecode.decode data)
  let tree ← toOwned ref
  tree.checkNoSharedNames
  .ok tree

/-! ### The rules of a dirtree -/

/-- One path component. -/
structure IsEntryName (name : String) : Prop where
  nonempty : name ≠ ""
  notDot : name ≠ "."
  notDotDot : name ≠ ".."
  noSlash : '/' ∉ name.toList

theorem checkName_eq_ok : checkName name = .ok () ↔ IsEntryName name := by
  unfold checkName
  split
  · next empty => exact ⟨fun refused => (by cases refused), fun valid => absurd empty valid.nonempty⟩
  split
  · next traversal =>
    exact ⟨fun refused => (by cases refused),
      fun valid => (traversal.elim valid.notDot valid.notDotDot).elim⟩
  split
  · next slash =>
    exact ⟨fun refused => (by cases refused),
      fun valid => absurd (List.contains_iff_mem.mp slash) valid.noSlash⟩
  · next nonempty traversal slash =>
    rw [not_or] at traversal
    rw [List.contains_iff_mem] at slash
    exact ⟨fun _ => ⟨nonempty, traversal.1, traversal.2, slash⟩, fun _ => rfl⟩

/-- The rules of a dirtree: each list strictly ascending, each name one path component, no name in
both lists. -/
structure Rules (tree : DirTree) : Prop where
  filesAscend : tree.fileNames.Pairwise (· < ·)
  dirsAscend : tree.dirNames.Pairwise (· < ·)
  fileNamed : ∀ entry ∈ tree.files, IsEntryName entry.1
  dirNamed : ∀ entry ∈ tree.dirs, IsEntryName entry.1
  disjoint : ∀ name ∈ tree.fileNames, name ∉ tree.dirNames

variable {tree : DirTree} {out : String × Checksum × Checksum} {data part : Bytes}

/-- **The merge walk finds a shared name exactly when there is one.** -/
theorem checkNoSharedNames_eq_ok (filesAscend : tree.fileNames.Pairwise (· < ·))
    (dirsAscend : tree.dirNames.Pairwise (· < ·)) :
    tree.checkNoSharedNames = .ok () ↔ ∀ name ∈ tree.fileNames, name ∉ tree.dirNames := by
  unfold checkNoSharedNames
  have shared := sharesKey_iff filesAscend dirsAscend
  split
  · next found =>
    obtain ⟨name, member, also⟩ := shared.mp found
    simp only [reduceCtorEq, false_iff, not_forall, not_not]
    exact ⟨name, member, also⟩
  · next missing =>
    simp only [true_iff]
    exact fun name member also => missing (shared.mpr ⟨name, member, also⟩)

theorem checkNames_eq_ok :
    checkNames previous names = .ok () ↔
      (∀ name ∈ names, IsEntryName name) ∧ (previous.toList ++ names.map asBytes).Pairwise (· < ·) := by
  induction names generalizing previous with
  | nil => cases previous <;> simp [checkNames]
  | cons name names ih =>
    simp only [checkNames, bind_eq_ok, checkEntry_eq_ok, checkName_eq_ok, List.forall_mem_cons,
      List.map_cons, ascending_after]
    constructor
    · rintro ⟨next, ⟨named, above, rfl⟩, rest⟩
      obtain ⟨others, ascending⟩ := ih.mp rest
      exact ⟨⟨named, others⟩, above, ascending⟩
    · rintro ⟨⟨named, others⟩, above, ascending⟩
      exact ⟨_, ⟨named, above, rfl⟩, ih.mpr ⟨others, ascending⟩⟩

theorem validate_eq_ok : tree.validate = .ok () ↔ Rules tree := by
  simp only [validate, check_bind_eq_ok, checkNames_eq_ok, Option.toList_none, List.nil_append,
    List.map_map, List.forall_mem_map]
  constructor
  · rintro ⟨⟨fileNamed, filesAscend⟩, ⟨dirNamed, dirsAscend⟩, unshared⟩
    exact ⟨filesAscend, dirsAscend, fileNamed, dirNamed,
      (checkNoSharedNames_eq_ok filesAscend dirsAscend).mp unshared⟩
  · rintro ⟨filesAscend, dirsAscend, fileNamed, dirNamed, disjoint⟩
    exact ⟨⟨fileNamed, filesAscend⟩, ⟨dirNamed, dirsAscend⟩,
      (checkNoSharedNames_eq_ok filesAscend dirsAscend).mpr disjoint⟩

/-! ### The entries -/

/-- The entries as the readers hand them over. -/
def rawFile (out : String × Checksum) : String × Bytes := (out.1, out.2.bytes)

def rawDir (out : String × Checksum × Checksum) : String × Bytes × Bytes := (out.1, out.2.1.bytes, out.2.2.bytes)

theorem fileStep_ordered :
    OrderedStep fileStep (fun out => IsEntryName out.1) rawFile fun out => asBytes out.1 := by
  intro previous raw out next
  simp only [fileStep, bind_eq_ok, checkEntry_eq_ok, checkName_eq_ok, entryChecksum,
    Checksum.mapError_fromAy_eq_ok, Except.ok.injEq, Prod.mk.injEq]
  constructor
  · rintro ⟨_, ⟨named, above, rfl⟩, checksum, same, rfl, rfl⟩
    exact ⟨⟨named, Prod.ext rfl same.symm⟩, above, rfl⟩
  · rintro ⟨⟨named, rfl⟩, above, rfl⟩
    exact ⟨_, ⟨named, above, rfl⟩, out.2, rfl, rfl, rfl⟩

theorem dirStep_ordered :
    OrderedStep dirStep (fun out => IsEntryName out.1) rawDir fun out => asBytes out.1 := by
  intro previous raw out next
  simp only [dirStep, bind_eq_ok, checkEntry_eq_ok, checkName_eq_ok, entryChecksum,
    Checksum.mapError_fromAy_eq_ok, Except.ok.injEq, Prod.mk.injEq]
  constructor
  · rintro ⟨_, ⟨named, above, rfl⟩, tree, same, meta_, same', rfl, rfl⟩
    exact ⟨⟨named, Prod.ext rfl (Prod.ext same.symm same'.symm)⟩, above, rfl⟩
  · rintro ⟨⟨named, rfl⟩, above, rfl⟩
    exact ⟨_, ⟨named, above, rfl⟩, out.2.1, rfl, out.2.2, rfl, rfl, rfl⟩

/-- What `parse` accepts: lists that drain to the entries of a tree that keeps the rules. -/
theorem parse_eq_ok : parse data = .ok tree ↔
      ∃ files dirs, refDecode.decode data = .ok (files, dirs) ∧
        files.collect fileDecode.decode = .ok (tree.files.map rawFile) ∧
        dirs.collect dirDecode.decode = .ok (tree.dirs.map rawDir) ∧ Rules tree := by
  simp only [parse, toOwned, bind_eq_ok, liftGvariant_eq_ok, Prod.exists, drained_eq_ok,
    fileStep_ordered.steps_eq_ok, dirStep_ordered.steps_eq_ok, Option.toList_none, List.nil_append,
    Except.ok.injEq]
  constructor
  · rintro ⟨fileReader, dirReader, decoded, _, ⟨files, ⟨_, drained, ⟨rfl, fileNamed⟩, filesAscend⟩,
      dirs, ⟨_, drained', ⟨rfl, dirNamed⟩, dirsAscend⟩, rfl⟩, _, unshared, rfl⟩
    exact ⟨fileReader, dirReader, decoded, drained, drained', filesAscend, dirsAscend, fileNamed,
      dirNamed, (@checkNoSharedNames_eq_ok ⟨files, dirs⟩ filesAscend dirsAscend).mp unshared⟩
  · rintro ⟨fileReader, dirReader, decoded, drained, drained', rules⟩
    exact ⟨fileReader, dirReader, decoded, tree,
      ⟨tree.files, ⟨_, drained, ⟨rfl, rules.fileNamed⟩, rules.filesAscend⟩, tree.dirs,
        ⟨_, drained', ⟨rfl, rules.dirNamed⟩, rules.dirsAscend⟩, rfl⟩,
      (), (checkNoSharedNames_eq_ok rules.filesAscend rules.dirsAscend).mpr rules.disjoint, rfl⟩

theorem files_code (files : List (String × Checksum)) :
    List.Forall₂ (Codes fileDecode fileEncode) (files.map rawFile) files := by
  rw [List.forall₂_map_left_iff, List.forall₂_same]
  exact fun _ _ => .tuple (.refl _) (.cons (.str _) (.last (checksum_codes _)))

theorem dirs_code (dirs : List (String × Checksum × Checksum)) :
    List.Forall₂ (Codes dirDecode dirEncode) (dirs.map rawDir) dirs := by
  rw [List.forall₂_map_left_iff, List.forall₂_same]
  exact fun _ _ => .tuple (.refl _) (.cons (.str _) (.cons (checksum_codes _) (.last (checksum_codes _))))

/-! ### Reading and writing -/

theorem serialize_eq_ok :
    tree.serialize = .ok data ↔ Rules tree ∧ encodeToVec encoder (tree.files, tree.dirs) = .ok data := by
  rw [serialize, check_bind_eq_ok, validate_eq_ok, liftGvariant_eq_ok]

theorem serialize_of_parse (read : parse data = .ok tree) :
    tree.serialize = .ok data := by
  obtain ⟨files, dirs, decoded, drained, drained', rules⟩ := parse_eq_ok.mp read
  refine serialize_eq_ok.mpr ⟨rules, GvEncode.tuple_of_decode (.refl _) (fun parts held => ?_) decoded⟩
  match parts, held with
  | [filePart, dirPart], ⟨opened, opened'⟩ =>
    exact ⟨GvEncode.slice_of_collect rfl opened drained (files_code _),
      GvEncode.slice_of_collect rfl opened' drained' (dirs_code _)⟩

theorem parse_of_serialize (written : tree.serialize = .ok data)
    (short : Addressable data) : parse data = .ok tree := by
  obtain ⟨rules, encoded⟩ := serialize_eq_ok.mp written
  obtain ⟨parts, held, small, decodes⟩ :=
    @GvDecode.tuple_of_encode _ _ (.cons (.arrayIter fileDecode) (.last (.arrayIter dirDecode))) _ (.refl _) _ _
      encoded short
  match parts, held with
  | [filePart, dirPart], ⟨first, second⟩ =>
    obtain ⟨files, opened, drained⟩ := GvDecode.collect_of_slice rfl first (small _ (by simp))
      ((files_code _).imp fun _ _ codes => codes.read)
    obtain ⟨dirs, opened', drained'⟩ := GvDecode.collect_of_slice rfl second (small _ (by simp))
      ((dirs_code _).imp fun _ _ codes => codes.read)
    exact parse_eq_ok.mpr ⟨files, dirs, decodes (files, dirs) ⟨opened, opened'⟩, drained, drained', rules⟩

/-- No name holds a NUL byte, which a GVariant string cannot hold. -/
structure NulFree (tree : DirTree) : Prop where
  files : ∀ entry ∈ tree.files, 0 ∉ asBytes entry.1
  dirs : ∀ entry ∈ tree.dirs, 0 ∉ asBytes entry.1

theorem fileEncode_succeeds {out : String × Checksum} :
    (∃ part, encodeToVec fileEncode out = .ok part) ↔ 0 ∉ asBytes out.1 := by
  simp only [fileEncode, GvEncode.tuple_eq_ok]
  constructor
  · rintro ⟨_, parts, held, _⟩
    match parts, held with
    | [name, checksum], ⟨first, _⟩ =>
      rw [encodeToVec_str] at first
      exact (strBytes_eq_ok.mp first).1
  · intro clean
    refine ⟨_, [asBytes out.1 ++ [0], out.2.bytes], ⟨?_, rfl⟩, rfl⟩
    rw [encodeToVec_str]
    exact strBytes_eq_ok.mpr ⟨clean, rfl⟩

theorem dirEncode_succeeds : (∃ part, encodeToVec dirEncode out = .ok part) ↔ 0 ∉ asBytes out.1 := by
  simp only [dirEncode, GvEncode.tuple_eq_ok]
  constructor
  · rintro ⟨_, parts, held, _⟩
    match parts, held with
    | [name, tree, meta_], ⟨first, _⟩ =>
      rw [encodeToVec_str] at first
      exact (strBytes_eq_ok.mp first).1
  · intro clean
    refine ⟨_, [asBytes out.1 ++ [0], out.2.1.bytes, out.2.2.bytes], ⟨?_, rfl, rfl⟩, rfl⟩
    rw [encodeToVec_str]
    exact strBytes_eq_ok.mpr ⟨clean, rfl⟩

theorem serialize_succeeds : (∃ data, tree.serialize = .ok data) ↔ Rules tree ∧ NulFree tree := by
  simp only [serialize_eq_ok, exists_and_left]
  refine and_congr_right fun _ => ?_
  simp only [encoder, GvEncode.tuple_eq_ok]
  constructor
  · rintro ⟨_, parts, held, _⟩
    match parts, held with
    | [filePart, dirPart], ⟨first, second⟩ =>
      exact ⟨fun entry member => fileEncode_succeeds.mp (encodeToVec_slice_succeeds.mp ⟨_, first⟩ entry member),
        fun entry member => dirEncode_succeeds.mp (encodeToVec_slice_succeeds.mp ⟨_, second⟩ entry member)⟩
  · intro clean
    obtain ⟨filePart, first⟩ := encodeToVec_slice_succeeds.mpr fun entry member =>
      fileEncode_succeeds.mpr (clean.files entry member)
    obtain ⟨dirPart, second⟩ := encodeToVec_slice_succeeds.mpr fun entry member =>
      dirEncode_succeeds.mpr (clean.dirs entry member)
    exact ⟨_, [filePart, dirPart], ⟨first, second⟩, rfl⟩

/-- A tree whose only name, one path component, holds a NUL byte. -/
def nulNamed : DirTree := ⟨[("a\x00b", .filled 1)], []⟩

/-- `check_name` accepts a NUL byte in a name, and the encoder refuses it. -/
theorem serialize_refuses_nulNamed :
    Rules nulNamed ∧
      nulNamed.serialize = .error (.gvariant (.invalidValue "string contains an interior NUL byte")) :=
  ⟨validate_eq_ok.mp rfl, rfl⟩

/-- **The dirtree codec.** Reading and writing are inverse, and both accept exactly the trees that
keep the rules and whose names hold no NUL byte; over sorted lists the merge walk refuses exactly
the trees with a shared name. -/
theorem dirTree_codec :
    (∀ data tree, parse data = .ok tree → tree.serialize = .ok data) ∧
    (∀ (tree : DirTree) data, tree.serialize = .ok data → Addressable data → parse data = .ok tree) ∧
    (∀ tree : DirTree, (∃ data, tree.serialize = .ok data) ↔ Rules tree ∧ NulFree tree) ∧
    (∀ data tree, parse data = .ok tree → Rules tree ∧ NulFree tree) ∧
    (∀ tree, Rules tree ∧ NulFree tree → (∀ data, tree.serialize = .ok data → Addressable data) →
      ∃ data, parse data = .ok tree) ∧
    (∀ tree : DirTree, tree.fileNames.Pairwise (· < ·) → tree.dirNames.Pairwise (· < ·) →
      (tree.checkNoSharedNames = .ok () ↔ ∀ name ∈ tree.fileNames, name ∉ tree.dirNames)) := by
  refine ⟨fun data tree => serialize_of_parse, fun tree data => parse_of_serialize, fun tree => serialize_succeeds,
    fun data tree read => serialize_succeeds.mp ⟨data, serialize_of_parse read⟩, ?_,
    fun tree => checkNoSharedNames_eq_ok⟩
  intro tree accepted small
  obtain ⟨data, written⟩ := serialize_succeeds.mpr accepted
  exact ⟨data, parse_of_serialize written (small data written)⟩

/-- One file and one directory. -/
def sample : DirTree := ⟨[("a", .filled 1)], [("sub", .filled 2, .filled 3)]⟩

def sampleBytes : Bytes :=
  [97, 0] ++ List.replicate 32 1 ++ [2, 35] ++
    ([115, 117, 98, 0] ++ List.replicate 32 2 ++ List.replicate 32 3 ++ [36, 4, 70]) ++ [36]

theorem dirTree_codec_sample :
    sample.serialize = .ok sampleBytes ∧ parse sampleBytes = .ok sample := by
  obtain ⟨_, reads, _⟩ := dirTree_codec
  have written : sample.serialize = .ok sampleBytes := by decide +kernel
  exact ⟨written, reads sample sampleBytes written (by decide)⟩

end DirTree

end Ostrya.Core
