/-
**The related commits of a commit** (`related.rs`), and the store that the reachability walk reads
(`MetadataSource` of `traverse.rs`).

Field 2 of a commit holds its dependencies, the key `ostrya.related` of its detached metadata the build
sources. An entry with a defect names nothing, and gives a text.
-/

import Ostrya.Core.Commit
import Ostrya.Core.DirTree
import Ostrya.Repo.MutableTree

namespace Ostrya.Repo

open ByteFormat Gvariant Ostrya.Core

/-- `ObjectName`. -/
structure ObjectName where
  checksum : Checksum
  ty : ObjectType
  deriving DecidableEq

/-- `RelatedField`. -/
inductive RelatedField where
  | dependencies
  | buildSources
  deriving DecidableEq

/-- `RelatedWarning`. -/
structure RelatedWarning where
  commit : Checksum
  field : RelatedField
  reason : String
  deriving DecidableEq

/-- `RelatedEntry`. A checksum that is not 32 bytes is its length. -/
structure RelatedEntry where
  name : String
  checksum : Except Nat Checksum

/-- `RELATED_KEY`. -/
def relatedKey : String := "ostrya.related"

/-- `RELATED_KEY_BYTES`. -/
def relatedKeyBytes : Bytes := asBytes relatedKey ++ [0]

namespace RelatedEntry

/-- `RelatedEntry::defect`. -/
def defect (entry : RelatedEntry) (index : Nat) : Option String :=
  if entry.name = "" then some ("entry " ++ toString index ++ " has an empty name")
  else
    match entry.checksum with
    | .ok _ => none
    | .error len =>
      some ("entry " ++ toString index ++ " (" ++ entry.name ++ ") has a checksum of " ++ toString len ++
        " bytes, not 32")

/-- The entry of a name and the bytes of a checksum. -/
def ofPair (name : String) (bytes : Bytes) : RelatedEntry :=
  ⟨name, (Checksum.fromAy bytes).mapError fun _ => bytes.length⟩

end RelatedEntry

/-- `entries_of`. -/
def entriesOf (related : List (String × Bytes)) : List RelatedEntry :=
  related.map fun entry => RelatedEntry.ofPair entry.1 entry.2

/-- The elements of `entries_of_value` from `index` on. -/
def entriesFrom (index : Nat) : List Value → Except String (List RelatedEntry)
  | [] => .ok []
  | item :: items =>
    match item.asTuple with
    | some [.str name, .bytes bytes] => do
      let entries ← entriesFrom (index + 1) items
      .ok (RelatedEntry.ofPair name bytes :: entries)
    | _ => .error ("element " ++ toString index ++ " is not a (say) pair")

/-- `entries_of_value`. -/
def entriesOfValue (value : Value) : Except String (List RelatedEntry) :=
  match value.asArray with
  | none => .error "value is not an array"
  | some items => entriesFrom 0 items

/-- `entries_of_variant`. -/
def entriesOfVariant (value : Value) : Except String (List RelatedEntry) :=
  match value.asVariant with
  | none => .error "value is not a variant"
  | some (ty, child) =>
    if ty.signatureString ≠ "a(say)" then .error ("type is `" ++ ty.signatureString ++ "`, not `a(say)`")
    else entriesOfValue child

/-- `build_sources`. -/
def buildSources (detached : Option Value) : Except String (Option (List RelatedEntry)) :=
  match detached.bind fun dict => dict.dictGet relatedKey with
  | some value => (entriesOfVariant value).map some
  | none => .ok none

/-- `split_entries` from `index` on. -/
def splitFrom (index : Nat) : List RelatedEntry → List Checksum × List String
  | [] => ([], [])
  | entry :: entries =>
    let (valid, defects) := splitFrom (index + 1) entries
    match entry.defect index, entry.checksum with
    | some reason, _ => (valid, reason :: defects)
    | none, .ok checksum => (checksum :: valid, defects)
    -- the defect check passed, so the checksum is one
    | none, .error _ => (valid, defects)

/-- `split_entries`. -/
def splitEntries (entries : List RelatedEntry) : List Checksum × List String := splitFrom 0 entries

/-! ### The store -/

/-- The bytes `part` at some place of `bytes`. -/
def holds (part : Bytes) : Bytes → Bool
  | [] => part.isEmpty
  | byte :: bytes => part.isPrefixOf (byte :: bytes) || holds part bytes

/-- `may_hold_build_sources`. -/
def mayHoldBuildSources (bytes : Bytes) : Bool := holds relatedKeyBytes bytes

/-- `parse_build_source_dict`. -/
def parseBuildSourceDict (bytes : Bytes) : Except Error (Option Value) :=
  if mayHoldBuildSources bytes then parseSignatureDict .core bytes else .ok none

/-- `MetadataSource`. -/
structure MetadataSource where
  loadMetadata : ObjectType → Checksum → Except Error (Option Bytes)
  maxReads : Nat

namespace MetadataSource

variable (store : MetadataSource)

/-- `load_build_source_dict`. -/
def loadBuildSourceDict (commit : Checksum) : Except Error (Option Value) := do
  match ← store.loadMetadata .commitMeta commit with
  | some bytes => parseBuildSourceDict bytes
  | none => .ok none

/-- `load_commit_with_build_source_dict`. -/
def loadCommitWithBuildSourceDict (commit : Checksum) : Except Error (Option (Bytes × Option Value)) := do
  match ← store.loadMetadata .commit commit with
  | none => .ok none
  | some bytes => do
    let detached ← store.loadBuildSourceDict commit
    .ok (some (bytes, detached))

/-- `try_load_commit`. -/
def tryLoadCommit (checksum : Checksum) : Except Error (Option Commit) := do
  match ← store.loadMetadata .commit checksum with
  | some bytes => ((Commit.parse bytes).mapError .core).map some
  | none => .ok none

/-- `try_load_dirtree`. -/
def tryLoadDirtree (checksum : Checksum) : Except Error (Option DirTree) := do
  match ← store.loadMetadata .dirTree checksum with
  | some bytes => ((DirTree.parse bytes).mapError .core).map some
  | none => .ok none

end MetadataSource

end Ostrya.Repo
