/-
**A push session before its publication** (`receive/` of `ostrya`).

The objects of the repository, the objects that the session staged and the partial markers, as the checks of a push read
them: a read gives the bytes of an object, nothing for an object that is not there, or an I/O failure. A failure of a
check goes to the client under a code of the wire, or it is one of the server.
-/

import Ostrya.Repo.TreeNames
import Ostrya.Remote.Frame
import Ostrya.Delta.Store

namespace Ostrya.Receive

open ByteFormat Gvariant Ostrya.Core Repo Delta

/-! ### Failures -/

/-- The `Display` text of an error of the format primitives. -/
def coreText : Core.Error → String
  | .gvariant fault => "gvariant: " ++ fault.display
  | .invalidChecksum reason => "invalid checksum: " ++ reason
  | .invalidObjectType tag => "invalid object type tag " ++ toString tag
  | .invalidVarint reason => "invalid varint: " ++ reason
  | .invalidXattrs reason => "invalid xattrs: " ++ reason
  | .invalidSizeEntry reason => "invalid ostree.sizes entry: " ++ reason
  | .keyFile reason => "keyfile: " ++ reason
  | .invalidCommit reason => "invalid commit: " ++ reason
  | .invalidDirTree reason => "invalid dirtree: " ++ reason
  | .invalidFileHeader reason => "invalid file header: " ++ reason

/-- An error of the server side, as far as the checks tell the errors apart. -/
inductive Fault where
  | io (reason : String)
  | invalidFormat (message : String)
  | core (fault : Core.Error)
  | other (message : String)
  deriving DecidableEq

/-- `Failure`. -/
inductive Failure where
  | wire (error : Remote.Error)
  | internal (fault : Fault)
  deriving DecidableEq

/-- `protocol`. -/
def protocol (message : String) : Failure := .wire (.protocol message)

/-- `ref_denied`. -/
def refDenied (message : String) : Failure := .wire (.refDenied message)

/-! ### The objects -/

/-- The files of a directory of objects, and the failures of its reads and of its look-ups. -/
structure Disk where
  entry : ObjectName → Option Bytes
  readFault : ObjectName → Option Fault
  statFault : ObjectName → Option Fault

variable {name : ObjectName}

namespace Disk

variable (disk : Disk)

/-- `read_meta_object`; nothing for an object that is not there. -/
def read (name : ObjectName) : Except Fault (Option Bytes) :=
  match disk.readFault name with
  | some fault => .error fault
  | none => .ok (disk.entry name)

/-- `object_exists`. -/
def has (name : ObjectName) : Except Fault Bool :=
  match disk.statFault name with
  | some fault => .error fault
  | none => .ok (disk.entry name).isSome

variable {disk}

theorem read_eq_ok (run : disk.read name = .ok bytes) :
    disk.entry name = bytes := by
  unfold read at run
  split at run
  · cases run
  · exact Except.ok.inj run

theorem has_eq_ok (run : disk.has name = .ok present) :
    (disk.entry name).isSome = present := by
  unfold has at run
  split at run
  · cases run
  · exact Except.ok.inj run

end Disk

/-- What the checks of a push read: the staged objects in the order in which the table of the
transaction gives them, the staging directory, `objects/`, and the partial markers. -/
structure Session where
  staged : List ObjectName
  staging : Disk
  objects : Disk
  marker : Checksum → Except Fault Bool

namespace Session

variable (session : Session)

/-- `is_staged`. -/
def isStaged (checksum : Checksum) (ty : ObjectType) : Bool := ⟨checksum, ty⟩ ∈ session.staged

/-- `staged_of_type`. -/
def stagedOfType (ty : ObjectType) : List Checksum :=
  (session.staged.filter fun name => name.ty = ty).map ObjectName.checksum

theorem mem_stagedOfType :
    checksum ∈ session.stagedOfType ty ↔ session.isStaged checksum ty = true := by
  simp [stagedOfType, isStaged]
  constructor
  · rintro ⟨name, ⟨member, rfl⟩, rfl⟩
    exact member
  · intro member
    exact ⟨_, ⟨member, rfl⟩, rfl⟩

/-- A read of a staged object, which is an I/O failure if its file is not there. -/
def readStaged (name : ObjectName) : Except Fault Bytes :=
  match session.staging.read name with
  | .error fault => .error fault
  | .ok (some bytes) => .ok bytes
  | .ok none => .error (.io "No such file or directory (os error 2)")

/-- The object is in the store extended with the staged objects. -/
def Present (name : ObjectName) : Prop := name ∈ session.staged ∨ (session.objects.entry name).isSome

instance (name : ObjectName) : Decidable (session.Present name) := inferInstanceAs (Decidable (_ ∨ _))

/-- The bytes of a metadata object of the extended store. A staged object is read from the staging
directory. -/
def bytesOf (name : ObjectName) : Option Bytes :=
  if name ∈ session.staged then session.staging.entry name else session.objects.entry name

variable {session}

theorem readStaged_eq_ok (run : session.readStaged name = .ok bytes) :
    session.staging.entry name = some bytes := by
  unfold readStaged at run
  split at run
  · cases run
  · next read =>
    cases run
    exact Disk.read_eq_ok read
  · cases run

end Session

/-! ### Missing objects -/

/-- `MAX_HAVE`. -/
def maxHave : Nat := 16384

/-- `Missing`. -/
structure Missing where
  listed : List ObjectName
  total : Nat
  deriving DecidableEq

namespace Missing

def empty : Missing := ⟨[], 0⟩

/-- `Missing::add`. -/
def add (missing : Missing) (name : ObjectName) : Missing :=
  ⟨if missing.listed.length < maxHave then missing.listed ++ [name] else missing.listed, missing.total + 1⟩

/-- The count and the start of a list of missing objects. -/
def Lists (missing : Missing) (names : List ObjectName) : Prop :=
  missing.total = names.length ∧ missing.listed = names.take maxHave

theorem lists_empty : empty.Lists [] := ⟨rfl, rfl⟩

theorem Lists.add {missing : Missing} (lists : missing.Lists names) (name : ObjectName) :
    (missing.add name).Lists (names ++ [name]) := by
  obtain ⟨total, listed⟩ := lists
  refine ⟨by simp [Missing.add, total], ?_⟩
  simp only [Missing.add, listed, List.length_take]
  split_ifs with room
  · rw [List.take_of_length_le (show names.length ≤ maxHave by omega), List.take_of_length_le]
    rw [List.length_append, List.length_singleton]
    omega
  · rw [List.take_append_of_le_length (by omega)]

end Missing

/-- `missing_objects`. -/
def missingObjects (missing : Missing) (what : String) : Failure :=
  .wire (.missingObjects
    (toString missing.total ++ " objects that " ++ what ++ " are neither staged nor present" ++
      if missing.listed.length < missing.total then
        ", the first " ++ toString missing.listed.length ++ " listed"
      else "")
    missing.listed)

end Ostrya.Receive
