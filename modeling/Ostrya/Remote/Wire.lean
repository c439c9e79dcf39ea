/-
**The words of the wire format** (`proto/mod.rs` and `error.rs` of `ostrya-remote`).

The kinds, the encodings and the error codes with their bytes and names, the ref states that messages carry, and
the conversions of checksums and object names to and from GVariant. Each table reads back what it writes
(`fromU8_asU8`, `fromName_asStr`).
-/

import Ostrya.Gvariant.Value
import Ostrya.Repo.Related

namespace Ostrya.Remote

open ByteFormat Gvariant Ostrya.Core Repo

/-! ### Errors -/

/-- `io::ErrorKind`, as far as the frame codec tells the kinds apart. -/
inductive IoKind where
  | unexpectedEof
  | other
  deriving DecidableEq

/-- The errors of `ostrya-remote` that the codec returns. -/
inductive Error where
  | versionUnsupported (message : String)
  | lockingDisabled (message : String)
  | unauthorized (message : String)
  | protocol (message : String)
  | limitExceeded (message : String)
  | checksumMismatch (message : String)
  | modeRefused (message : String)
  | missingObjects (message : String) (missing : List ObjectName)
  | refMismatch (message name : String) (current : Option Checksum)
  | nonFastForward (message : String)
  | deleteDenied (message : String)
  | invalidRef (message : String)
  | refDenied (message : String)
  | signatureRequired (message : String)
  | bindingMismatch (message : String)
  | internal (message : String)
  | io (kind : IoKind)
  deriving DecidableEq

/-- `ErrorCode`. -/
inductive ErrorCode where
  | versionUnsupported
  | lockingDisabled
  | unauthorized
  | protocol
  | limitExceeded
  | checksumMismatch
  | modeRefused
  | missingObjects
  | refMismatch
  | nonFastForward
  | deleteDenied
  | invalidRef
  | refDenied
  | signatureRequired
  | bindingMismatch
  | internal
  deriving DecidableEq

namespace ErrorCode

/-- `ErrorCode::ALL`. -/
def all : List ErrorCode :=
  [versionUnsupported, lockingDisabled, unauthorized, protocol, limitExceeded, checksumMismatch, modeRefused,
    missingObjects, refMismatch, nonFastForward, deleteDenied, invalidRef, refDenied, signatureRequired,
    bindingMismatch, internal]

/-- `ErrorCode::as_str`. -/
def asStr : ErrorCode → String
  | versionUnsupported => "version-unsupported"
  | lockingDisabled => "locking-disabled"
  | unauthorized => "unauthorized"
  | protocol => "protocol"
  | limitExceeded => "limit-exceeded"
  | checksumMismatch => "checksum-mismatch"
  | modeRefused => "mode-refused"
  | missingObjects => "missing-objects"
  | refMismatch => "ref-mismatch"
  | nonFastForward => "non-fast-forward"
  | deleteDenied => "delete-denied"
  | invalidRef => "invalid-ref"
  | refDenied => "ref-denied"
  | signatureRequired => "signature-required"
  | bindingMismatch => "binding-mismatch"
  | internal => "internal"

/-- `ErrorCode::from_name`. -/
def fromName (name : String) : Option ErrorCode := all.find? fun code => code.asStr = name

theorem fromName_asStr (code : ErrorCode) : fromName code.asStr = some code := by cases code <;> decide

end ErrorCode

/-! ### Limits -/

/-- `MIN_FRAME_LIMIT`: 1 MiB. -/
def minFrameLimit : UInt32 := 0x100000

/-- `MAX_FRAME_LIMIT`. -/
def maxFrameLimit : UInt32 := 0xFFFFFFFE

/-- `ABANDON`. -/
def abandon : UInt32 := 0xFFFFFFFF

/-! ### Kinds and encodings -/

/-- `Kind`. -/
inductive Kind where
  | hello
  | helloReply
  | «have»
  | haveReply
  | objectHeader
  | objectsEnd
  | objectsReply
  | commit
  | commitReply
  | error
  | abort
  | pullHello
  | pullHelloReply
  | get
  | getReply
  | listRefs
  deriving DecidableEq

namespace Kind

/-- `Kind::as_u8`. -/
def asU8 : Kind → UInt8
  | hello => 1
  | helloReply => 2
  | «have» => 3
  | haveReply => 4
  | objectHeader => 5
  | objectsEnd => 6
  | objectsReply => 7
  | commit => 8
  | commitReply => 9
  | error => 10
  | abort => 11
  | pullHello => 12
  | pullHelloReply => 13
  | get => 14
  | getReply => 15
  | listRefs => 16

/-- `Kind::from_u8`. -/
def fromU8 (byte : UInt8) : Except Error Kind :=
  match byte.toNat with
  | 1 => .ok hello
  | 2 => .ok helloReply
  | 3 => .ok «have»
  | 4 => .ok haveReply
  | 5 => .ok objectHeader
  | 6 => .ok objectsEnd
  | 7 => .ok objectsReply
  | 8 => .ok commit
  | 9 => .ok commitReply
  | 10 => .ok error
  | 11 => .ok abort
  | 12 => .ok pullHello
  | 13 => .ok pullHelloReply
  | 14 => .ok get
  | 15 => .ok getReply
  | 16 => .ok listRefs
  | other => .error (.protocol ("unknown message kind " ++ toString other))

theorem fromU8_asU8 (kind : Kind) : fromU8 kind.asU8 = .ok kind := by cases kind <;> rfl

theorem asU8_of_fromU8 (known : fromU8 byte = .ok kind) : kind.asU8 = byte := by
  apply UInt8.toNat_inj.mp
  unfold fromU8 at known
  split at known <;> cases known <;> simp_all <;> rfl

end Kind

/-- `Encoding`. -/
inductive Encoding where
  | raw
  | deflate
  deriving DecidableEq

namespace Encoding

/-- `Encoding::as_u8`. -/
def asU8 : Encoding → UInt8
  | raw => 0
  | deflate => 1

/-- `Encoding::from_u8`. -/
def fromU8 (byte : UInt8) : Except Error Encoding :=
  match byte.toNat with
  | 0 => .ok raw
  | 1 => .ok deflate
  | other => .error (.protocol ("unknown encoding " ++ toString other))

/-- `Encoding::as_str`. -/
def asStr : Encoding → String
  | raw => "raw"
  | deflate => "deflate"

/-- `Encoding::from_name`. -/
def fromName (name : String) : Option Encoding :=
  if name = "raw" then some raw else if name = "deflate" then some deflate else none

theorem fromU8_asU8 (encoding : Encoding) : fromU8 encoding.asU8 = .ok encoding := by cases encoding <;> rfl

theorem fromName_asStr (encoding : Encoding) : fromName encoding.asStr = some encoding := by
  cases encoding <;> decide

end Encoding

/-! ### Refs -/

/-- `RefState`. -/
structure RefState where
  name : String
  commit : Option Checksum
  deriving DecidableEq

/-- `Expected`. -/
inductive Expected where
  | absent
  | commit (checksum : Checksum)
  | any
  deriving DecidableEq

/-- `RefUpdate`. -/
structure RefUpdate where
  name : String
  expected : Expected
  new : Option Checksum
  deriving DecidableEq

/-- `RefOutcome`. -/
structure RefOutcome where
  name : String
  old : Option Checksum
  new : Option Checksum
  deriving DecidableEq

/-! ### Checksums and object names -/

/-- `checksum`. -/
def checksum (bytes : Bytes) : Except Error Checksum :=
  (Checksum.fromAy bytes).mapError fun _ => .protocol "checksum is not 32 bytes"

theorem checksum_eq_ok : checksum bytes = .ok sum ↔ sum.bytes = bytes :=
  mapError_eq_ok.trans Checksum.fromAy_eq_ok

/-- `checksum_value`. -/
def checksumValue (sum : Checksum) : Value := .bytes sum.bytes

/-- `maybe_value`. -/
def maybeValue (sum : Option Checksum) : Value := .maybe (sum.map checksumValue)

/-- `have_type`. -/
def haveType : ObjectType → Bool
  | .file | .dirTree | .dirMeta | .commit => true
  | _ => false

/-- `header_type`. -/
def headerType (ty : ObjectType) : Bool := haveType ty || ty = .commitMeta

/-- The byte of an object type. -/
def typeByte (ty : ObjectType) : UInt8 := ty.asU32.toUInt8

/-- `object_name`. -/
def objectName (byte : UInt8) (sum : Bytes) (allowed : ObjectType → Bool) : Except Error ObjectName := do
  let ty ←
    match (ObjectType.fromU32 byte.toUInt32).toOption.filter allowed with
    | some ty => .ok ty
    | none => .error (.protocol ("object type " ++ toString byte.toNat ++ " is not allowed here"))
  .ok ⟨← checksum sum, ty⟩

/-- `object_name_value`. -/
def objectNameValue (name : ObjectName) : Value :=
  .tuple [.byte (typeByte name.ty), checksumValue name.checksum]

theorem fromU32_typeByte (ty : ObjectType) : ObjectType.fromU32 (typeByte ty).toUInt32 = .ok ty := by
  cases ty <;> rfl

/-- An object name reads back from its byte and its checksum, where its type is allowed. -/
theorem objectName_typeByte {name : ObjectName} {allowed : ObjectType → Bool} (ok : allowed name.ty = true) :
    objectName (typeByte name.ty) name.checksum.bytes allowed = .ok name := by
  have read : checksum name.checksum.bytes = .ok name.checksum := checksum_eq_ok.mpr rfl
  simp [objectName, fromU32_typeByte, Except.toOption, Option.filter, ok, read]

end Ostrya.Remote
