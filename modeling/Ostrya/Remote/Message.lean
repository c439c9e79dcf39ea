/-
**The messages and their bodies** (`proto/message.rs`).

A body is one GVariant value. The encoder builds the value and serializes it, except for a `Commit`: its server
commit holds metadata entries as bytes, so the typed encoder writes them in place. The decoder reads the members of
the body lazily: an array is framed first and its entries are decoded when they are visited. Of a dict it keeps
the first value under each known key and checks every other value for normal form.
-/

import Ostrya.Gvariant.Dict
import Ostrya.Remote.Wire

namespace Ostrya.Remote

open ByteFormat Gvariant Ostrya.Core Repo

/-! ### The messages -/

/-- `Hello`. -/
structure Hello where
  version : UInt32
  agent : Option String
  refs : List String
  collection : Option String
  oneWay : Bool
  deriving DecidableEq

/-- `HelloReply`. -/
structure HelloReply where
  version : UInt32
  mode : String
  collectionId : Option String
  collection : Option String
  maxFrame : UInt32
  maxHave : UInt32
  encodings : List Encoding
  parallelUploads : UInt32
  refs : List RefState
  deriving DecidableEq

/-- `HaveReply`. -/
structure HaveReply where
  bitmap : Bytes
  deriving DecidableEq

/-- `ObjectHeader`. -/
structure ObjectHeader where
  name : ObjectName
  encoding : Encoding
  deriving DecidableEq

/-- `ObjectsReply`. -/
structure ObjectsReply where
  objects : UInt32
  payloadBytes : UInt64
  deriving DecidableEq

/-- `ServerCommit`. -/
structure ServerCommit where
  branch : String
  tags : List String
  bindRefs : List String
  rootDirtree : Checksum
  rootDirmeta : Checksum
  subject : String
  body : String
  /-- Each entry is a key and the bytes of a `v` in normal form. -/
  metadata : List (String × Bytes)
  timestamp : Option UInt64
  orphan : Bool
  deriving DecidableEq

/-- `CommitRequest`. -/
structure CommitRequest where
  updates : List RefUpdate
  force : Bool
  serverCommit : Option ServerCommit
  deriving DecidableEq

/-- `ErrorMessage`. -/
structure ErrorMessage where
  code : ErrorCode
  message : String
  missing : List ObjectName
  current : Option RefState
  deriving DecidableEq

/-- `PullHello`. -/
structure PullHello where
  version : UInt32
  agent : Option String
  deriving DecidableEq

/-- `PullHelloReply`. -/
structure PullHelloReply where
  version : UInt32
  deriving DecidableEq

/-- `GetReply`. -/
structure GetReply where
  found : Bool
  len : Option UInt64
  deriving DecidableEq

/-- `ListRefsRequest`. -/
structure ListRefsRequest where
  refs : List String
  collections : Option (List String)
  deriving DecidableEq

/-- `Message`. -/
inductive Message where
  | hello (message : Hello)
  | helloReply (message : HelloReply)
  | «have» (names : List ObjectName)
  | haveReply (message : HaveReply)
  | objectHeader (message : ObjectHeader)
  | objectsEnd
  | objectsReply (message : ObjectsReply)
  | commit (message : CommitRequest)
  | commitReply (outcomes : List RefOutcome)
  | error (message : ErrorMessage)
  | abort
  | pullHello (message : PullHello)
  | pullHelloReply (message : PullHelloReply)
  | get (path : String)
  | getReply (message : GetReply)
  | listRefs (message : ListRefsRequest)
  deriving DecidableEq

/-- `Message::kind`. -/
def Message.kind : Message → Kind
  | hello _ => .hello
  | helloReply _ => .helloReply
  | «have» _ => .have
  | haveReply _ => .haveReply
  | objectHeader _ => .objectHeader
  | objectsEnd => .objectsEnd
  | objectsReply _ => .objectsReply
  | commit _ => .commit
  | commitReply _ => .commitReply
  | error _ => .error
  | abort => .abort
  | pullHello _ => .pullHello
  | pullHelloReply _ => .pullHelloReply
  | get _ => .get
  | getReply _ => .getReply
  | listRefs _ => .listRefs

/-! ### The types of the bodies -/

/-- `OBJECT_NAMES`. -/
def objectNamesType : Ty := .array (.tuple [.byte, .array .byte])

/-- `STRV`. -/
def strvType : Ty := .array .str

/-- `MAYBE_CHECKSUM`. -/
def maybeChecksumType : Ty := .maybe (.array .byte)

/-- `UPDATES`. -/
def updatesType : Ty := .array (.tuple [.str, .byte, maybeChecksumType, maybeChecksumType])

/-- `SERVER_COMMIT_SIGNATURE`. -/
def serverCommitSignature : String := "(sasas(ayay)ssa\x7bsv\x7da\x7bsv\x7d)"

/-- `SERVER_COMMIT`. -/
def serverCommitType : Ty :=
  .tuple [.str, strvType, strvType, .tuple [.array .byte, .array .byte], .str, .str, dictType, dictType]

theorem parse_serverCommitSignature : Ty.parse serverCommitSignature = .ok serverCommitType := rfl

/-- The type of the body of each kind. -/
def Kind.bodyType : Kind → Option Ty
  | .hello => some (.tuple [.u32, dictType, strvType])
  | .helloReply => some (.tuple [.u32, dictType, .array (.tuple [.str, maybeChecksumType])])
  | .have => some objectNamesType
  | .haveReply => some (.array .byte)
  | .objectHeader => some (.tuple [.byte, .array .byte, .byte])
  | .objectsEnd => none
  | .objectsReply => some (.tuple [.u32, .u64])
  | .commit => some (.tuple [updatesType, dictType])
  | .commitReply => some (.array (.tuple [.str, maybeChecksumType, maybeChecksumType]))
  | .error => some (.tuple [.str, .str, dictType])
  | .abort => some (.tuple [])
  | .pullHello => some (.tuple [.u32, dictType])
  | .pullHelloReply => some (.tuple [.u32, dictType])
  | .get => some .str
  | .getReply => some (.tuple [.bool, .maybe .u64])
  | .listRefs => some (.tuple [strvType, dictType])

/-! ### Checks -/

/-- `check_limits`. -/
def checkLimits (maxFrame maxHave parallelUploads : UInt32) : Except Error Unit :=
  if ¬(minFrameLimit ≤ maxFrame ∧ maxFrame ≤ maxFrameLimit) then
    .error (.protocol ("max-frame " ++ toString maxFrame.toNat ++ " is out of range"))
  else if maxHave = 0 ∨ parallelUploads = 0 then
    .error (.protocol "max-have and parallel-uploads must be at least 1")
  else .ok ()

/-- `check_error`. -/
def checkError (message : ErrorMessage) : Except Error Unit :=
  if message.code = .refMismatch ∧ message.current = none then
    .error (.protocol "ref-mismatch lacks ref and current")
  else .ok ()

/-- `check_get_reply`. -/
def checkGetReply (reply : GetReply) : Except Error Unit :=
  if reply.found = false ∧ reply.len.isSome then
    .error (.protocol "GetReply with found false carries a length")
  else .ok ()

/-- `check_header`. -/
def checkHeader (name : ObjectName) (encoding : Encoding) : Except Error Unit :=
  if ¬ headerType name.ty then
    .error (.protocol ("object type " ++ toString name.ty.asU32.toNat ++ " is not allowed in ObjectHeader"))
  else if encoding = .deflate ∧ name.ty ≠ .file then
    .error (.protocol "deflate is allowed for a file object alone")
  else .ok ()

/-! ### Encoding -/

/-- `encode_error`. -/
def encodeError (fault : Gvariant.Error) : Error := .protocol ("encode: " ++ fault.display)

/-- `to_bytes` under the error of an encode. -/
def encodeValue (ty : Ty) (value : Value) : Except Error Bytes := (toBytes ty value).mapError encodeError

/-- `object_names_value`. -/
def objectNamesValue (names : List ObjectName) : Except Error Value :=
  match names.find? fun name => !haveType name.ty with
  | some bad =>
    .error (.protocol ("object type " ++ toString bad.ty.asU32.toNat ++ " is not allowed in an object list"))
  | none => .ok (.array (names.map objectNameValue))

/-- An entry that the encoder writes only for a value that is present. -/
def DictBuilder.insertStr? (builder : DictBuilder) (key : String) : Option String → DictBuilder
  | some text => builder.insertStr key text
  | none => builder

/-- A flag that the encoder writes only if it is set. -/
def DictBuilder.insertFlag (builder : DictBuilder) (key : String) (flag : Bool) : DictBuilder :=
  if flag then builder.insertBool key true else builder

/-- The options of a `Hello`. -/
def Hello.options (message : Hello) : DictBuilder :=
  DictBuilder.insertFlag
    (DictBuilder.insertStr? (DictBuilder.insertStr? [] "agent" message.agent) "collection" message.collection)
    "one-way" message.oneWay

def Hello.value (message : Hello) : Value :=
  .tuple [.u32 message.version, message.options.build, .array (message.refs.map .str)]

/-- The options of a `HelloReply`. -/
def HelloReply.options (message : HelloReply) : DictBuilder :=
  let opts := DictBuilder.insertStr [] "mode" message.mode
  let opts := DictBuilder.insertStr? opts "collection-id" message.collectionId
  let opts := DictBuilder.insertStr? opts "collection" message.collection
  (((opts.insert "max-frame" .u32 (.u32 message.maxFrame)).insert "max-have" .u32 (.u32 message.maxHave)).insertStrv
    "encodings" (message.encodings.map Encoding.asStr)).insert "parallel-uploads" .u32 (.u32 message.parallelUploads)

def RefState.value (state : RefState) : Value := .tuple [.str state.name, maybeValue state.commit]

def HelloReply.value (message : HelloReply) : Value :=
  .tuple [.u32 message.version, message.options.build, .array (message.refs.map RefState.value)]

def ObjectHeader.value (message : ObjectHeader) : Value :=
  .tuple [.byte (typeByte message.name.ty), .bytes message.name.checksum.bytes, .byte message.encoding.asU8]

def RefOutcome.value (outcome : RefOutcome) : Value :=
  .tuple [.str outcome.name, maybeValue outcome.old, maybeValue outcome.new]

/-- The missing objects of an `Error`, if there are any. -/
def ErrorMessage.missingDetail (message : ErrorMessage) : Except Error DictBuilder :=
  if message.missing.isEmpty then .ok []
  else (objectNamesValue message.missing).map fun names => DictBuilder.insert [] "missing" objectNamesType names

/-- The detail of an `Error`: the missing objects, then the ref and its state. -/
def ErrorMessage.detail (message : ErrorMessage) : Except Error DictBuilder := do
  let detail ← message.missingDetail
  match message.current with
  | some state =>
    .ok ((detail.insertStr "ref" state.name).insert "current" maybeChecksumType (maybeValue state.commit))
  | none => .ok detail

def GetReply.value (message : GetReply) : Value := .tuple [.bool message.found, .maybe (message.len.map .u64)]

/-- The options of a `ListRefs`. -/
def ListRefsRequest.options (message : ListRefsRequest) : DictBuilder :=
  match message.collections with
  | some collections => DictBuilder.insertStrv [] "collections" collections
  | none => []

/-- `GvEncode for VariantSlice`: the bytes of a `v`. -/
def GvEncode.variantSlice : GvEncode Bytes :=
  .leaf (8, none) valid_variant .ok sized_variant

/-- An `a{sv}` entry, as the typed encoder writes it. -/
def GvEncode.dictEntry : GvEncode (String × Bytes) := .tuple (.cons .str (.last GvEncode.variantSlice))

/-- `variant_bytes`. -/
def variantBytes (ty : Ty) (value : Value) : Except Error Bytes := encodeValue .variant (.variant ty value)

/-- The members of a server commit, as the typed encoder writes them. -/
def serverCommitEncode : EncodeMembers (String × List String × List String × (Checksum × Checksum) × String × String ×
    List (String × Bytes) × List (String × Bytes)) :=
  .cons .str <| .cons (.slice .str) <| .cons (.slice .str)
    <| .cons (.tuple (.cons GvEncode.checksum (.last GvEncode.checksum))) <| .cons .str <| .cons .str
    <| .cons (.slice GvEncode.dictEntry) <| .last (.slice GvEncode.dictEntry)

/-- The check of a metadata entry before it is written. -/
def checkMetadata (entry : String × Bytes) : Except Error Unit :=
  (validate .variant entry.2).mapError fun fault =>
    .protocol ("encode: metadata entry '" ++ entry.1 ++ "': " ++ fault.display)

/-- An option with the bytes of its `v`, which the encoder writes only if it is present. -/
def optionBytes (key : String) : Option (Except Error Bytes) → Except Error (List (String × Bytes))
  | some bytes => bytes.map fun bytes => [(key, bytes)]
  | none => .ok []

/-- The options of a server commit. -/
def ServerCommit.options (commit : ServerCommit) : Except Error (List (String × Bytes)) := do
  let timestamp ← optionBytes "timestamp" (commit.timestamp.map fun timestamp => variantBytes .u64 (.u64 timestamp))
  let orphan ← optionBytes "orphan" (if commit.orphan then some (variantBytes .bool (.bool true)) else none)
  .ok (timestamp ++ orphan)

/-- `server_commit_bytes`. -/
def serverCommitBytes (commit : ServerCommit) : Except Error Bytes := do
  checkEach checkMetadata commit.metadata
  let opts ← commit.options
  (encodeToVec (.tuple serverCommitEncode)
    (commit.branch, commit.tags, commit.bindRefs, (commit.rootDirtree, commit.rootDirmeta),
      commit.subject, commit.body, commit.metadata, opts)).mapError encodeError

/-- The wire state of an expected state, with its commit. -/
def Expected.wire : Expected → UInt8 × Option Checksum
  | absent => (0, none)
  | commit checksum => (1, some checksum)
  | any => (2, none)

def RefUpdate.value (update : RefUpdate) : Value :=
  .tuple [.str update.name, .byte update.expected.wire.1, maybeValue update.expected.wire.2, maybeValue update.new]

/-- The options of a `Commit`. -/
def commitOptions (force : Bool) (serverCommit : Option ServerCommit) : Except Error (List (String × Bytes)) := do
  let forced ← optionBytes "force" (if force then some (variantBytes .bool (.bool true)) else none)
  let server ← optionBytes "server-commit" (serverCommit.map fun commit =>
    (serverCommitBytes commit).map fun bytes => bytes ++ [0] ++ asBytes serverCommitSignature)
  .ok (forced ++ server)

/-- `encode_commit_parts`. -/
def encodeCommitParts (updates : List RefUpdate) (force : Bool)
    (serverCommit : Option ServerCommit) : Except Error Bytes := do
  let updates ← encodeValue updatesType (.array (updates.map RefUpdate.value))
  let opts ← commitOptions force serverCommit
  (encodeToVec (.tuple (.cons .bytes (.last (.slice GvEncode.dictEntry)))) (updates, opts)).mapError encodeError

/-- `encode_commit`. -/
def encodeCommit (message : CommitRequest) : Except Error Bytes :=
  encodeCommitParts message.updates message.force message.serverCommit

/-- `Message::encode_body`. -/
def Message.encodeBody : Message → Except Error Bytes
  | commit message => encodeCommit message
  | objectsEnd => .ok []
  | abort => .ok [0]
  | hello message => encodeValue (.tuple [.u32, dictType, strvType]) message.value
  | helloReply message => do
    checkLimits message.maxFrame message.maxHave message.parallelUploads
    encodeValue (.tuple [.u32, dictType, .array (.tuple [.str, maybeChecksumType])]) message.value
  | «have» names => do
    let value ← objectNamesValue names
    encodeValue objectNamesType value
  | haveReply message => encodeValue (.array .byte) (.bytes message.bitmap)
  | objectHeader message => do
    checkHeader message.name message.encoding
    encodeValue (.tuple [.byte, .array .byte, .byte]) message.value
  | objectsReply message =>
    encodeValue (.tuple [.u32, .u64]) (.tuple [.u32 message.objects, .u64 message.payloadBytes])
  | commitReply outcomes =>
    encodeValue (.array (.tuple [.str, maybeChecksumType, maybeChecksumType])) (.array (outcomes.map RefOutcome.value))
  | error message => do
    checkError message
    let detail ← message.detail
    encodeValue (.tuple [.str, .str, dictType]) (.tuple [.str message.code.asStr, .str message.message, detail.build])
  | pullHello message =>
    encodeValue (.tuple [.u32, dictType])
      (.tuple [.u32 message.version, (DictBuilder.insertStr? [] "agent" message.agent).build])
  | pullHelloReply message =>
    encodeValue (.tuple [.u32, dictType]) (.tuple [.u32 message.version, DictBuilder.build []])
  | get path => encodeValue .str (.str path)
  | getReply message => do
    checkGetReply message
    encodeValue (.tuple [.bool, .maybe .u64]) message.value
  | listRefs message =>
    encodeValue (.tuple [strvType, dictType]) (.tuple [.array (message.refs.map .str), message.options.build])

/-! ### Decoding -/

/-- `malformed`. -/
def malformed (fault : Gvariant.Error) : Error := .protocol ("malformed body: " ++ fault.display)

/-- `parse_body`. -/
def parseBody {α : Type} (decoder : GvDecode α) (body : Bytes) : Except Error α :=
  (decoder.decode body).mapError malformed

/-- `collect`: every entry of an array, decoded and mapped. -/
def collect {α β : Type} (decoder : GvDecode α) (f : α → Except Error β) (items : ArrayReader) :
    Except Error (List β) :=
  (validated malformed decoder.decode (fun (_ : Unit) item => (f item).map (·, ())) items ()).map Prod.fst

/-- `GvDecode for bool`. -/
def GvDecode.bool : GvDecode Bool := ⟨(1, some 1), decodeBool, valid_one⟩

/-- `MaybeBytes`. -/
def GvDecode.maybeBytes : GvDecode (Option Bytes) where
  spec := (1, none)
  decode := fun data =>
    if data = [] then .ok none
    else if data.getLast? = some 0 then .ok (some data.dropLast)
    else .error (.notNormal "maybe lacks its terminating zero byte")
  valid := valid_dynamic

/-- `MaybeU64`. -/
def GvDecode.maybeU64 : GvDecode (Option UInt64) where
  spec := (8, none)
  decode := fun data =>
    if data.length = 0 then .ok none
    else if data.length = 8 then (GvDecode.u64.decode data).map some
    else .error (.notNormal "maybe of a u64 is not 0 or 8 bytes")
  valid := valid_variant

/-- `RawVariant`: a `v` as the type and the bytes of its child. -/
structure RawVariant where
  ty : Ty
  child : Bytes
  deriving DecidableEq

/-- `GvDecode for RawVariant`: the steps of `split_variant`. -/
def GvDecode.rawVariant : GvDecode RawVariant where
  spec := (8, none)
  decode := fun data => (splitVariant data).map fun (child, _, ty) => ⟨ty, child⟩
  valid := valid_variant

/-- `GvDecode for VariantSlice`. -/
def GvDecode.variantSlice : GvDecode Bytes where
  spec := (8, none)
  decode := .ok
  valid := valid_variant

/-- An entry of a `Dict`. -/
def GvDecode.dictEntry : GvDecode (String × RawVariant) := .tuple (.cons .str (.last GvDecode.rawVariant))

/-- `Dict`. -/
def GvDecode.dict : GvDecode ArrayReader := .arrayIter GvDecode.dictEntry

/-- The entries that `dict` keeps: the first value under each of its keys. -/
abbrev Found := List (String × RawVariant)

/-- One entry of the loop of `dict`. -/
def dictStep (keys : List String) (found : Found) (entry : String × RawVariant) : Except Error (Unit × Found) :=
  if entry.1 ∈ keys ∧ (found.lookup entry.1).isNone then .ok ((), found ++ [entry])
  else do
    (validate entry.2.ty entry.2.child).mapError malformed
    .ok ((), found)

/-- `dict`. -/
def dict (entries : ArrayReader) (keys : List String) : Except Error Found :=
  (validated malformed GvDecode.dictEntry.decode (dictStep keys) entries []).map Prod.snd

/-- `field`. -/
def field {α : Type} (decoder : GvDecode α) (found : Found) (key : String) (ty : Ty) : Except Error (Option α) :=
  match found.lookup key with
  | none => .ok none
  | some entry =>
    if entry.ty ≠ ty then .error (.protocol ("key " ++ key ++ " has the wrong type"))
    else ((decoder.decode entry.child).map some).mapError malformed

/-- `required`. -/
def required {α : Type} (decoder : GvDecode α) (found : Found) (key : String) (ty : Ty) : Except Error α := do
  match ← field decoder found key ty with
  | some value => .ok value
  | none => .error (.protocol ("HelloReply lacks " ++ key))

/-- `maybe_checksum`. -/
def maybeChecksum : Option Bytes → Except Error (Option Checksum)
  | none => .ok none
  | some bytes => (checksum bytes).map some

/-- An `(yay)` entry. -/
def GvDecode.objectName : GvDecode (UInt8 × Bytes) := .tuple (.cons .byte (.last .bytes))

/-- `object_names`. -/
def objectNames (names : ArrayReader) : Except Error (List ObjectName) :=
  collect GvDecode.objectName (fun entry => objectName entry.1 entry.2 haveType) names

/-- An `(smay)` entry. -/
def GvDecode.refState : GvDecode (String × Option Bytes) := .tuple (.cons .str (.last GvDecode.maybeBytes))

/-- An `(smaymay)` entry. -/
def GvDecode.refOutcome : GvDecode (String × Option Bytes × Option Bytes) :=
  .tuple (.cons .str (.cons GvDecode.maybeBytes (.last GvDecode.maybeBytes)))

/-- `UpdateView`. -/
def GvDecode.update : GvDecode (String × UInt8 × Option Bytes × Option Bytes) :=
  .tuple (.cons .str (.cons .byte (.cons GvDecode.maybeBytes (.last GvDecode.maybeBytes))))

/-- `decode_hello`, the arm of `Hello`. -/
def decodeHello (body : Bytes) : Except Error Hello := do
  let (version, opts, refs) ← parseBody (.tuple (.cons .u32 (.cons GvDecode.dict (.last (.arrayIter .str))))) body
  let found ← dict opts ["agent", "collection", "one-way"]
  let agent ← field .str found "agent" .str
  let collection ← field .str found "collection" .str
  let oneWay ← field GvDecode.bool found "one-way" .bool
  let refs ← collect .str .ok refs
  .ok ⟨version, agent, refs, collection, oneWay.getD false⟩

/-- The entry of a ref in a `HelloReply`. -/
def decodeRefState (entry : String × Option Bytes) : Except Error RefState := do
  .ok ⟨entry.1, ← maybeChecksum entry.2⟩

/-- `decode_hello_reply`. A name that is not an encoding is dropped. -/
def decodeHelloReply (body : Bytes) : Except Error HelloReply := do
  let (version, opts, refs) ←
    parseBody (.tuple (.cons .u32 (.cons GvDecode.dict (.last (.arrayIter GvDecode.refState))))) body
  let found ← dict opts
    ["mode", "collection-id", "collection", "max-frame", "max-have", "encodings", "parallel-uploads"]
  let mode ← required .str found "mode" .str
  let collectionId ← field .str found "collection-id" .str
  let collection ← field .str found "collection" .str
  let maxFrame ← required .u32 found "max-frame" .u32
  let maxHave ← required .u32 found "max-have" .u32
  let parallelUploads ← required .u32 found "parallel-uploads" .u32
  checkLimits maxFrame maxHave parallelUploads
  let names ← required (.arrayIter .str) found "encodings" strvType
  let names ← collect .str .ok names
  let refs ← collect GvDecode.refState decodeRefState refs
  .ok ⟨version, mode, collectionId, collection, maxFrame, maxHave,
    names.filterMap Encoding.fromName, parallelUploads, refs⟩

/-- The arm of `ObjectHeader`. -/
def decodeObjectHeader (body : Bytes) : Except Error ObjectHeader := do
  let (ty, sum, enc) ← parseBody (.tuple (.cons .byte (.cons .bytes (.last .byte)))) body
  let name ← objectName ty sum headerType
  let encoding ← Encoding.fromU8 enc
  checkHeader name encoding
  .ok ⟨name, encoding⟩

/-- The expected state of an update. -/
def decodeExpected (state : UInt8) (commit : Option Checksum) : Except Error Expected :=
  match state.toNat, commit with
  | 0, none => .ok .absent
  | 1, some checksum => .ok (.commit checksum)
  | 2, none => .ok .any
  | n, _ =>
    if n ≤ 2 then .error (.protocol ("expected state " ++ toString n ++ " does not match its commit"))
    else .error (.protocol ("unknown expected state " ++ toString n))

/-- `decode_update`. -/
def decodeUpdate : String × UInt8 × Option Bytes × Option Bytes → Except Error RefUpdate
  | (name, state, expected, new) => do
    let expected ← maybeChecksum expected
    let expected ← decodeExpected state expected
    let new ← maybeChecksum new
    .ok ⟨name, expected, new⟩

/-- An entry of the metadata of a server commit. -/
def GvDecode.metadataEntry : GvDecode (String × Bytes) := .tuple (.cons .str (.last GvDecode.variantSlice))

/-- `ServerCommitView`. -/
def serverCommitDecode : DecodeMembers (String × ArrayReader × ArrayReader × (Bytes × Bytes) × String × String ×
    ArrayReader × ArrayReader) :=
  .cons .str <| .cons (.arrayIter .str) <| .cons (.arrayIter .str) <| .cons (.tuple (.cons .bytes (.last .bytes)))
    <| .cons .str <| .cons .str <| .cons (.arrayIter GvDecode.metadataEntry) <| .last GvDecode.dict

/-- The check of a metadata entry as it is read. -/
def decodeMetadata (entry : String × Bytes) : Except Error (String × Bytes) := do
  (validate .variant entry.2).mapError malformed
  .ok entry

/-- `decode_server_commit`. -/
def decodeServerCommit : String × ArrayReader × ArrayReader × (Bytes × Bytes) × String × String × ArrayReader ×
    ArrayReader → Except Error ServerCommit
  | (branch, tags, bindRefs, (dirtree, dirmeta), subject, body, metadata, opts) => do
    let found ← dict opts ["timestamp", "orphan"]
    let timestamp ← field .u64 found "timestamp" .u64
    let orphan ← field GvDecode.bool found "orphan" .bool
    let metadata ← collect GvDecode.metadataEntry decodeMetadata metadata
    let tags ← collect .str .ok tags
    let bindRefs ← collect .str .ok bindRefs
    let rootDirtree ← checksum dirtree
    let rootDirmeta ← checksum dirmeta
    .ok ⟨branch, tags, bindRefs, rootDirtree, rootDirmeta, subject, body, metadata, timestamp, orphan.getD false⟩

/-- The arm of `Commit`. -/
def decodeCommit (body : Bytes) : Except Error CommitRequest := do
  let (updates, opts) ← parseBody (.tuple (.cons (.arrayIter GvDecode.update) (.last GvDecode.dict))) body
  let updates ← collect GvDecode.update decodeUpdate updates
  let found ← dict opts ["force", "server-commit"]
  let force ← field GvDecode.bool found "force" .bool
  let view ← field (.tuple serverCommitDecode) found "server-commit" serverCommitType
  let serverCommit ← view.mapM decodeServerCommit
  .ok ⟨updates, force.getD false, serverCommit⟩

/-- The entry of a ref in a `CommitReply`. -/
def decodeRefOutcome (entry : String × Option Bytes × Option Bytes) : Except Error RefOutcome := do
  .ok ⟨entry.1, ← maybeChecksum entry.2.1, ← maybeChecksum entry.2.2⟩

/-- The state that an `Error` carries, from its two keys. -/
def decodeCurrent : Option String → Option (Option Bytes) → Except Error (Option RefState)
  | some name, some commit => do .ok (some ⟨name, ← maybeChecksum commit⟩)
  | none, none => .ok none
  | _, _ => .error (.protocol "Error carries one of ref and current alone")

/-- The missing objects that an `Error` carries. -/
def decodeMissing : Option ArrayReader → Except Error (List ObjectName)
  | some names => objectNames names
  | none => .ok []

/-- The code of an `Error`. -/
def decodeCode (name : String) : Except Error ErrorCode :=
  match ErrorCode.fromName name with
  | some code => .ok code
  | none => .error (.protocol ("unknown error code " ++ name))

/-- `decode_error`. -/
def decodeError (body : Bytes) : Except Error ErrorMessage := do
  let (name, message, detail) ← parseBody (.tuple (.cons .str (.cons .str (.last GvDecode.dict)))) body
  let code ← decodeCode name
  let found ← dict detail ["missing", "ref", "current"]
  let names ← field (.arrayIter GvDecode.objectName) found "missing" objectNamesType
  let missing ← decodeMissing names
  let refName ← field .str found "ref" .str
  let commit ← field GvDecode.maybeBytes found "current" maybeChecksumType
  let current ← decodeCurrent refName commit
  let e : ErrorMessage := ⟨code, message, missing, current⟩
  checkError e
  .ok e

/-- The arm of `PullHello`. -/
def decodePullHello (body : Bytes) : Except Error PullHello := do
  let (version, opts) ← parseBody (.tuple (.cons .u32 (.last GvDecode.dict))) body
  let found ← dict opts ["agent"]
  let agent ← field .str found "agent" .str
  .ok ⟨version, agent⟩

/-- The arm of `PullHelloReply`. -/
def decodePullHelloReply (body : Bytes) : Except Error PullHelloReply := do
  let (version, opts) ← parseBody (.tuple (.cons .u32 (.last GvDecode.dict))) body
  let _ ← dict opts []
  .ok ⟨version⟩

/-- The arm of `GetReply`. -/
def decodeGetReply (body : Bytes) : Except Error GetReply := do
  let (found, len) ← parseBody (.tuple (.cons GvDecode.bool (.last GvDecode.maybeU64))) body
  let reply : GetReply := ⟨found, len⟩
  checkGetReply reply
  .ok reply

/-- The arm of `ListRefs`. -/
def decodeListRefs (body : Bytes) : Except Error ListRefsRequest := do
  let (refs, opts) ← parseBody (.tuple (.cons (.arrayIter .str) (.last GvDecode.dict))) body
  let found ← dict opts ["collections"]
  let entries ← field (.arrayIter .str) found "collections" strvType
  let refs ← collect .str .ok refs
  let collections ← entries.mapM (collect .str .ok)
  .ok ⟨refs, collections⟩

/-- `Message::decode`. -/
def Message.decode (kind : Kind) (body : Bytes) : Except Error Message :=
  match kind with
  | .objectsEnd => if body ≠ [] then .error (.protocol "ObjectsEnd body is not empty") else .ok .objectsEnd
  | .abort => if body ≠ [0] then .error (.protocol "Abort body is not the unit tuple") else .ok .abort
  | .hello => (decodeHello body).map .hello
  | .helloReply => (decodeHelloReply body).map .helloReply
  | .have => do .ok (.have (← objectNames (← parseBody (.arrayIter GvDecode.objectName) body)))
  | .haveReply => (parseBody .bytes body).map fun bitmap => .haveReply ⟨bitmap⟩
  | .objectHeader => (decodeObjectHeader body).map .objectHeader
  | .objectsReply =>
    (parseBody (.tuple (.cons .u32 (.last .u64))) body).map fun (objects, payload) => .objectsReply ⟨objects, payload⟩
  | .commit => (decodeCommit body).map .commit
  | .commitReply => do
    let outcomes ← parseBody (.arrayIter GvDecode.refOutcome) body
    .ok (.commitReply (← collect GvDecode.refOutcome decodeRefOutcome outcomes))
  | .error => (decodeError body).map .error
  | .pullHello => (decodePullHello body).map .pullHello
  | .pullHelloReply => (decodePullHelloReply body).map .pullHelloReply
  | .get => (parseBody .str body).map .get
  | .getReply => (decodeGetReply body).map .getReply
  | .listRefs => (decodeListRefs body).map .listRefs

end Ostrya.Remote
