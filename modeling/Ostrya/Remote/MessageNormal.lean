/-
**Every body that decodes is in normal form** for the type of its kind (`Message::decode`).

The arrays of a body are framed first and decoded entry by entry later, so each array has to be drained on every
path that succeeds. Under a dict, an entry that is not the first one of a known key is checked in place. The
metadata of a server commit keeps its bytes and its order: `decodeCommit_normal`.
-/

import Ostrya.Remote.CommitRoundTrip

namespace Ostrya.Remote

open ByteFormat Gvariant Ostrya.Core Repo

/-! ### Values that are read from bytes in normal form only -/

section Parts

variable {α β : Type} {decoder : GvDecode α} {r : ArrayReader} {members : DecodeMembers α} {tys : List Ty}

/-- The decoder reads `a` only from bytes in normal form for `ty`. -/
def Normal (decoder : GvDecode α) (ty : Ty) (a : α) : Prop :=
  decoder.spec = ty.spec ∧ ∀ part, decoder.decode part = .ok a → ∃ value, Denotes ty part value

/-- `Normal`, member by member. -/
def NormalMembers : {α : Type} → DecodeMembers α → List Ty → α → Prop
  | _, .last member, [ty], a => Normal member ty a
  | _, .cons member rest, ty :: tys, (a, as) => Normal member ty a ∧ NormalMembers rest tys as
  | _, _, _, _ => False

/-- Members in normal form denote values. -/
theorem NormalMembers.denotes (normal : NormalMembers members tys a) :
    members.specs = tys.map Ty.spec ∧ ∀ parts, members.Holds parts a →
      ∃ items, Forall₃ (fun ty item part => Denotes ty part item) tys items parts := by
  induction members generalizing tys with
  | last member =>
    obtain _ | ⟨ty, _ | ⟨_, _⟩⟩ := tys
    · exact normal.elim
    · refine ⟨congrArg (fun spec => [spec]) normal.1, fun parts held => ?_⟩
      obtain ⟨part, rfl, decoded⟩ := DecodeMembers.holds_last held
      obtain ⟨value, denoted⟩ := normal.2 part decoded
      exact ⟨[value], .cons denoted .nil⟩
    · exact normal.elim
  | cons member rest ih =>
    obtain _ | ⟨ty, tys⟩ := tys
    · exact normal.elim
    · obtain ⟨same, others⟩ := ih normal.2
      refine ⟨congrArg₂ List.cons normal.1.1 same, fun parts held => ?_⟩
      obtain ⟨part, parts, rfl, decoded, held⟩ := DecodeMembers.holds_cons held
      obtain ⟨value, denoted⟩ := normal.1.2 part decoded
      obtain ⟨items, each⟩ := others parts held
      exact ⟨value :: items, .cons denoted each⟩

namespace Normal

theorem tuple (normal : NormalMembers members tys a) :
    Normal (.tuple members) (.tuple tys) a := by
  obtain ⟨same, each⟩ := normal.denotes
  refine ⟨tupleSpec_eq same, fun part decoded => ?_⟩
  obtain ⟨parts, held, whole⟩ := denotes_of_tuple same decoded
  obtain ⟨items, denoted⟩ := each parts held
  exact ⟨_, whole items denoted⟩

theorem body {a : α} {data : Bytes}
    (decoded : (GvDecode.tuple members).decode data = .ok a) (normal : NormalMembers members tys a) :
    ∃ value, Denotes (.tuple tys) data value := (tuple normal).2 data decoded

theorem str : Normal .str .str a := ⟨rfl, fun _ decoded => ⟨_, decode_str.mp decoded⟩⟩

theorem u32 : Normal .u32 .u32 a := ⟨rfl, fun _ decoded => ⟨_, decode_u32.mp decoded⟩⟩

theorem u64 : Normal .u64 .u64 a := ⟨rfl, fun _ decoded => ⟨_, decode_u64.mp decoded⟩⟩

theorem byte : Normal .byte .byte a := ⟨rfl, fun _ decoded => ⟨_, decode_byte.mp decoded⟩⟩

theorem bool : Normal GvDecode.bool .bool a := ⟨rfl, fun _ decoded => ⟨_, decode_bool.mp decoded⟩⟩

theorem bytes : Normal .bytes (.array .byte) a := ⟨rfl, fun _ decoded => ⟨_, decode_bytes.mp decoded⟩⟩

theorem maybeBytes : Normal GvDecode.maybeBytes maybeChecksumType a :=
  ⟨rfl, fun _ decoded => ⟨_, decode_maybeBytes.mp decoded⟩⟩

theorem maybeU64 : Normal GvDecode.maybeU64 (.maybe .u64) a :=
  ⟨rfl, fun _ decoded => ⟨_, decode_maybeU64.mp decoded⟩⟩

theorem array (other : elem ≠ .byte) (each : ∀ a, Normal decoder elem a)
    (same : decoder.spec = elem.spec) (framed : (GvDecode.arrayIter decoder).spec = (Ty.array elem).spec)
    (collected : collect decoder f r = .ok outs) :
    Normal (.arrayIter decoder) (.array elem) r := by
  refine ⟨framed, fun data opened => ?_⟩
  obtain ⟨items, denoted, _⟩ := @denotes_of_collects _ _ _ f elem same other _ _ _ (fun _ _ => True)
    opened collected fun part a _ decoded _ => by
      obtain ⟨value, denoted⟩ := (each a).2 part decoded
      exact ⟨value, denoted, trivial⟩
  exact ⟨_, denoted⟩

theorem strs (collected : collect .str .ok r = .ok texts) : Normal (.arrayIter .str) strvType r :=
  array (by simp) (fun _ => str) rfl rfl collected

variable {keys : List String} {found : Found}

/-- A dict, if the fields that the caller decodes are in normal form. -/
theorem dict (kept : Remote.dict r keys = .ok found)
    (fields : keys.Forall fun key => ∀ entry, found.lookup key = some entry →
      ∃ value, Denotes entry.ty entry.child value) :
    Normal GvDecode.dict dictType r := by
  refine ⟨rfl, fun data opened => ?_⟩
  have each : ∀ key, ∃ value, ∀ entry, found.lookup key = some entry → Denotes entry.ty entry.child value := by
    intro key
    cases present : found.lookup key with
    | none => exact ⟨.bool false, by simp⟩
    | some entry =>
      obtain ⟨value, denoted⟩ := List.forall_iff_forall_mem.mp fields key (dict_keys kept present) entry present
      exact ⟨value, by rintro _ ⟨⟩; exact denoted⟩
  choose choice chosen using each
  obtain ⟨entries, denoted, _⟩ := denotes_of_dict opened kept choice chosen
  exact ⟨_, denoted⟩

theorem field (read : Remote.field decoder found key ty = .ok got)
    (normal : ∀ a, got = some a → Normal decoder ty a) (entry : RawVariant) (present : found.lookup key = some entry) :
    ∃ value, Denotes entry.ty entry.child value := by
  obtain ⟨same, a, decoded, given⟩ := field_eq_ok present read
  rw [same]
  exact (normal a given).2 entry.child decoded

theorem required (read : Remote.required decoder found key ty = .ok got) (normal : Normal decoder ty got) :
    ∀ entry, found.lookup key = some entry → ∃ value, Denotes entry.ty entry.child value :=
  field (required_eq_ok.mp read) fun _ given => Option.some.inj given ▸ normal

theorem refState : Normal GvDecode.refState (.tuple [.str, maybeChecksumType]) a :=
  tuple ⟨str, maybeBytes⟩

theorem refOutcome :
    Normal GvDecode.refOutcome (.tuple [.str, maybeChecksumType, maybeChecksumType]) a :=
  tuple ⟨str, maybeBytes, maybeBytes⟩

theorem update :
    Normal GvDecode.update (.tuple [.str, .byte, maybeChecksumType, maybeChecksumType]) a :=
  tuple ⟨str, byte, maybeBytes, maybeBytes⟩

theorem objectName : Normal GvDecode.objectName (.tuple [.byte, .array .byte]) a := tuple ⟨byte, bytes⟩

end Normal

theorem mapM_some_eq_ok {f : α → Except Error β} {a : α} :
    (some a).mapM f = .ok got ↔ ∃ b, f a = .ok b ∧ some b = got := by
  exact map_eq_ok

end Parts

/-! ### One lemma per kind -/

section Kinds

variable {body : Bytes}

theorem decodeHello_normal (decoded : decodeHello body = .ok message) :
    ∃ value, Denotes (.tuple [.u32, dictType, strvType]) body value := by
  simp only [decodeHello, bind_eq_ok, Prod.exists, parseBody_eq_ok] at decoded
  obtain ⟨version, opts, refs, parsed, found, kept, agent, readAgent, collection, readCollection,
    oneWay, readOneWay, texts, collected, _⟩ := decoded
  exact Normal.body parsed ⟨.u32, .dict kept ⟨Normal.field readAgent fun _ _ => .str,
    Normal.field readCollection fun _ _ => .str, Normal.field readOneWay fun _ _ => .bool⟩, .strs collected⟩

theorem decodeHelloReply_normal (decoded : decodeHelloReply body = .ok message) :
    ∃ value, Denotes (.tuple [.u32, dictType, .array (.tuple [.str, maybeChecksumType])]) body value := by
  simp only [decodeHelloReply, bind_eq_ok, Prod.exists, parseBody_eq_ok] at decoded
  obtain ⟨version, opts, refs, parsed, found, kept, mode, readMode, collectionId, readId, collection, readCollection,
    maxFrame, readFrame, maxHave, readHave, uploads, readUploads, _, _, names, readNames, texts, listed, states,
    collected, _⟩ := decoded
  refine Normal.body parsed ⟨.u32, .dict kept ?_, .array (by simp) (fun _ => .refState) rfl rfl collected⟩
  exact ⟨Normal.required readMode .str, Normal.field readId fun _ _ => .str,
    Normal.field readCollection fun _ _ => .str, Normal.required readFrame .u32,
    Normal.required readHave .u32, Normal.required readNames (.strs listed),
    Normal.required readUploads .u32⟩

theorem decodeObjectHeader_normal (decoded : decodeObjectHeader body = .ok message) :
    ∃ value, Denotes (.tuple [.byte, .array .byte, .byte]) body value := by
  simp only [decodeObjectHeader, bind_eq_ok, Prod.exists, parseBody_eq_ok] at decoded
  obtain ⟨ty, sum, enc, parsed, _⟩ := decoded
  exact Normal.body parsed ⟨.byte, .bytes, .byte⟩

theorem decodeError_normal (decoded : decodeError body = .ok message) :
    ∃ value, Denotes (.tuple [.str, .str, dictType]) body value := by
  simp only [decodeError, bind_eq_ok, Prod.exists, parseBody_eq_ok] at decoded
  obtain ⟨name, text, detail, parsed, code, _, found, kept, names, readNames, missing, listed,
    refName, readRef, commit, readCommit, _⟩ := decoded
  refine Normal.body parsed ⟨.str, .str, .dict kept ⟨Normal.field readNames fun a given => ?_,
    Normal.field readRef fun _ _ => .str, Normal.field readCommit fun _ _ => .maybeBytes⟩⟩
  subst given
  exact .array (by simp) (fun _ => .objectName) rfl rfl listed

theorem decodePullHello_normal (decoded : decodePullHello body = .ok message) :
    ∃ value, Denotes (.tuple [.u32, dictType]) body value := by
  simp only [decodePullHello, bind_eq_ok, Prod.exists, parseBody_eq_ok] at decoded
  obtain ⟨version, opts, parsed, found, kept, agent, readAgent, _⟩ := decoded
  exact Normal.body parsed ⟨.u32, .dict kept (Normal.field readAgent fun _ _ => .str)⟩

theorem decodePullHelloReply_normal (decoded : decodePullHelloReply body = .ok message) :
    ∃ value, Denotes (.tuple [.u32, dictType]) body value := by
  simp only [decodePullHelloReply, bind_eq_ok, Prod.exists, parseBody_eq_ok] at decoded
  obtain ⟨version, opts, parsed, found, kept, _⟩ := decoded
  exact Normal.body parsed ⟨.u32, .dict kept trivial⟩

theorem decodeGetReply_normal (decoded : decodeGetReply body = .ok message) :
    ∃ value, Denotes (.tuple [.bool, .maybe .u64]) body value := by
  simp only [decodeGetReply, bind_eq_ok, Prod.exists, parseBody_eq_ok] at decoded
  obtain ⟨found, len, parsed, _⟩ := decoded
  exact Normal.body parsed ⟨.bool, .maybeU64⟩

theorem decodeListRefs_normal (decoded : decodeListRefs body = .ok message) :
    ∃ value, Denotes (.tuple [strvType, dictType]) body value := by
  simp only [decodeListRefs, bind_eq_ok, Prod.exists, parseBody_eq_ok] at decoded
  obtain ⟨refs, opts, parsed, found, kept, entries, readEntries, texts, collected, collections, listed, _⟩ := decoded
  refine Normal.body parsed ⟨.strs collected, .dict kept (Normal.field readEntries fun a given => ?_)⟩
  subst given
  obtain ⟨got, listed, _⟩ := mapM_some_eq_ok.mp listed
  exact .strs listed

end Kinds

/-! ### The metadata of a server commit -/

/-- The metadata entries that the value of a `Commit` body holds: member 6 of the tuple under
`server-commit`. -/
def serverMetadata (body : Value) : Option (List Value) := do
  let members ← body.asTuple
  let options ← members[1]?
  let entry ← options.dictGet "server-commit"
  let (_, commit) ← entry.asVariant
  let fields ← commit.asTuple
  let metadata ← fields[6]?
  metadata.asArray

/-- The entries have the keys and the bytes of the items, in order. -/
def SameEntries (entries : List (String × Bytes)) (items : List Value) : Prop :=
  List.Forall₂ (fun entry item => ∃ inner, item = .tuple [.str entry.1, inner] ∧ Denotes .variant entry.2 inner)
    entries items

theorem dictGet_build (entries : DictBuilder) (key : String) :
    entries.build.dictGet key = (entries.lookup key).map fun entry => .variant entry.1 entry.2 := by
  have found : ∀ entries : DictBuilder, (entries.map DictBuilder.entryValue).findSome? (Value.entryUnder key)
      = (entries.lookup key).map fun entry => .variant entry.1 entry.2 := by
    intro entries
    induction entries with
    | nil => rfl
    | cons entry entries ih =>
      grind [Value.entryUnder, DictBuilder.entryValue, Value.asTuple, Value.asStr]
  exact found entries

theorem metadataEntry_normal
    (decoded : GvDecode.metadataEntry.decode part = .ok a) (checked : decodeMetadata a = .ok entry) :
    ∃ item, Denotes (.dictEntry .str .variant) part item ∧
      ∃ inner, item = .tuple [.str entry.1, inner] ∧ Denotes .variant entry.2 inner := by
  rw [decodeMetadata, check_bind_eq_ok, mapError_eq_ok] at checked
  obtain ⟨valid, same⟩ := checked
  cases same
  obtain ⟨inner, denoted⟩ := denotes_of_validate valid
  obtain ⟨parts, held, whole⟩ := @denotes_of_tuple _ _ _ [.str, .variant] rfl _ decoded
  obtain ⟨_, _, rfl, key, held⟩ := DecodeMembers.holds_cons held
  obtain ⟨second, rfl, bytes⟩ := DecodeMembers.holds_last held
  obtain rfl : second = a.2 := Except.ok.inj bytes
  exact ⟨_, denotes_dictEntry.mpr (whole _ (.cons (decode_str.mp key) (.cons denoted .nil))), inner, rfl, denoted⟩

/-- A server commit that decodes denotes a tuple that holds its metadata. -/
theorem decodeServerCommit_normal (parsed : (GvDecode.tuple serverCommitDecode).decode child = .ok view)
    (decoded : decodeServerCommit view = .ok commit) :
    ∃ fields items, Denotes serverCommitType child (.tuple fields) ∧
      fields[6]? = some (.array items) ∧ SameEntries commit.metadata items := by
  simp only [decodeServerCommit, bind_eq_ok] at decoded
  obtain ⟨found, kept, timestamp, readTimestamp, orphan, readOrphan, entries, collected, tagList,
    tagged, bindList, bound,
    _, _, _, _, same⟩ := decoded
  cases same
  obtain ⟨parts, held, whole⟩ := @denotes_of_tuple _ _ _
    [.str, strvType, strvType, .tuple [.array .byte, .array .byte], .str, .str, dictType, dictType] rfl _ parsed
  obtain ⟨_, _, rfl, first, held⟩ := DecodeMembers.holds_cons held
  obtain ⟨_, _, rfl, second, held⟩ := DecodeMembers.holds_cons held
  obtain ⟨_, _, rfl, third, held⟩ := DecodeMembers.holds_cons held
  obtain ⟨_, _, rfl, fourth, held⟩ := DecodeMembers.holds_cons held
  obtain ⟨_, _, rfl, fifth, held⟩ := DecodeMembers.holds_cons held
  obtain ⟨_, _, rfl, sixth, held⟩ := DecodeMembers.holds_cons held
  obtain ⟨_, _, rfl, seventh, held⟩ := DecodeMembers.holds_cons held
  obtain ⟨_, rfl, eighth⟩ := DecodeMembers.holds_last held
  obtain ⟨tagValue, tagsDenoted⟩ := (Normal.strs tagged).2 _ second
  obtain ⟨bindValue, bindDenoted⟩ := (Normal.strs bound).2 _ third
  obtain ⟨rootValue, roots⟩ := @Normal.body _ _ [.array .byte, .array .byte] _ _ fourth ⟨.bytes, .bytes⟩
  obtain ⟨items, metadataDenoted, kept'⟩ := denotes_of_collects rfl (by simp) seventh collected
    fun part a out decoded checked => metadataEntry_normal decoded checked
  obtain ⟨options, optionsDenoted⟩ := (Normal.dict kept ⟨Normal.field readTimestamp fun _ _ => .u64,
    Normal.field readOrphan fun _ _ => .bool⟩).2 _ eighth
  refine ⟨_, items, whole _ (.cons (decode_str.mp first) (.cons tagsDenoted (.cons bindDenoted (.cons roots
    (.cons (decode_str.mp fifth) (.cons (decode_str.mp sixth) (.cons metadataDenoted
      (.cons optionsDenoted .nil)))))))), rfl, kept'⟩

variable {body : Bytes}

/-- **A `Commit` body is in normal form and keeps the metadata of its server commit**, byte by byte
and in order. -/
theorem decodeCommit_normal (decoded : decodeCommit body = .ok message) :
    ∃ value, Denotes (.tuple [updatesType, dictType]) body value ∧
      ∀ commit, message.serverCommit = some commit →
        ∃ items, serverMetadata value = some items ∧ SameEntries commit.metadata items := by
  simp only [decodeCommit, bind_eq_ok, Prod.exists, parseBody_eq_ok] at decoded
  obtain ⟨updates, opts, parsed, updateList, collected, found, kept, force, readForce, view,
    readView, served, unwrapped,
    same⟩ := decoded
  cases same
  obtain ⟨parts, held, whole⟩ := @denotes_of_tuple _ _ _ [updatesType, dictType] rfl _ parsed
  obtain ⟨_, _, rfl, openedUpdates, held⟩ := DecodeMembers.holds_cons held
  obtain ⟨_, rfl, opened⟩ := DecodeMembers.holds_last held
  obtain ⟨updateValue, updatesDenoted⟩ :=
    (Normal.array (by simp) (fun _ => .update) rfl rfl collected).2 _ openedUpdates
  have forceNormal := Normal.field readForce fun _ _ => .bool
  cases present : found.lookup "server-commit" with
  | none =>
    obtain rfl : view = none := by simpa [field, present] using readView.symm
    obtain rfl : served = none := by simpa using unwrapped.symm
    obtain ⟨options, denoted⟩ := (Normal.dict kept ⟨forceNormal, by simp [present]⟩).2 _ opened
    exact ⟨_, whole _ (.cons updatesDenoted (.cons denoted .nil)), by simp⟩
  | some entry =>
    obtain ⟨tyEq, a, decoded, rfl⟩ := field_eq_ok present readView
    obtain ⟨commit, decodedCommit, rfl⟩ := mapM_some_eq_ok.mp unwrapped
    obtain ⟨fields, items, commitDenoted, sixth, entries⟩ := decodeServerCommit_normal decoded decodedCommit
    -- the value under `server-commit` is the tuple that was decoded; the one under `force` is any that it denotes
    have each : ∀ key, ∃ value, (key = "server-commit" → value = .tuple fields) ∧
        ∀ entry, found.lookup key = some entry → Denotes entry.ty entry.child value := by
      intro key
      by_cases server : key = "server-commit"
      · subst server
        refine ⟨.tuple fields, fun _ => rfl, fun entry' present' => ?_⟩
        obtain rfl := Option.some.inj (present.symm.trans present')
        rwa [tyEq]
      · cases other : found.lookup key with
        | none => exact ⟨.bool false, by simp [server]⟩
        | some entry' =>
          have known := dict_keys kept other
          simp only [List.mem_cons, List.not_mem_nil, or_false, server, or_false] at known
          subst known
          obtain ⟨value, denoted⟩ := forceNormal entry' other
          exact ⟨value, by simp, by rintro _ ⟨⟩; exact denoted⟩
    choose choice chosen using each
    obtain ⟨dictEntries, denoted, looked⟩ := denotes_of_dict opened kept choice fun key => (chosen key).2
    refine ⟨_, whole _ (.cons updatesDenoted (.cons denoted .nil)), ?_⟩
    rintro _ ⟨⟩
    refine ⟨items, ?_, entries⟩
    have get := dictGet_build dictEntries "server-commit"
    rw [looked "server-commit" (by simp), present, (chosen "server-commit").1 rfl] at get
    simp [serverMetadata, Value.asTuple, get, Value.asVariant, sixth, Value.asArray]

/-- What a body says beyond its message: it is the normal form of a value of the type of its kind,
and a server commit has the metadata of that value. An `ObjectsEnd` has an empty body. -/
def NormalBody (body : Bytes) (message : Message) : Prop :=
  match message.kind.bodyType with
  | none => body = []
  | some ty => ∃ value, Denotes ty body value ∧ ∀ request commit, message = .commit request →
      request.serverCommit = some commit → ∃ items, serverMetadata value = some items ∧
        SameEntries commit.metadata items

theorem NormalBody.of_denotes (typed : message.kind.bodyType = some ty)
    (other : ∀ request, message ≠ .commit request) (denoted : ∃ value, Denotes ty body value) :
    NormalBody body message := by
  obtain ⟨value, denoted⟩ := denoted
  rw [NormalBody, typed]
  exact ⟨value, denoted, fun request _ same => absurd same (other request)⟩

theorem NormalBody.of_map {α : Type} {wrap : α → Message} {read : Except Error α} (kinds : ∀ a, (wrap a).kind = kind)
    (typed : kind.bodyType = some ty) (other : ∀ a request, wrap a ≠ .commit request)
    (normal : ∀ a, read = .ok a → ∃ value, Denotes ty body value) (decoded : read.map wrap = .ok message) :
    message.kind = kind ∧ NormalBody body message := by
  obtain ⟨a, read, rfl⟩ := map_eq_ok.mp decoded
  exact ⟨kinds a, .of_denotes (kinds a ▸ typed) (other a) (normal a read)⟩

/-- **Every body that decodes is in normal form.** -/
theorem decode_normal (decoded : Message.decode kind body = .ok message) :
    message.kind = kind ∧ NormalBody body message := by
  cases kind with
  | objectsEnd =>
    simp only [Message.decode] at decoded
    split_ifs at decoded with empty
    cases decoded
    exact ⟨rfl, not_not.mp empty⟩
  | abort =>
    simp only [Message.decode] at decoded
    split_ifs at decoded with unit
    cases decoded
    exact ⟨rfl, .of_denotes rfl (by simp) ⟨_, denotes_unit.mpr (not_not.mp unit).symm⟩⟩
  | hello => exact NormalBody.of_map (fun _ => rfl) rfl (by simp) (fun _ => decodeHello_normal) decoded
  | helloReply => exact NormalBody.of_map (fun _ => rfl) rfl (by simp) (fun _ => decodeHelloReply_normal) decoded
  | «have» =>
    simp only [Message.decode, bind_eq_ok, parseBody_eq_ok] at decoded
    obtain ⟨r, opened, names, collected, same⟩ := decoded
    cases same
    exact ⟨rfl, .of_denotes rfl (by simp)
      ((Normal.array (by simp) (fun _ => .objectName) rfl rfl collected).2 _ opened)⟩
  | haveReply =>
    simp only [Message.decode] at decoded
    refine NormalBody.of_map (fun _ => rfl) rfl (by simp) (fun _ read => ?_) decoded
    exact ⟨_, decode_bytes.mp (parseBody_eq_ok.mp read)⟩
  | objectHeader => exact NormalBody.of_map (fun _ => rfl) rfl (by simp) (fun _ => decodeObjectHeader_normal) decoded
  | objectsReply =>
    obtain ⟨⟨objects, payload⟩, read, rfl⟩ := map_eq_ok.mp decoded
    exact ⟨rfl, .of_denotes rfl (by simp) (Normal.body (parseBody_eq_ok.mp read) ⟨.u32, .u64⟩)⟩
  | commit =>
    obtain ⟨message, read, rfl⟩ := map_eq_ok.mp decoded
    obtain ⟨value, denoted, metadata⟩ := decodeCommit_normal read
    refine ⟨rfl, value, denoted, ?_⟩
    rintro _ commit ⟨⟩ present
    exact metadata commit present
  | commitReply =>
    simp only [Message.decode, bind_eq_ok, parseBody_eq_ok] at decoded
    obtain ⟨r, opened, outcomes, collected, same⟩ := decoded
    cases same
    exact ⟨rfl, .of_denotes rfl (by simp)
      ((Normal.array (by simp) (fun _ => .refOutcome) rfl rfl collected).2 _ opened)⟩
  | error => exact NormalBody.of_map (fun _ => rfl) rfl (by simp) (fun _ => decodeError_normal) decoded
  | pullHello => exact NormalBody.of_map (fun _ => rfl) rfl (by simp) (fun _ => decodePullHello_normal) decoded
  | pullHelloReply =>
    exact NormalBody.of_map (fun _ => rfl) rfl (by simp) (fun _ => decodePullHelloReply_normal) decoded
  | get =>
    refine NormalBody.of_map (fun _ => rfl) rfl (by simp) (fun _ read => ?_) decoded
    exact ⟨_, decode_str.mp (parseBody_eq_ok.mp read)⟩
  | getReply => exact NormalBody.of_map (fun _ => rfl) rfl (by simp) (fun _ => decodeGetReply_normal) decoded
  | listRefs => exact NormalBody.of_map (fun _ => rfl) rfl (by simp) (fun _ => decodeListRefs_normal) decoded

end Ostrya.Remote
