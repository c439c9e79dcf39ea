/-
**The body of a `Commit`** (`encode_commit_parts`, `server_commit_bytes`, `decode_server_commit`).

The options of a `Commit` are written from bytes: the value under `server-commit` is serialized at offset zero and
its metadata entries are spliced in as they are. `serverCommit_denotes`: the result is still the normal form of one
value, so the decoder reads it like any other body and returns the entries with their bytes.
-/

import Ostrya.Remote.MessageRoundTrip

namespace Ostrya.Remote

open ByteFormat Gvariant Ostrya.Core Repo

/-! ### Dicts written from bytes -/

/-- A value that the bytes of a `v` denote, if there is one. -/
noncomputable def variantValue (bytes : Bytes) : Value :=
  open Classical in if denoted : ∃ value, Denotes .variant bytes value then denoted.choose else .bool false

variable {bytes : Bytes}

theorem denotes_variantValue (valid : validate .variant bytes = .ok ()) :
    Denotes .variant bytes (variantValue bytes) := by
  have denoted := denotes_of_validate valid
  rw [variantValue, dif_pos denoted]
  exact denoted.choose_spec

variable {entry : String × Bytes} {commit : ServerCommit} {data : Bytes}

theorem denotes_of_encodeEntry
    (encoded : encodeToVec GvEncode.dictEntry entry = .ok part) (inner : Denotes .variant entry.2 value) :
    Denotes (.dictEntry .str .variant) part (.tuple [.str entry.1, value]) := by
  obtain ⟨parts, held, whole⟩ := @denotes_of_encodeTuple _ _ _ [.str, .variant] rfl _ encoded
  match parts, held with
  | [first, second], ⟨key, bytes⟩ =>
    rw [encodeToVec_str] at key
    have same : entry.2 = second := Except.ok.inj ((encodeToVec_leaf entry.2).symm.trans bytes)
    exact denotes_dictEntry.mpr (whole _ (.cons (denotes_str.mpr key) (.cons (same ▸ inner) .nil)))

/-- The bytes of the options denote the entries of a dict. -/
def OptionsDenote (entries : DictBuilder) (opts : List (String × Bytes)) : Prop :=
  List.Forall₂ (fun entry opt => opt.1 = entry.1 ∧ Denotes .variant opt.2 (.variant entry.2.1 entry.2.2)) entries opts

theorem OptionsDenote.append (one : OptionsDenote slots.entries opts) (two : OptionsDenote slots'.entries opts') :
    OptionsDenote (Slots.entries (slots ++ slots')) (opts ++ opts') := by
  rw [Slots.entries, List.filterMap_append]
  exact List.rel_append one two

theorem denotes_of_options
    (encoded : encodeToVec (.slice GvEncode.dictEntry) opts = .ok data) (denote : OptionsDenote entries opts) :
    Denotes dictType data entries.build := by
  refine denotes_of_encodeSlice rfl (by simp) encoded ?_
  rw [List.forall₂_map_left_iff]
  refine denote.imp fun entry opt holds part wrote => ?_
  rw [DictBuilder.entryValue, ← holds.1]
  exact denotes_of_encodeEntry wrote holds.2

theorem optionBytes_denotes {α : Type} {key : String} {optional : Option α} {write : α → Value}
    {ty : Ty} {bytes : α → Except Error Bytes} {opts : List (String × Bytes)}
    (each : ∀ x b, optional = some x → bytes x = .ok b → Denotes .variant b (.variant ty (write x)))
    (run : optionBytes key (optional.map bytes) = .ok opts) :
    OptionsDenote (Slots.entries [(key, optional.map fun x => (ty, write x))]) opts := by
  cases optional with
  | none =>
    cases run
    exact .nil
  | some x =>
    obtain ⟨b, wrote, rfl⟩ := map_eq_ok.mp run
    exact .cons ⟨rfl, each x b rfl wrote⟩ .nil

theorem denotes_of_variantBytes (wrote : variantBytes ty value = .ok bytes)
    (named : ty.depth ≤ Ty.maxTypeDepth ∧ ty.keysBasic = true) (parsed : value.ParsedTypes) :
    Denotes .variant bytes (.variant ty value) :=
  denotes_of_encodeValue wrote (parsedTypes_variant.mpr ⟨named_iff.mpr named, parsed⟩)

theorem flagBytes_denotes {flag : Bool}
    (run : optionBytes key (if flag then some (variantBytes .bool (.bool true)) else none) = .ok opts) :
    OptionsDenote (Slots.entries [(key, if flag then some (.bool, .bool true) else none)]) opts := by
  cases flag with
  | false =>
    cases run
    exact .nil
  | true =>
    simp only [if_true, optionBytes, map_eq_ok] at run
    obtain ⟨b, wrote, rfl⟩ := run
    have denoted := denotes_of_variantBytes wrote (by decide) (parsedTypes_plain rfl)
    exact .cons ⟨rfl, denoted⟩ .nil

/-! ### The server commit -/

/-- The slots of the options of a server commit. -/
def ServerCommit.slots (commit : ServerCommit) : Slots :=
  [("timestamp", commit.timestamp.map fun timestamp => (.u64, .u64 timestamp)),
    ("orphan", if commit.orphan then some (.bool, .bool true) else none)]

/-- A metadata entry as a value. -/
noncomputable def metadataValue (entry : String × Bytes) : Value := .tuple [.str entry.1, variantValue entry.2]

/-- A server commit as a value. -/
noncomputable def ServerCommit.value (commit : ServerCommit) : Value :=
  .tuple [.str commit.branch, .array (commit.tags.map .str), .array (commit.bindRefs.map .str),
    .tuple [checksumValue commit.rootDirtree, checksumValue commit.rootDirmeta], .str commit.subject, .str commit.body,
    .array (commit.metadata.map metadataValue), commit.slots.entries.build]

theorem ServerCommit.options_denote (run : commit.options = .ok opts) : OptionsDenote commit.slots.entries opts := by
  simp only [ServerCommit.options, bind_eq_ok] at run
  obtain ⟨timestamp, timed, orphan, orphaned, same⟩ := run
  cases same
  have first := optionBytes_denotes
    (fun t b _ wrote => denotes_of_variantBytes wrote (by decide) (parsedTypes_plain rfl)) timed
  exact first.append (flagBytes_denotes orphaned)

theorem checkMetadata_eq_ok : checkMetadata entry = .ok () ↔ validate .variant entry.2 = .ok () := mapError_eq_ok

theorem strs_denote (encoded : encodeToVec (.slice .str) texts = .ok data) :
    Denotes strvType data (.array (texts.map .str)) := by
  refine denotes_of_encodeSlice rfl (by simp) encoded ?_
  rw [List.forall₂_map_left_iff, List.forall₂_same]
  intro text _ part wrote
  rw [encodeToVec_str] at wrote
  exact denotes_str.mpr wrote

theorem metadata_denotes (valid : ∀ entry ∈ entries, validate .variant entry.2 = .ok ())
    (encoded : encodeToVec (.slice GvEncode.dictEntry) entries = .ok data) :
    Denotes dictType data (.array (entries.map metadataValue)) := by
  refine denotes_of_encodeSlice rfl (by simp) encoded ?_
  rw [List.forall₂_map_left_iff, List.forall₂_same]
  exact fun entry inside part wrote => denotes_of_encodeEntry wrote (denotes_variantValue (valid entry inside))

theorem roots_denote
    (encoded : encodeToVec (.tuple (.cons GvEncode.checksum (.last GvEncode.checksum))) roots = .ok data) :
    Denotes (.tuple [.array .byte, .array .byte]) data (.tuple [checksumValue roots.1, checksumValue roots.2]) := by
  obtain ⟨parts, held, whole⟩ := @denotes_of_encodeTuple _ _ _ [.array .byte, .array .byte] rfl _ encoded
  match parts, held with
  | [first, second], ⟨dirtree, dirmeta⟩ =>
    have dirtree : roots.1.bytes = first := Except.ok.inj dirtree
    have dirmeta : roots.2.bytes = second := Except.ok.inj dirmeta
    exact whole _ (.cons (denotes_bytes.mpr dirtree) (.cons (denotes_bytes.mpr dirmeta) .nil))

/-- **The bytes of a server commit denote its value.** -/
theorem serverCommit_denotes (written : serverCommitBytes commit = .ok bytes) :
    (∀ entry ∈ commit.metadata, validate .variant entry.2 = .ok ()) ∧
      Denotes serverCommitType bytes commit.value := by
  rw [serverCommitBytes, check_bind_eq_ok, checkEach_eq_ok] at written
  simp only [bind_eq_ok, checkMetadata_eq_ok, mapError_eq_ok] at written
  obtain ⟨valid, opts, listed, encoded⟩ := written
  refine ⟨valid, ?_⟩
  obtain ⟨parts, held, whole⟩ := @denotes_of_encodeTuple _ _ serverCommitEncode
    [.str, strvType, strvType, .tuple [.array .byte, .array .byte], .str, .str, dictType, dictType] rfl _ encoded
  match parts, held with
  | [_, _, _, _, _, _, _, _], ⟨branch, tags, bindRefs, roots, subject, body, metadata, options⟩ =>
    rw [encodeToVec_str] at branch subject body
    exact whole _ (.cons (denotes_str.mpr branch) (.cons (strs_denote tags) (.cons (strs_denote bindRefs)
      (.cons (roots_denote roots) (.cons (denotes_str.mpr subject) (.cons (denotes_str.mpr body)
        (.cons (metadata_denotes valid metadata)
          (.cons (denotes_of_options options (ServerCommit.options_denote listed)) .nil))))))))

theorem metadata_reads (valid : validate .variant entry.2 = .ok ()) :
    ReadsTo GvDecode.metadataEntry (.dictEntry .str .variant) (metadataValue entry) (decodeMetadata · = .ok entry) := by
  have slice : ReadsTo GvDecode.variantSlice .variant (variantValue entry.2) (· = entry.2) :=
    fun part denoted _ => ⟨part, rfl, denoted.unique (denotes_variantValue valid)⟩
  refine (ReadsTo.dictEntry (.cons reads_str (.last slice)) rfl).imp ?_
  rintro ⟨_, _⟩ ⟨rfl, rfl⟩
  simp [decodeMetadata, valid, Except.mapError]

/-- **A server commit is read back from its value.** -/
theorem serverCommit_reads (valid : ∀ entry ∈ commit.metadata, validate .variant entry.2 = .ok ()) :
    ReadsTo (.tuple serverCommitDecode) serverCommitType commit.value (decodeServerCommit · = .ok commit) := by
  have roots := ReadsTo.tuple (.cons (@reads_bytes commit.rootDirtree.bytes)
    (.last (@reads_bytes commit.rootDirmeta.bytes))) rfl
  have metadata := collect_reads rfl (by simp) fun entry inside => metadata_reads (valid entry inside)
  refine (ReadsTo.tuple (.cons reads_str (.cons strs_read (.cons strs_read (.cons roots (.cons reads_str
    (.cons reads_str (.cons metadata (.last (dict_reads (by simp [ServerCommit.slots])))))))))) rfl).imp ?_
  rintro ⟨_, tags, bindRefs, ⟨_, _⟩, _, _, metadata, r⟩
    ⟨rfl, tagged, bindings, ⟨rfl, rfl⟩, rfl, rfl, collected, found, kept, held⟩
  have keys : dict r ["timestamp", "orphan"] = .ok found := kept
  have timestamp : field .u64 found "timestamp" .u64 = .ok commit.timestamp := by
    cases timed : commit.timestamp with
    | none => exact held.field_absent (by simp [ServerCommit.slots, timed])
    | some t =>
      obtain ⟨_, read, rfl⟩ := held.field_present "timestamp" (by simp [ServerCommit.slots, timed]) (@reads_u64 t)
      exact read
  obtain ⟨flag, orphan, same⟩ := held.field_flag "orphan" commit.orphan rfl
  have rootDirtree : checksum commit.rootDirtree.bytes = .ok commit.rootDirtree := checksum_eq_ok.mpr rfl
  have rootDirmeta : checksum commit.rootDirmeta.bytes = .ok commit.rootDirmeta := checksum_eq_ok.mpr rfl
  simp [decodeServerCommit, keys, timestamp, orphan, same, collected, tagged, bindings, rootDirtree, rootDirmeta]

/-! ### The message -/

/-- The slots of the options of a `Commit`. -/
noncomputable def CommitRequest.slots (message : CommitRequest) : Slots :=
  [("force", if message.force then some (.bool, .bool true) else none),
    ("server-commit", message.serverCommit.map fun commit => (serverCommitType, commit.value))]

theorem signatureBytes_serverCommit : serverCommitType.signatureBytes = asBytes serverCommitSignature := by
  rw [← Ty.asBytes_signatureString, Ty.signature_of_parse parse_serverCommitSignature]

theorem commitOptions_denote {message : CommitRequest}
    (run : commitOptions message.force message.serverCommit = .ok opts) :
    (∀ commit, message.serverCommit = some commit → ∀ entry ∈ commit.metadata, validate .variant entry.2 = .ok ()) ∧
      OptionsDenote message.slots.entries opts := by
  simp only [commitOptions, bind_eq_ok] at run
  obtain ⟨forced, force, server, served, same⟩ := run
  cases same
  constructor
  · rintro commit present
    rw [present] at served
    obtain ⟨_, wrote, _⟩ := map_eq_ok.mp served
    obtain ⟨bytes, wrote, _⟩ := map_eq_ok.mp wrote
    exact (serverCommit_denotes wrote).1
  · have second := @optionBytes_denotes _ _ _ ServerCommit.value serverCommitType _ _ (fun commit b _ wrote => by
      obtain ⟨bytes, inner, rfl⟩ := map_eq_ok.mp wrote
      refine denotes_variant.mpr ⟨⟨_, parse_serverCommitSignature⟩, bytes, (serverCommit_denotes inner).2, ?_⟩
      rw [signatureBytes_serverCommit, List.append_assoc, List.singleton_append]) served
    exact (flagBytes_denotes force).append second

/-- **The body of a `Commit` decodes to the message.** -/
theorem decode_commit {message : CommitRequest}
    (written : (Message.commit message).encodeBody = .ok body) (fits : Addressable body) :
    decodeCommit body = .ok message := by
  simp only [Message.encodeBody, encodeCommit, encodeCommitParts, bind_eq_ok, mapError_eq_ok] at written
  obtain ⟨updateBytes, listed, opts, run, encoded⟩ := written
  obtain ⟨valid, denote⟩ := commitOptions_denote run
  have updatesParsed : (Value.array (message.updates.map RefUpdate.value)).ParsedTypes := parsedTypes_map fun update =>
    parsedTypes_members
      ⟨parsedTypes_plain rfl, parsedTypes_plain rfl, parsedTypes_maybeValue _, parsedTypes_maybeValue _⟩
  obtain ⟨written, held, denotes⟩ := @denotes_of_encodeTuple _ _
    (.cons .bytes (.last (.slice GvEncode.dictEntry))) [updatesType, dictType] rfl _ encoded
  obtain ⟨first, _, rfl, updates, held⟩ := EncodeMembers.holds_cons held
  obtain ⟨second, rfl, options⟩ := EncodeMembers.holds_last held
  rw [encodeToVec_bytes, Except.ok.injEq] at updates
  subst updates
  have denoted := denotes _ (.cons (denotes_of_encodeValue listed updatesParsed)
    (.cons (denotes_of_options options denote) .nil))
  obtain ⟨⟨updatesReader, r⟩, whole, collected, found, kept, held⟩ := ReadsTo.tuple
    (.cons (collect_reads rfl (by simp) fun update _ => update_reads update)
      (.last (dict_reads (by simp [CommitRequest.slots])))) rfl body denoted fits
  have keys : dict r ["force", "server-commit"] = .ok found := kept
  obtain ⟨flag, force, same⟩ := held.field_flag "force" message.force rfl
  obtain ⟨view, read, served⟩ : ∃ view, field (.tuple serverCommitDecode) found "server-commit" serverCommitType
      = .ok view ∧ view.mapM decodeServerCommit = .ok message.serverCommit := by
    cases present : message.serverCommit with
    | none => exact ⟨none, held.field_absent (by simp [CommitRequest.slots, present, List.lookup_cons]), rfl⟩
    | some commit =>
      obtain ⟨view, read, served⟩ := held.field_present "server-commit"
        (by simp [CommitRequest.slots, present, List.lookup_cons]) (serverCommit_reads (valid commit present))
      exact ⟨some view, read, by simp [served]⟩
  simp [decodeCommit, parseBody_eq_ok.mpr whole, collected, keys, force, read, served, same]

/-- **Every body decodes to the message that it was encoded from.** -/
theorem decode_of_encodeBody (written : message.encodeBody = .ok body)
    (fits : Addressable body) : Message.decode message.kind body = .ok message := by
  cases message with
  | hello message => rw [Message.kind, Message.decode, decode_hello written fits]; rfl
  | helloReply message => rw [Message.kind, Message.decode, decode_helloReply written fits]; rfl
  | «have» names => exact decode_have written fits
  | haveReply message => exact decode_haveReply written
  | objectHeader message => rw [Message.kind, Message.decode, decode_objectHeader written fits]; rfl
  | objectsEnd | abort =>
    cases written
    rfl
  | objectsReply message => exact decode_objectsReply written fits
  | commit message => rw [Message.kind, Message.decode, decode_commit written fits]; rfl
  | commitReply outcomes => exact decode_commitReply written fits
  | error message => rw [Message.kind, Message.decode, decode_error written fits]; rfl
  | pullHello message => rw [Message.kind, Message.decode, decode_pullHello written fits]; rfl
  | pullHelloReply message => rw [Message.kind, Message.decode, decode_pullHelloReply written fits]; rfl
  | get path => exact decode_get written
  | getReply message => rw [Message.kind, Message.decode, decode_getReply written fits]; rfl
  | listRefs message => rw [Message.kind, Message.decode, decode_listRefs written fits]; rfl

end Ostrya.Remote
