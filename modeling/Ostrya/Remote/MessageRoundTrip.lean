/-
**A body decodes to the message that it was encoded from** (`Message::encode_body`, `Message::decode`).

Every body that an encode writes denotes one GVariant value, also the body of a `Commit`, which the typed encoder
writes around bytes that were serialized at offset zero. The decoder reads that value member by member:
one lemma per kind, `decode_encodeBody` for all of them.
-/

import Ostrya.Remote.Reading

namespace Ostrya.Remote

open ByteFormat Gvariant Ostrya.Core Repo

/-! ### Values with types that parse -/

variable {ty : Ty}

theorem named_iff : (∃ text, Ty.parse text = .ok ty) ↔ ty.depth ≤ Ty.maxTypeDepth ∧ ty.keysBasic = true := by
  constructor
  · rintro ⟨text, parsed⟩
    exact (Ty.parse_eq_ok_iff.mp parsed).2
  · exact fun facts => ⟨_, Ty.parse_eq_ok_iff.mpr ⟨rfl, facts⟩⟩

variable {value : Value}

theorem parsedTypes_map {α : Type} {items : List α} {write : α → Value}
    (each : ∀ item, (write item).ParsedTypes) : (Value.array (items.map write)).ParsedTypes := by
  rw [parsedTypes_array]
  intro value inside
  obtain ⟨item, _, rfl⟩ := List.mem_map.mp inside
  exact each item

theorem parsedTypes_members (each : List.Forall Value.ParsedTypes items) :
    (Value.tuple items).ParsedTypes := parsedTypes_tuple.mpr (List.forall_iff_forall_mem.mp each)

theorem parsedTypes_strs (texts : List String) : (Value.array (texts.map .str)).ParsedTypes :=
  parsedTypes_map fun _ => parsedTypes_plain rfl

/-- A slot whose type parses and whose value holds types that parse. -/
def SlotParsed (slot : Option (Ty × Value)) : Prop :=
  ∀ ty value, slot = some (ty, value) → (ty.depth ≤ Ty.maxTypeDepth ∧ ty.keysBasic = true) ∧ value.ParsedTypes

theorem slotParsed_map {α : Type} {optional : Option α} {write : α → Value}
    (named : ty.depth ≤ Ty.maxTypeDepth ∧ ty.keysBasic = true) (each : ∀ x, (write x).ParsedTypes) :
    SlotParsed (optional.map fun x => (ty, write x)) := by
  rintro _ _ same
  obtain ⟨x, _, pair⟩ := Option.map_eq_some_iff.mp same
  cases pair
  exact ⟨named, each x⟩

theorem slotParsed_some (named : ty.depth ≤ Ty.maxTypeDepth ∧ ty.keysBasic = true)
    (parsed : value.ParsedTypes) : SlotParsed (some (ty, value)) := by
  rintro _ _ same
  cases same
  exact ⟨named, parsed⟩

theorem slotParsed_flag {flag : Bool} : SlotParsed (if flag then some (.bool, .bool true) else none) := by
  rintro _ _ same
  cases flag <;> cases same
  exact ⟨by decide, parsedTypes_plain rfl⟩

theorem parsedTypes_slots {slots : Slots} (each : List.Forall (fun slot => SlotParsed slot.2) slots) :
    slots.entries.build.ParsedTypes := by
  rw [List.forall_iff_forall_mem] at each
  rw [DictBuilder.build, parsedTypes_array]
  intro value inside
  obtain ⟨entry, member, rfl⟩ := List.mem_map.mp inside
  obtain ⟨⟨key, slot⟩, here, same⟩ := List.mem_filterMap.mp member
  obtain ⟨⟨ty, value⟩, rfl, rfl⟩ := Option.map_eq_some_iff.mp same
  obtain ⟨named, parsed⟩ := each _ here ty value rfl
  exact parsedTypes_members ⟨parsedTypes_plain rfl, parsedTypes_variant.mpr ⟨named_iff.mpr named, parsed⟩⟩

theorem denotes_of_encodeValue (written : encodeValue ty value = .ok body)
    (parsed : value.ParsedTypes) : Denotes ty body value :=
  denotes_of_toBytes parsed (mapError_eq_ok.mp written)

/-! ### Arrays of entries -/

variable {names : List ObjectName}

section Entries

theorem strs_read : ReadsTo (.arrayIter .str) strvType (.array (texts.map .str)) (collect .str .ok · = .ok texts) :=
  collect_reads rfl (by simp) fun _ _ => reads_str.imp fun _ => congrArg Except.ok

theorem maybeValue_reads :
    ReadsTo GvDecode.maybeBytes maybeChecksumType (maybeValue sum) (maybeChecksum · = .ok sum) := by
  intro part denoted _
  refine ⟨sum.map Checksum.bytes, decode_maybeBytes.mpr ?_, ?_⟩
  · rw [Option.map_map]
    exact denoted
  · cases sum with
    | none => rfl
    | some sum =>
      have read : checksum sum.bytes = .ok sum := checksum_eq_ok.mpr rfl
      simp [maybeChecksum, read]

theorem refState_reads (state : RefState) : ReadsTo GvDecode.refState (.tuple [.str, maybeChecksumType]) state.value
    (decodeRefState · = .ok state) := by
  refine (ReadsTo.tuple (.cons reads_str (.last maybeValue_reads)) rfl).imp ?_
  rintro ⟨_, commit⟩ ⟨rfl, summed⟩
  simp [decodeRefState, summed]

theorem refOutcome_reads (outcome : RefOutcome) :
    ReadsTo GvDecode.refOutcome (.tuple [.str, maybeChecksumType, maybeChecksumType]) outcome.value
      (decodeRefOutcome · = .ok outcome) := by
  refine (ReadsTo.tuple (.cons reads_str (.cons maybeValue_reads (.last maybeValue_reads))) rfl).imp ?_
  rintro ⟨_, old, new⟩ ⟨rfl, oldSummed, newSummed⟩
  simp [decodeRefOutcome, oldSummed, newSummed]

theorem decodeExpected_wire (expected : Expected) :
    decodeExpected expected.wire.1 expected.wire.2 = .ok expected := by cases expected <;> rfl

theorem update_reads (update : RefUpdate) :
    ReadsTo GvDecode.update (.tuple [.str, .byte, maybeChecksumType, maybeChecksumType]) update.value
      (decodeUpdate · = .ok update) := by
  refine (ReadsTo.tuple (.cons reads_str (.cons reads_byte (.cons maybeValue_reads (.last maybeValue_reads))))
    rfl).imp ?_
  rintro ⟨_, _, expected, new⟩ ⟨rfl, rfl, expectedSummed, newSummed⟩
  simp [decodeUpdate, expectedSummed, newSummed, decodeExpected_wire]

theorem objectName_reads (allowed : haveType name.ty = true) :
    ReadsTo GvDecode.objectName (.tuple [.byte, .array .byte]) (objectNameValue name)
      fun a => objectName a.1 a.2 haveType = .ok name := by
  refine (ReadsTo.tuple (.cons reads_byte (.last reads_bytes)) rfl).imp ?_
  rintro ⟨_, _⟩ ⟨rfl, rfl⟩
  exact objectName_typeByte allowed

theorem objectNamesValue_eq_ok : objectNamesValue names = .ok value ↔
      (∀ name ∈ names, haveType name.ty = true) ∧ .array (names.map objectNameValue) = value := by
  unfold objectNamesValue
  split
  · grind
  · grind

theorem objectNames_read (allowed : ∀ name ∈ names, haveType name.ty = true) :
    ReadsTo (.arrayIter GvDecode.objectName) objectNamesType (.array (names.map objectNameValue))
      (objectNames · = .ok names) :=
  collect_reads rfl (by simp) fun name inside => objectName_reads (allowed name inside)

end Entries

/-! ### Fields of a dict -/

theorem KeptFrom.field_u32 (held : KeptFrom slots found) (key : String) {x : UInt32}
    (slot : slots.lookup key = some (some (.u32, .u32 x))) : field .u32 found key .u32 = .ok (some x) := by
  obtain ⟨_, read, rfl⟩ := held.field_present key slot reads_u32
  exact read

/-! ### One lemma per kind -/

section Kinds

variable {body : Bytes}

/-- The slots of a `Hello`. -/
def Hello.slots (message : Hello) : Slots :=
  [("agent", message.agent.map fun text => (.str, .str text)),
    ("collection", message.collection.map fun text => (.str, .str text)),
    ("one-way", if message.oneWay then some (.bool, .bool true) else none)]

theorem Hello.options_eq (message : Hello) : message.options = message.slots.entries := by
  obtain ⟨version, agent, refs, collection, oneWay⟩ := message
  cases agent <;> cases collection <;> cases oneWay <;> rfl

theorem decode_hello {message : Hello} (written : (Message.hello message).encodeBody = .ok body)
    (fits : Addressable body) : decodeHello body = .ok message := by
  have parsed : message.slots.entries.build.ParsedTypes := parsedTypes_slots
    ⟨slotParsed_map (by decide) fun _ => parsedTypes_plain rfl,
      slotParsed_map (by decide) fun _ => parsedTypes_plain rfl, slotParsed_flag⟩
  rw [Message.encodeBody, Hello.value, Hello.options_eq] at written
  have denoted := denotes_of_encodeValue written
    (parsedTypes_members ⟨parsedTypes_plain rfl, parsed, parsedTypes_strs _⟩)
  obtain ⟨⟨_, r, refs⟩, whole, rfl, ⟨found, kept, held⟩, collected⟩ := ReadsTo.tuple
    (.cons reads_u32 (.cons (dict_reads (by simp [Hello.slots])) (.last strs_read))) rfl body denoted fits
  have keys : dict r ["agent", "collection", "one-way"] = .ok found := kept
  have agent := held.field_str "agent" message.agent rfl
  have collection := held.field_str "collection" message.collection rfl
  obtain ⟨flag, oneWay, same⟩ := held.field_flag "one-way" message.oneWay rfl
  simp [decodeHello, parseBody_eq_ok.mpr whole, keys, agent, collection, oneWay, collected, same]

/-- The slots of a `HelloReply`. -/
def HelloReply.slots (message : HelloReply) : Slots :=
  [("mode", some (.str, .str message.mode)),
    ("collection-id", message.collectionId.map fun text => (.str, .str text)),
    ("collection", message.collection.map fun text => (.str, .str text)),
    ("max-frame", some (.u32, .u32 message.maxFrame)),
    ("max-have", some (.u32, .u32 message.maxHave)),
    ("encodings", some (strvType, .array ((message.encodings.map Encoding.asStr).map .str))),
    ("parallel-uploads", some (.u32, .u32 message.parallelUploads))]

theorem HelloReply.options_eq (message : HelloReply) : message.options = message.slots.entries := by
  obtain ⟨version, mode, collectionId, collection, maxFrame, maxHave, encodings, parallelUploads, refs⟩ := message
  cases collectionId <;> cases collection <;> rfl

theorem parsedTypes_maybeValue (sum : Option Checksum) : (maybeValue sum).ParsedTypes :=
  parsedTypes_plain (by cases sum <;> rfl)

/-- A `HelloReply` reads back with its slots. -/
theorem decode_helloReply {message : HelloReply} (written : (Message.helloReply message).encodeBody = .ok body)
    (fits : Addressable body) : decodeHelloReply body = .ok message := by
  have parsed : message.slots.entries.build.ParsedTypes := parsedTypes_slots
    ⟨slotParsed_some (by decide) (parsedTypes_plain rfl), slotParsed_map (by decide) fun _ => parsedTypes_plain rfl,
      slotParsed_map (by decide) fun _ => parsedTypes_plain rfl, slotParsed_some (by decide) (parsedTypes_plain rfl),
      slotParsed_some (by decide) (parsedTypes_plain rfl), slotParsed_some (by decide) (parsedTypes_strs _),
      slotParsed_some (by decide) (parsedTypes_plain rfl)⟩
  rw [Message.encodeBody, check_bind_eq_ok, HelloReply.value, HelloReply.options_eq] at written
  obtain ⟨limits, written⟩ := written
  have refsParsed : (Value.array (message.refs.map RefState.value)).ParsedTypes :=
    parsedTypes_map fun state => parsedTypes_members ⟨parsedTypes_plain rfl, parsedTypes_maybeValue _⟩
  have denoted := denotes_of_encodeValue written (parsedTypes_members ⟨parsedTypes_plain rfl, parsed, refsParsed⟩)
  obtain ⟨⟨_, r, refs⟩, whole, rfl, ⟨found, kept, held⟩, collected⟩ := ReadsTo.tuple
    (.cons reads_u32 (.cons (dict_reads (by simp [HelloReply.slots]))
      (.last (collect_reads rfl (by simp) fun state _ => refState_reads state)))) rfl body denoted fits
  have keys : dict r ["mode", "collection-id", "collection", "max-frame", "max-have", "encodings",
    "parallel-uploads"] = .ok found := kept
  have mode := required_of_field (held.field_str "mode" (some message.mode) rfl)
  have collectionId := held.field_str "collection-id" message.collectionId rfl
  have collection := held.field_str "collection" message.collection rfl
  have maxFrame := required_of_field (held.field_u32 "max-frame" rfl)
  have maxHave := required_of_field (held.field_u32 "max-have" rfl)
  have parallelUploads := required_of_field (held.field_u32 "parallel-uploads" rfl)
  obtain ⟨names, encodings, listed⟩ := held.field_present "encodings" rfl strs_read
  simp [decodeHelloReply, parseBody_eq_ok.mpr whole, keys, mode, collectionId, collection, maxFrame, maxHave,
    parallelUploads, limits, required_of_field encodings, listed, collected, Encoding.fromName_asStr]

theorem decode_have (written : (Message.have names).encodeBody = .ok body)
    (fits : Addressable body) : Message.decode .have body = .ok (.have names) := by
  rw [Message.encodeBody, bind_eq_ok] at written
  obtain ⟨value, listed, written⟩ := written
  obtain ⟨allowed, rfl⟩ := objectNamesValue_eq_ok.mp listed
  have parsed : (Value.array (names.map objectNameValue)).ParsedTypes := parsedTypes_map fun name =>
    parsedTypes_members ⟨parsedTypes_plain rfl, parsedTypes_plain rfl⟩
  obtain ⟨r, opened, collected⟩ := objectNames_read allowed _ (denotes_of_encodeValue written parsed) fits
  simp [Message.decode, parseBody_eq_ok.mpr opened, collected]

theorem decode_haveReply (written : (Message.haveReply message).encodeBody = .ok body) :
    Message.decode .haveReply body = .ok (.haveReply message) := by
  have denoted := denotes_of_encodeValue written (parsedTypes_plain rfl)
  rw [Message.decode, parseBody_eq_ok.mpr (decode_bytes.mpr denoted)]
  rfl

theorem checkHeader_eq_ok (checked : checkHeader name encoding = .ok ()) :
    headerType name.ty = true := by
  unfold checkHeader at checked
  split_ifs at checked with refused
  simpa using refused

theorem decode_objectHeader (written : (Message.objectHeader message).encodeBody = .ok body)
    (fits : Addressable body) : decodeObjectHeader body = .ok message := by
  rw [Message.encodeBody, check_bind_eq_ok] at written
  obtain ⟨checked, written⟩ := written
  have denoted := denotes_of_encodeValue written
    (parsedTypes_members ⟨parsedTypes_plain rfl, parsedTypes_plain rfl, parsedTypes_plain rfl⟩)
  obtain ⟨⟨_, _, _⟩, whole, rfl, rfl, rfl⟩ :=
    ReadsTo.tuple (.cons reads_byte (.cons reads_bytes (.last reads_byte))) rfl body denoted fits
  have name := @objectName_typeByte message.name headerType (checkHeader_eq_ok checked)
  simp [decodeObjectHeader, parseBody_eq_ok.mpr whole, name, Encoding.fromU8_asU8, checked]

theorem decode_objectsReply (written : (Message.objectsReply message).encodeBody = .ok body)
    (fits : Addressable body) : Message.decode .objectsReply body = .ok (.objectsReply message) := by
  have denoted := denotes_of_encodeValue written (parsedTypes_members ⟨parsedTypes_plain rfl, parsedTypes_plain rfl⟩)
  obtain ⟨⟨_, _⟩, whole, rfl, rfl⟩ := ReadsTo.tuple (.cons reads_u32 (.last reads_u64)) rfl body denoted fits
  simp [Message.decode, parseBody_eq_ok.mpr whole]

theorem decode_commitReply {outcomes : List RefOutcome} (written : (Message.commitReply outcomes).encodeBody = .ok body)
    (fits : Addressable body) : Message.decode .commitReply body = .ok (.commitReply outcomes) := by
  have parsed : (Value.array (outcomes.map RefOutcome.value)).ParsedTypes := parsedTypes_map fun outcome =>
    parsedTypes_members ⟨parsedTypes_plain rfl, parsedTypes_maybeValue _, parsedTypes_maybeValue _⟩
  obtain ⟨r, opened, collected⟩ := collect_reads rfl (by simp)
    (fun outcome _ => refOutcome_reads outcome) body (denotes_of_encodeValue written parsed) fits
  simp [Message.decode, parseBody_eq_ok.mpr opened, collected]

/-- The slots of an `Error`. -/
def ErrorMessage.slots (message : ErrorMessage) : Slots :=
  [("missing", if message.missing.isEmpty then none
      else some (objectNamesType, .array (message.missing.map objectNameValue))),
    ("ref", message.current.map fun state => (.str, .str state.name)),
    ("current", message.current.map fun state => (maybeChecksumType, maybeValue state.commit))]

theorem ErrorMessage.detail_eq_ok {message : ErrorMessage} {detail : DictBuilder}
    (written : message.detail = .ok detail) :
    (∀ name ∈ message.missing, haveType name.ty = true) ∧ detail = message.slots.entries := by
  obtain ⟨code, text, missing, current⟩ := message
  simp only [ErrorMessage.detail, ErrorMessage.missingDetail, bind_eq_ok] at written
  obtain ⟨entries, listed, rest⟩ := written
  cases missing with
  | nil =>
    cases listed
    refine ⟨by simp, ?_⟩
    cases current <;> cases rest <;> rfl
  | cons name names =>
    simp only [List.isEmpty_cons, Bool.false_eq_true, if_false, map_eq_ok] at listed
    obtain ⟨value, listed, rfl⟩ := listed
    obtain ⟨allowed, rfl⟩ := objectNamesValue_eq_ok.mp listed
    refine ⟨allowed, ?_⟩
    cases current <;> cases rest <;> rfl

/-- An `Error` reads back with its detail. -/
theorem decode_error {message : ErrorMessage} (written : (Message.error message).encodeBody = .ok body)
    (fits : Addressable body) : decodeError body = .ok message := by
  rw [Message.encodeBody, check_bind_eq_ok, bind_eq_ok] at written
  obtain ⟨checked, detail, built, written⟩ := written
  obtain ⟨allowed, rfl⟩ := ErrorMessage.detail_eq_ok built
  have namesParsed : (Value.array (message.missing.map objectNameValue)).ParsedTypes := parsedTypes_map fun name =>
    parsedTypes_members ⟨parsedTypes_plain rfl, parsedTypes_plain rfl⟩
  have parsed : message.slots.entries.build.ParsedTypes := by
    refine parsedTypes_slots ⟨?_, slotParsed_map (by decide) fun _ => parsedTypes_plain rfl,
      slotParsed_map (by decide) fun state => parsedTypes_maybeValue _⟩
    split
    · rintro _ _ ⟨⟩
    · exact slotParsed_some (by decide) namesParsed
  have denoted := denotes_of_encodeValue written
    (parsedTypes_members ⟨parsedTypes_plain rfl, parsedTypes_plain rfl, parsed⟩)
  obtain ⟨⟨_, _, r⟩, whole, rfl, rfl, found, kept, held⟩ := ReadsTo.tuple
    (.cons reads_str (.cons reads_str (.last (dict_reads (by simp [ErrorMessage.slots]))))) rfl body denoted fits
  have keys : dict r ["missing", "ref", "current"] = .ok found := kept
  obtain ⟨names, missing, listed⟩ : ∃ names, field (.arrayIter GvDecode.objectName) found "missing" objectNamesType
      = .ok names ∧ decodeMissing names = .ok message.missing := by
    by_cases empty : message.missing = []
    · refine ⟨none, held.field_absent (by simp [ErrorMessage.slots, empty]), ?_⟩
      rw [empty]
      rfl
    · obtain ⟨r, read, collected⟩ := held.field_present "missing" (by simp [ErrorMessage.slots, empty])
        (objectNames_read allowed)
      exact ⟨some r, read, collected⟩
  obtain ⟨refName, commit, readRef, readCurrent, current⟩ :
      ∃ refName commit, field .str found "ref" .str = .ok refName ∧
      field GvDecode.maybeBytes found "current" maybeChecksumType = .ok commit ∧
      decodeCurrent refName commit = .ok message.current := by
    cases state : message.current with
    | none =>
      exact ⟨none, none, held.field_absent (by simp [ErrorMessage.slots, state, List.lookup_cons]),
        held.field_absent (by simp [ErrorMessage.slots, state, List.lookup_cons]), rfl⟩
    | some state' =>
      have named := held.field_str "ref" (some state'.name) (by simp [ErrorMessage.slots, state, List.lookup_cons])
      obtain ⟨bytes, read, summed⟩ := held.field_present "current"
        (by simp [ErrorMessage.slots, state, List.lookup_cons]) (@maybeValue_reads state'.commit)
      exact ⟨some state'.name, some bytes, named, read, by simp [decodeCurrent, summed]⟩
  have code : decodeCode message.code.asStr = .ok message.code := by rw [decodeCode, ErrorCode.fromName_asStr]
  have checked' : checkError ⟨message.code, message.message, message.missing, message.current⟩ = .ok () := checked
  simp [decodeError, parseBody_eq_ok.mpr whole, code, keys, missing, listed, readRef, readCurrent, current, checked']

theorem decode_pullHello {message : PullHello} (written : (Message.pullHello message).encodeBody = .ok body)
    (fits : Addressable body) : decodePullHello body = .ok message := by
  let slots : Slots := [("agent", message.agent.map fun text => (.str, .str text))]
  have same : DictBuilder.insertStr? [] "agent" message.agent = slots.entries := by
    simp only [slots]
    cases message.agent <;> rfl
  have parsed : slots.entries.build.ParsedTypes :=
    parsedTypes_slots (slotParsed_map (by decide) fun _ => parsedTypes_plain rfl)
  rw [Message.encodeBody, same] at written
  have denoted := denotes_of_encodeValue written (parsedTypes_members ⟨parsedTypes_plain rfl, parsed⟩)
  obtain ⟨⟨_, r⟩, whole, rfl, found, kept, held⟩ :=
    ReadsTo.tuple (.cons reads_u32 (.last (dict_reads (by simp [slots])))) rfl body denoted fits
  have keys : dict r ["agent"] = .ok found := kept
  have agent := held.field_str "agent" message.agent rfl
  simp [decodePullHello, parseBody_eq_ok.mpr whole, keys, agent]

theorem decode_pullHelloReply
    (written : (Message.pullHelloReply message).encodeBody = .ok body) (fits : Addressable body) :
    decodePullHelloReply body = .ok message := by
  have denoted := denotes_of_encodeValue written (parsedTypes_members ⟨parsedTypes_plain rfl, parsedTypes_plain rfl⟩)
  obtain ⟨⟨_, r⟩, whole, rfl, found, kept, -⟩ :=
    ReadsTo.tuple (.cons reads_u32 (.last (@dict_reads [] (by simp)))) rfl body denoted fits
  have keys : dict r [] = .ok found := kept
  simp [decodePullHelloReply, parseBody_eq_ok.mpr whole, keys]

theorem decode_get (written : (Message.get path).encodeBody = .ok body) :
    Message.decode .get body = .ok (.get path) := by
  have denoted := denotes_of_encodeValue written (parsedTypes_plain rfl)
  rw [Message.decode, parseBody_eq_ok.mpr (decode_str.mpr denoted)]
  rfl

theorem decode_getReply (written : (Message.getReply message).encodeBody = .ok body)
    (fits : Addressable body) : decodeGetReply body = .ok message := by
  rw [Message.encodeBody, check_bind_eq_ok] at written
  obtain ⟨checked, written⟩ := written
  have denoted := denotes_of_encodeValue written
    (parsedTypes_members ⟨parsedTypes_plain rfl, parsedTypes_plain (by cases message.len <;> rfl)⟩)
  have len : ReadsTo GvDecode.maybeU64 (.maybe .u64) (.maybe (message.len.map .u64)) (· = message.len) :=
    fun _ denoted _ => ⟨_, decode_maybeU64.mpr denoted, rfl⟩
  obtain ⟨⟨_, _⟩, whole, rfl, rfl⟩ := ReadsTo.tuple (.cons reads_bool (.last len)) rfl body denoted fits
  have checked' : checkGetReply ⟨message.found, message.len⟩ = .ok () := checked
  simp [decodeGetReply, parseBody_eq_ok.mpr whole, checked']

theorem decode_listRefs {message : ListRefsRequest} (written : (Message.listRefs message).encodeBody = .ok body)
    (fits : Addressable body) : decodeListRefs body = .ok message := by
  let slots : Slots := [("collections", message.collections.map fun texts => (strvType, .array (texts.map .str)))]
  have same : message.options = slots.entries := by
    simp only [slots, ListRefsRequest.options]
    cases message.collections <;> rfl
  have parsed : slots.entries.build.ParsedTypes := parsedTypes_slots (slotParsed_map (by decide) parsedTypes_strs)
  rw [Message.encodeBody, same] at written
  have denoted := denotes_of_encodeValue written (parsedTypes_members ⟨parsedTypes_strs _, parsed⟩)
  obtain ⟨⟨refs, r⟩, whole, collected, found, kept, held⟩ :=
    ReadsTo.tuple (.cons strs_read (.last (dict_reads (by simp [slots])))) rfl body denoted fits
  have keys : dict r ["collections"] = .ok found := kept
  obtain ⟨entries, read, listed⟩ : ∃ entries, field (.arrayIter .str) found "collections" strvType = .ok entries ∧
      entries.mapM (collect .str .ok) = .ok message.collections := by
    cases collections : message.collections with
    | none => exact ⟨none, held.field_absent (by simp [slots, collections]), rfl⟩
    | some texts =>
      obtain ⟨r, read, listed⟩ := held.field_present "collections" (by simp [slots, collections]) (@strs_read texts)
      exact ⟨some r, read, by simp [listed]⟩
  simp [decodeListRefs, parseBody_eq_ok.mpr whole, keys, read, collected, listed]

end Kinds

end Ostrya.Remote
