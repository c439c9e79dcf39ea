/-
**The replies of a session fit in a frame** (`check_hello` and `reply_frame_len` of
`receive/core.rs`, `check_reply_fits`
of `receive/finish.rs` and `receive/server_commit.rs`).

A session refuses a request whose reply could need a frame over the limit, before it knows the state of the refs. For a
`Hello` the length of the longest reply is computed from the lengths of the names alone:
`helloReply_length` says that it is
the length of the reply in which every ref has a commit. A ref with no commit makes a reply shorter,
in whatever width its
offsets are (`covers_refStates`), so that every reply fits: `replies_fit_frame`.
-/

import Ostrya.ByteFormat.Lines
import Ostrya.Gvariant.Size
import Ostrya.Receive.Finish
import Ostrya.Remote.FrameStream

namespace Ostrya.Receive

open ByteFormat Gvariant Ostrya.Core Repo Delta Remote

/-! ### Names -/

/-- `is_ref_name_component`, over the rule of the characters that are not ASCII. -/
def isRefNameComponent (isNameCharacter : Char → Bool) (component : List Char) : Bool :=
  !(component.head? = some '-' || component.head? = some '.') && !component.isEmpty && component.all fun c =>
    if c.toNat < 128 then c.isAlphanum || c = '-' || c = '.' || c = '_' else isNameCharacter c

/-- `is_ref_name`. -/
def isRefName (isNameCharacter : Char → Bool) (name : List Char) : Bool :=
  !name.isEmpty && (List.splitOn '/' name).all (isRefNameComponent isNameCharacter)

/-- `is_refspec`. -/
def isRefspec (isNameCharacter : Char → Bool) (refspec : String) : Bool :=
  match splitOnce ':' refspec.toList with
  | some (remote, name) => isRefNameComponent isNameCharacter remote && isRefName isNameCharacter name
  | none => isRefName isNameCharacter refspec.toList

/-- One element of a collection id. -/
def isIdElement : List Char → Bool
  | [] => false
  | first :: chars => (first.isAlpha || first = '_') && chars.all fun c => c.isAlphanum || c = '_'

/-- `is_collection_id`. -/
def isCollectionId (id : String) : Bool :=
  2 ≤ (id.toList.splitOn '.').length && (id.toList.splitOn '.').all isIdElement

section Names

variable {isNameCharacter : Char → Bool}

theorem nul_not_mem_component (valid : isRefNameComponent isNameCharacter component = true) :
    '\x00' ∉ component := by
  intro inside
  simp only [isRefNameComponent, Bool.and_eq_true, List.all_eq_true] at valid
  have refused := valid.2 _ inside
  rw [if_pos (by decide)] at refused
  exact absurd refused (by decide)

theorem nul_not_mem_name (valid : isRefName isNameCharacter name = true) : '\x00' ∉ name := by
  simp only [isRefName, Bool.and_eq_true, List.all_eq_true] at valid
  intro inside
  have joined : ['/'].intercalate (List.splitOn '/' name) = name := List.intercalate_splitOn _
  rw [← joined] at inside
  obtain ⟨part, member, held⟩ := List.mem_flatten.mp inside
  -- a part is a component or the separator
  have either : part ∈ List.splitOn '/' name ∨ part = ['/'] := by
    generalize List.splitOn '/' name = parts at member
    induction parts using List.twoStepInduction with
    | nil => simp at member
    | singleton only => exact .inl (by simpa using member)
    | cons_cons first second parts _ ih =>
      simp only [List.intersperse_cons_cons, List.mem_cons] at member ⊢
      grind
  obtain component | rfl := either
  · exact nul_not_mem_component (valid.2 part component) held
  · simp at held

theorem nul_not_mem_refspec (valid : isRefspec isNameCharacter refspec = true) :
    0 ∉ asBytes refspec := by
  intro inside
  have char : '\x00' ∈ refspec.toList := mem_of_mem_asBytes (by decide) inside
  unfold isRefspec at valid
  split at valid
  · next remote name cut =>
    rw [Bool.and_eq_true] at valid
    rw [(splitOnce_eq_some.mp cut).1] at char
    obtain before | after : '\x00' ∈ remote ∨ '\x00' ∈ name := by simpa using char
    · exact nul_not_mem_component valid.1 before
    · exact nul_not_mem_name valid.2 after
  · exact nul_not_mem_name valid char

end Names

/-! ### The check of a `Hello` -/

/-- `RepoMode::as_mode_str`. -/
def asModeStr : RepoMode → String
  | .bare => "bare"
  | .bareUser => "bare-user"
  | .bareUserOnly => "bare-user-only"
  | .bareSplitXattrs => "bare-split-xattrs"
  | .archive => "archive-z2"
  | .bareUserShared => "bare-user-shared"

/-- What a `Hello` asks of the repository. -/
structure ServedRepo where
  mode : RepoMode
  /-- `[core] locking`, which may not parse. -/
  locking : Except Fault Bool
  collectionId : Option String

/-- `Namespace::of`, then `Namespace::collection`: the collection of a session, or nothing for the
local refs. -/
def sessionCollection (repo : ServedRepo) (hello : Hello) : Option String :=
  if hello.collection = repo.collectionId then none else hello.collection

/-- `PROTOCOL_VERSION`. -/
def protocolVersion : UInt32 := 1

/-- `MAX_COLLECTION_ID_LEN`. -/
def maxCollectionIdLen : Nat := 255

/-- `hello_reply`. -/
def helloReply (repo : ServedRepo) (parallelUploads : UInt32) (collection : Option String)
    (refs : List RefState) : HelloReply where
  version := protocolVersion
  mode := asModeStr repo.mode
  collectionId := repo.collectionId
  collection := collection
  maxFrame := UInt32.ofNat maxFrame
  maxHave := UInt32.ofNat maxHave
  encodings := [.raw, .deflate]
  parallelUploads := parallelUploads
  refs := refs

/-- The states of the refs of a `Hello`, from their commits. -/
def refStates (names : List String) (tips : List (Option Checksum)) : List RefState :=
  (names.zip tips).map fun (name, commit) => ⟨name, commit⟩

/-- `offset_size`. -/
def offsetSize (data n : Nat) : Nat := if data ≤ usizeMax ∧ n ≤ usizeMax then chooseOffsetSize data n else 8

/-- `ref_state_len`. -/
def refStateLen (name : Nat) : Nat :=
  let data := name + 1 + 32 + 1
  data + offsetSize data 1

/-- The loop of `reply_frame_len`: the sum of the states and their number. -/
def statesLen : (names : List Nat) → (states count : Nat) → Option (Nat × Nat)
  | [], states, count => some (states, count)
  | name :: names, states, count =>
    let states := states + refStateLen name
    if maxFrame < states then none else statesLen names states (count + 1)

/-- `reply_frame_len`. The sums stay far below `u64::MAX`: the loop ends at the limit of a frame. -/
def replyFrameLen (empty : Nat) (names : List Nat) : Option Nat :=
  let head := empty - offsetSizeFor empty
  (statesLen names 0 0).map fun (states, count) =>
    let array := if count = 0 then 0 else states + count * offsetSize states count
    let data := head + array
    data + offsetSize data 1 + 1

/-- `check_hello_reply_fits`. -/
def checkHelloReplyFits (repo : ServedRepo) (collection : Option String) (names : List String) : Except Failure Unit :=
  match (Message.helloReply (helloReply repo 1 collection [])).encodeBody with
  | .error error => .error (.wire (.internal error.display))
  | .ok empty =>
    if (replyFrameLen empty.length (names.map fun name => (asBytes name).length)).any (· ≤ maxFrame) then .ok ()
    else .error (.wire (.limitExceeded ("the reply to the " ++ toString names.length ++
      " refs of Hello can need a frame over the limit " ++ toString maxFrame)))

/-- The check of the collection id of a `Hello`. -/
def checkCollectionId : Option String → Except Failure Unit
  | none => .ok ()
  | some id =>
    if maxCollectionIdLen < (asBytes id).length then
      .error (.wire (.invalidRef ("the collection id of " ++ toString (asBytes id).length ++
        " bytes is longer than " ++ toString maxCollectionIdLen ++ " bytes")))
    else if ¬ isCollectionId id then .error (.wire (.invalidRef ("invalid collection id '" ++ id ++ "'")))
    else .ok ()

/-- `check_hello`. -/
def checkHello (isNameCharacter : Char → Bool) (repo : ServedRepo) (hello : Hello) : Except Failure Unit := do
  if hello.version ≠ protocolVersion then
    .error (.wire (.versionUnsupported ("the server speaks protocol version " ++ toString protocolVersion.toNat ++
      ", not " ++ toString hello.version.toNat)))
  else if repo.mode = .bareSplitXattrs then
    .error (.wire (.modeRefused "the repository mode bare-split-xattrs is read-only"))
  else
    let locking ← if hello.oneWay then .ok true else repo.locking.mapError .internal
    if !locking then .error (.wire (.lockingDisabled "the repository sets [core] locking=false"))
    else
      checkEach (fun name => if isRefspec isNameCharacter name then .ok () else .error (invalidRef name)) hello.refs
      checkCollectionId hello.collection
      if hello.oneWay then .ok () else checkHelloReplyFits repo (sessionCollection repo hello) hello.refs

variable {repo : ServedRepo}

/-- A two-way `Hello` that is accepted has names without NUL, and its longest reply was measured. -/
theorem checkHello_eq_ok (accepted : checkHello isNameCharacter repo hello = .ok ())
    (twoWay : hello.oneWay = false) : (∀ name ∈ hello.refs, 0 ∉ asBytes name) ∧
      checkHelloReplyFits repo (sessionCollection repo hello) hello.refs = .ok () := by
  unfold checkHello at accepted
  simp only [twoWay, Bool.false_eq_true, if_false] at accepted
  split at accepted
  · cases accepted
  split at accepted
  · cases accepted
  obtain ⟨locking, -, accepted⟩ := bind_eq_ok.mp accepted
  split at accepted
  · cases accepted
  obtain ⟨⟨⟩, names, accepted⟩ := bind_eq_ok.mp accepted
  obtain ⟨-, -, fits⟩ := bind_eq_ok.mp accepted
  refine ⟨fun name member => ?_, fits⟩
  have passed := checkEach_eq_ok.mp names name member
  split_ifs at passed with valid
  exact nul_not_mem_refspec valid

/-! ### The length of the longest reply -/

theorem offsetSize_eq (data n : Nat) : offsetSize data n = chooseOffsetSize data n := by
  unfold offsetSize
  split
  · rfl
  · next above =>
    rw [chooseOffsetSize_eq]
    unfold usizeMax at above
    split_ifs <;> omega

theorem statesLen_eq (names : List Nat) (states count : Nat) :
    statesLen names states count =
      if names ≠ [] ∧ maxFrame < states + (names.map refStateLen).sum then none
      else some (states + (names.map refStateLen).sum, count + names.length) := by
  induction names generalizing states count with
  | nil => simp [statesLen]
  | cons name names ih =>
    grind [statesLen, List.length_cons, Nat.add_assoc, maxFrame, refStateLen, Nat.add_right_comm]

/-- The bytes of a ref state with a commit. -/
def presentBytes (name : String) (commit : Checksum) : Bytes :=
  tupleBytes [(1, none), (1, none)] none [asBytes name ++ [0], commit.bytes ++ [0]]

theorem presentBytes_length (name : String) (commit : Checksum) :
    (presentBytes name commit).length = refStateLen (asBytes name).length := by
  rw [presentBytes, tupleBytes_length (by simp) rfl, refStateLen, offsetSize_eq]
  simp only [memberParts_cons, areaEnd, alignUp_one, List.length_append, commit.length, framed,
    show nOffsets [(1, none), (1, none)] = 1 from rfl]
  simp [memberParts, areaEnd, Nat.add_assoc, Nat.add_comm, Nat.add_left_comm]

/-- The type of a ref state. -/
abbrev refStateType : Ty := .tuple [.str, maybeChecksumType]

theorem encode_present (plain : 0 ∉ asBytes name) (commit : Checksum) (levels : Nat) :
    encode (levels + 3) refStateType (RefState.value ⟨name, some commit⟩) = .ok (presentBytes name commit) := by
  refine (encodeStruct_eq_ok (List.cons_ne_nil _ _)).mpr
    ⟨[asBytes name ++ [0], commit.bytes ++ [0]], .cons ?_ (.cons rfl .nil), rfl⟩
  simp only [encode, encodeStep, strBytes]
  rw [if_neg (by simpa using plain)]

variable {names : List String} {collection : Option String} {commits : List Checksum} {uploads : UInt32}

theorem encode_refs (plain : ∀ name ∈ names, 0 ∉ asBytes name) (commits : List Checksum) (levels : Nat) :
    encode (levels + 4) (.array refStateType) (.array ((refStates names (commits.map some)).map RefState.value)) =
      .ok (arrayBytes 1 false ((names.zip commits).map fun (name, commit) => presentBytes name commit)) := by
  refine map_eq_ok.mpr ⟨_, mapM_eq_ok.mpr ?_, rfl⟩
  rw [refStates, List.zip_map_right, List.map_map, List.map_map, List.forall₂_map_left_iff,
    List.forall₂_map_right_iff, List.forall₂_same]
  rintro ⟨name, commit⟩ member
  exact encode_present (plain name (List.of_mem_zip member).1) commit levels

/-- The array of the states, as `reply_frame_len` counts it. -/
theorem refs_length (same : names.length = commits.length) :
    (arrayBytes 1 false ((names.zip commits).map fun (name, commit) => presentBytes name commit)).length =
      framed ((names.map fun name => refStateLen (asBytes name).length).sum) names.length := by
  rw [arrayBytes_length Nat.one_pos, areaEnd_elemParts_one, List.map_map, Nat.zero_add,
    List.length_map, List.length_zip, ← same, Nat.min_self]
  congr 2
  rw [show names.map (fun name => refStateLen (asBytes name).length) =
    ((names.zip commits).map Prod.fst).map fun name => refStateLen (asBytes name).length by
      rw [List.map_fst_zip same.le], List.map_map]
  exact List.map_congr_left fun pair _ => presentBytes_length pair.1 pair.2

/-- The body of a `HelloReply`, from the bytes of its options and of its refs. -/
def replyBytes (options refs : Bytes) : Bytes :=
  tupleBytes [(4, some 4), (8, none), (1, none)] none [leBytes 4 protocolVersion.toNat, options, refs]

theorem replyBytes_length (options refs : Bytes) :
    (replyBytes options refs).length = framed (8 + options.length + refs.length) 1 := by
  rw [replyBytes, tupleBytes_length (by simp) rfl]
  simp [areaEnd, framed, memberParts, show alignUp 0 4 = 0 from rfl, show alignUp 4 8 = 8 from rfl,
    show nOffsets [(4, some 4), (8, none), (1, none)] = 1 from rfl]

theorem encodeBody_helloReply (some_uploads : uploads ≠ 0) :
    (Message.helloReply (helloReply repo uploads collection refs)).encodeBody = .ok body ↔
      ∃ options states,
        encode maxValueDepth dictType (helloReply repo uploads collection refs).options.build = .ok options ∧
        encode maxValueDepth (.array refStateType) (.array (refs.map RefState.value)) = .ok states ∧
        replyBytes options states = body := by
  have limits : checkLimits (UInt32.ofNat maxFrame) (UInt32.ofNat maxHave) uploads = .ok () := by
    rw [checkLimits, if_neg (by decide), if_neg (by simpa [maxHave] using some_uploads)]
  have step : (Message.helloReply (helloReply repo uploads collection refs)).encodeBody =
      encodeValue (.tuple [.u32, dictType, .array refStateType]) (helloReply repo uploads collection refs).value :=
    congrArg (· >>= fun _ => _) limits
  rw [step, encodeValue, mapError_eq_ok, toBytes_eq_encode, encode, HelloReply.value]
  refine (encodeStruct_eq_ok (List.cons_ne_nil _ _)).trans ⟨?_, ?_⟩
  · rintro ⟨_, ⟨⟩ | ⟨version, ⟨⟩ | ⟨options, ⟨⟩ | ⟨states, ⟨⟩⟩⟩⟩, rfl⟩
    cases version
    exact ⟨_, _, options, states, rfl⟩
  · rintro ⟨options, states, writes, listed, rfl⟩
    exact ⟨[leBytes 4 protocolVersion.toNat, options, states], .cons rfl (.cons writes (.cons listed .nil)), rfl⟩

/-- The number of bytes of each name. -/
abbrev nameLens (names : List String) : List Nat := names.map fun name => (asBytes name).length

/-- `reply_frame_len` counts the frame, or stops because the states alone pass the limit. -/
theorem replyFrameLen_eq (options : Bytes)
    (counted : states.length = framed ((names.map fun name => refStateLen (asBytes name).length).sum) names.length) :
    replyFrameLen (replyBytes options []).length (nameLens names) = some ((replyBytes options states).length + 1) ∨
      replyFrameLen (replyBytes options []).length (nameLens names) = none ∧
        maxFrame < (replyBytes options states).length + 1 := by
  have head : (replyBytes options []).length - offsetSizeFor (replyBytes options []).length = 8 + options.length := by
    rw [replyBytes_length, List.length_nil, Nat.add_zero, framed, offsetSizeFor_chooseOffsetSize]
    omega
  have array : ∀ sum, (names = [] → sum = 0) →
      (if names.length = 0 then 0 else sum + names.length * offsetSize sum names.length) = framed sum names.length := by
    intro sum none_sum
    split
    · next empty => rw [none_sum (List.length_eq_zero_iff.mp empty), empty, framed, Nat.zero_mul]
    · rw [offsetSize_eq, framed]
  simp only [replyFrameLen]
  rw [head]
  simp only [statesLen_eq, Nat.zero_add, List.map_map, Function.comp_def, List.length_map, replyBytes_length, counted]
  have none_sum : names = [] → (names.map fun name => refStateLen (asBytes name).length).sum = 0 := by
    rintro rfl
    rfl
  generalize (names.map fun name => refStateLen (asBytes name).length).sum = sum at none_sum
  split
  · grind [framed]
  · refine .inl ?_
    rw [Option.map_some, array sum none_sum, offsetSize_eq]
    simp [framed]

/-! ### Replies with fewer commits -/

theorem covers_commit (present : Checksum) (actual : Option Checksum) :
    Covers maybeChecksumType (maybeValue (some present)) (maybeValue actual) := by
  cases actual with
  | none => exact covers_nothing _ _
  | some actual => exact covers_just (covers_bytes (by rw [present.length, actual.length]))

theorem covers_refStates (same : commits.length = tips.length) :
    List.Forall₂ (Covers refStateType) ((refStates names (commits.map some)).map RefState.value)
      ((refStates names tips).map RefState.value) := by
  induction names generalizing commits tips with
  | nil => exact .nil
  | cons name names ih =>
    match commits, tips, same with
    | [], [], _ => exact .nil
    | commit :: commits, tip :: tips, same =>
      refine .cons (covers_tuple (List.cons_ne_nil _ _) rfl ?_) (ih (Nat.succ_injective same))
      exact .cons (.refl _ _) (.cons (covers_commit commit tip) .nil)

/-- The options take the same room whatever number of uploads they announce. -/
theorem covers_options (repo : ServedRepo) (uploads others : UInt32) (collection : Option String)
    (refs states : List RefState) :
    Covers dictType (helloReply repo uploads collection refs).options.build
      (helloReply repo others collection states).options.build := by
  refine covers_array (by decide) rfl ?_
  simp only [HelloReply.options, helloReply, DictBuilder.insert, List.map_append, List.map_cons, List.map_nil]
  refine List.rel_append (List.forall₂_same.mpr fun _ _ => .refl _ _) (.cons ?_ .nil)
  exact covers_dictEntry rfl (.cons (.refl _ _) (.cons (covers_variant (covers_u32 _ _)) .nil))

theorem helloReply_length (plain : ∀ name ∈ names, 0 ∉ asBytes name)
    (same : names.length = commits.length) (some_uploads : uploads ≠ 0)
    (measured : (Message.helloReply (helloReply repo 1 collection [])).encodeBody = .ok empty) :
    ∃ body, (Message.helloReply (helloReply repo uploads collection (refStates names (commits.map some)))).encodeBody =
        .ok body ∧
      (replyFrameLen empty.length (nameLens names) = some (body.length + 1) ∨
        replyFrameLen empty.length (nameLens names) = none ∧ maxFrame < body.length + 1) := by
  obtain ⟨options, none_listed, written, listed, rfl⟩ := (encodeBody_helloReply (by decide)).mp measured
  cases listed
  have states := encode_refs plain commits 124
  -- another number of uploads gives options of the same length
  obtain ⟨others, writes, le⟩ :=
    covers_options repo 1 uploads collection [] (refStates names (commits.map some)) _ _ written
  obtain ⟨back, again, ge⟩ :=
    covers_options repo uploads 1 collection (refStates names (commits.map some)) [] _ _ writes
  cases written.symm.trans again
  refine ⟨_, (encodeBody_helloReply some_uploads).mpr ⟨others, _, writes, states, rfl⟩, ?_⟩
  have equal : (replyBytes others []).length = (replyBytes options []).length := by
    rw [replyBytes_length, replyBytes_length, le_antisymm le ge]
  exact equal ▸ replyFrameLen_eq others (refs_length same)

/-- A reply that was measured gives a frame within the limit, whatever refs have a commit. -/
theorem helloReply_fits
    (fits : checkHelloReplyFits repo collection names = .ok ()) (plain : ∀ name ∈ names, 0 ∉ asBytes name)
    (same : names.length = tips.length) (some_uploads : uploads ≠ 0) :
    ∃ body, (Message.helloReply (helloReply repo uploads collection (refStates names tips))).encodeBody = .ok body ∧
      body.length + 1 ≤ maxFrame := by
  unfold checkHelloReplyFits at fits
  split at fits
  · cases fits
  next empty measured =>
  split at fits
  case isFalse => cases fits
  next within =>
  let commits := List.replicate tips.length (Checksum.filled 0)
  have counted : commits.length = tips.length := List.length_replicate
  obtain ⟨body, written, exact_len⟩ := helloReply_length plain (same.trans counted.symm) some_uploads measured
  have bound : body.length + 1 ≤ maxFrame := by
    obtain len | ⟨stopped, -⟩ := exact_len
    · simpa [len] using within
    · simp [stopped] at within
  -- the refs with their actual commits
  obtain ⟨options, states, writes, listed, rfl⟩ := (encodeBody_helloReply some_uploads).mp written
  obtain ⟨actual, written, le⟩ := covers_array (by decide) rfl (covers_refStates counted) _ _ listed
  refine ⟨_, (encodeBody_helloReply some_uploads).mpr ⟨options, actual, writes, written, rfl⟩, ?_⟩
  rw [replyBytes_length] at bound ⊢
  exact (Nat.succ_le_succ (framed_mono (Nat.add_le_add_left le _) 1)).trans bound

/-! ### The reply to a `Commit` -/

/-- The outcomes of the updates, from the states of their refs under the lock. -/
def updateOutcomes (updates : List RefUpdate) (current : List (Option Checksum)) : List RefOutcome :=
  (updates.zip current).map fun (update, old) => ⟨update.name, old, update.new⟩

/-- `outcomes`: the outcomes of a server commit. -/
def outcomes (branch : String) (tags : List String) (tip : Option Checksum) (commit : Checksum) : List RefOutcome :=
  ⟨branch, tip, some commit⟩ :: tags.map fun name => ⟨name, none, some commit⟩

/-- `check_reply_fits` of a server commit. -/
def checkServerReplyFits (sc : ServerCommit) : Except Failure Unit :=
  let anyCommit := Checksum.filled 0
  match (Message.commitReply (outcomes sc.branch sc.tags (some anyCommit) anyCommit)).encodeBody with
  | .error error => .error (.wire error)
  | .ok body =>
    if maxFrame < body.length + 1 then
      .error (.wire (.limitExceeded ("the reply to the server commit with " ++ toString sc.tags.length ++
        " tags can need a frame of " ++ toString (body.length + 1) ++ " bytes, over the limit " ++ toString maxFrame)))
    else .ok ()

/-- The type of an outcome. -/
abbrev outcomeType : Ty := .tuple [.str, maybeChecksumType, maybeChecksumType]

theorem covers_outcome (name : String) (olds : Covers maybeChecksumType (maybeValue old) (maybeValue other))
    (news : Covers maybeChecksumType (maybeValue new) (maybeValue another)) :
    Covers outcomeType (RefOutcome.value ⟨name, old, new⟩) (RefOutcome.value ⟨name, other, another⟩) :=
  covers_tuple (List.cons_ne_nil _ _) rfl (.cons (.refl _ _) (.cons olds (.cons news .nil)))

theorem commitReply_fits
    (each : List.Forall₂ (Covers outcomeType) (longest.map RefOutcome.value) (actual.map RefOutcome.value))
    (written : (Message.commitReply longest).encodeBody = .ok body) (within : ¬ maxFrame < body.length + 1) :
    ∃ body, (Message.commitReply actual).encodeBody = .ok body ∧ body.length + 1 ≤ maxFrame := by
  simp only [Message.encodeBody, encodeValue, mapError_eq_ok] at written ⊢
  obtain ⟨less, writes, le⟩ := (covers_array (by decide) rfl each).toBytes written
  exact ⟨less, writes, by omega⟩

theorem updateReply_fits (fits : checkReplyFits updates = .ok ()) (same : updates.length = current.length) :
    ∃ body, (Message.commitReply (updateOutcomes updates current)).encodeBody = .ok body ∧
      body.length + 1 ≤ maxFrame := by
  simp only [checkReplyFits] at fits
  split at fits
  · cases fits
  next body written =>
  split at fits
  · cases fits
  next within =>
  refine commitReply_fits ?_ written within
  clear written within fits body
  induction updates generalizing current with
  | nil => exact .nil
  | cons update updates ih =>
    match current, same with
    | old :: current, same =>
      exact .cons (covers_outcome _ (covers_commit _ old) (.refl _ _)) (ih (Nat.succ_injective same))

theorem serverReply_fits (fits : checkServerReplyFits sc = .ok ()) (tip : Option Checksum) (commit : Checksum) :
    ∃ body, (Message.commitReply (outcomes sc.branch sc.tags tip commit)).encodeBody = .ok body ∧
      body.length + 1 ≤ maxFrame := by
  simp only [checkServerReplyFits] at fits
  split at fits
  · cases fits
  next body written =>
  split at fits
  · cases fits
  next within =>
  refine commitReply_fits ?_ written within
  refine .cons (covers_outcome _ (covers_commit _ tip) (covers_commit _ _)) ?_
  rw [List.map_map, List.map_map, List.forall₂_map_left_iff, List.forall₂_map_right_iff, List.forall₂_same]
  exact fun name _ => covers_outcome name (.refl _ _) (covers_commit _ _)

/-- **Every reply that a session admits fits in its frame.** The computed length of a `HelloReply`
is the length of the one in which every ref has a commit, or the computation stops because that one
is over the limit. The reply to a `Hello` that was accepted fits whatever refs have a commit, and
the reply to the updates or to the server commit that passed their check fits whatever the refs hold
under the lock. -/
theorem replies_fit_frame (isNameCharacter : Char → Bool) (repo : ServedRepo) (uploads : UInt32)
    (some_uploads : uploads ≠ 0) :
    (∀ collection names (commits : List Checksum) empty, (∀ name ∈ names, 0 ∉ asBytes name) →
      names.length = commits.length →
      (Message.helloReply (helloReply repo 1 collection [])).encodeBody = .ok empty →
      ∃ body, (Message.helloReply
        (helloReply repo uploads collection (refStates names (commits.map some)))).encodeBody =
          .ok body ∧
        (replyFrameLen empty.length (nameLens names) = some (body.length + 1) ∨
          replyFrameLen empty.length (nameLens names) = none ∧ maxFrame < body.length + 1)) ∧
    (∀ hello (tips : List (Option Checksum)), checkHello isNameCharacter repo hello = .ok () →
      hello.oneWay = false → hello.refs.length = tips.length →
      ∃ body, (Message.helloReply (helloReply repo uploads (sessionCollection repo hello)
          (refStates hello.refs tips))).encodeBody = .ok body ∧ body.length + 1 ≤ maxFrame) ∧
    (∀ updates (current : List (Option Checksum)), checkReplyFits updates = .ok () → updates.length = current.length →
      ∃ body, (Message.commitReply (updateOutcomes updates current)).encodeBody = .ok body ∧
        body.length + 1 ≤ maxFrame) ∧
    ∀ sc tip commit, checkServerReplyFits sc = .ok () →
      ∃ body, (Message.commitReply (outcomes sc.branch sc.tags tip commit)).encodeBody = .ok body ∧
        body.length + 1 ≤ maxFrame := by
  refine ⟨?_, ?_, fun _ _ fits same => updateReply_fits fits same, fun _ tip commit fits =>
    serverReply_fits fits tip commit⟩
  · intro collection names commits empty plain same measured
    exact helloReply_length plain same some_uploads measured
  · intro hello tips accepted twoWay same
    obtain ⟨plain, fits⟩ := checkHello_eq_ok accepted twoWay
    exact helloReply_fits fits plain same some_uploads

/-- A repository and a `Hello` of two refs. -/
def sampleRepo : ServedRepo := ⟨.archive, .ok true, some "org.a"⟩

def sampleHello : Hello := ⟨1, none, ["main", "a/b"], some "org.b", false⟩

/-- Of two refs, one is absent; an update deletes it. -/
theorem replies_fit_frame_two :
    checkHello (fun _ => false) sampleRepo sampleHello = .ok () ∧
      (∃ body, (Message.helloReply (helloReply sampleRepo 4 (sessionCollection sampleRepo sampleHello)
        (refStates sampleHello.refs [some (.filled 1), none]))).encodeBody = .ok body ∧ body.length + 1 ≤ maxFrame) ∧
      ∃ body, (Message.commitReply (updateOutcomes [⟨"main", .any, none⟩] [some (.filled 1)])).encodeBody = .ok body ∧
        body.length + 1 ≤ maxFrame := by
  have accepted : checkHello (fun _ => false) sampleRepo sampleHello = .ok () := by decide +kernel
  have fits : checkReplyFits [⟨"main", .any, none⟩] = .ok () := by decide +kernel
  obtain ⟨-, hello, updates, -⟩ := replies_fit_frame (fun _ => false) sampleRepo 4 (by decide)
  exact ⟨accepted, hello sampleHello _ accepted rfl rfl, updates _ _ fits rfl⟩

end Ostrya.Receive
