/-
**The body of the writer lock** (`bucket/lock.rs`, `lock_body` and `parse_holder`).

The body is a key file of one group, with the id of the run and what an operator wants to know of the
writer. A reader that finds the body of another writer reads the same five fields back
(`parseHolder_body`), and every body is far below the limit of a read of the lock (`length_body`).
-/

import Ostrya.Core.KeyFileValues
import Ostrya.Delta.Store

namespace Ostrya.Bucket

open ByteFormat Ostrya.Core Delta

/-- `LockOperation`. -/
inductive LockOperation where
  | init
  | push
  | prune
  | summary
  | fsck
  deriving DecidableEq

/-- `LockOperation::as_str`. -/
def LockOperation.asStr : LockOperation → String
  | .init => "init"
  | .push => "push"
  | .prune => "prune"
  | .summary => "summary"
  | .fsck => "fsck"

/-- `LockHolder`. -/
structure LockHolder where
  id : Option String
  host : Option String
  pid : Option UInt32
  operation : Option String
  started : Option UInt64
  deriving DecidableEq

/-- `LockHolder::default`: a writer that the lock body does not name. -/
def LockHolder.default : LockHolder := ⟨none, none, none, none, none⟩

/-- `GROUP`. -/
def group : String := "lock"

/-- `MAX_LOCK`. -/
def maxLock : Nat := 64 * 1024

/-- `MAX_HOST`. -/
def maxHost : Nat := 256

/-- A setter's result with `?`. -/
def edited (step : Except Core.Error Unit × KeyFile) : Except Core.Error KeyFile := step.1.map fun _ => step.2

/-- `lock_body`. -/
def lockBody (id host : String) (pid : UInt32) (operation : LockOperation) (started : UInt64) :
    Except Core.Error String := do
  let body ← edited (KeyFile.default.setValue group "id" id)
  let body ← edited (body.setString group "host" host)
  let body ← edited (body.setValue group "pid" pid.toNat.repr)
  let body ← edited (body.setValue group "operation" operation.asStr)
  let body ← edited (body.setValue group "started" started.toNat.repr)
  .ok body.display

/-- `str::parse` into an unsigned integer of so many bits. -/
def parseUnsigned (bits : Nat) (text : String) : Option Nat :=
  let digits := if text.toList.head? = some '+' then text.toList.tail else text.toList
  if digits = [] ∨ ¬ digits.all Char.isDigit then none
  else if Nat.ofDigitChars 10 digits 0 < 2 ^ bits then some (Nat.ofDigitChars 10 digits 0)
  else none

/-- A byte of `0-9` or `a-f`. -/
def isLowerHex (byte : UInt8) : Bool := (48 ≤ byte && byte ≤ 57) || (97 ≤ byte && byte ≤ 102)

/-- `is_lock_id`. -/
def isLockId (id : String) : Bool := (asBytes id).length = 64 && (asBytes id).all isLowerHex

/-- `get_string` with `.ok().flatten()`. -/
def textOf (body : KeyFile) (key : String) : Option String := ((body.getString group key).toOption).join

/-- `parse_holder`. -/
def parseHolder (bytes : List UInt8) : LockHolder :=
  let parsed := do
    let text ← fromUtf8 bytes
    let body ← (KeyFile.parse text).toOption
    if body.hasGroup group then some body else none
  match parsed with
  | none => .default
  | some body =>
    { id := (body.getValue group "id").filter isLockId
      host := textOf body "host"
      pid := (body.getValue group "pid").bind fun pid => (parseUnsigned 32 pid).map UInt32.ofNat
      operation := textOf body "operation"
      started := (body.getValue group "started").bind fun started =>
        (parseUnsigned 64 started).map UInt64.ofNat }

/-- `names_id`. -/
def namesId (holder : LockHolder) (id : String) : Bool := holder.id = some id

/-! ### The body of a run -/

/-- What `take_lock` puts into the body: the id of `new_id` is the hex of a digest, and `host_name`
reads at most `MAX_HOST` bytes. -/
structure Run where
  digest : Checksum
  host : String
  pid : UInt32
  operation : LockOperation
  started : UInt64
  hostShort : (asBytes host).length ≤ maxHost

namespace Run

/-- The id of the run. -/
def id (run : Run) : String := toHex run.digest

/-- The entries of the lock body. -/
def entries (run : Run) : List (String × String) :=
  [("id", run.id), ("host", String.ofList (KeyFile.escape run.host)), ("pid", run.pid.toNat.repr),
    ("operation", run.operation.asStr), ("started", run.started.toNat.repr)]

/-- The bytes of the lock body. -/
def body (run : Run) : List UInt8 := asBytes (KeyFile.single group run.entries).display

/-- A value of letters and digits passes the checks of `set_value`, and reads back. -/
def Solid (value : String) : Prop :=
  ('\n' ∉ value.toList ∧ '\r' ∉ value.toList) ∧ ∀ c, value.toList.head? = some c → KeyFile.asciiWs c = false

theorem Solid.of_all (digits : ∀ c ∈ value.toList, c.isAlphanum = true) : Solid value := by
  refine ⟨⟨fun inside => ?_, fun inside => ?_⟩, fun c starts => ?_⟩
  · exact absurd (digits _ inside) (by decide)
  · exact absurd (digits _ inside) (by decide)
  · have solid := digits c (List.mem_of_mem_head? starts)
    unfold KeyFile.asciiWs
    by_contra blank
    simp only [Bool.not_eq_false, Bool.or_eq_true, decide_eq_true_eq] at blank
    obtain rfl | rfl := blank
    · exact absurd solid (by decide)
    · exact absurd solid (by decide)

theorem isAlphanum_digitChar : ∀ n < 16, (Nat.digitChar n).isAlphanum = true := by
  decide

theorem solid_repr (n : Nat) : Solid n.repr := by
  refine .of_all fun c inside => ?_
  rw [Nat.toList_repr] at inside
  have digit := Nat.isDigit_of_mem_toDigits (by decide) (by decide) inside
  simp [Char.isAlphanum, digit]

theorem mem_toHex (inside : c ∈ (toHex checksum).toList) :
    ∃ n < 16, c = Nat.digitChar n := by
  unfold toHex at inside
  rw [String.toList_ofList, List.mem_flatMap] at inside
  obtain ⟨byte, -, digit⟩ := inside
  have small := byte.toNat_lt
  simp only [List.mem_cons, List.not_mem_nil, or_false] at digit
  obtain rfl | rfl := digit
  · exact ⟨_, by omega, rfl⟩
  · exact ⟨_, by omega, rfl⟩

theorem solid_id (run : Run) : Solid run.id := by
  refine .of_all fun c inside => ?_
  obtain ⟨n, small, rfl⟩ := mem_toHex inside
  exact isAlphanum_digitChar n small

theorem solid_asStr (operation : LockOperation) : Solid operation.asStr := by
  refine .of_all (List.all_eq_true.mp ?_)
  cases operation <;> decide

theorem solid_escape (text : String) : Solid (String.ofList (KeyFile.escape text)) := by
  unfold Solid
  rw [String.toList_ofList]
  exact ⟨KeyFile.oneLine_escapeFrom _ _, fun c starts => KeyFile.head_escape starts⟩

theorem solid_entries (run : Run) : ∀ entry ∈ run.entries, Solid entry.2 := by
  simp [entries]
  exact ⟨run.solid_id, solid_escape _, solid_repr _, solid_asStr _, solid_repr _⟩

theorem plainKey_entries (run : Run) : ∀ entry ∈ run.entries, KeyFile.PlainKey entry.1.toList := by
  have plain : ∀ key ∈ ["id", "host", "pid", "operation", "started"], KeyFile.validateKey key = .ok () := by
    decide
  intro entry member
  have key : entry.1 ∈ ["id", "host", "pid", "operation", "started"] :=
    List.mem_map_of_mem (f := Prod.fst) member
  have valid : KeyFile.validate group entry.1 "" = .ok () := by
    unfold KeyFile.validate
    rw [plain _ key]
    rfl
  exact (KeyFile.plain_of_validate valid).2.1

theorem wellFormed_entries (run : Run) : KeyFile.WellFormedEntries run.entries where
  plain := fun entry member => ⟨run.plainKey_entries entry member,
    ⟨(run.solid_entries entry member).1.1, fun c starts => by simp [(run.solid_entries entry member).2 c starts]⟩⟩
  once := by
    show ["id", "host", "pid", "operation", "started"].Nodup
    decide

theorem validate_entry {key value : String} (valid : KeyFile.validateKey key = .ok ())
    (solid : Solid value) : KeyFile.validate group key value = .ok () := by
  unfold KeyFile.validate
  rw [valid, KeyFile.validateValue_of_plain solid.1 solid.2]
  rfl

theorem lockBody_eq (run : Run) :
    lockBody run.id run.host run.pid run.operation run.started =
      .ok (KeyFile.single group run.entries).display := by
  unfold lockBody KeyFile.setString
  rw [KeyFile.setValue_default (validate_entry (by decide) run.solid_id)]
  simp only [edited, map_ok, ok_bind]
  rw [KeyFile.setValue_single (validate_entry (by decide) (solid_escape _)) (by simp)]
  simp only [map_ok, ok_bind]
  rw [KeyFile.setValue_single (validate_entry (by decide) (solid_repr _)) (by simp)]
  simp only [map_ok, ok_bind]
  rw [KeyFile.setValue_single (validate_entry (by decide) (solid_asStr _)) (by simp)]
  simp only [map_ok, ok_bind]
  rw [KeyFile.setValue_single (validate_entry (by decide) (solid_repr _)) (by simp)]
  rfl

theorem parse_body (run : Run) :
    KeyFile.parse (KeyFile.single group run.entries).display = .ok (KeyFile.single group run.entries) := by
  have name : KeyFile.PlainName group.toList :=
    (KeyFile.plain_of_validate (@validate_entry "id" _ (by decide) run.solid_id)).1
  refine KeyFile.parse_display_single name run.wellFormed_entries ?_
  intro entry member ends
  exact (run.solid_entries entry member).1.2 (List.mem_of_getLast? ends)

theorem parseUnsigned_repr {bits n : Nat} (small : n < 2 ^ bits) : parseUnsigned bits n.repr = some n := by
  have digits : n.repr.toList = Nat.toDigits 10 n := Nat.toList_repr
  have some_digit : Nat.toDigits 10 n ≠ [] := Nat.toDigits_ne_nil
  have all : (Nat.toDigits 10 n).all Char.isDigit = true :=
    List.all_eq_true.mpr fun c inside => Nat.isDigit_of_mem_toDigits (by decide) (by decide) inside
  have unsigned : (Nat.toDigits 10 n).head? ≠ some '+' := by
    intro plus
    exact absurd (List.all_eq_true.mp all _ (List.mem_of_mem_head? plus)) (by decide)
  unfold parseUnsigned
  simp only [digits, if_neg unsigned, some_digit, all]
  simp [small]

theorem isLockId_toHex (checksum : Checksum) : isLockId (toHex checksum) = true := by
  have ascii : ∀ n < 16, (Nat.digitChar n).toNat < 128 ∧
      isLowerHex (UInt8.ofNat (Nat.digitChar n).toNat) = true := by decide
  have letters : asBytes (toHex checksum) =
      (toHex checksum).toList.map fun c => UInt8.ofNat c.toNat := by
    rw [asBytes_eq_flatMap, flatMap_utf8EncodeChar_of_ascii]
    intro c inside
    obtain ⟨n, small, rfl⟩ := mem_toHex inside
    exact (ascii n small).1
  have long : (toHex checksum).toList.length = 64 := by
    unfold toHex
    simp [checksum.length]
  unfold isLockId
  rw [letters, List.length_map, long]
  simp only [List.all_map, decide_true, Bool.true_and, List.all_eq_true]
  intro c inside
  obtain ⟨n, small, rfl⟩ := mem_toHex inside
  exact (ascii n small).2

/-- **A lock body names the run that wrote it.** -/
theorem parseHolder_body (run : Run) :
    parseHolder run.body =
      ⟨some run.id, some run.host, some run.pid, some run.operation.asStr, some run.started⟩ := by
  have id : (KeyFile.single group run.entries).getValue group "id" = some run.id := KeyFile.find_single ..
  have pid : (KeyFile.single group run.entries).getValue group "pid" = some run.pid.toNat.repr :=
    KeyFile.find_single ..
  have started : (KeyFile.single group run.entries).getValue group "started" =
      some run.started.toNat.repr := KeyFile.find_single ..
  have host : textOf (KeyFile.single group run.entries) "host" = some run.host := by
    unfold textOf KeyFile.getString
    show ((KeyFile.unescape (String.ofList (KeyFile.escape run.host)).toList).map _).toOption.join = _
    rw [String.toList_ofList, KeyFile.unescape_escape, map_ok, String.ofList_toList]
    rfl
  have operation : textOf (KeyFile.single group run.entries) "operation" = some run.operation.asStr := by
    have plain : '\x5c' ∉ run.operation.asStr.toList := by cases run.operation <;> decide
    unfold textOf KeyFile.getString
    rw [KeyFile.find_single]
    show ((KeyFile.unescape run.operation.asStr.toList).map _).toOption.join = _
    rw [KeyFile.unescape_of_not_mem plain, map_ok, String.ofList_toList]
    rfl
  have readsPid : parseUnsigned 32 run.pid.toNat.repr = some run.pid.toNat :=
    @parseUnsigned_repr 32 _ run.pid.toNat_lt
  have readsStarted : parseUnsigned 64 run.started.toNat.repr = some run.started.toNat :=
    @parseUnsigned_repr 64 _ run.started.toNat_lt
  have isId : isLockId run.id = true := isLockId_toHex run.digest
  unfold parseHolder body
  simp only [fromUtf8_asBytes, Option.bind_eq_bind, Option.bind_some, parse_body, Except.toOption,
    KeyFile.hasGroup_single, if_true, id, host, pid, operation, started, readsPid, readsStarted,
    Option.filter_some, isId, Option.map_some, UInt32.ofNat_toNat, UInt64.ofNat_toNat]

theorem length_utf8_le (chars : List Char) : (chars.flatMap String.utf8EncodeChar).length ≤ 4 * chars.length := by
  induction chars with
  | nil => simp
  | cons c chars ih =>
    have small := c.utf8Size_le_four
    simp only [List.flatMap_cons, List.length_append, List.length_cons, String.length_utf8EncodeChar]
    omega

theorem length_le_utf8 (chars : List Char) : chars.length ≤ (chars.flatMap String.utf8EncodeChar).length := by
  induction chars with
  | nil => simp
  | cons c chars ih =>
    have some_byte := c.utf8Size_pos
    simp only [List.flatMap_cons, List.length_append, List.length_cons, String.length_utf8EncodeChar]
    omega

theorem length_body (run : Run) : run.body.length ≤ maxLock := by
  have id : run.id.toList.length = 64 := by
    unfold id toHex
    simp [run.digest.length]
  have host : (KeyFile.escape run.host).length ≤ 512 := by
    have short := run.hostShort
    have doubled : (KeyFile.escape run.host).length ≤ 2 * run.host.toList.length :=
      KeyFile.length_escapeFrom _ _
    have letters := length_le_utf8 run.host.toList
    rw [← asBytes_eq_flatMap] at letters
    unfold maxHost at short
    omega
  have pid : (Nat.toDigits 10 run.pid.toNat).length ≤ 10 :=
    (Nat.length_toDigits_le_iff (by decide) (by decide)).mpr (Nat.lt_trans run.pid.toNat_lt (by decide))
  have started : (Nat.toDigits 10 run.started.toNat).length ≤ 20 :=
    (Nat.length_toDigits_le_iff (by decide) (by decide)).mpr (Nat.lt_trans run.started.toNat_lt (by decide))
  have operation : run.operation.asStr.toList.length ≤ 7 := by cases run.operation <;> decide
  have letters : (KeyFile.fmtFrom 0 [⟨group, run.entries⟩]).length ≤ 1000 := by
    simp [KeyFile.fmtFrom, KeyFile.Group.fmt, entries, group, Nat.toList_repr] at *
    omega
  unfold body KeyFile.display
  rw [asBytes_ofList]
  refine (length_utf8_le _).trans ?_
  unfold maxLock
  have : (KeyFile.single group run.entries).groups = [⟨group, run.entries⟩] := rfl
  rw [this]
  omega

end Run

end Ostrya.Bucket
