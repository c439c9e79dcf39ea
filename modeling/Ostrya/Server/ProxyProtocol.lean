/-
**The PROXY header does not depend on how the bytes arrive** (`proxy_protocol.rs`).

A result of `parse` other than `incomplete` stays under more bytes, so the reads decide nothing.

* `IsHeader`: the header's grammar, apart from the parser.
* `parseLine_eq_some`, `isBlock_iff`: the parser meets it.
* `stable_parse`: the result stays.
* `readFrom_eq`: what the reads give is what the whole stream gives.
* `read_header_exact`: a header is read exactly where the stream starts with one, and the rest is
  read after it.
-/

import Ostrya.ByteFormat.Lines
import Ostrya.ByteFormat.Utf8
import Ostrya.Gvariant.Layout
import Mathlib.Data.Nat.Digits.Defs

namespace Ostrya.Server

open ByteFormat Gvariant

/-- `IpAddr`, by its octets. -/
inductive IpAddr where
  | v4 (octets : Bytes)
  | v6 (octets : Bytes)
  deriving DecidableEq

/-- The first octets of an IPv4 address that is written as an IPv6 one. -/
def mapped : Bytes := List.replicate 10 0 ++ [0xff, 0xff]

/-- `to_canonical`. -/
def IpAddr.toCanonical : IpAddr → IpAddr
  | .v4 octets => .v4 octets
  | .v6 octets => if mapped <+: octets then .v4 (octets.drop 12) else .v6 octets

/-- `Parsed`. -/
inductive Parsed where
  | incomplete
  | invalid
  | done (source : Option IpAddr) (len : Nat)

/-- `from_str` of `Ipv4Addr` and of `Ipv6Addr`, to their octets. -/
structure Net where
  parse4 : Bytes → Option Bytes
  parse6 : Bytes → Option Bytes

/-- `V1_PREFIX`, `V1_MAX` and `V2_SIGNATURE`. -/
def v1Start : Bytes := asBytes "PROXY "

def v1Max : Nat := 107

def v2Signature : Bytes := asBytes "\r\n\r\n\x00\r\nQUIT\n"

/-- `is_port`. -/
def isPort (text : Bytes) : Bool :=
  !text.isEmpty && text.all (fun b => 48 ≤ b && b ≤ 57) &&
    text.foldl (fun n b => 10 * n + (b.toNat - 48)) 0 ≤ 65535

variable (net : Net)

/-- The source of the fields of a version 1 line. -/
def parseFields : List Bytes → Option IpAddr
  | [protocol, source, destination, sourcePort, destinationPort] =>
    let addrs :=
      if protocol = asBytes "TCP4" then
        (net.parse4 source).bind fun addr => (net.parse4 destination).map fun _ => IpAddr.v4 addr
      else if protocol = asBytes "TCP6" then
        (net.parse6 source).bind fun addr => (net.parse6 destination).map fun _ => IpAddr.v6 addr
      else none
    if isPort sourcePort && isPort destinationPort then addrs.map IpAddr.toCanonical else none
  | _ => none

/-- The text of a version 1 line. -/
def parseLine (line : Bytes) : Option (Option IpAddr) :=
  if (fromUtf8 line).isNone then none
  else if line = asBytes "UNKNOWN" ∨ (asBytes "UNKNOWN ").isPrefixOf line then some none
  else (parseFields net (line.splitOn 32)).map some

/-- `parse_v1`. `V1_PREFIX` holds no LF, so the search begins after it. -/
def parseV1 (bytes : Bytes) : Parsed :=
  match splitOnce 10 ((bytes.take v1Max).drop v1Start.length) with
  | none => if bytes.length < v1Max then .incomplete else .invalid
  | some (text, _) =>
    if text.getLast? ≠ some 13 then .invalid
    else
      match parseLine net text.dropLast with
      | none => .invalid
      | some source => .done source (v1Start.length + text.length + 1)

/-- The least length of the address block of a command and a family, and the source in the block. -/
def addressBlock (proxy : Bool) (family : UInt8) : Option (Nat × (Bytes → Option IpAddr)) :=
  match proxy, family with
  | false, _ | true, 0x00 => some (0, fun _ => none)
  | true, 0x11 => some (12, fun block => some (.v4 (block.take 4)))
  | true, 0x21 => some (36, fun block => some (IpAddr.v6 (block.take 16)).toCanonical)
  | true, 0x31 => some (216, fun _ => none)
  | true, _ => none

/-- The next byte, if it is there. -/
def byte (go : UInt8 → Bytes → Parsed) : Bytes → Parsed
  | [] => .incomplete
  | first :: rest => go first rest

/-- `parse_v2`, after the signature. -/
def parseV2 : Bytes → Parsed :=
  byte fun versionCommand =>
    if versionCommand >>> 4 ≠ 2 ∨ 1 < versionCommand &&& 15 then fun _ => .invalid
    else
      byte fun family =>
        match addressBlock (versionCommand &&& 15 = 1) family with
        | none => fun _ => .invalid
        | some (least, source) =>
          byte fun hi => byte fun lo block =>
            let length := hi.toNat * 256 + lo.toNat
            if length < least then .invalid
            else if block.length < least then .incomplete
            else .done (source block) (16 + length)

/-- The comparison of the bytes with `start`, over as many as both have. -/
def starts (start bytes : Bytes) : Option Bool :=
  if start <+: bytes then some true else if bytes <+: start then none else some false

/-- `parse`. -/
def parse (bytes : Bytes) : Parsed :=
  match starts v2Signature bytes with
  | none => .incomplete
  | some true => parseV2 (bytes.drop v2Signature.length)
  | some false =>
    match starts v1Start bytes with
    | none => .incomplete
    | some true => parseV1 net bytes
    | some false => .invalid

/-- What one read gives. -/
structure Piece where
  bytes : Bytes
  ne_nil : bytes ≠ []

def stream (pieces : List Piece) : Bytes := pieces.flatMap Piece.bytes

/-- `Rewind`, with the bytes that `inner` still gives. -/
structure Rewind where
  front : Bytes
  taken : Nat
  inner : Bytes

/-- The reads of the TLVs. A failed read ends the call as the end of the stream does. -/
def readTlvs (source : Option IpAddr) (left : Nat) : List Piece → Option (Option IpAddr × Rewind)
  | [] => none
  | piece :: pieces =>
    if piece.bytes.length < left then readTlvs source (left - piece.bytes.length) pieces
    else some (source, ⟨piece.bytes.drop left, 0, stream pieces⟩)

/-- `read`, with the bytes that it keeps. -/
def readFrom (bytes : Bytes) : List Piece → Option (Option IpAddr × Rewind)
  | [] => none
  | piece :: pieces =>
    match parse net (bytes ++ piece.bytes) with
    | .incomplete => readFrom (bytes ++ piece.bytes) pieces
    | .invalid => none
    | .done source len =>
      if len ≤ (bytes ++ piece.bytes).length then
        some (source, ⟨(bytes ++ piece.bytes).drop len, 0, stream pieces⟩)
      else readTlvs source (len - (bytes ++ piece.bytes).length) pieces

/-- `poll_read` of a `Rewind`, into a buffer of `size` bytes. The inner stream has `ready` bytes at
hand. -/
def Rewind.read (rewind : Rewind) (size ready : Nat) : Bytes × Rewind :=
  let rest := rewind.front.drop rewind.taken
  if rest = [] ∨ size = 0 then
    (rewind.inner.take (min size ready), { rewind with inner := rewind.inner.drop (min size ready) })
  else
    let n := min rest.length size
    (rest.take n, if rewind.taken + n = rewind.front.length then ⟨[], 0, rewind.inner⟩
      else { rewind with taken := rewind.taken + n })

/-- What some reads give together. -/
def Rewind.readAll (rewind : Rewind) : List (Nat × Nat) → Bytes × Rewind
  | [] => ([], rewind)
  | (size, ready) :: reads =>
    let (bytes, rewind) := rewind.read size ready
    (bytes ++ (readAll rewind reads).1, (readAll rewind reads).2)

/-! ### The grammar of a header -/

/-- An IPv6 source: the IPv4 address that it stands for, or itself. -/
inductive IsSource6 : Bytes → IpAddr → Prop
  | mapped (octets : Bytes) : IsSource6 (mapped ++ octets) (.v4 octets)
  | plain (octets : Bytes) : ¬ mapped <+: octets → IsSource6 octets (.v6 octets)

/-- The byte of a decimal digit. -/
def digit (value : Fin 10) : UInt8 := UInt8.ofNat (48 + value.val)

/-- A port: at least one decimal digit, with a value of at most 65535. -/
def IsPort (text : Bytes) : Prop :=
  ∃ digits : List (Fin 10), digits ≠ [] ∧ text = digits.map digit ∧
    Nat.ofDigits 10 (digits.reverse.map Fin.val) ≤ 65535

/-- The five fields of a protocol, with one space between two of them, and the source's octets. -/
def IsFields (protocol : String) (addr : Bytes → Option Bytes) (line octets : Bytes) : Prop :=
  ∃ source destination sourcePort destinationPort : Bytes,
    line = asBytes protocol ++ 32 :: source ++ 32 :: destination ++
      32 :: sourcePort ++ 32 :: destinationPort ∧
    32 ∉ source ∧ 32 ∉ destination ∧ addr source = some octets ∧ (addr destination).isSome ∧
    IsPort sourcePort ∧ IsPort destinationPort

/-- The text of a version 1 header, with its source. -/
inductive IsLine : Bytes → Option IpAddr → Prop
  | unknown : IsLine (asBytes "UNKNOWN") none
  | unknownRest (rest : Bytes) : IsLine (asBytes "UNKNOWN " ++ rest) none
  | tcp4 (line octets : Bytes) : IsFields "TCP4" net.parse4 line octets →
      IsLine line (some (.v4 octets))
  | tcp6 (line octets : Bytes) (source : IpAddr) : IsFields "TCP6" net.parse6 line octets →
      IsSource6 octets source → IsLine line (some source)

/-- The version and the command, the family and the block of a version 2 header, with its source.
The block ends with the TLVs. -/
inductive IsBlock : UInt8 → UInt8 → Bytes → Option IpAddr → Prop
  | localCommand (family : UInt8) (block : Bytes) : IsBlock 0x20 family block none
  | unspec (block : Bytes) : IsBlock 0x21 0x00 block none
  | tcp4 (octets rest : Bytes) : octets.length = 4 → 8 ≤ rest.length →
      IsBlock 0x21 0x11 (octets ++ rest) (some (.v4 octets))
  | tcp6 (octets rest : Bytes) (source : IpAddr) : octets.length = 16 → 20 ≤ rest.length →
      IsSource6 octets source → IsBlock 0x21 0x21 (octets ++ rest) (some source)
  | unix (block : Bytes) : 216 ≤ block.length → IsBlock 0x21 0x31 block none

/-- A whole header, with its source. The line is the UTF-8 of a text. -/
inductive IsHeader : Bytes → Option IpAddr → Prop
  | line (line : Bytes) (source : Option IpAddr) : (∃ text, asBytes text = line) →
      IsLine net line source → 10 ∉ line → (v1Start ++ line ++ [13, 10]).length ≤ v1Max →
      IsHeader (v1Start ++ line ++ [13, 10]) source
  | binary (versionCommand family hi lo : UInt8) (block : Bytes) (source : Option IpAddr) :
      IsBlock versionCommand family block source → block.length = hi.toNat * 256 + lo.toNat →
      IsHeader (v2Signature ++ versionCommand :: family :: hi :: lo :: block) source

variable {net} {start bytes more front back : Bytes} {source : Option IpAddr} {len left : Nat}
  {pieces : List Piece}

theorem isSource6_iff {octets : Bytes} {addr : IpAddr} :
    IsSource6 octets addr ↔ (IpAddr.v6 octets).toCanonical = addr := by
  rw [IpAddr.toCanonical]
  constructor
  · intro source
    cases source with
    | mapped last =>
      rw [if_pos (List.prefix_append _ _)]
      rfl
    | plain _ plain => rw [if_neg plain]
  · rintro rfl
    split
    · next begins =>
      obtain ⟨last, rfl⟩ := begins
      exact .mapped last
    · next plain => exact .plain octets plain

theorem foldl_digits (digits : List (Fin 10)) :
    (digits.map digit).foldl (fun n b => 10 * n + (b.toNat - 48)) 0 =
      Nat.ofDigits 10 (digits.reverse.map Fin.val) := by
  have value : ∀ d, (digit d).toNat - 48 = d.val := by decide
  rw [Nat.ofDigits_eq_foldr, List.foldl_map, List.foldr_map, List.foldr_reverse]
  simp [value, Nat.add_comm]

/-- **The digits and the value of a port.** -/
theorem isPort_iff {text : Bytes} : isPort text ↔ IsPort text := by
  have decimal : ∀ d, 48 ≤ digit d ∧ digit d ≤ 57 := by decide
  constructor
  · intro port
    simp only [isPort, Bool.and_eq_true, Bool.not_eq_true', List.isEmpty_eq_false_iff,
      List.all_eq_true, decide_eq_true_eq] at port
    obtain ⟨⟨some, digits⟩, small⟩ := port
    have same : (text.map fun b => Fin.ofNat 10 (b.toNat - 48)).map digit = text := by
      rw [List.map_map]
      refine (List.map_congr_left fun b inside => ?_).trans (List.map_id text)
      have value : (digit (Fin.ofNat 10 (b.toNat - 48))).toNat = b.toNat := by
        have bounds := digits b inside
        simp only [UInt8.le_iff_toNat_le, UInt8.reduceToNat] at bounds
        simp only [digit, Fin.ofNat, UInt8.toNat_ofNat']
        omega
      exact UInt8.toNat_inj.mp value
    refine ⟨_, by simpa using some, same.symm, ?_⟩
    rwa [← foldl_digits, same]
  · rintro ⟨digits, some, rfl, small⟩
    rw [← foldl_digits] at small
    simp [isPort, some, small, decimal]

theorem IsPort.no_space {text : Bytes} (port : IsPort text) : 32 ∉ text := by
  obtain ⟨digits, -, rfl, -⟩ := port
  have other : ∀ d, digit d ≠ 32 := by decide
  simp [other]

/-- **The fields of a line**, as the code splits it. -/
theorem isFields_iff {protocol : String} (whole : 32 ∉ asBytes protocol)
    {addr : Bytes → Option Bytes} {line octets : Bytes} :
    IsFields protocol addr line octets ↔ ∃ source destination sourcePort destinationPort,
      line.splitOn 32 = [asBytes protocol, source, destination, sourcePort, destinationPort] ∧
      addr source = some octets ∧ (addr destination).isSome ∧
      isPort sourcePort ∧ isPort destinationPort := by
  constructor
  · rintro ⟨source, destination, sourcePort, destinationPort, rfl, first, second, known, found,
      port, otherPort⟩
    refine ⟨source, destination, sourcePort, destinationPort, ?_, known, found,
      isPort_iff.mpr port, isPort_iff.mpr otherPort⟩
    have fields := @List.splitOn_intercalate UInt8
      [asBytes protocol, source, destination, sourcePort, destinationPort] _ _ 32
      (by simp [whole, first, second, port.no_space, otherPort.no_space]) (by simp)
    simpa [List.intercalate] using fields
  · rintro ⟨source, destination, sourcePort, destinationPort, fields, known, found, port, otherPort⟩
    have joined := @List.intercalate_splitOn UInt8 line _ _ 32
    have apart : ∀ field ∈ line.splitOn 32, 32 ∉ field := fun _ => not_mem_of_mem_splitOn
    rw [fields] at joined apart
    refine ⟨source, destination, sourcePort, destinationPort, ?_, apart _ (by simp),
      apart _ (by simp), known, found, isPort_iff.mp port, isPort_iff.mp otherPort⟩
    simpa [List.intercalate] using joined.symm

theorem bind_map_eq_some {addr : Bytes → Option Bytes} {source destination : Bytes}
    {make : Bytes → IpAddr} {result : IpAddr} :
    (((addr source).bind fun octets => (addr destination).map fun _ => make octets).map
        IpAddr.toCanonical) = some result ↔ ∃ octets, addr source = some octets ∧
      (addr destination).isSome ∧ (make octets).toCanonical = result := by
  cases addr source <;> cases addr destination <;> simp

/-- **The fields of TCP over IPv4 and over IPv6.** -/
theorem parseFields_eq_some {line : Bytes} {addr : IpAddr} :
    parseFields net (line.splitOn 32) = some addr ↔
      (∃ octets, IsFields "TCP4" net.parse4 line octets ∧ IpAddr.v4 octets = addr) ∨
      ∃ octets, IsFields "TCP6" net.parse6 line octets ∧ IsSource6 octets addr := by
  simp only [isFields_iff (show 32 ∉ asBytes "TCP4" by decide +kernel),
    isFields_iff (show 32 ∉ asBytes "TCP6" by decide +kernel), isSource6_iff]
  constructor
  · intro known
    unfold parseFields at known
    split at known
    · next protocol source destination sourcePort destinationPort fields =>
      simp only [Option.ite_none_right_eq_some, Bool.and_eq_true] at known
      obtain ⟨⟨port, otherPort⟩, known⟩ := known
      split_ifs at known with tcp4 tcp6
      · obtain ⟨octets, here, there, same⟩ := bind_map_eq_some.mp known
        exact .inl ⟨octets, ⟨_, _, _, _, tcp4 ▸ fields, here, there, port, otherPort⟩, same⟩
      · obtain ⟨octets, here, there, same⟩ := bind_map_eq_some.mp known
        exact .inr ⟨octets, ⟨_, _, _, _, tcp6 ▸ fields, here, there, port, otherPort⟩, same⟩
      · cases known
    · cases known
  · rintro (⟨octets, ⟨_, _, _, _, fields, here, there, port, otherPort⟩, same⟩ |
      ⟨octets, ⟨_, _, _, _, fields, here, there, port, otherPort⟩, same⟩)
    · rw [fields, parseFields, if_pos (by simp [port, otherPort]), if_pos rfl]
      exact bind_map_eq_some.mpr ⟨octets, here, there, same⟩
    · rw [fields, parseFields, if_pos (by simp [port, otherPort]), if_neg (by decide +kernel),
        if_pos rfl]
      exact bind_map_eq_some.mpr ⟨octets, here, there, same⟩

/-- A line of the five fields is not an `UNKNOWN` line. -/
theorem IsFields.not_unknown (fields : IsFields protocol addr line octets)
    (tcp : asBytes protocol = 84 :: rest) :
    ¬ (line = asBytes "UNKNOWN" ∨ (asBytes "UNKNOWN ").isPrefixOf line) := by
  obtain ⟨_, _, _, _, rfl, -⟩ := fields
  rw [tcp]
  simp [show asBytes "UNKNOWN" = 85 :: asBytes "NKNOWN" by decide +kernel,
    show asBytes "UNKNOWN " = 85 :: asBytes "NKNOWN " by decide +kernel]

/-- **The parser accepts the lines of the grammar**, with their source. -/
theorem parseLine_eq_some {line : Bytes} :
    parseLine net line = some source ↔ (∃ text, asBytes text = line) ∧ IsLine net line source := by
  have text : (fromUtf8 line).isNone = false ↔ ∃ text, asBytes text = line := by
    simp only [Option.isNone_eq_false_iff, Option.isSome_iff_exists, fromUtf8_eq_some]
  rw [parseLine, ← text]
  cases (fromUtf8 line).isNone with
  | true => simp
  | false =>
    simp only [Bool.false_eq_true, if_false, true_and]
    constructor
    · intro known
      split at known
      · next unknown =>
        cases known
        rcases unknown with rfl | begins
        · exact .unknown
        · obtain ⟨rest, rfl⟩ := List.isPrefixOf_iff_prefix.mp begins
          exact .unknownRest rest
      · obtain ⟨addr, found, rfl⟩ := Option.map_eq_some_iff.mp known
        rcases parseFields_eq_some.mp found with ⟨octets, fields, rfl⟩ | ⟨octets, fields, source⟩
        · exact .tcp4 line octets fields
        · exact .tcp6 line octets addr fields source
    · intro valid
      cases valid with
      | unknown => exact if_pos (.inl rfl)
      | unknownRest rest => exact if_pos (.inr (by simp))
      | tcp4 _ octets fields =>
        rw [if_neg (fields.not_unknown rfl), parseFields_eq_some.mpr (.inl ⟨octets, fields, rfl⟩)]
        rfl
      | tcp6 _ octets addr fields source =>
        rw [if_neg (fields.not_unknown rfl), parseFields_eq_some.mpr (.inr ⟨octets, fields, source⟩)]
        rfl

theorem versionCommand_cases (versionCommand : UInt8) :
    versionCommand >>> 4 = 2 ∧ versionCommand &&& 15 ≤ 1 ↔
      versionCommand = 0x20 ∨ versionCommand = 0x21 := by
  have all : ∀ n < 256, (UInt8.ofNat n >>> 4 = 2 ∧ UInt8.ofNat n &&& 15 ≤ 1 ↔
      UInt8.ofNat n = 0x20 ∨ UInt8.ofNat n = 0x21) := by decide +kernel
  simpa using all _ versionCommand.toNat_lt

/-- **The parser knows the blocks of the grammar**, with their source. -/
theorem isBlock_iff {versionCommand family : UInt8} {block : Bytes} :
    IsBlock versionCommand family block source ↔
      (versionCommand >>> 4 = 2 ∧ versionCommand &&& 15 ≤ 1) ∧
      ∃ least read, addressBlock (versionCommand &&& 15 = 1) family = some (least, read) ∧
        least ≤ block.length ∧ read block = source := by
  rw [versionCommand_cases]
  constructor
  · intro known
    cases known with
    | localCommand => exact ⟨.inl rfl, 0, _, rfl, Nat.zero_le _, rfl⟩
    | unspec => exact ⟨.inr rfl, 0, _, rfl, Nat.zero_le _, rfl⟩
    | tcp4 octets rest size enough =>
      refine ⟨.inr rfl, 12, _, rfl, by rw [List.length_append]; omega, ?_⟩
      rw [← size, List.take_left]
    | tcp6 octets rest addr size enough known =>
      refine ⟨.inr rfl, 36, _, rfl, by rw [List.length_append]; omega, ?_⟩
      rw [← size, List.take_left, isSource6_iff.mp known]
    | unix _ enough => exact ⟨.inr rfl, 216, _, rfl, enough, rfl⟩
  · rintro ⟨rfl | rfl, least, read, known, enough, rfl⟩
    · obtain ⟨rfl, rfl⟩ := Prod.mk.inj (Option.some.inj known)
      exact .localCommand family block
    · unfold addressBlock at known
      split at known
      all_goals cases known
      · next other => exact absurd other (by decide)
      · exact .unspec block
      · have split := IsBlock.tcp4 (block.take 4) (block.drop 4)
          (by rw [List.length_take]; omega) (by rw [List.length_drop]; omega)
        rwa [List.take_append_drop] at split
      · have split := IsBlock.tcp6 (block.take 16) (block.drop 16) _
          (by rw [List.length_take]; omega) (by rw [List.length_drop]; omega) (isSource6_iff.mpr rfl)
        rwa [List.take_append_drop] at split
      · exact .unix block enough

/-! ### The result stays -/

/-- More bytes do not change a result. -/
def Stable (parser : Bytes → Parsed) : Prop :=
  ∀ bytes more, parser bytes ≠ .incomplete → parser (bytes ++ more) = parser bytes

theorem stable_byte {go : UInt8 → Bytes → Parsed} (each : ∀ first, Stable (go first)) : Stable (byte go) := by
  intro bytes more known
  cases bytes with
  | nil => exact absurd rfl known
  | cons first rest => exact each first rest more known

theorem starts_append {result : Bool} (known : starts start bytes = some result) :
    starts start (bytes ++ more) = some result := by
  unfold starts at known ⊢
  split at known
  · next whole => rwa [if_pos (whole.trans (List.prefix_append _ _))]
  · next differs =>
    split at known
    · cases known
    · next apart =>
      rw [if_neg, if_neg]
      · exact known
      · exact fun short => apart ((List.prefix_append _ _).trans short)
      · intro whole
        rcases List.prefix_or_prefix_of_prefix whole (List.prefix_append bytes more) with known | known
        · exact differs known
        · exact apart known

theorem starts_self : starts start (start ++ more) = some true := if_pos (List.prefix_append _ _)

theorem exists_of_starts (known : starts start bytes = some true) : ∃ rest, bytes = start ++ rest := by
  unfold starts at known
  split at known
  · next whole => exact whole.imp fun _ => Eq.symm
  · split at known <;> cases known

theorem addressBlock_append {proxy : Bool} {family : UInt8} {least : Nat}
    {source : Bytes → Option IpAddr}
    (known : addressBlock proxy family = some (least, source)) (enough : least ≤ bytes.length) :
    source (bytes ++ more) = source bytes := by
  unfold addressBlock at known
  split at known
  all_goals cases known
  · rfl
  · rfl
  · exact congrArg (some <| IpAddr.v4 ·) (List.take_append_of_le_length (by omega))
  · exact congrArg (some <| IpAddr.toCanonical <| IpAddr.v6 ·) (List.take_append_of_le_length (by omega))
  · rfl

theorem stable_parseV2 : Stable parseV2 := by
  refine stable_byte fun versionCommand => ?_
  split
  · exact fun _ _ _ => rfl
  refine stable_byte fun family => ?_
  split
  · exact fun _ _ _ => rfl
  next least source lookup =>
  refine stable_byte fun hi => stable_byte fun lo block more known => ?_
  dsimp only at known ⊢
  split
  · rfl
  · next long =>
    have whole : ¬ block.length < least := fun short => known (by rw [if_neg long, if_pos short])
    rw [if_neg whole, if_neg (by rw [List.length_append]; omega), addressBlock_append lookup (by omega)]

theorem stable_parseV1 : Stable (parseV1 net) := by
  intro bytes more known
  unfold parseV1 at known ⊢
  cases line : splitOnce 10 ((bytes.take v1Max).drop v1Start.length) with
  | none =>
    rw [line] at known
    have full : v1Max ≤ bytes.length := by
      by_contra short
      exact known (if_pos (by omega))
    rw [List.take_append_of_le_length full, line]
    simp only [List.length_append]
    rw [if_neg (by omega), if_neg (by omega)]
  | some cut =>
    obtain ⟨text, rest⟩ := cut
    obtain ⟨window, inside⟩ := splitOnce_eq_some.mp line
    have long : v1Start.length ≤ (bytes.take v1Max).length := by
      by_contra short
      rw [List.drop_eq_nil_of_le (by omega)] at window
      simp at window
    have wider : ((bytes ++ more).take v1Max).drop v1Start.length =
        text ++ 10 :: (rest ++ more.take (v1Max - bytes.length)) := by
      rw [List.take_append, List.drop_append_of_le_length long, window, List.append_assoc, List.cons_append]
    rw [splitOnce_eq_some.mpr ⟨wider, inside⟩]

/-- **More bytes do not change a result.** -/
theorem stable_parse : Stable (parse net) := by
  intro bytes more known
  unfold parse at known ⊢
  cases signature : starts v2Signature bytes with
  | none => simp [signature] at known
  | some binary =>
    rw [starts_append signature]
    cases binary with
    | true =>
      obtain ⟨rest, rfl⟩ := exists_of_starts signature
      exact stable_parseV2 _ _ known
    | false =>
      cases text : starts v1Start bytes with
      | none => simp [signature, text] at known
      | some line =>
        rw [starts_append text]
        cases line with
        | true => exact stable_parseV1 _ _ (by simpa [signature, text] using known)
        | false => rfl

/-! ### The headers -/

/-- The source and the bytes after the header, where the bytes hold the whole header. -/
def after (bytes : Bytes) : Parsed → Option (Option IpAddr × Bytes)
  | .done source len => if len ≤ bytes.length then some (source, bytes.drop len) else none
  | _ => none

/-- **Every header is parsed, whatever follows it.** -/
theorem parse_of_isHeader {header rest : Bytes} (whole : IsHeader net header source) :
    parse net (header ++ rest) = .done source header.length := by
  cases whole with
  | line line source utf8 valid noLf fits =>
    have known := parseLine_eq_some.mpr ⟨utf8, valid⟩
    have first : starts v2Signature (v1Start ++ (line ++ ([13, 10] ++ rest))) = some false :=
      starts_append (by decide +kernel : starts v2Signature v1Start = some false)
    have window : ((v1Start ++ (line ++ ([13, 10] ++ rest))).take v1Max).drop v1Start.length =
        (line ++ [13]) ++ 10 :: rest.take (v1Max - (v1Start ++ line ++ [13, 10]).length) := by
      rw [← List.append_assoc, ← List.append_assoc, List.take_append, List.take_of_length_le fits,
        List.append_assoc, List.append_assoc, List.drop_left]
      simp
    rw [List.append_assoc, List.append_assoc, parse, first]
    simp only [starts_self, parseV1, splitOnce_eq_some.mpr ⟨window, by simpa using noLf⟩]
    simp [known]
    omega
  | binary versionCommand family hi lo block source valid length =>
    obtain ⟨command, least, read, known, enough, rfl⟩ := isBlock_iff.mp valid
    have valid : ¬ (versionCommand >>> 4 ≠ 2 ∨ 1 < versionCommand &&& 15) := by
      simpa [not_or] using command
    rw [List.append_assoc, parse, starts_self]
    simp only [List.drop_left, parseV2, byte, List.cons_append, if_neg valid, known]
    rw [if_neg (by omega), if_neg (by rw [List.length_append]; omega),
      addressBlock_append known enough, ← length, List.length_append,
      show v2Signature.length = 12 from rfl]
    simp only [List.length_cons]
    congr 1
    omega

/-- The bytes start with a header of `len` bytes. -/
def Begins (net : Net) (bytes : Bytes) (source : Option IpAddr) (len : Nat) : Prop :=
  ∃ header rest, bytes = header ++ rest ∧ header.length = len ∧ IsHeader net header source

theorem byte_eq_done {go : UInt8 → Bytes → Parsed} :
    byte go bytes = .done source len ↔ ∃ first rest, bytes = first :: rest ∧ go first rest = .done source len := by
  cases bytes <;> simp [byte]

/-- A version 2 parse took a header. -/
theorem begins_of_parseV2 (known : parseV2 bytes = .done source len)
    (enough : len ≤ (v2Signature ++ bytes).length) : Begins net (v2Signature ++ bytes) source len := by
  obtain ⟨versionCommand, rest, rfl, atCommand⟩ := byte_eq_done.mp known
  split at atCommand
  · cases atCommand
  next valid =>
  obtain ⟨family, rest, rfl, atFamily⟩ := byte_eq_done.mp atCommand
  cases lookup : addressBlock (versionCommand &&& 15 = 1) family with
  | none => simp [lookup] at atFamily
  | some entry =>
    rw [lookup] at atFamily
    obtain ⟨hi, rest, rfl, atLength⟩ := byte_eq_done.mp atFamily
    obtain ⟨lo, block, rfl, atBlock⟩ := byte_eq_done.mp atLength
    dsimp only at atBlock
    split at atBlock
    · cases atBlock
    next long =>
    split at atBlock
    · cases atBlock
    next whole =>
    cases atBlock
    simp only [List.length_append, List.length_cons, show v2Signature.length = 12 from rfl] at enough
    obtain ⟨front, back, rfl, size⟩ :
        ∃ front back, block = front ++ back ∧ front.length = hi.toNat * 256 + lo.toNat :=
      ⟨_, _, (List.take_append_drop (hi.toNat * 256 + lo.toNat) block).symm, by rw [List.length_take]; omega⟩
    rw [addressBlock_append lookup (by omega)]
    have block := isBlock_iff.mpr
      ⟨by simpa [not_or] using valid, _, _, lookup, (by omega : _ ≤ front.length), rfl⟩
    refine ⟨v2Signature ++ versionCommand :: family :: hi :: lo :: front, back, by simp, ?_,
      .binary _ _ _ _ _ _ block size⟩
    simp only [List.length_append, List.length_cons, show v2Signature.length = 12 from rfl]
    omega

theorem begins_of_parseV1 (known : parseV1 net (v1Start ++ bytes) = .done source len) :
    Begins net (v1Start ++ bytes) source len := by
  unfold parseV1 at known
  split at known
  · split at known <;> cases known
  next text after cut =>
  obtain ⟨window, noLf⟩ := splitOnce_eq_some.mp cut
  split at known
  · cases known
  next ends =>
  split at known
  · cases known
  next fields =>
  cases known
  obtain ⟨line, rfl⟩ := List.getLast?_eq_some_iff.mp (not_not.mp ends)
  rw [List.dropLast_concat] at fields
  have short : (v1Start ++ line ++ [13, 10]).length ≤ v1Max := by
    have := congrArg List.length window
    simp at this ⊢
    omega
  obtain ⟨utf8, valid⟩ := parseLine_eq_some.mp fields
  refine ⟨v1Start ++ line ++ [13, 10], after ++ bytes.drop (v1Max - v1Start.length), ?_,
    by simp; omega, .line line _ utf8 valid (fun inside => noLf (by simp [inside])) short⟩
  rw [List.take_append, List.take_of_length_le (by decide +kernel), List.drop_left] at window
  conv_lhs => rw [← List.take_append_drop (v1Max - v1Start.length) bytes, window]
  simp

theorem begins_of_parse (known : parse net bytes = .done source len) (enough : len ≤ bytes.length) :
    Begins net bytes source len := by
  unfold parse at known
  split at known
  · cases known
  · next signature =>
    obtain ⟨rest, rfl⟩ := exists_of_starts signature
    exact begins_of_parseV2 known enough
  · split at known
    · cases known
    · next start =>
      obtain ⟨rest, rfl⟩ := exists_of_starts start
      exact begins_of_parseV1 known
    · cases known

/-! ### The reads -/

/-- What is left to read. -/
def Rewind.content (rewind : Rewind) : Bytes := rewind.front.drop rewind.taken ++ rewind.inner

theorem stream_cons (piece : Piece) : stream (piece :: pieces) = piece.bytes ++ stream pieces := List.flatMap_cons

theorem after_of_le (held : len ≤ front.length) :
    after (front ++ back) (.done source len) = some (source, front.drop len ++ back) := by
  rw [after, if_pos (by rw [List.length_append]; omega), List.drop_append_of_le_length held]

theorem after_of_lt (short : front.length < len) :
    after (front ++ back) (.done source len) = after back (.done source (len - front.length)) := by
  simp only [after, List.drop_append, List.drop_eq_nil_of_le short.le, List.nil_append,
    List.length_append, Nat.sub_le_iff_le_add']

theorem readTlvs_eq (more : 0 < left) :
    (readTlvs source left pieces).map (Prod.map id Rewind.content) = after (stream pieces) (.done source left) := by
  induction pieces generalizing left with
  | nil => simp [readTlvs, after, stream, more.ne']
  | cons piece pieces ih =>
    rw [readTlvs, stream_cons]
    split
    · next short => rw [ih (by omega), after_of_lt short]
    · next long =>
      rw [after_of_le (by omega)]
      rfl

/-- **The reads give what the whole stream gives.** -/
theorem readFrom_eq (start : parse net bytes = .incomplete) :
    (readFrom net bytes pieces).map (Prod.map id Rewind.content) =
      after (bytes ++ stream pieces) (parse net (bytes ++ stream pieces)) := by
  induction pieces generalizing bytes with
  | nil => simp [readFrom, stream, start, after]
  | cons piece pieces ih =>
    rw [readFrom, stream_cons, ← List.append_assoc]
    cases result : parse net (bytes ++ piece.bytes) with
    | incomplete => exact ih result
    | invalid =>
      rw [stable_parse _ _ (by rw [result]; nofun), result]
      rfl
    | done source len =>
      rw [stable_parse _ _ (by rw [result]; nofun), result]
      dsimp only
      split
      · next held =>
        rw [after_of_le held]
        rfl
      · next short => rw [readTlvs_eq (by omega), after_of_lt (by omega)]

/-- One read of a `Rewind` gives the next bytes, and none only at the end. -/
theorem read_content (rewind : Rewind) (size ready : Nat) :
    (rewind.read size ready).1 ++ (rewind.read size ready).2.content = rewind.content ∧
      (0 < size → 0 < ready → (rewind.read size ready).1 = [] → rewind.content = []) := by
  unfold Rewind.read
  dsimp only
  split
  · next direct =>
    constructor
    · rcases direct with empty | rfl
      · simp [Rewind.content, empty]
      · simp [Rewind.content]
    · intro positive waits none
      have ended : rewind.inner = [] := by simpa [positive.ne', waits.ne'] using none
      rw [Rewind.content, direct.resolve_right positive.ne', ended]
      rfl
  · next held =>
    obtain ⟨some, positive⟩ := not_or.mp held
    constructor
    · split
      · next whole =>
        have all : (rewind.front.drop rewind.taken).length ≤ min (rewind.front.drop rewind.taken).length size := by
          rw [List.length_drop] at whole ⊢
          omega
        rw [List.take_of_length_le all]
        rfl
      · rw [Rewind.content, Rewind.content, ← List.append_assoc, ← List.drop_drop, List.take_append_drop]
    · intro _ _ none
      rcases List.take_eq_nil_iff.mp none with zero | empty
      · have := List.length_pos_iff.mpr some
        omega
      · exact absurd empty some

theorem readAll_content (rewind : Rewind) (reads : List (Nat × Nat)) :
    (rewind.readAll reads).1 ++ (rewind.readAll reads).2.content = rewind.content := by
  induction reads generalizing rewind with
  | nil => rfl
  | cons read reads ih =>
    rw [Rewind.readAll, List.append_assoc, ih]
    exact (read_content rewind _ _).1

/-- **The PROXY header.** -/
theorem read_header_exact (net : Net) (pieces : List Piece) :
    Stable (parse net) ∧
    (∀ source rest, (∃ rewind, readFrom net [] pieces = some (source, rewind) ∧ rewind.content = rest) ↔
      ∃ header, IsHeader net header source ∧ stream pieces = header ++ rest) ∧
    ∀ (rewind : Rewind) (reads : List (Nat × Nat)),
      (rewind.readAll reads).1 ++ (rewind.readAll reads).2.content = rewind.content ∧
      ∀ size ready, 0 < size → 0 < ready → ((rewind.readAll reads).2.read size ready).1 = [] →
        (rewind.readAll reads).1 = rewind.content := by
  refine ⟨stable_parse, fun source rest => ?_, fun rewind reads => ⟨readAll_content rewind reads, ?_⟩⟩
  · have reads : _ = after (stream pieces) (parse net (stream pieces)) :=
      @readFrom_eq net _ _ (by rw [parse, show starts v2Signature [] = none by decide +kernel])
    constructor
    · rintro ⟨rewind, found, rfl⟩
      rw [found] at reads
      cases result : parse net (stream pieces) with
      | done other len =>
        rw [result, after] at reads
        split at reads
        · next held =>
          obtain ⟨rfl, rest⟩ := Prod.mk.inj (Option.some.inj reads)
          obtain ⟨header, after, whole, rfl, valid⟩ := begins_of_parse result held
          exact ⟨header, valid, by rw [rest, whole, List.drop_left]⟩
        · cases reads
      | _ =>
        rw [result] at reads
        cases reads
    · rintro ⟨header, valid, split⟩
      rw [split, parse_of_isHeader valid, after_of_le le_rfl, List.drop_length, List.nil_append] at reads
      obtain ⟨⟨found, rewind⟩, given, same⟩ := Option.map_eq_some_iff.mp reads
      obtain ⟨rfl, rfl⟩ := Prod.mk.inj same
      exact ⟨rewind, given, rfl⟩
  · intro size ready positive waits none
    have ended := (read_content (rewind.readAll reads).2 size ready).2 positive waits none
    have all := readAll_content rewind reads
    rwa [ended, List.append_nil] at all

namespace Sample

/-- Two addresses, by their text. -/
def twoAddresses : Net where
  parse4 text := if text = asBytes "192.0.2.7" then some [192, 0, 2, 7]
    else if text = asBytes "192.0.2.1" then some [192, 0, 2, 1] else none
  parse6 _ := none

/-- A line that arrives in two reads, the second with bytes after it. -/
def lineReads : List Piece :=
  [⟨asBytes "PROXY TCP4 192.0.2.7 19", by decide +kernel⟩,
    ⟨asBytes "2.0.2.1 4242 00443\r\nGET", by decide +kernel⟩]

theorem isFields : IsFields "TCP4" twoAddresses.parse4 (asBytes "TCP4 192.0.2.7 192.0.2.1 4242 00443")
    [192, 0, 2, 7] :=
  ⟨asBytes "192.0.2.7", asBytes "192.0.2.1", asBytes "4242", asBytes "00443", by decide +kernel,
    by decide +kernel, by decide +kernel, by decide +kernel, by decide +kernel,
    ⟨[4, 2, 4, 2], by decide +kernel⟩, ⟨[0, 0, 4, 4, 3], by decide +kernel⟩⟩

/-- An IPv4 address as an IPv6 one, with one TLV byte of 37, in two reads. -/
def binaryReads : List Piece :=
  [⟨v2Signature ++ [0x21, 0x21, 0, 37] ++ mapped, by decide +kernel⟩,
    ⟨[192, 0, 2, 7] ++ List.replicate 21 9 ++ [71, 69, 84], by decide +kernel⟩]

/-- The source is read from either header, and the bytes after it. -/
def Reads (pieces : List Piece) : Prop :=
  ∃ rewind, readFrom twoAddresses [] pieces = some (some (.v4 [192, 0, 2, 7]), rewind) ∧
    rewind.content = asBytes "GET"

end Sample

/-- A TCP4 line and a binary TCP6 header, each in two reads. -/
theorem read_header_exact_sample :
    Sample.Reads Sample.lineReads ∧ Sample.Reads Sample.binaryReads := by
  constructor
  · have header := IsHeader.line _ _ ⟨_, rfl⟩ (.tcp4 _ _ Sample.isFields) (by decide +kernel)
      (by decide +kernel)
    exact ((read_header_exact Sample.twoAddresses Sample.lineReads).2.1 _ _).mpr
      ⟨_, header, by decide +kernel⟩
  · have block := IsBlock.tcp6 (mapped ++ [192, 0, 2, 7]) (List.replicate 21 9) _ (by decide)
      (by decide) (.mapped [192, 0, 2, 7])
    have header := @IsHeader.binary Sample.twoAddresses 0x21 0x21 0 37 _ _ block (by decide)
    exact ((read_header_exact Sample.twoAddresses Sample.binaryReads).2.1 _ _).mpr
      ⟨_, header, by decide +kernel⟩

end Ostrya.Server
