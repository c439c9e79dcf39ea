/-
**Type signatures** (`Type::signature` and `Type::parse` of `ty.rs`).

The parser walks the bytes of a signature with a position and the number of container levels that
remain. `Ty.parse_eq_ok_iff`: it accepts exactly the signatures of the types that nest at most 128
levels and whose dict entries have basic keys, and returns the type it was the signature of.
-/

import Ostrya.Gvariant.Ty
import Ostrya.ByteFormat.Results
import Ostrya.ByteFormat.Utf8

namespace Ostrya.Gvariant

open ByteFormat

namespace Ty

mutual

/-- `write_signature`: the characters that the type appends. -/
def writeSignature : Ty → List Char
  | .bool => ['b']
  | .byte => ['y']
  | .i16 => ['n']
  | .u16 => ['q']
  | .i32 => ['i']
  | .u32 => ['u']
  | .i64 => ['x']
  | .u64 => ['t']
  | .handle => ['h']
  | .double => ['d']
  | .str => ['s']
  | .objectPath => ['o']
  | .signature => ['g']
  | .variant => ['v']
  | .maybe elem => 'm' :: elem.writeSignature
  | .array elem => 'a' :: elem.writeSignature
  | .tuple members => '(' :: writeSignatures members ++ [')']
  | .dictEntry key value => '{' :: key.writeSignature ++ value.writeSignature ++ ['}']

/-- The characters of the members of a tuple. -/
def writeSignatures : List Ty → List Char
  | [] => []
  | ty :: tys => ty.writeSignature ++ writeSignatures tys

end

/-- `Type::signature`. -/
def signatureString (ty : Ty) : String := String.ofList ty.writeSignature

mutual

/-- The number of container levels above the deepest type inside this one. -/
def depth : Ty → Nat
  | .maybe elem | .array elem => elem.depth + 1
  | .tuple members => membersDepth members
  | .dictEntry key value => max (key.depth + 1) (value.depth + 1)
  | _ => 0

/-- The depth of a tuple with the given members. -/
def membersDepth : List Ty → Nat
  | [] => 0
  | ty :: tys => max (ty.depth + 1) (membersDepth tys)

end

mutual

/-- Every dict entry inside the type has a basic key. -/
def keysBasic : Ty → Bool
  | .maybe elem | .array elem => elem.keysBasic
  | .tuple members => membersKeysBasic members
  | .dictEntry key value => key.isBasic && value.keysBasic
  | _ => true

/-- Every dict entry inside the members of a tuple has a basic key. -/
def membersKeysBasic : List Ty → Bool
  | [] => true
  | ty :: tys => ty.keysBasic && membersKeysBasic tys

end

/-! ### The signature parser -/

/-- `SigError`: the offset and the reason of a failed parse. -/
abbrev SigError := Nat × String

/-- The one-character types. -/
def leafType : Char → Option Ty
  | 'b' => some .bool
  | 'y' => some .byte
  | 'n' => some .i16
  | 'q' => some .u16
  | 'i' => some .i32
  | 'u' => some .u32
  | 'x' => some .i64
  | 't' => some .u64
  | 'h' => some .handle
  | 'd' => some .double
  | 's' => some .str
  | 'o' => some .objectPath
  | 'g' => some .signature
  | 'v' => some .variant
  | _ => none

/-- The loop over the members of a tuple. Each member takes at least one byte, so `fuel` greater
than the length of the signature never runs out. -/
def parseMembers (one : Nat → Except SigError (Ty × Nat)) (sig : Bytes) :
    (fuel pos : Nat) → Except SigError (List Ty × Nat)
  | 0, pos => .error (pos, "unexpected end of signature")
  | fuel + 1, pos =>
    if (sig[pos]?).map Char.ofUInt8 = some ')' then .ok ([], pos)
    else do
      let (member, pos) ← one pos
      let (members, pos) ← parseMembers one sig fuel pos
      .ok (member :: members, pos)

/-- `parse_one`, with `levels` the container levels that remain: `MAX_TYPE_DEPTH + 1 - depth`. -/
def parseOne : (levels : Nat) → Bytes → (pos : Nat) → Except SigError (Ty × Nat)
  | 0, _, pos => .error (pos, "nesting exceeds the supported depth")
  | levels + 1, sig, pos =>
    match (sig[pos]?).map Char.ofUInt8 with
    | none => .error (pos, "unexpected end of signature")
    | some 'm' => do
      let (elem, stop) ← parseOne levels sig (pos + 1)
      .ok (.maybe elem, stop)
    | some 'a' => do
      let (elem, stop) ← parseOne levels sig (pos + 1)
      .ok (.array elem, stop)
    | some '(' => do
      let (members, stop) ← parseMembers (parseOne levels sig) sig (sig.length + 1) (pos + 1)
      .ok (.tuple members, stop + 1)
    | some '{' => do
      let (key, stop) ← parseOne levels sig (pos + 1)
      if !key.isBasic then
        .error (pos + 1, "dict-entry key must be a basic type")
      else
        let (value, stop) ← parseOne levels sig stop
        if (sig[stop]?).map Char.ofUInt8 = some '}' then .ok (.dictEntry key value, stop + 1)
        else .error (stop, "expected '\x7d' after the dict-entry value")
    | some code =>
      match leafType code with
      | some ty => .ok (ty, pos + 1)
      | none => .error (pos, "unsupported type character")

/-- `MAX_TYPE_DEPTH`, which is `MAX_VALUE_DEPTH`. -/
def maxTypeDepth : Nat := 128

/-- `Type::parse`. -/
def parse (signature : String) : Except Error Ty :=
  match parseOne (maxTypeDepth + 1) (asBytes signature) 0 with
  | .error (offset, reason) => .error (.invalidTypeString signature offset reason)
  | .ok (ty, pos) =>
    if pos ≠ (asBytes signature).length then
      .error (.invalidTypeString signature pos "trailing characters after a complete type")
    else .ok ty

/-! ### The bytes of a signature -/

/-- The byte of a type character. -/
def code (c : Char) : UInt8 := UInt8.ofNat c.toNat

/-- The bytes of the signature of a type. -/
def signatureBytes (ty : Ty) : Bytes := ty.writeSignature.map code

/-- The bytes of the signatures of a list of types. -/
def signaturesBytes (tys : List Ty) : Bytes := (writeSignatures tys).map code

theorem writeSignature_ascii (ty : Ty) : ∀ c ∈ ty.writeSignature, 0 < c.toNat ∧ c.toNat < 128 := by
  induction ty with
  | maybe elem ih | array elem ih =>
    exact List.forall_mem_cons.mpr ⟨by decide, ih⟩
  | tuple members ih =>
    have inner : ∀ c ∈ writeSignatures members, 0 < c.toNat ∧ c.toNat < 128 := by
      induction members with
      | nil => exact List.forall_mem_nil _
      | cons ty tys rest =>
        obtain ⟨first, others⟩ := List.forall_mem_cons.mp ih
        exact List.forall_mem_append.mpr ⟨first, rest others⟩
    exact List.forall_mem_append.mpr ⟨List.forall_mem_cons.mpr ⟨by decide, inner⟩,
      List.forall_mem_singleton.mpr (by decide)⟩
  | dictEntry key value keyAscii valueAscii =>
    refine List.forall_mem_append.mpr ⟨List.forall_mem_append.mpr ⟨?_, valueAscii⟩,
      List.forall_mem_singleton.mpr (by decide)⟩
    exact List.forall_mem_cons.mpr ⟨by decide, keyAscii⟩
  | _ =>
    intro c member
    obtain rfl := List.mem_singleton.mp member
    decide

@[simp] theorem asBytes_signatureString (ty : Ty) : asBytes ty.signatureString = ty.signatureBytes := by
  rw [signatureString, asBytes_ofList, flatMap_utf8EncodeChar_of_ascii fun c member =>
    (ty.writeSignature_ascii c member).2]
  rfl

theorem zero_notMem_signatureBytes (ty : Ty) : 0 ∉ ty.signatureBytes := by
  intro zero
  obtain ⟨c, member, same⟩ := List.mem_map.mp zero
  have ascii := ty.writeSignature_ascii c member
  have value := congrArg UInt8.toNat same
  rw [code, UInt8.toNat_ofNat', UInt8.toNat_zero] at value
  omega

@[simp] theorem signatureBytes_maybe (elem : Ty) :
    (Ty.maybe elem).signatureBytes = code 'm' :: elem.signatureBytes := rfl

@[simp] theorem signatureBytes_array (elem : Ty) :
    (Ty.array elem).signatureBytes = code 'a' :: elem.signatureBytes := rfl

@[simp] theorem signatureBytes_tuple (members : List Ty) :
    (Ty.tuple members).signatureBytes = [code '('] ++ (signaturesBytes members ++ [code ')']) := by
  simp [signatureBytes, signaturesBytes, writeSignature]

@[simp] theorem signatureBytes_dictEntry (key value : Ty) :
    (Ty.dictEntry key value).signatureBytes
      = [code '{'] ++ (key.signatureBytes ++ (value.signatureBytes ++ [code '}'])) := by
  simp [signatureBytes, writeSignature]

@[simp] theorem signaturesBytes_cons (ty : Ty) (tys : List Ty) :
    signaturesBytes (ty :: tys) = ty.signatureBytes ++ signaturesBytes tys := by
  simp [signaturesBytes, signatureBytes, writeSignatures]

/-! ### Reading at a position -/

/-- `text` stands in `sig` between the two positions. -/
structure Spells (sig : Bytes) (pos : Nat) (text : Bytes) (stop : Nat) : Prop where
  inside : pos ≤ sig.length
  split : sig.drop pos = text ++ sig.drop stop
  ending : stop = pos + text.length

namespace Spells

variable {sig first second : Bytes} {pos middle stop : Nat}

theorem append (one : Spells sig pos first middle) (two : Spells sig middle second stop) :
    Spells sig pos (first ++ second) stop where
  inside := one.inside
  split := by rw [one.split, two.split, List.append_assoc]
  ending := by rw [two.ending, one.ending, List.length_append, Nat.add_assoc]

theorem le (text : Spells sig pos first stop) : stop ≤ sig.length := by
  have sized := congrArg List.length text.split
  have before := text.inside
  have after := text.ending
  simp only [List.length_append, List.length_drop] at sized
  omega

theorem of_append (both : Spells sig pos (first ++ second) stop) :
    ∃ middle, Spells sig pos first middle ∧ Spells sig middle second stop := by
  have skip : sig.drop (pos + first.length) = second ++ sig.drop stop := by
    rw [← List.drop_drop, both.split, List.append_assoc, List.drop_left]
  have ending := both.ending
  have total := both.le
  rw [List.length_append] at ending
  refine ⟨pos + first.length, ⟨both.inside, ?_, rfl⟩, by omega, skip, by omega⟩
  rw [skip, both.split, List.append_assoc]

/-- A character of the signature alphabet is read where its byte stands. -/
theorem singleton_iff (ascii : c.toNat < 128) :
    Spells sig pos [code c] (pos + 1) ↔ (sig[pos]?).map Char.ofUInt8 = some c := by
  rw [Option.map_eq_some_iff]
  constructor
  · intro text
    have head : sig[pos]? = some (code c) := by
      rw [← List.head?_drop, text.split]
      rfl
    exact ⟨code c, head, (ofUInt8_eq_iff ascii _).mpr rfl⟩
  · rintro ⟨byte, found, same⟩
    obtain ⟨within, here⟩ := List.getElem?_eq_some_iff.mp found
    refine ⟨within.le, ?_, rfl⟩
    rw [List.drop_eq_getElem_cons within, here, (ofUInt8_eq_iff ascii _).mp same]
    rfl

end Spells

/-! ### What the parser accepts -/

variable {ty : Ty} {tys : List Ty} {levels pos stop : Nat} {sig : Bytes} {text : String}

theorem leafType_eq_some (leaf : leafType c = some ty) :
    ty.writeSignature = [c] ∧ c.toNat < 128 ∧ ty.depth = 0 ∧ ty.keysBasic = true := by
  unfold leafType at leaf
  split at leaf
  all_goals cases leaf
  all_goals decide

theorem membersDepth_lt :
    membersDepth tys < levels + 1 ↔ ∀ ty ∈ tys, ty.depth < levels := by
  induction tys with
  | nil => simp [membersDepth]
  | cons ty tys ih =>
    simp only [membersDepth, List.forall_mem_cons, ← ih]
    omega

theorem membersKeysBasic_iff :
    membersKeysBasic tys = true ↔ ∀ ty ∈ tys, ty.keysBasic = true := by
  induction tys with
  | nil => simp [membersKeysBasic]
  | cons ty tys ih => simp [membersKeysBasic, ih]

theorem isBasic_facts (basic : ty.isBasic = true) : ty.depth = 0 ∧ ty.keysBasic = true := by
  cases ty
  all_goals first
    | exact ⟨rfl, rfl⟩
    | cases basic

/-- What a successful parse of one type has established, with `levels` levels to go. -/
structure Parsed (levels : Nat) (sig : Bytes) (pos : Nat) (ty : Ty) (stop : Nat) : Prop where
  text : Spells sig pos ty.signatureBytes stop
  depth : ty.depth < levels
  keys : ty.keysBasic = true

theorem parseMembers_sound (sound : ∀ {pos ty stop}, one pos = .ok (ty, stop) → Parsed levels sig pos ty stop)
    (parsed : parseMembers one sig fuel pos = .ok (tys, stop)) :
    Spells sig pos (signaturesBytes tys ++ [code ')']) (stop + 1) ∧
      ∀ ty ∈ tys, ty.depth < levels ∧ ty.keysBasic = true := by
  induction fuel generalizing pos tys with
  | zero => cases parsed
  | succ fuel ih =>
    rw [parseMembers] at parsed
    split at parsed
    case isTrue closed =>
      cases parsed
      exact ⟨(Spells.singleton_iff (by decide)).mpr closed, fun _ member => by cases member⟩
    case isFalse =>
      obtain ⟨⟨member, middle⟩, first, parsed⟩ := bind_eq_ok.mp parsed
      obtain ⟨⟨members, last⟩, rest, parsed⟩ := bind_eq_ok.mp parsed
      cases parsed
      have here := sound first
      obtain ⟨texts, others⟩ := ih rest
      refine ⟨?_, List.forall_mem_cons.mpr ⟨⟨here.depth, here.keys⟩, others⟩⟩
      rw [signaturesBytes_cons, List.append_assoc]
      exact here.text.append texts

/-- The parser accepts only the text of a type. -/
theorem parseOne_sound (parsed : parseOne levels sig pos = .ok (ty, stop)) : Parsed levels sig pos ty stop := by
  induction levels generalizing pos ty stop with
  | zero => cases parsed
  | succ levels ih =>
    rw [parseOne] at parsed
    split at parsed
    · cases parsed
    iterate 2
      · next here =>
        obtain ⟨⟨elem, last⟩, inner, parsed⟩ := bind_eq_ok.mp parsed
        cases parsed
        obtain ⟨text, depth, keys⟩ := ih inner
        exact ⟨((Spells.singleton_iff (by decide)).mpr here).append text, by rw [Ty.depth]; omega, keys⟩
    · next here =>
      obtain ⟨⟨members, last⟩, inner, parsed⟩ := bind_eq_ok.mp parsed
      cases parsed
      obtain ⟨texts, each⟩ := parseMembers_sound ih inner
      refine ⟨?_, membersDepth_lt.mpr fun ty member => (each ty member).1,
        membersKeysBasic_iff.mpr fun ty member => (each ty member).2⟩
      rw [signatureBytes_tuple]
      exact ((Spells.singleton_iff (by decide)).mpr here).append texts
    · next here =>
      obtain ⟨⟨key, last⟩, keyParsed, parsed⟩ := bind_eq_ok.mp parsed
      simp only [Bool.not_eq_true'] at parsed
      split at parsed
      · cases parsed
      · next basic =>
        obtain ⟨⟨value, close⟩, valueParsed, parsed⟩ := bind_eq_ok.mp parsed
        simp only at parsed
        split at parsed
        case isFalse => cases parsed
        case isTrue closed =>
          cases parsed
          have keyFacts := ih keyParsed
          have valueFacts := ih valueParsed
          refine ⟨?_, ?_, ?_⟩
          · rw [signatureBytes_dictEntry]
            exact ((Spells.singleton_iff (by decide)).mpr here).append
              (keyFacts.text.append (valueFacts.text.append
                ((Spells.singleton_iff (by decide)).mpr closed)))
          · have first := keyFacts.depth
            have second := valueFacts.depth
            rw [Ty.depth]
            omega
          · rw [Ty.keysBasic, valueFacts.keys, Bool.eq_true_of_not_eq_false basic]
            rfl
    · next here =>
      split at parsed
      case h_2 => cases parsed
      case h_1 leaf =>
        cases parsed
        obtain ⟨text, ascii, depth, keys⟩ := leafType_eq_some leaf
        refine ⟨?_, by omega, keys⟩
        rw [signatureBytes, text]
        exact (Spells.singleton_iff ascii).mpr here

/-- A signature starts with a character other than the end of a tuple. -/
theorem writeSignature_head (ty : Ty) :
    ∃ c rest, ty.writeSignature = c :: rest ∧ c.toNat < 128 ∧ c ≠ ')' := by
  cases ty
  all_goals exact ⟨_, _, rfl, by decide, by decide⟩

theorem parseOne_leaf (here : (sig[pos]?).map Char.ofUInt8 = some c) (leaf : leafType c = some ty) :
    parseOne (levels + 1) sig pos = .ok (ty, pos + 1) := by
  rw [parseOne, here]
  split
  · contradiction
  · cases ‹some c = some _›; cases leaf
  · cases ‹some c = some _›; cases leaf
  · cases ‹some c = some _›; cases leaf
  · cases ‹some c = some _›; cases leaf
  · cases ‹some c = some _›
    rw [leaf]

theorem parseMembers_complete
    (complete : ∀ {pos ty stop}, Parsed levels sig pos ty stop → parseOne levels sig pos =
      .ok (ty, stop)) (each : ∀ ty ∈ tys, ty.depth < levels ∧ ty.keysBasic = true)
    (enough : tys.length < fuel) (text : Spells sig pos (signaturesBytes tys ++ [code ')']) (stop + 1)) :
    parseMembers (parseOne levels sig) sig fuel pos = .ok (tys, stop) := by
  induction tys generalizing fuel pos with
  | nil =>
    obtain ⟨fuel, rfl⟩ : ∃ less, fuel = less + 1 := ⟨fuel - 1, by simp at enough; omega⟩
    have same : stop = pos := by
      have ending := text.ending
      simp only [signaturesBytes, writeSignatures, List.map_nil, List.nil_append,
        List.length_singleton] at ending
      omega
    subst same
    rw [parseMembers, if_pos ((Spells.singleton_iff (by decide)).mp text)]
  | cons ty tys ih =>
    obtain ⟨fuel, rfl⟩ : ∃ less, fuel = less + 1 := ⟨fuel - 1, by simp at enough; omega⟩
    rw [signaturesBytes_cons, List.append_assoc] at text
    obtain ⟨middle, first, rest⟩ := text.of_append
    obtain ⟨c, others, start, ascii, open_⟩ := ty.writeSignature_head
    have notClosed : ¬ (sig[pos]?).map Char.ofUInt8 = some ')' := by
      have front := first
      rw [signatureBytes, start, List.map_cons, ← List.singleton_append] at front
      obtain ⟨next, single, _⟩ := front.of_append
      rw [single.ending] at single
      rw [(Spells.singleton_iff ascii).mp single, Option.some.injEq]
      exact open_
    have here := each ty (.head _)
    rw [parseMembers, if_neg notClosed, complete ⟨first, here.1, here.2⟩]
    simp only [ok_bind]
    rw [ih (fun other inside => each other (.tail _ inside)) (by simp at enough; omega)
      rest]
    rfl

/-- The parser accepts every such text. -/
theorem parseOne_complete (parsed : Parsed levels sig pos ty stop) : parseOne levels sig pos = .ok (ty, stop) := by
  induction levels generalizing pos ty stop with
  | zero => exact absurd parsed.depth (Nat.not_lt_zero _)
  | succ levels ih =>
    obtain ⟨text, depth, keys⟩ := parsed
    -- A leaf is one character; its byte is the whole signature.
    have leaf : ∀ c, c.toNat < 128 → ty.writeSignature = [c] → leafType c = some ty →
        parseOne (levels + 1) sig pos = .ok (ty, stop) := by
      intro c ascii whole found
      rw [signatureBytes, whole] at text
      have ending := text.ending
      subst ending
      exact parseOne_leaf ((Spells.singleton_iff ascii).mp text) found
    cases ty with
    | maybe elem | array elem =>
      first | rw [signatureBytes_maybe] at text | rw [signatureBytes_array] at text
      rw [← List.singleton_append] at text
      obtain ⟨middle, single, inner⟩ := text.of_append
      obtain rfl : middle = pos + 1 := single.ending
      rw [Ty.depth] at depth
      rw [parseOne, (Spells.singleton_iff (by decide)).mp single]
      simp only [ih ⟨inner, by omega, keys⟩, ok_bind]
    | tuple members =>
      rw [signatureBytes_tuple] at text
      obtain ⟨middle, single, inner⟩ := text.of_append
      obtain rfl : middle = pos + 1 := single.ending
      have last := inner.le
      have ending := inner.ending
      rw [List.length_append, List.length_singleton] at ending
      obtain ⟨close, rfl⟩ : ∃ close, stop = close + 1 := ⟨stop - 1, by omega⟩
      have count : members.length ≤ (signaturesBytes members).length := by
        clear text depth keys inner ending last leaf
        induction members with
        | nil => simp
        | cons ty tys rest =>
          obtain ⟨c, others, start, _⟩ := ty.writeSignature_head
          rw [signaturesBytes_cons, List.length_append, signatureBytes, start]
          simp only [List.length_cons, List.length_map]
          omega
      have each : ∀ ty ∈ members, ty.depth < levels ∧ ty.keysBasic = true := fun ty member =>
        ⟨membersDepth_lt.mp depth ty member, membersKeysBasic_iff.mp keys ty member⟩
      have found : parseMembers (parseOne levels sig) sig (sig.length + 1) (pos + 1)
          = .ok (members, close) := parseMembers_complete ih each (by omega) inner
      rw [parseOne, (Spells.singleton_iff (by decide)).mp single]
      simp only [found, ok_bind]
    | dictEntry key value =>
      rw [signatureBytes_dictEntry] at text
      obtain ⟨middle, single, inner⟩ := text.of_append
      obtain rfl : middle = pos + 1 := single.ending
      obtain ⟨afterKey, keyText, inner⟩ := inner.of_append
      obtain ⟨close, valueText, closed⟩ := inner.of_append
      obtain rfl : stop = close + 1 := closed.ending
      rw [Ty.keysBasic, Bool.and_eq_true] at keys
      rw [Ty.depth] at depth
      rw [parseOne, (Spells.singleton_iff (by decide)).mp single]
      simp only [ih ⟨keyText, by omega, (isBasic_facts keys.1).2⟩, ok_bind, keys.1, Bool.not_true,
        Bool.false_eq_true, if_false, ih ⟨valueText, by omega, keys.2⟩,
        (Spells.singleton_iff (by decide)).mp closed, if_true]
    | _ => exact leaf _ (by decide) rfl rfl

/-- **What `Type::parse` accepts**: the signature of a type that nests at most 128 levels of
containers and has basic keys, as that type. -/
theorem parse_eq_ok_iff :
    parse text = .ok ty ↔
      text = ty.signatureString ∧ ty.depth ≤ maxTypeDepth ∧ ty.keysBasic = true := by
  constructor
  · intro parsed
    rw [parse] at parsed
    split at parsed
    · cases parsed
    · next found =>
      split at parsed
      · cases parsed
      · next whole =>
        cases parsed
        obtain ⟨spelled, depth, keys⟩ := parseOne_sound found
        rw [not_not] at whole
        subst whole
        refine ⟨asBytes_injective ?_, Nat.le_of_lt_succ depth, keys⟩
        have split := spelled.split
        rw [List.drop_zero, List.drop_length, List.append_nil] at split
        rw [split, asBytes_signatureString]
  · rintro ⟨rfl, depth, keys⟩
    have spelled : Spells (asBytes ty.signatureString) 0 ty.signatureBytes
        (asBytes ty.signatureString).length := by
      rw [asBytes_signatureString]
      exact ⟨Nat.zero_le _, by rw [List.drop_zero, List.drop_length, List.append_nil],
        (Nat.zero_add _).symm⟩
    rw [parse, parseOne_complete ⟨spelled, Nat.lt_succ_of_le depth, keys⟩]
    simp

/-- The signature of a parsed type is the parsed string. -/
theorem signature_of_parse (parsed : parse text = .ok ty) :
    ty.signatureString = text := (parse_eq_ok_iff.mp parsed).1.symm

theorem parse_signature (parsed : parse text = .ok ty) :
    parse ty.signatureString = .ok ty := by
  rw [signature_of_parse parsed]
  exact parsed

/-- **Signatures and types correspond**: a parsed string is the signature of its type, and the
signature of a type parses to it exactly where its keys are basic and it nests at most 128 levels.
Where a dict entry stands plays no part: the grammar allows one wherever it allows a type. -/
theorem signatures_biject (text : String) (ty : Ty) :
    (parse text = .ok ty → ty.signatureString = text) ∧
      (parse ty.signatureString = .ok ty ↔ ty.keysBasic = true ∧ ty.depth ≤ maxTypeDepth) := by
  refine ⟨signature_of_parse, fun parsed => ?_, fun valid => ?_⟩
  · obtain ⟨-, depth, keys⟩ := parse_eq_ok_iff.mp parsed
    exact ⟨keys, depth⟩
  · exact parse_eq_ok_iff.mpr ⟨rfl, valid.2, valid.1⟩

theorem signatures_biject_dict :
    parse "a\x7bsv\x7d" = .ok (.array (.dictEntry .str .variant)) ∧
      (Ty.array (.dictEntry .str .variant)).signatureString = "a\x7bsv\x7d" ∧
      parse (Ty.array (.dictEntry .str .variant)).signatureString = .ok (.array (.dictEntry .str .variant)) := by
  have both := signatures_biject "a\x7bsv\x7d" (.array (.dictEntry .str .variant))
  exact ⟨rfl, both.1 rfl, both.2.mpr ⟨rfl, by decide⟩⟩

end Ty

end Ostrya.Gvariant
