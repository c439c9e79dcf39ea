/-
**GVariant values** (`value.rs`) **and the dynamic codec** (`ser.rs`, `de.rs`).

The serializer appends to a buffer and pads from absolute positions; the parser cuts slices and
counts positions inside each container. Both take the number of container levels that remain, so
`levels = 0` is the depth error: `to_bytes` and `from_bytes` start with `MAX_VALUE_DEPTH + 1`.
The body of each is a function of the call one level down (`serializeStep`, `parseStep`), which is
where the recursion of the source goes.
-/

import Ostrya.Gvariant.Signature
import Ostrya.Gvariant.Tuple
import Ostrya.Gvariant.Leaf

namespace Ostrya.Gvariant

open ByteFormat

/-- `Value`. A double is its bit pattern. -/
inductive Value where
  | bool (b : Bool)
  | byte (b : UInt8)
  | i16 (x : Int16)
  | u16 (x : UInt16)
  | i32 (x : Int32)
  | u32 (x : UInt32)
  | i64 (x : Int64)
  | u64 (x : UInt64)
  | double (bits : UInt64)
  | str (text : String)
  | bytes (b : Bytes)
  | maybe (inner : Option Value)
  | array (items : List Value)
  | tuple (items : List Value)
  | variant (ty : Ty) (value : Value)

namespace Value

/-- `Value::kind`. -/
def kind : Value → String
  | .bool _ => "bool"
  | .byte _ => "byte"
  | .i16 _ => "i16"
  | .u16 _ => "u16"
  | .i32 _ => "i32"
  | .u32 _ => "u32"
  | .i64 _ => "i64"
  | .u64 _ => "u64"
  | .double _ => "double"
  | .str _ => "string"
  | .bytes _ => "byte array"
  | .maybe _ => "maybe"
  | .array _ => "array"
  | .tuple _ => "tuple"
  | .variant _ _ => "variant"

/-! ### Accessors -/

/-- `Value::as_byte`. -/
def asByte : Value → Option UInt8
  | .byte b => some b
  | _ => none

/-- `Value::as_u64`. -/
def asU64 : Value → Option UInt64
  | .u64 x => some x
  | _ => none

/-- `Value::as_str`. -/
def asStr : Value → Option String
  | .str text => some text
  | _ => none

/-- `Value::as_bytes`. -/
def asBytes : Value → Option Bytes
  | .bytes b => some b
  | _ => none

/-- `Value::as_array`. -/
def asArray : Value → Option (List Value)
  | .array items => some items
  | _ => none

/-- `Value::as_tuple`. -/
def asTuple : Value → Option (List Value)
  | .tuple items => some items
  | _ => none

/-- `Value::as_variant`. -/
def asVariant : Value → Option (Ty × Value)
  | .variant ty inner => some (ty, inner)
  | _ => none

/-- The value of a dict entry under `key`. -/
def entryUnder (key : String) (entry : Value) : Option Value :=
  match entry.asTuple with
  | some [k, v] => if k.asStr = some key then some v else none
  | _ => none

/-- `Value::dict_get`. -/
def dictGet (dict : Value) (key : String) : Option Value := do
  let entries ← dict.asArray
  entries.findSome? (entryUnder key)

end Value

/-- `MAX_VALUE_DEPTH`. -/
def maxValueDepth : Nat := 128

/-! ### Serialization -/

/-- The error of a value that does not match its type. -/
def mismatch (ty : Ty) (found : String) : Error := .typeMismatch ty.signatureString found

/-- `serialize_struct`. -/
def serializeStruct (child : Ty → Value → Writer) (whole : Ty) (members : List Ty)
    (items : List Value) : Writer := fun buf =>
  if items.length ≠ members.length then .error (mismatch whole "tuple of a different arity")
  else if members.isEmpty then .ok (buf ++ [0])
  else
    writeTuple ((members.zip items).map fun (ty, item) => (ty.spec, child ty item)) whole.fixedSize buf

/-- `serialize_array`. -/
def serializeArray (child : Ty → Value → Writer) (elem : Ty) (items : List Value) : Writer :=
  writeArray elem.alignment elem.fixedSize.isSome (items.map (child elem))

/-- The body of `serialize` below the depth check. -/
def serializeStep (child : Ty → Value → Writer) (ty : Ty) (value : Value) : Writer := fun buf =>
  match ty, value with
  | .bool, .bool b => .ok (buf ++ [boolByte b])
  | .byte, .byte b => .ok (buf ++ [b])
  | .i16, .i16 x => .ok (buf ++ leBytes 2 (i16ToNat x))
  | .u16, .u16 x => .ok (buf ++ leBytes 2 x.toNat)
  | .i32, .i32 x | .handle, .i32 x => .ok (buf ++ leBytes 4 (i32ToNat x))
  | .u32, .u32 x => .ok (buf ++ leBytes 4 x.toNat)
  | .i64, .i64 x => .ok (buf ++ leBytes 8 (i64ToNat x))
  | .u64, .u64 x => .ok (buf ++ leBytes 8 x.toNat)
  | .double, .double bits => .ok (buf ++ leBytes 8 bits.toNat)
  | .str, .str text | .objectPath, .str text | .signature, .str text =>
    (strBytes text).map (buf ++ ·)
  | .maybe _, .maybe none => .ok buf
  | .maybe elem, .maybe (some inner) => do
    let buf ← child elem inner buf
    if elem.fixedSize.isNone then .ok (buf ++ [0]) else .ok buf
  | .array .byte, .bytes b => .ok (buf ++ b)
  | .array .byte, .array items => .error (mismatch (.array .byte) (Value.array items).kind)
  | .array elem, .array items => serializeArray child elem items buf
  | .tuple members, .tuple items => serializeStruct child (.tuple members) members items buf
  | .dictEntry key val, .tuple items =>
    serializeStruct child (.dictEntry key val) [key, val] items buf
  | .variant, .variant childTy inner => do
    let buf ← child childTy inner buf
    .ok (buf ++ [0] ++ asBytes childTy.signatureString)
  | ty, value => .error (mismatch ty value.kind)

/-- `serialize`, with `levels` the container levels that remain: `MAX_VALUE_DEPTH + 1 - depth`. -/
def serialize : (levels : Nat) → Ty → Value → Writer
  | 0 => fun _ _ _ => .error .depthExceeded
  | levels + 1 => serializeStep (serialize levels)

/-- `to_bytes`. -/
def toBytes (ty : Ty) (value : Value) : Except Error Bytes := serialize (maxValueDepth + 1) ty value []

/-! ### Parsing -/

/-- The bytes of the child of a nonempty maybe. -/
def maybeChild (elem : Ty) (data : Bytes) : Except Error Bytes :=
  if elem.fixedSize.isSome then .ok data
  else if data.getLast? = some 0 then .ok data.dropLast
  else .error (.notNormal "maybe lacks its terminating zero byte")

/-- `parse_maybe`. -/
def parseMaybe (child : Ty → Bytes → Except Error Value) (elem : Ty) (data : Bytes) :
    Except Error Value := do
  if data.isEmpty then .ok (.maybe none)
  else
    let inner ← child elem (← maybeChild elem data)
    .ok (.maybe (some inner))

/-- `parse_array`. -/
def parseArray (child : Ty → Bytes → Except Error Value) (elem : Ty) (data : Bytes) :
    Except Error Value := do
  let reader ← ArrayReader.new data elem.alignment elem.fixedSize
  let items ← reader.collect (child elem)
  .ok (.array items)

/-- The member loop of `parse_struct`. -/
def parseMembers (child : Ty → Bytes → Except Error Value) :
    TupleReader → List Ty → Except Error (List Value × TupleReader)
  | reader, [] => .ok ([], reader)
  | reader, ty :: tys => do
    let (slice, reader) ← reader.field ty.alignment ty.fixedSize tys.isEmpty
    let item ← child ty slice
    let (items, reader) ← parseMembers child reader tys
    .ok (item :: items, reader)

/-- `parse_struct`. -/
def parseStruct (child : Ty → Bytes → Except Error Value) (whole : Ty) (members : List Ty)
    (data : Bytes) : Except Error Value := do
  if members.isEmpty then
    if data ≠ [0] then .error (.notNormal "empty tuple is not a single zero byte")
    else .ok (.tuple [])
  else
    let reader ← TupleReader.new data (nOffsets (members.map Ty.spec)) whole.fixedSize
    let (items, reader) ← parseMembers child reader members
    reader.finish
    .ok (.tuple items)

/-- The position of the last zero byte. -/
def rposition : Bytes → Option Nat
  | [] => none
  | byte :: bytes =>
    match rposition bytes with
    | some index => some (index + 1)
    | none => if byte = 0 then some 0 else none

/-- `split_variant`. -/
def splitVariant (data : Bytes) : Except Error (Bytes × Bytes × Ty) :=
  match rposition data with
  | none => .error (.notNormal "variant lacks a type separator")
  | some sep =>
    let signature := data.drop (sep + 1)
    match fromUtf8 signature with
    | none => .error (.notNormal "variant type signature is not UTF-8")
    | some text =>
      match Ty.parse text with
      | .error _ => .error (.notNormal "variant type signature is invalid")
      | .ok ty => .ok (data.take sep, signature, ty)

/-- The body of `parse` below the depth check. -/
def parseStep (child : Ty → Bytes → Except Error Value) (ty : Ty) (data : Bytes) :
    Except Error Value :=
  match ty with
  | .bool => (decodeBool data).map .bool
  | .byte => (decodeByte data).map .byte
  | .i16 => (decodeScalar 2 i16OfNat data).map .i16
  | .u16 => (decodeScalar 2 u16OfNat data).map .u16
  | .i32 | .handle => (decodeScalar 4 i32OfNat data).map .i32
  | .u32 => (decodeScalar 4 u32OfNat data).map .u32
  | .i64 => (decodeScalar 8 i64OfNat data).map .i64
  | .u64 => (decodeScalar 8 u64OfNat data).map .u64
  | .double => (decodeScalar 8 u64OfNat data).map .double
  | .str | .objectPath | .signature => (decodeStr data).map .str
  | .maybe elem => parseMaybe child elem data
  | .array .byte => .ok (.bytes data)
  | .array elem => parseArray child elem data
  | .tuple members => parseStruct child (.tuple members) members data
  | .dictEntry key value => parseStruct child (.dictEntry key value) [key, value] data
  | .variant => do
    let (inner, _, childTy) ← splitVariant data
    let value ← child childTy inner
    .ok (.variant childTy value)

/-- `parse`, with `levels` the container levels that remain: `MAX_VALUE_DEPTH + 1 - depth`. -/
def parse : (levels : Nat) → Ty → Bytes → Except Error Value
  | 0 => fun _ _ => .error .depthExceeded
  | levels + 1 => parseStep (parse levels)

/-- `from_bytes`. -/
def fromBytes (ty : Ty) (data : Bytes) : Except Error Value := parse (maxValueDepth + 1) ty data

end Ostrya.Gvariant
