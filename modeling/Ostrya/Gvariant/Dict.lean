/-
**The builder of `a{sv}` dicts** (`dict.rs`).

A dict keeps the order of its entries, also of two entries under one key.
-/

import Ostrya.Gvariant.Denotes

namespace Ostrya.Gvariant

open ByteFormat

/-- `DictBuilder`: the entries in insertion order, each a key with the type and the value of its
variant. -/
abbrev DictBuilder := List (String × Ty × Value)

namespace DictBuilder

/-- `DictBuilder::insert`. -/
def insert (builder : DictBuilder) (key : String) (ty : Ty) (value : Value) : DictBuilder :=
  builder ++ [(key, ty, value)]

/-- `DictBuilder::insert_str`. -/
def insertStr (builder : DictBuilder) (key value : String) : DictBuilder := builder.insert key .str (.str value)

/-- `DictBuilder::insert_bool`. -/
def insertBool (builder : DictBuilder) (key : String) (value : Bool) : DictBuilder :=
  builder.insert key .bool (.bool value)

/-- `DictBuilder::insert_strv`. -/
def insertStrv (builder : DictBuilder) (key : String) (values : List String) : DictBuilder :=
  builder.insert key (.array .str) (.array (values.map .str))

/-- One entry of the dict. -/
def entryValue (entry : String × Ty × Value) : Value := .tuple [.str entry.1, .variant entry.2.1 entry.2.2]

/-- `DictBuilder::build`. -/
def build (builder : DictBuilder) : Value := .array (builder.map entryValue)

end DictBuilder

/-- The type `a{sv}`, also `METADATA_TYPE`. -/
def dictType : Ty := .array (.dictEntry .str .variant)

example : Ty.parse "a\x7bsv\x7d" = .ok dictType := rfl

end Ostrya.Gvariant
