import NestedQuery.Data
import NestedQuery.Error
import NestedQuery.Number.Decimal
import NestedQuery.Schema

/-! # Reading scalars

Texts and map keys hold every scalar in its text form. A text that does not spell the scalar asked
for is reported as the text it is. -/

namespace NestedQuery

def invalidType {α : Type} (found : Found) (expected : String) : Result α :=
  .error (.misfit (.invalidType found expected))

namespace Schema

/-- The data, or the report that `text` stands where the schema expects something else. -/
def orInvalid (s : Schema) (text : String) (data : Option Data) : Result Data :=
  match data with
  | some data => .ok data
  | none => invalidType (.text text) s.expected

def readBool? (text : String) : Option Data :=
  if text = "true" then some (.bool true) else if text = "false" then some (.bool false) else none

def readSingle? (text : String) : Option Data :=
  (Binary.single.ofText? text).map fun bits => .single (UInt32.ofNat bits)

def readDouble? (text : String) : Option Data :=
  (Binary.double.ofText? text).map fun bits => .double (UInt64.ofNat bits)

/-- Reads a text that stands for a character. -/
def readChar (text : String) : Result Data :=
  match text.toList with
  | [c] => .ok (.char c)
  | _ => .error (.misfit (.invalidValue (.text text) Schema.char.expected))

/-- The variant that `text` names. Data cannot be written in a text, so the variant has none. -/
def readVariantName (text : String) (variants : List Variant) : Result Data :=
  match variants.find? (·.name = text) with
  | none => .error (.misfit (.unknownVariant text (variants.map Variant.name)))
  | some (.unit name) => .ok (.unitVariant name)
  | some (.newtype ..) => invalidType .unitVariant "newtype variant"
  | some (.tuple ..) => invalidType .unitVariant "tuple variant"
  | some (.struct ..) => invalidType .unitVariant "struct variant"

/-- Reads a map key. -/
def readKey (s : Schema) (text : String) : Result Data :=
  match s with
  | .bool => s.orInvalid text (readBool? text)
  | .int type => s.orInvalid text ((FixedInt.ofText? type text).map .int)
  | .single => s.orInvalid text (readSingle? text)
  | .double => s.orInvalid text (readDouble? text)
  | .char => readChar text
  | .string | .any => .ok (.text text)
  | .bytes => .ok (.bytes (Utf8.encode text))
  | .unit => s.orInvalid text (if text.isEmpty then some .unit else none)
  | .ignored => .ok .unit
  | .enum _ variants => readVariantName text variants
  | _ => invalidType (.text text) s.expected

end Schema

end NestedQuery
