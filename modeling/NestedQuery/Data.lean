import NestedQuery.Document
import NestedQuery.Number.Integer
import NestedQuery.Text.Utf8

/-! # Typed data

The values that a document is made from or read into: numbers, text, options, sequences, maps,
structs and enum variants. Tuples are sequences here, and a unit struct is the unit: what tells them
apart is the schema they are read with. -/

namespace NestedQuery

inductive Data where
  /-- An option without a value. -/
  | absent
  /-- An option with a value. -/
  | present (inner : Data)
  /-- The unit, which also stands for a unit struct. -/
  | unit
  | bool (b : Bool)
  | int (n : FixedInt)
  /-- A single precision number by its bits. -/
  | single (bits : UInt32)
  /-- A double precision number by its bits. -/
  | double (bits : UInt64)
  | char (c : Char)
  | text (s : String)
  | bytes (bs : List UInt8)
  | newtype (inner : Data)
  /-- A sequence, tuple or tuple struct. -/
  | seq (items : List Data)
  | map (entries : List (Data × Data))
  | struct (fields : List (String × Data))
  | unitVariant (variant : String)
  | newtypeVariant (variant : String) (inner : Data)
  | tupleVariant (variant : String) (items : List Data)
  | structVariant (variant : String) (fields : List (String × Data))
  /-- A map that gives a value without a key. -/
  | valueOnly (value : Data)
  /-- A map that ends after a key. -/
  | keyOnly (key : Data)
  deriving Inhabited

namespace Data

mutual

/-- A document value as data: texts, sequences, and maps with text keys. -/
def ofValue : Value → Data
  | .scalar s => .text s
  | .list items => .seq (ofItems items)
  | .map entries => .map (ofEntries entries)

def ofItems : List Value → List Data
  | [] => []
  | item :: items => ofValue item :: ofItems items

def ofEntries : List (String × Value) → List (Data × Data)
  | [] => []
  | (key, value) :: entries => (.text key, ofValue value) :: ofEntries entries

end

def ofDocument (doc : Document) : Data :=
  .map (ofEntries doc.entries)

end Data

end NestedQuery
