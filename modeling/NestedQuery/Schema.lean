import NestedQuery.Number.Integer

/-! # Schemas

A schema is the type that data is read with. `Schema.expected` names it in messages. -/

namespace NestedQuery

mutual

inductive Schema where
  | bool
  | int (type : IntType)
  | single
  | double
  | char
  | string
  | bytes
  | unit
  | unitStruct (name : String)
  /-- Takes any value and keeps nothing of it. -/
  | ignored
  /-- Takes any value as it is. -/
  | any
  | option (inner : Schema)
  | seq (item : Schema)
  | tuple (items : List Schema)
  | tupleStruct (name : String) (items : List Schema)
  | newtype (name : String) (inner : Schema)
  | map (key value : Schema)
  /-- Asks a map for a value before its key, which no map can answer. -/
  | valueFirst (value : Schema)
  /-- A strict struct refuses entries that are no fields of it. -/
  | struct (name : String) (fields : List Field) (strict : Bool)
  | enum (name : String) (variants : List Variant)

inductive Field where
  | mk (name : String) (schema : Schema) (hasDefault : Bool)

inductive Variant where
  | unit (name : String)
  | newtype (name : String) (inner : Schema)
  | tuple (name : String) (items : List Schema)
  | struct (name : String) (fields : List Field)

end

instance : Inhabited Schema := ⟨.unit⟩

def Field.name : Field → String
  | .mk name _ _ => name

def Variant.name : Variant → String
  | .unit name | .newtype name _ | .tuple name _ | .struct name _ => name

namespace Schema

/-- What a message calls the data that the schema expects. -/
def expected : Schema → String
  | .bool => "a boolean"
  | .int type => type.name
  | .single => "f32"
  | .double => "f64"
  | .char => "a character"
  | .string => "a string"
  | .bytes => "byte array"
  | .unit => "unit"
  | .unitStruct name => "unit struct " ++ name
  | .ignored | .any => "anything"
  | .option _ => "option"
  | .seq _ => "a sequence"
  | .tuple items => "a tuple of size " ++ toString items.length
  | .tupleStruct name _ => "tuple struct " ++ name
  | .newtype name _ => "tuple struct " ++ name
  | .map _ _ | .valueFirst _ => "a map"
  | .struct name _ _ => "struct " ++ name
  | .enum name _ => "enum " ++ name

/-- What a message calls data with a fixed number of elements. -/
def withElements (expected : String) (n : Nat) : String :=
  expected ++ " with " ++ if n = 1 then "1 element" else toString n ++ " elements"

/-- What a message calls a variant that carries data. -/
def expectedVariant (shape enumName variant : String) : String :=
  shape ++ " variant " ++ enumName ++ "::" ++ variant

end Schema

end NestedQuery
