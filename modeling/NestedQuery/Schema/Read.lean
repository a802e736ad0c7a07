import NestedQuery.Document.Nesting
import NestedQuery.Query
import NestedQuery.Schema.Scalar

/-! # Reading typed data

`Schema.read` reads the data that a value of a document stands for. A text is a sequence of one
item where a sequence is asked for, and an empty text an absent option. `Schema.readTop` reads a
whole document, which is a map: no sequence can stand there. `Document.read` refuses documents
nested more than 128 levels deep before it reads anything. -/

namespace NestedQuery

/-- The greatest nesting of a document that is read as data. -/
def maxNesting : Nat := 128

namespace Value

def found : Value → Found
  | .scalar text => .text text
  | .list _ => .sequence
  | .map _ => .map

def isEmptyText : Value → Bool
  | .scalar text => text.isEmpty
  | _ => false

/-- The items of a value read as a sequence. -/
def elements? : Value → Option (List Value)
  | .scalar text => some [.scalar text]
  | .list items => some items
  | .map _ => none

end Value

namespace Schema

/-- The items of a value read as a sequence, or the report of a map. -/
def elementsOf (value : Value) (expected : String) : Result (List Value) :=
  match value.elements? with
  | some items => .ok items
  | none => invalidType value.found expected

/-- The entries of a map, or the report of anything else. -/
def entriesOf (value : Value) (expected : String) : Result (List (String × Value)) :=
  match value.entries? with
  | some entries => .ok entries
  | none => invalidType value.found expected

/-- Reads a value that a text alone can stand for. -/
def readScalar (schema : Schema) (value : Value) : Result Data :=
  match schema, value with
  | .unitStruct _, .scalar text => schema.orInvalid text (if text.isEmpty then some .unit else none)
  | _, .scalar text => readKey schema text
  | _, value => invalidType value.found schema.expected

mutual

/-- Reads a value as what it is, and all below it likewise. -/
def readAny : Value → Result Data
  | .scalar text => readKey .any text
  | .list items => do return .seq (← readAnyItems items)
  | .map entries => do return .map (← readAnyEntries entries)

def readAnyItems : List Value → Result (List Data)
  | [] => .ok []
  | item :: items => do
    let data ← readAny item
    return data :: (← readAnyItems items)

/-- Reads each key and then its value. -/
def readAnyEntries : List (String × Value) → Result (List (Data × Data))
  | [] => .ok []
  | (key, value) :: entries => do
    let key ← readKey .string key
    let data ← readAny value
    return (key, data) :: (← readAnyEntries entries)

end

/-- The number of map entries still to come, before the first one and after each. -/
def sizeHints (entries : List (Data × Data)) : List Nat :=
  (List.range (entries.length + 1)).reverse

/-- Reads the key of an entry and then its value. -/
def readEntry (key : String → Result Data) (item : Value → Result Data)
    (entry : String × Value) : Result (Data × Data) := do
  return (← key entry.1, ← item entry.2)

/-- Reads the entries of a struct in document order, each with what `field?` has for its name. -/
def readEntries (field? : String → Option (Value → Result Data)) (known : List String)
    (strict : Bool) : List (String × Value) → Result (List (String × Data))
  | [] => .ok []
  | (name, value) :: entries =>
    match field? name with
    | some read => do
      let data ← read value
      return (name, data) :: (← readEntries field? known strict entries)
    | none =>
      if strict then .error (.misfit (.unknownField name known))
      else readEntries field? known strict entries

/-- Puts the fields read from a document in declared order. A field with a default may be left out,
and an option that is not there is absent. -/
def settle (found : List (String × Data)) : List Field → Result (List (String × Data))
  | [] => .ok []
  | .mk name schema hasDefault :: fields =>
    match found.lookup name, hasDefault, schema with
    | some data, _, _ => do return (name, data) :: (← settle found fields)
    | none, true, _ => settle found fields
    | none, false, .option _ => do return (name, .absent) :: (← settle found fields)
    | none, false, _ => .error (.misfit (.missingField name))

mutual

/-- Reads the data that a value below the top of a document stands for. -/
def read (schema : Schema) (value : Value) : Result Data :=
  match schema with
  | .any => readAny value
  | .ignored => .ok .unit
  | .option inner => if value.isEmptyText then .ok .absent else .present <$> read inner value
  | .newtype _ inner => .newtype <$> read inner value
  | .seq item => do
    let items ← elementsOf value schema.expected
    return .seq (← items.mapM (read item))
  | .tuple schemas => do
    let items ← elementsOf value schema.expected
    return .seq (← readTuple schema.expected 0 schemas items)
  | .tupleStruct _ schemas => do
    let items ← elementsOf value schema.expected
    return .seq (← readTuple (withElements schema.expected schemas.length) 0 schemas items)
  | .map key item => do
    let entries ← entriesOf value schema.expected
    return .map (← entries.mapM (readEntry (readKey key) (read item)))
  | .valueFirst _ => do
    let _ ← entriesOf value schema.expected
    .error (.misfit .valueBeforeKeyRead)
  | .struct _ fields strict => do
    let entries ← entriesOf value schema.expected
    let found ← readEntries (field? fields) (fields.map Field.name) strict entries
    return .struct (← settle found fields)
  | .enum name variants =>
    match value with
    | .scalar text => readVariantName text variants
    | .list _ => .error (.misfit .variantFromList)
    | .map [] => .error (.misfit .noVariant)
    | .map ((variant, value) :: _) =>
      readVariant name (variants.map Variant.name) variant value variants
  | _ => schema.readScalar value

/-- Reads one item for each schema, and leaves further items alone; `count` items came before. -/
def readTuple (expected : String) (count : Nat) : List Schema → List Value → Result (List Data)
  | [], _ => .ok []
  | _ :: _, [] => .error (.misfit (.invalidLength count expected))
  | schema :: schemas, item :: items => do
    let data ← read schema item
    return data :: (← readTuple expected (count + 1) schemas items)

/-- How the field of a name is read. -/
def field? : List Field → String → Option (Value → Result Data)
  | [], _ => none
  | .mk name schema _ :: fields, wanted =>
    if name = wanted then some (read schema) else field? fields wanted

/-- Reads the data of the variant `wanted`; `known` are the names of all variants. -/
def readVariant (enumName : String) (known : List String) (wanted : String) (value : Value) :
    List Variant → Result Data
  | [] => .error (.misfit (.unknownVariant wanted known))
  | .unit name :: variants =>
    if name = wanted then .ok (.unitVariant name)
    else readVariant enumName known wanted value variants
  | .newtype name inner :: variants =>
    if name = wanted then .newtypeVariant name <$> read inner value
    else readVariant enumName known wanted value variants
  | .tuple name schemas :: variants =>
    if name = wanted then do
      let expected := expectedVariant "tuple" enumName name
      let items ← elementsOf value expected
      return .tupleVariant name
        (← readTuple (withElements expected schemas.length) 0 schemas items)
    else readVariant enumName known wanted value variants
  | .struct name fields :: variants =>
    if name = wanted then do
      let entries ← entriesOf value (expectedVariant "struct" enumName name)
      let found ← readEntries (field? fields) (fields.map Field.name) false entries
      return .structVariant name (← settle found fields)
    else readVariant enumName known wanted value variants

end

/-- Reads the entries of a whole document. -/
def readTop (schema : Schema) (entries : List (String × Value)) : Result Data :=
  match schema with
  | .option inner => .present <$> readTop inner entries
  | .newtype _ inner => .newtype <$> readTop inner entries
  | .seq _ => .error (.misfit (.topLevel "sequence"))
  | .tuple _ => .error (.misfit (.topLevel "tuple"))
  | .tupleStruct .. => .error (.misfit (.topLevel "tuple struct"))
  | _ => schema.read (.map entries)

end Schema

namespace Document

/-- Reads data of any nesting. -/
def readUnbounded (schema : Schema) (doc : Document) : Result Data :=
  schema.readTop doc.entries

/-- Reads data, unless the document is nested too deeply. -/
def read (schema : Schema) (doc : Document) : Result Data :=
  if maxNesting < doc.nesting then .error (.misfit (.tooNested doc.nesting maxNesting))
  else doc.readUnbounded schema

end Document

namespace Query

/-- Reads data from a query. -/
def read (config : Config) (schema : Schema) (input : List UInt8) : Result Data := do
  let doc ← parse config input
  doc.read schema

/-- Reads data from a source that yields a query or fails with a report of its own. -/
def readFrom (config : Config) (schema : Schema) (source : Except String (List UInt8)) :
    Result Data :=
  match source with
  | .error text => .error (.io text)
  | .ok input => read config schema input

end Query

end NestedQuery
