import NestedQuery.Data
import NestedQuery.Error
import NestedQuery.Number.Layout

/-! # Data as documents

Scalars become text, sequences lists, maps and structs maps; an enum variant that carries data
becomes a map with the variant as its only key. An absent option has no value at all: a map leaves
the entry out, while a list or a variant, which cannot, holds an empty text in its place. Entries,
items and fields are encoded in order and the first failure counts. -/

namespace NestedQuery

/-- The text that bytes spell. -/
def textOfBytes (bytes : List UInt8) : Result String :=
  match Utf8.decode? bytes with
  | some text => .ok text
  | none => .error (.misfit (.notUtf8 ((Utf8.fault? bytes).getD ⟨0, none⟩)))

namespace Data

def boolText (b : Bool) : String :=
  if b then "true" else "false"

def singleText (bits : UInt32) : String :=
  Binary.single.text Binary.singleLayout bits.toNat

def doubleText (bits : UInt64) : String :=
  Binary.double.text Binary.doubleLayout bits.toNat

/-- The text of data that is a map key: a scalar, a unit variant, or a newtype around one. -/
def encodeKey : Data → Result String
  | .bool b => .ok (boolText b)
  | .int n => .ok n.text
  | .single bits => .ok (singleText bits)
  | .double bits => .ok (doubleText bits)
  | .char c => .ok (String.singleton c)
  | .text s => .ok s
  | .bytes bs => textOfBytes bs
  | .unitVariant variant => .ok variant
  | .newtype inner => encodeKey inner
  | _ => .error .unsupported

/-- Where a value is missing but its place must be filled. -/
def fill (value : Option Value) : Value :=
  value.getD (.scalar "")

/-- Adds an entry, unless its value is missing. A second value for a key is an error. -/
def addEntry (key : String) (value : Option Value) (entries : List (String × Value)) :
    Result (List (String × Value)) :=
  match value with
  | none => .ok entries
  | some value =>
    if (entries.lookup key).isSome then .error (.duplicateKey key)
    else .ok (entries ++ [(key, value)])

mutual

/-- The value that data becomes; an absent option becomes none. -/
def encode : Data → Result (Option Value)
  | .absent => .ok none
  | .present inner => encode inner
  | .unit => .ok (Value.scalar "")
  | .bool b => .ok (Value.scalar (boolText b))
  | .int n => .ok (Value.scalar n.text)
  | .single bits => .ok (Value.scalar (singleText bits))
  | .double bits => .ok (Value.scalar (doubleText bits))
  | .char c => .ok (Value.scalar (String.singleton c))
  | .text s => .ok (Value.scalar s)
  | .bytes bs => do return Value.scalar (← textOfBytes bs)
  | .newtype inner => encode inner
  | .seq items => do return Value.list (← encodeItems items)
  | .map entries => do return Value.map (← encodeEntries [] entries)
  | .struct fields => do return Value.map (← encodeFields [] fields)
  | .unitVariant variant => .ok (Value.scalar variant)
  | .newtypeVariant variant inner => do return Value.map [(variant, fill (← encode inner))]
  | .tupleVariant variant items => do
    return Value.map [(variant, .list (← encodeItems items))]
  | .structVariant variant fields => do
    return Value.map [(variant, .map (← encodeFields [] fields))]
  | .valueOnly _ => .error (.misfit .valueBeforeKeyWritten)
  | .keyOnly key => do
    let _ ← encodeKey key
    return Value.map []

def encodeItems : List Data → Result (List Value)
  | [] => .ok []
  | item :: items => do
    let value ← encode item
    return fill value :: (← encodeItems items)

/-- Adds the entries of a map to those already encoded. -/
def encodeEntries (done : List (String × Value)) :
    List (Data × Data) → Result (List (String × Value))
  | [] => .ok done
  | (key, value) :: entries => do
    let key ← encodeKey key
    let value ← encode value
    let done ← addEntry key value done
    encodeEntries done entries

/-- Adds the fields of a struct to those already encoded. -/
def encodeFields (done : List (String × Value)) :
    List (String × Data) → Result (List (String × Value))
  | [] => .ok done
  | (name, value) :: fields => do
    let value ← encode value
    let done ← addEntry name value done
    encodeFields done fields

end

end Data

end NestedQuery
