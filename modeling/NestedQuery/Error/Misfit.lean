import NestedQuery.Text.Quoted
import NestedQuery.Text.Utf8

/-! # Misfits between documents and typed data

The ways in which a document does not fit the type asked of it, or data does not fit into a
document, with their messages. -/

namespace NestedQuery

/-- What a reader of typed data comes upon. -/
inductive Found where
  | text (s : String)
  | sequence
  | map
  | unitVariant
  deriving DecidableEq, Repr

def Found.describe : Found → String
  | .text s => "string " ++ quotedText s
  | .sequence => "sequence"
  | .map => "map"
  | .unitVariant => "unit variant"

inductive Misfit where
  /-- A shape other than a map where the whole document stands. -/
  | topLevel (shape : String)
  | tooNested (levels limit : Nat)
  | invalidType (found : Found) (expected : String)
  | invalidValue (found : Found) (expected : String)
  | invalidLength (length : Nat) (expected : String)
  | unknownField (name : String) (known : List String)
  | unknownVariant (name : String) (known : List String)
  | missingField (name : String)
  /-- An enum read from a map without entries. -/
  | noVariant
  /-- An enum read from a list. -/
  | variantFromList
  /-- A value asked of a map before its key is read. -/
  | valueBeforeKeyRead
  /-- A value given to a map before its key is written. -/
  | valueBeforeKeyWritten
  | notUtf8 (fault : Utf8.Fault)
  deriving DecidableEq, Repr

namespace Misfit

/-- Lists the names that would have been right; `what` says what they name. -/
def oneOf (what : String) : List String → String
  | [] => s!"there are no {what}s"
  | [a] => s!"expected `{a}`"
  | [a, b] => s!"expected `{a}` or `{b}`"
  | names => "expected one of " ++ ", ".intercalate (names.map fun name => s!"`{name}`")

def message : Misfit → String
  | .topLevel shape =>
    s!"cannot use {shape} at the top level of a querystring, try a struct or a map"
  | .tooNested levels limit =>
    s!"recursion limit exceeded: document is nested {levels} levels deep (limit {limit})"
  | .invalidType found expected => s!"invalid type: {found.describe}, expected {expected}"
  | .invalidValue found expected => s!"invalid value: {found.describe}, expected {expected}"
  | .invalidLength length expected => s!"invalid length {length}, expected {expected}"
  | .unknownField name known => s!"unknown field `{name}`, " ++ oneOf "field" known
  | .unknownVariant name known => s!"unknown variant `{name}`, " ++ oneOf "variant" known
  | .missingField name => s!"missing field `{name}`"
  | .noVariant => "No more values"
  | .variantFromList =>
    "expected an enum variant name or a single-key map, found a sequence"
  | .valueBeforeKeyRead => "Somehow the list was empty after a non-empty key was returned"
  | .valueBeforeKeyWritten => "serialize_value called before serialize_key"
  | .notUtf8 fault => s!"bytes are not valid UTF-8: {fault.message}"

end Misfit

end NestedQuery
