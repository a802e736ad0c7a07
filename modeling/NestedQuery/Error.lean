import NestedQuery.Error.Kind
import NestedQuery.Error.Misfit

/-! # Errors

Why a query, a document or typed data is refused. Every `index` is a byte offset into the whole
input. -/

namespace NestedQuery

inductive Error where
  | inputTooLong (limit actual : Nat)
  | tooManyParameters (limit actual : Nat)
  | depthExceeded (key : String) (depth limit : Nat)
  | unmatchedBracket (key : String) (index : Nat)
  | unexpectedQuestionMark (index : Nat)
  | invalidPercentEncoding (index : Nat)
  | invalidUtf8 (index : Nat)
  | invalidCharacter (character : Char) (index : Nat)
  | duplicateKey (key : String)
  | invalidKey (key : String)
  | invalidValue (key : String)
  | misfit (cause : Misfit)
  | unsupported
  | io (text : String)
  deriving DecidableEq, Repr

abbrev Result (α : Type) := Except Error α

namespace Error

def kind : Error → ErrorKind
  | .inputTooLong .. => .inputTooLong
  | .tooManyParameters .. => .tooManyParameters
  | .depthExceeded .. => .depthExceeded
  | .unmatchedBracket .. => .unmatchedBracket
  | .unexpectedQuestionMark .. => .unexpectedQuestionMark
  | .invalidPercentEncoding .. => .invalidPercentEncoding
  | .invalidUtf8 .. => .invalidUtf8
  | .invalidCharacter .. => .invalidCharacter
  | .duplicateKey .. => .duplicateKey
  | .invalidKey .. => .invalidKey
  | .invalidValue .. => .invalidValue
  | .misfit .. => .custom
  | .unsupported => .unsupported
  | .io .. => .io

def message : Error → String
  | .inputTooLong limit actual =>
    s!"input exceeds maximum length of {limit} bytes (received {actual})"
  | .tooManyParameters limit actual =>
    s!"too many parameters: received {actual}, limit {limit}"
  | .depthExceeded key depth limit =>
    s!"maximum bracket depth exceeded in key `{key}` (depth {depth}, limit {limit})"
  | .unmatchedBracket key index =>
    s!"unmatched bracket in key `{key}` at byte offset {index}"
  | .unexpectedQuestionMark index => s!"unexpected `?` inside query at byte offset {index}"
  | .invalidPercentEncoding index => s!"invalid percent-encoding at byte offset {index}"
  | .invalidUtf8 index =>
    s!"component at byte offset {index} does not decode to valid UTF-8"
  | .invalidCharacter character index =>
    "invalid character " ++ quotedChar character ++ s!" at byte offset {index}"
  | .duplicateKey key =>
    s!"duplicate key `{key}`: the path was already written or has another shape"
  | .invalidKey key => "key " ++ quotedText key ++ " contains a control character"
  | .invalidValue key => s!"value at key `{key}` contains a control character"
  | .misfit cause => cause.message
  | .unsupported => "unsupported type for querystring serialization"
  | .io text => text

end Error

end NestedQuery
