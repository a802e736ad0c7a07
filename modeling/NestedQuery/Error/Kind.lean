/-! # Kinds of errors

Each kind has a tag, its stable name in reports. `ofTag?_tag`: a tag reads back as its kind. -/

namespace NestedQuery

inductive ErrorKind where
  | inputTooLong
  | tooManyParameters
  | depthExceeded
  | unmatchedBracket
  | unexpectedQuestionMark
  | invalidPercentEncoding
  | invalidUtf8
  | invalidCharacter
  | duplicateKey
  | invalidKey
  | invalidValue
  | custom
  | unsupported
  | io
  deriving DecidableEq, Repr

namespace ErrorKind

def all : List ErrorKind :=
  [inputTooLong, tooManyParameters, depthExceeded, unmatchedBracket, unexpectedQuestionMark,
    invalidPercentEncoding, invalidUtf8, invalidCharacter, duplicateKey, invalidKey, invalidValue,
    custom, unsupported, io]

def tag : ErrorKind → String
  | inputTooLong => "input_too_long"
  | tooManyParameters => "too_many_parameters"
  | depthExceeded => "depth_exceeded"
  | unmatchedBracket => "unmatched_bracket"
  | unexpectedQuestionMark => "unexpected_question_mark"
  | invalidPercentEncoding => "invalid_percent_encoding"
  | invalidUtf8 => "invalid_utf8"
  | invalidCharacter => "invalid_character"
  | duplicateKey => "duplicate_key"
  | invalidKey => "invalid_key"
  | invalidValue => "invalid_value"
  | custom => "custom"
  | unsupported => "unsupported"
  | io => "io"

def ofTag? (text : String) : Option ErrorKind :=
  all.find? (·.tag == text)

theorem ofTag?_tag (k : ErrorKind) : ofTag? k.tag = some k := by
  cases k <;> decide

/-- The complaint about a text that is the tag of no kind. -/
def unknownMessage (text : String) : String :=
  s!"unknown error kind `{text}`"

end ErrorKind

end NestedQuery
