import NestedQuery.Document

/-! # Documents as JSON text

Compact JSON: maps are objects with their entries in order, lists are arrays, texts are strings. In
a string only the quote, the backslash and the characters below U+0020 are escaped. -/

namespace NestedQuery

namespace Json

/-- A short escape, where there is one. -/
def shortEscape? (c : Char) : Option Char :=
  match c with
  | '\x22' => some '\x22'
  | '\\' => some '\\'
  | '\x08' => some 'b'
  | '\x0c' => some 'f'
  | '\n' => some 'n'
  | '\r' => some 'r'
  | '\t' => some 't'
  | _ => none

def char (c : Char) : List Char :=
  match shortEscape? c with
  | some e => ['\\', e]
  | none =>
    if c.toNat < 0x20 then
      ['\\', 'u', '0', '0', Nat.digitChar (c.toNat / 16), Nat.digitChar (c.toNat % 16)]
    else [c]

def string (s : String) : String :=
  String.ofList ('\x22' :: s.toList.flatMap char ++ ['\x22'])

end Json

namespace Value

mutual

/-- Adds the JSON text of a value to `out`. -/
def writeJson (out : String) : Value → String
  | .scalar text => out ++ Json.string text
  | .list items => (writeJsonItems true (out.push '[') items).push ']'
  | .map entries => (writeJsonEntries true (out.push '\x7b') entries).push '\x7d'

/-- Adds the items of an array; a comma comes before all but the `first`. -/
def writeJsonItems (first : Bool) (out : String) : List Value → String
  | [] => out
  | item :: items =>
    writeJsonItems false (writeJson (if first then out else out.push ',') item) items

/-- Adds the entries of an object. -/
def writeJsonEntries (first : Bool) (out : String) : List (String × Value) → String
  | [] => out
  | (key, value) :: entries =>
    let out := (if first then out else out.push ',') ++ Json.string key
    writeJsonEntries false (writeJson (out.push ':') value) entries

end

end Value

def Document.toJson (doc : Document) : String :=
  Value.writeJson "" (.map doc.entries)

end NestedQuery
