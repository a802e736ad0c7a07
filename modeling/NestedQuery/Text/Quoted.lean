import NestedQuery.Text.Combining

/-! # Quoted text

The form in which messages quote text and characters: what cannot be seen, or would change the look
of its neighbours, is written as an escape. -/

namespace NestedQuery.Quoted

/-- An escape by code point, in lowercase hex without padding. -/
def escape (c : Char) : List Char :=
  '\\' :: 'u' :: '\x7b' :: Nat.toDigits 16 c.toNat ++ ['\x7d']

/-- One character of a text that stands between two `mark`s. -/
def char (mark c : Char) : List Char :=
  if c = '\x00' then ['\\', '0']
  else if c = '\t' then ['\\', 't']
  else if c = '\r' then ['\\', 'r']
  else if c = '\n' then ['\\', 'n']
  else if c = '\\' || c = mark then ['\\', c]
  else if isCombining c || !isPrintable c then escape c
  else [c]

end NestedQuery.Quoted

namespace NestedQuery

def quotedText (s : String) : String :=
  String.ofList ('\x22' :: s.toList.flatMap (Quoted.char '\x22') ++ ['\x22'])

def quotedChar (c : Char) : String :=
  String.ofList ('\x27' :: Quoted.char '\x27' c ++ ['\x27'])

end NestedQuery
