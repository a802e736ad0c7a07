import NestedQuery.Error
import NestedQuery.Text.Byte

/-! # Percent-encoding of components

A component is the root of a key, the content of a bracket group, or a value. `decode` reads one in
a single pass: a malformed escape stops it at once, while a forbidden character or a `?` is only
noted, since bytes that are not UTF-8 are reported before either. -/

namespace NestedQuery.Percent

/-- What a scan has read: the bytes spelled so far and the first of each defect it has passed. -/
structure Scan where
  bytes : ByteArray := .empty
  forbidden : Option (UInt8 × Nat) := none
  question : Option Nat := none

namespace Scan

/-- Adds a byte as it stands. -/
def push (s : Scan) (b : UInt8) : Scan :=
  { s with bytes := s.bytes.push b }

/-- Notes a forbidden byte at `index`, unless there was one before. -/
def forbid (s : Scan) (b : UInt8) (index : Nat) : Scan :=
  { s with forbidden := s.forbidden <|> some (b, index) }

/-- Notes a `?` at `index`, unless there was one before. -/
def ask (s : Scan) (index : Nat) : Scan :=
  { s with question := s.question <|> some index }

/-- Adds the byte that the escape at `index` spells. -/
def escaped (s : Scan) (b : UInt8) (index : Nat) : Scan :=
  (if Byte.isControl b then s.forbid b index else s).push b

/-- Adds the raw byte at `index`, which is not a `%`. -/
def raw (s : Scan) (spaceAsPlus : Bool) (b : UInt8) (index : Nat) : Scan :=
  if b = Byte.plus && spaceAsPlus then s.push Byte.space
  else if b = Byte.questionMark then (s.ask index).push b
  else if b = Byte.space || Byte.isControl b then (s.forbid b index).push b
  else s.push b

end Scan

/-- Continues the scan `s` with bytes that start at `index`. -/
def scan (spaceAsPlus : Bool) (index : Nat) (s : Scan) : List UInt8 → Result Scan
  | [] => .ok s
  | b :: rest =>
    if b = Byte.percent then
      match rest with
      | h :: l :: rest =>
        match Byte.hexValue? h, Byte.hexValue? l with
        | some h, some l => scan spaceAsPlus (index + 3) (s.escaped (h * 0x10 + l) index) rest
        | _, _ => .error (.invalidPercentEncoding index)
      | _ => .error (.invalidPercentEncoding index)
    else scan spaceAsPlus (index + 1) (s.raw spaceAsPlus b index) rest

/-- The verdict on a component that starts at `offset`, once all of it is scanned. -/
def Scan.finish (s : Scan) (offset : Nat) : Result String :=
  match Utf8.decode? s.bytes.data.toList with
  | none => .error (.invalidUtf8 offset)
  | some text =>
    match s.forbidden, s.question with
    | some (b, index), _ => .error (.invalidCharacter (Char.ofNat b.toNat) index)
    | none, some index => .error (.unexpectedQuestionMark index)
    | none, none => .ok text

/-- The text of the component `bytes`, which starts at `offset` in the input. -/
def decode (spaceAsPlus : Bool) (offset : Nat) (bytes : List UInt8) : Result String := do
  let s ← scan spaceAsPlus offset {} bytes
  s.finish offset

/-- The bytes that canonical text does not escape: letters, digits and `- . _ ~ ! $ ' ( ) *`. -/
def isLiteral (b : UInt8) : Bool :=
  Byte.isDigit b || (0x41 ≤ b && b ≤ 0x5A) || (0x61 ≤ b && b ≤ 0x7A)
    || [0x2D, 0x2E, 0x5F, 0x7E, 0x21, 0x24, 0x27, 0x28, 0x29, 0x2A].contains b

def encodeByte (spaceAsPlus : Bool) (b : UInt8) : List UInt8 :=
  if isLiteral b then [b]
  else if b = Byte.space && spaceAsPlus then [Byte.plus]
  else [Byte.percent, Byte.hexDigit (b / 0x10), Byte.hexDigit (b % 0x10)]

/-- The canonical spelling of a component, all ASCII. -/
def encode (spaceAsPlus : Bool) (text : String) : List UInt8 :=
  (Utf8.encode text).flatMap (encodeByte spaceAsPlus)

end NestedQuery.Percent
