import NestedQuery.Number.Numeral

/-! # Bytes of a query

The bytes that give a query its structure, and the byte classes its grammar tells apart: controls,
decimal digits and hex digits. `hexValue?_hexDigit`: writing a half byte as a hex digit and reading
it back is the identity. -/

namespace NestedQuery.Byte

abbrev ampersand : UInt8 := 0x26
abbrev equals : UInt8 := 0x3D
abbrev openBracket : UInt8 := 0x5B
abbrev closeBracket : UInt8 := 0x5D
abbrev questionMark : UInt8 := 0x3F
abbrev percent : UInt8 := 0x25
abbrev plus : UInt8 := 0x2B
abbrev space : UInt8 := 0x20

def isBracket (b : UInt8) : Bool :=
  b == openBracket || b == closeBracket

/-- The C0 controls and DEL, which may stand nowhere in a query, raw or escaped. -/
def isControl (b : UInt8) : Bool :=
  b ≤ 0x1F || b == 0x7F

def isDigit (b : UInt8) : Bool :=
  0x30 ≤ b && b ≤ 0x39

/-- Reads a hex digit of either case. -/
def hexValue? (b : UInt8) : Option UInt8 :=
  if isDigit b then some (b - 0x30)
  else if 0x41 ≤ b && b ≤ 0x46 then some (b - 0x37)
  else if 0x61 ≤ b && b ≤ 0x66 then some (b - 0x57)
  else none

/-- Half a byte as an uppercase hex digit. -/
def hexDigit (n : UInt8) : UInt8 :=
  if n < 10 then 0x30 + n else 0x37 + n

/-- A statement about every byte can be checked byte by byte. -/
theorem forall_of_fin {P : UInt8 → Prop} (h : ∀ k : Fin 256, P (UInt8.ofFin k)) (b : UInt8) :
    P b :=
  h b.toFin

theorem hexValue?_hexDigit (n : UInt8) : n < 16 → hexValue? (hexDigit n) = some n :=
  forall_of_fin (P := fun n => n < 16 → hexValue? (hexDigit n) = some n) (by decide +kernel) n

/-- The value of a run of decimal digits, most significant first. -/
def decimal (digits : List UInt8) : Nat :=
  Numeral.value (digits.map fun b => b.toNat - 0x30)

end NestedQuery.Byte
