import NestedQuery.Number.Binary
import NestedQuery.Number.Numeral

/-! # Decimal numerals

Decimal text of floating-point numbers: an optional sign, digits with an optional point somewhere
before, between or after them, and an optional exponent; or one of the words `inf`, `infinity` and
`nan` in any case. An exponent takes digits until it reaches `exponentLimit`, and those after that
change nothing. `Format.ofText?` rounds the exact value of digits and exponent once. -/

namespace NestedQuery

/-- A magnitude as text spells it: digits as a whole number, times a power of ten. -/
structure Decimal where
  digits : List Char
  exponent : Int

namespace Decimal

/-- The size from which an exponent takes no further digit. -/
def exponentLimit : Nat := 65536

/-- The size of an exponent, at least one digit. -/
def readMagnitude? (digits : List Char) : Option Nat :=
  if digits.isEmpty || !digits.all Char.isDigit then none
  else
    some (digits.foldl (fun n c => if n < exponentLimit then 10 * n + (c.toNat - 48) else n) 0)

/-- The exponent after the `e`, with an optional sign. -/
def readExponent? : List Char → Option Int
  | [] => none
  | c :: rest =>
    if c = '-' then (readMagnitude? rest).map fun n => -(n : Int)
    else if c = '+' then (readMagnitude? rest).map fun n => (n : Int)
    else (readMagnitude? (c :: rest)).map fun n => (n : Int)

/-- Reads what follows the digits: nothing or an exponent. -/
def readScale? : List Char → Option Int
  | [] => some 0
  | c :: rest => if c = 'e' || c = 'E' then readExponent? rest else none

/-- Reads a numeral without a sign: there is a digit before or after the point. -/
def read? (text : List Char) : Option Decimal :=
  let whole := text.takeWhile Char.isDigit
  let rest := text.dropWhile Char.isDigit
  let (fraction, rest) :=
    match rest with
    | '.' :: rest => (rest.takeWhile Char.isDigit, rest.dropWhile Char.isDigit)
    | rest => ([], rest)
  let digits := whole ++ fraction
  if digits.isEmpty then none
  else (readScale? rest).map fun scale => ⟨digits, scale - fraction.length⟩

end Decimal

namespace Binary.Format
variable (f : Format)

/-- The bits nearest to a decimal. A value so large or so small that its power of ten alone decides
is never written out. -/
def ofDecimal (d : Decimal) : Nat :=
  let digits := d.digits.dropWhile (· == '0')
  let magnitude := d.exponent + digits.length
  if digits.isEmpty || magnitude < -400 then 0
  else if 400 < magnitude then f.infinityBits
  else
    let n := Numeral.value (digits.map fun c => c.toNat - 48)
    f.round (n * Nat.pow 10 d.exponent.toNat * f.unitsInOne) (Nat.pow 10 (-d.exponent).toNat)

/-- The bits that a text without a sign spells. -/
def ofUnsigned? (text : List Char) : Option Nat :=
  let word := text.map Char.toLower
  if word = ['i', 'n', 'f'] || word = ['i', 'n', 'f', 'i', 'n', 'i', 't', 'y'] then
    some f.infinityBits
  else if word = ['n', 'a', 'n'] then some f.nanBits
  else (Decimal.read? text).map f.ofDecimal

/-- The bits that a text spells. -/
def ofText? (text : String) : Option Nat :=
  match text.toList with
  | [] => none
  | c :: rest =>
    if c = '-' then (f.ofUnsigned? rest).map (f.withSign true)
    else if c = '+' then f.ofUnsigned? rest
    else f.ofUnsigned? (c :: rest)

end Binary.Format

end NestedQuery
