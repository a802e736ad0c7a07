/-! # Binary floating-point formats

A format has a precision (the bits of a significand, the leading one included) and a width of the
exponent field. Every finite magnitude of a format is a whole multiple of its smallest one, so a
magnitude is a natural number, counted in that unit; `Format.round` puts any fraction of the unit
on the nearest magnitude, of two equally near ones on the one with the even significand. -/

namespace NestedQuery.Binary

structure Format where
  precision : Nat
  exponentBits : Nat
  deriving DecidableEq, Repr

def single : Format := ⟨24, 8⟩
def double : Format := ⟨53, 11⟩

/-- What a bit pattern stands for. A finite magnitude is `significand * 2 ^ scale` units. -/
inductive Datum where
  | nan
  | infinite (negative : Bool)
  | finite (negative : Bool) (significand scale : Nat)
  deriving DecidableEq, Repr

namespace Format
variable (f : Format)

/-- The first exponent field's weight: the size of the fraction field. -/
def fractionBound : Nat := Nat.pow 2 (f.precision - 1)

/-- The exponent field of infinities and of what is no number. -/
def exponentTop : Nat := Nat.pow 2 f.exponentBits - 1

/-- One is this many units. -/
def unitsInOne : Nat := Nat.pow 2 (Nat.pow 2 (f.exponentBits - 1) + f.precision - 3)

def infinityBits : Nat := f.exponentTop * f.fractionBound

def nanBits : Nat := f.infinityBits + f.fractionBound / 2

def signBit : Nat := Nat.pow 2 f.exponentBits * f.fractionBound

def withSign (negative : Bool) (bits : Nat) : Nat :=
  if negative then f.signBit + bits else bits

def decode (bits : Nat) : Datum :=
  let negative := decide (f.signBit ≤ bits)
  let fraction := bits % f.fractionBound
  let exponent := bits / f.fractionBound % Nat.pow 2 f.exponentBits
  if exponent = f.exponentTop then
    if fraction = 0 then .infinite negative else .nan
  else if exponent = 0 then .finite negative fraction 0
  else .finite negative (f.fractionBound + fraction) (exponent - 1)

/-- The whole number nearest to `num / den`, the even one of two. -/
def roundHalfEven (num den : Nat) : Nat :=
  let whole := num / den
  let rest := 2 * (num % den)
  if rest < den || (rest == den && whole % 2 == 0) then whole else whole + 1

/-- The bits of the magnitude nearest to `num / den` units. -/
def round (num den : Nat) : Nat :=
  let scale := (num / den).log2 + 1 - f.precision
  let bits := scale * f.fractionBound + roundHalfEven num (den * Nat.pow 2 scale)
  if bits < f.infinityBits then bits else f.infinityBits

end Format

end NestedQuery.Binary
