import NestedQuery.Number.Shortest

/-! # Text of floating-point numbers

How the shortest digits of a number are laid out: positionally, always with a point and a digit on
both sides of it, or with an exponent, if the point would stand too far from the digits. -/

namespace NestedQuery.Binary

/-- Where positional layout ends. With the point after the first `p` digits of a number (before the
first digit if `p` is zero or less) it is used for `lowest < p ≤ highest`. -/
structure Layout where
  lowest : Int
  highest : Int

/-- Single precision is written positionally from 1e-6 up to 13 digits before the point. -/
def singleLayout : Layout := ⟨-6, 13⟩

/-- Double precision is written positionally from 1e-5 up to 16 digits before the point. -/
def doubleLayout : Layout := ⟨-5, 16⟩

/-- The digits `d` with the point after the first `point` of them. -/
def Layout.render (layout : Layout) (d : Digits) : String :=
  let digits := Nat.toDigits 10 d.coefficient
  let point := digits.length + d.exponent
  if 0 ≤ d.exponent && point ≤ layout.highest then
    String.ofList (digits ++ List.replicate d.exponent.toNat '0' ++ ['.', '0'])
  else if 0 < point && point ≤ layout.highest then
    String.ofList (digits.take point.toNat ++ '.' :: digits.drop point.toNat)
  else if layout.lowest < point && point ≤ 0 then
    String.ofList ('0' :: '.' :: List.replicate (-point).toNat '0' ++ digits)
  else
    let fraction := if digits.length ≤ 1 then [] else '.' :: digits.drop 1
    String.ofList (digits.take 1 ++ fraction) ++ "e" ++ toString (point - 1)

/-- The text of a bit pattern. -/
def Format.text (f : Format) (layout : Layout) (bits : Nat) : String :=
  match f.decode bits with
  | .nan => "NaN"
  | .infinite negative => if negative then "-inf" else "inf"
  | .finite negative significand scale =>
    let digits :=
      if significand = 0 then "0.0"
      else layout.render (f.interval significand scale).shortest
    if negative then "-" ++ digits else digits

def Format.isNaN (f : Format) (bits : Nat) : Bool :=
  f.decode bits == .nan

end NestedQuery.Binary
