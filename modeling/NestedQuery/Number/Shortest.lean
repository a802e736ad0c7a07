import NestedQuery.Number.Binary

/-! # Shortest decimal digits

Of all decimals that round to a floating-point number, those with the fewest digits are taken, and
of these the nearest one; of two equally near ones the even one. The search tries the two decimals
around the number on ever finer grids, in exact arithmetic. -/

namespace NestedQuery.Binary

/-- A positive number and the interval of the reals that round to it, as fractions over `den`. -/
structure Interval where
  low : Nat
  value : Nat
  high : Nat
  den : Nat
  /-- Whether the ends round to the number too. -/
  closed : Bool

/-- A decimal `coefficient * 10 ^ exponent`. -/
structure Digits where
  coefficient : Nat
  exponent : Int
  deriving DecidableEq, Repr

/-- The interval around `significand * 2 ^ scale` units. It reaches half way to the neighbours; the
one below a power of two is nearer, unless it lies in the range of the smallest scale. -/
def Format.interval (f : Format) (significand scale : Nat) : Interval :=
  let gap := Nat.pow 2 scale
  let value := 4 * (significand * gap)
  let below := if significand = f.fractionBound && scale ≠ 0 then gap else 2 * gap
  { low := value - below
    value
    high := value + 2 * gap
    den := 4 * f.unitsInOne
    closed := significand % 2 == 0 }

/-- The number of decimal digits of a natural number; zero has none. -/
def decimalLength (n : Nat) : Nat :=
  if n = 0 then 0 else decimalLength (n / 10) + 1

namespace Interval
variable (i : Interval)

/-- The exponent of the leading digit. -/
def leading : Int :=
  if i.den ≤ i.value then (decimalLength (i.value / i.den) : Int) - 1
  else -decimalLength ((i.den - 1) / i.value)

/-- Whether the fraction `num / den` over the scale of the grid lies in the interval. -/
def holds (num low high : Nat) : Bool :=
  if i.closed then low ≤ num && num ≤ high else low < num && num < high

/-- The decimal on the grid `10 ^ exponent` that lies in the interval and is nearest to the number,
if there is one. -/
def onGrid (exponent : Int) : Option Digits :=
  let up := Nat.pow 10 (-exponent).toNat
  let step := Nat.pow 10 exponent.toNat * i.den
  let value := i.value * up
  let below := value / step
  let rest := 2 * (value % step)
  let hit := fun n => i.holds (n * step) (i.low * up) (i.high * up)
  let nearBelow := rest < step || (rest == step && below % 2 == 0)
  if hit below && (nearBelow || !hit (below + 1)) then some ⟨below, exponent⟩
  else if hit (below + 1) then some ⟨below + 1, exponent⟩
  else none

end Interval

/-- The same decimal without trailing zeros. -/
def Digits.strip (d : Digits) : Digits :=
  if d.coefficient ≠ 0 ∧ d.coefficient % 10 = 0 then
    Digits.strip ⟨d.coefficient / 10, d.exponent + 1⟩
  else d
termination_by d.coefficient
decreasing_by omega

/-- The exact value of the number, whose denominator is a power of two. -/
def Interval.exact (i : Interval) : Digits :=
  ⟨i.value * Nat.pow 5 i.den.log2, -i.den.log2⟩

/-- The digits of a positive number. Seventeen are enough for a precision of 53 bits. -/
def Interval.shortest (i : Interval) : Digits :=
  let found := (List.range 17).findSome? fun (more : Nat) => i.onGrid (i.leading - more)
  (found.getD i.exact).strip

end NestedQuery.Binary
