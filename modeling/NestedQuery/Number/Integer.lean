import NestedQuery.Number.Numeral

/-! # Integers of fixed width

The integer types of typed data, from 8 to 128 bits, their values, and how text spells them: an
optional sign, `-` for signed types only, then decimal digits. -/

namespace NestedQuery

inductive IntWidth where
  | w8
  | w16
  | w32
  | w64
  | w128
  deriving DecidableEq, Repr

def IntWidth.bits : IntWidth → Nat
  | .w8 => 8
  | .w16 => 16
  | .w32 => 32
  | .w64 => 64
  | .w128 => 128

structure IntType where
  signed : Bool
  width : IntWidth
  deriving DecidableEq, Repr

namespace IntType

def name (t : IntType) : String :=
  (if t.signed then "i" else "u") ++ toString t.width.bits

/-- The number of values that are not negative. -/
def bound (t : IntType) : Nat :=
  Nat.pow 2 (if t.signed then t.width.bits - 1 else t.width.bits)

def min (t : IntType) : Int :=
  if t.signed then -t.bound else 0

def max (t : IntType) : Int :=
  t.bound - 1

def InRange (t : IntType) (n : Int) : Prop :=
  t.min ≤ n ∧ n ≤ t.max

instance (t : IntType) (n : Int) : Decidable (t.InRange n) :=
  inferInstanceAs (Decidable (_ ∧ _))

end IntType

/-- The value of a run of decimal digits, at least one. -/
def readDigits? (digits : List Char) : Option Nat :=
  if digits.isEmpty || !digits.all Char.isDigit then none
  else some (Numeral.value (digits.map fun c => c.toNat - 48))

namespace IntType

/-- Reads digits with a sign that the type has. -/
def readSigned? (t : IntType) : List Char → Option Int
  | [] => none
  | c :: rest =>
    if c = '+' then (readDigits? rest).map fun n => (n : Int)
    else if c = '-' && t.signed then (readDigits? rest).map fun n => -(n : Int)
    else (readDigits? (c :: rest)).map fun n => (n : Int)

end IntType

/-- A value of an integer type. -/
structure FixedInt where
  type : IntType
  val : Int
  inRange : type.InRange val
  deriving DecidableEq

namespace FixedInt

def ofInt? (t : IntType) (n : Int) : Option FixedInt :=
  if h : t.InRange n then some ⟨t, n, h⟩ else none

def text (n : FixedInt) : String :=
  toString n.val

def ofText? (t : IntType) (text : String) : Option FixedInt :=
  (t.readSigned? text.toList).bind (ofInt? t)

end FixedInt

end NestedQuery
