import NestedQuery.Text.Percent

/-! # The key under construction

While a document is written, the key of the place at hand is kept as one buffer of bytes: segments
are pushed on the way down and popped on the way up, each pop cutting the buffer back to where it
stood (`pop_pushBytes`). So a common start of many keys is encoded once. -/

namespace NestedQuery

structure KeyStack where
  spaceAsPlus : Bool
  /-- The key so far. -/
  bytes : ByteArray := .empty
  /-- The length of the key before each of its segments, the last one first. -/
  marks : List Nat := []

namespace Canonical

/-- Bytes that need no look at the encoder: letters, digits, `-`, `_` and `.`. -/
def isPlain (b : UInt8) : Bool :=
  Byte.isDigit b || (0x41 ≤ b && b ≤ 0x5A) || (0x61 ≤ b && b ≤ 0x7A)
    || b == 0x2D || b == 0x5F || b == 0x2E

/-- The spelling of a name; one of plain bytes alone is its own spelling. -/
def encodeName (spaceAsPlus : Bool) (name : String) : List UInt8 :=
  let bytes := Utf8.encode name
  if bytes.all isPlain then bytes else Percent.encode spaceAsPlus name

/-- A name in brackets. The first digit of a name of digits alone is escaped, since otherwise the
name would read back as an index. -/
def bracketName (spaceAsPlus : Bool) (name : String) : List UInt8 :=
  let bytes := Utf8.encode name
  let content :=
    if !bytes.isEmpty && bytes.all Byte.isDigit then Byte.percent :: 0x33 :: bytes
    else encodeName spaceAsPlus name
  Byte.openBracket :: content ++ [Byte.closeBracket]

def bracketIndex (position : Nat) : List UInt8 :=
  Byte.openBracket :: Utf8.encode (toString position) ++ [Byte.closeBracket]

end Canonical

namespace KeyStack

/-- Marks the end of the key and adds bytes to it. -/
def pushBytes (stack : KeyStack) (added : List UInt8) : KeyStack :=
  { stack with
    bytes := stack.bytes ++ added.toByteArray
    marks := stack.bytes.size :: stack.marks }

/-- Adds a name, bare at the root and in brackets below it. -/
def pushName (stack : KeyStack) (name : String) : KeyStack :=
  stack.pushBytes <|
    if stack.marks.isEmpty then Canonical.encodeName stack.spaceAsPlus name
    else Canonical.bracketName stack.spaceAsPlus name

def pushIndex (stack : KeyStack) (position : Nat) : KeyStack :=
  stack.pushBytes (Canonical.bracketIndex position)

/-- Takes the last segment away; an empty key stays empty. -/
def pop (stack : KeyStack) : KeyStack :=
  match stack.marks with
  | [] => stack
  | mark :: marks => { stack with bytes := stack.bytes.extract 0 mark, marks }

theorem pop_pushBytes (stack : KeyStack) (added : List UInt8) :
    (stack.pushBytes added).pop = stack := by
  simp only [pop, pushBytes, ByteArray.extract_append_eq_left rfl]

end KeyStack

end NestedQuery
