import NestedQuery.KeyPath
import NestedQuery.Text.Percent

/-! # Raw keys

The grammar of keys before percent-decoding: a root without brackets, then groups of brackets with
bracket-free content. Escaped brackets are no brackets, so the grammar is read off the raw bytes. -/

namespace NestedQuery

/-- A bracket group whose name is still encoded, with the position of its content in the key. -/
inductive RawSegment where
  | name (content : List UInt8) (position : Nat)
  | index (position : Nat)
  | append
  deriving DecidableEq, Repr

structure RawKeyPath where
  root : List UInt8
  segments : List RawSegment
  deriving DecidableEq, Repr

/-- The number of list positions an index can name, 2^64. -/
def indexBound : Nat := 0x10000000000000000

namespace RawSegment

/-- Reads the content of a group. Digits name a position; a number too large for one is a name. -/
def classify (content : List UInt8) (position : Nat) : RawSegment :=
  if content.isEmpty then .append
  else if content.all Byte.isDigit && Byte.decimal content < indexBound then
    .index (Byte.decimal content)
  else .name content position

/-- Decodes the name of a group of the key that starts at `offset`. -/
def decode (spaceAsPlus : Bool) (offset : Nat) : RawSegment → Result Segment
  | .name content position => .name <$> Percent.decode spaceAsPlus (offset + position) content
  | .index position => .ok (.index position)
  | .append => .ok .append

end RawSegment

namespace RawKeyPath

theorem length_dropWhile_le {α : Type} (p : α → Bool) (l : List α) :
    (l.dropWhile p).length ≤ l.length :=
  (List.dropWhile_sublist p).length_le

/-- Reads the groups in the bytes from `position` on, or fails with the position of the first byte
that fits no group, or of the bracket left open. -/
def groups (position : Nat) : List UInt8 → Except Nat (List RawSegment)
  | [] => .ok []
  | b :: rest =>
    if b ≠ Byte.openBracket then .error position
    else
      let content := rest.takeWhile (!Byte.isBracket ·)
      match _h : rest.dropWhile (!Byte.isBracket ·) with
      | [] => .error position
      | close :: rest' =>
        let stop := position + 1 + content.length
        if close = Byte.openBracket then .error stop
        else do
          let segments ← groups (stop + 1) rest'
          return .classify content (position + 1) :: segments
termination_by bytes => bytes.length
decreasing_by
  have h := length_dropWhile_le (!Byte.isBracket ·) rest
  rw [_h] at h
  simp only [List.length_cons] at h ⊢
  omega

/-- Splits a raw key, or fails with the position of the byte that breaks the grammar. -/
def tokenize (key : List UInt8) : Except Nat RawKeyPath :=
  let root := key.takeWhile (!Byte.isBracket ·)
  let rest := key.dropWhile (!Byte.isBracket ·)
  if root.isEmpty then .error 0
  else do
    let segments ← groups root.length rest
    return ⟨root, segments⟩

/-- Decodes the names of the key that starts at `offset`, from left to right. -/
def decode (spaceAsPlus : Bool) (offset : Nat) (path : RawKeyPath) : Result KeyPath := do
  let root ← Percent.decode spaceAsPlus offset path.root
  let segments ← path.segments.mapM (RawSegment.decode spaceAsPlus offset)
  return ⟨root, segments⟩

end RawKeyPath

namespace KeyPath

/-- Splits the raw key that starts at `offset`. -/
def tokenize (offset : Nat) (key : List UInt8) : Result RawKeyPath :=
  (RawKeyPath.tokenize key).mapError fun position =>
    .unmatchedBracket (Utf8.lossy key) (offset + position)

/-- Reads a key that stands alone; a `+` in it is a `+`. -/
def parse (key : String) : Result KeyPath := do
  let raw ← tokenize 0 (Utf8.encode key)
  raw.decode false 0

end KeyPath

end NestedQuery
