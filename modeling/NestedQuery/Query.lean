import NestedQuery.Config
import NestedQuery.KeyPath.Raw
import NestedQuery.Tree.Finish

/-! # Reading queries

A query is a list of pairs joined by `&`. Its length and the number of its pairs are checked before
anything is read; then the pairs are read from left to right, and the first error ends the reading.
In a pair the brackets of the key are checked first, then its depth, its names and the value, and at
last the write into the tree. -/

namespace NestedQuery

namespace Config

/-- The limit, if `actual` exceeds it. -/
def exceeded? (limit : Option Nat) (actual : Nat) : Option Nat :=
  limit.filter (· < actual)

def checkLength (config : Config) (length : Nat) : Result Unit :=
  match exceeded? config.maxLength length with
  | some limit => .error (.inputTooLong limit length)
  | none => .ok ()

def checkParams (config : Config) (count : Nat) : Result Unit :=
  match exceeded? config.maxParams count with
  | some limit => .error (.tooManyParameters limit count)
  | none => .ok ()

def checkDepth (config : Config) (key : List UInt8) (depth : Nat) : Result Unit :=
  match exceeded? config.maxDepth depth with
  | some limit => .error (.depthExceeded (Utf8.lossy key) depth limit)
  | none => .ok ()

end Config

namespace Query

/-- The bytes before the first `&`, and the segments after it. -/
def split (bytes : List UInt8) : List UInt8 × List (List UInt8) :=
  bytes.foldr
    (fun b (first, later) =>
      if b = Byte.ampersand then ([], first :: later) else (b :: first, later))
    ([], [])

/-- The segments between the `&`s, empty ones included. -/
def segments (bytes : List UInt8) : List (List UInt8) :=
  (split bytes).1 :: (split bytes).2

/-- A pair, cut at its first `=`. Without one the value is empty. -/
structure Pair where
  key : List UInt8
  value : List UInt8

namespace Pair

def ofSegment (segment : List UInt8) : Pair where
  key := segment.takeWhile (· != Byte.equals)
  value := (segment.dropWhile (· != Byte.equals)).drop 1

/-- Decodes the key that starts at `offset`. -/
def readKey (config : Config) (offset : Nat) (pair : Pair) : Result KeyPath := do
  let raw ← KeyPath.tokenize offset pair.key
  config.checkDepth pair.key raw.segments.length
  raw.decode config.spaceAsPlus offset

end Pair

/-- Writes the pair in the segment that starts at `offset` into a tree. A pair without a key writes
nothing, but its value is checked all the same. -/
def readPair (config : Config) (offset : Nat) (segment : List UInt8) (tree : Tree) :
    Result Tree := do
  let pair := Pair.ofSegment segment
  let valueOffset := offset + (segment.length - pair.value.length)
  if pair.key.isEmpty then
    let _ ← Percent.decode config.spaceAsPlus valueOffset pair.value
    return tree
  let path ← pair.readKey config offset
  let value ← Percent.decode config.spaceAsPlus valueOffset pair.value
  tree.insert path value

/-- A tree under construction, and where the next segment starts in the input. -/
structure Progress where
  offset : Nat
  tree : Tree

def Progress.read (config : Config) (p : Progress) (segment : List UInt8) : Result Progress :=
  let ⟨offset, tree⟩ := p
  Progress.mk (offset + segment.length + 1) <$>
    if segment.isEmpty then .ok tree else readPair config offset segment tree

/-- Reads segments in order, the first of which starts at `offset`. -/
def readAll (config : Config) (offset : Nat) (segments : List (List UInt8)) : Result Tree := do
  let p ← segments.foldlM (Progress.read config) ⟨offset, .empty⟩
  return p.tree

/-- The query without the `?` that may lead it, and its offset in the input. -/
def body : List UInt8 → List UInt8 × Nat
  | [] => ([], 0)
  | b :: rest => if b = Byte.questionMark then (rest, 1) else (b :: rest, 0)

/-- The document that a query spells. -/
def parse (config : Config) (input : List UInt8) : Result Document := do
  config.checkLength input.length
  let (bytes, offset) := body input
  let segments := segments bytes
  config.checkParams (segments.countP (!·.isEmpty))
  let tree ← readAll config offset segments
  return tree.finish

/-- Reads a query given as text. -/
def parseText (config : Config) (text : String) : Result Document :=
  parse config (Utf8.encode text)

end Query

end NestedQuery
