import NestedQuery.Proofs.Decoding
import NestedQuery.Proofs.Limits

/-!
# Outcomes without places

An error tells where it is, and but for that no outcome depends on where the bytes stand that are
read: a component (`kind_decode`), a key or a segment comes to the same at any offset, or to an
error of the same kind (`kind_readWrite_offset`). So up to that a query comes to what its pairs come
to one after another, wherever they stand (`kind_parse`).
-/

namespace NestedQuery

namespace Percent

/-- What comes of a component but for where it went wrong: that depends on the presence of defects
alone. -/
theorem kind_decode (read : Bool) (offset : Nat) (bytes : List UInt8) :
    (decode read offset bytes).mapError Error.kind =
      if (first? malformed? offset bytes).isSome then .error .invalidPercentEncoding
      else match Utf8.decode? (unescape (spaces read bytes)) with
        | none => .error .invalidUtf8
        | some text =>
          if (first? forbidden? offset bytes).isSome then .error .invalidCharacter
          else if (first? question? offset bytes).isSome then .error .unexpectedQuestionMark
          else .ok text := by
  rw [decode_eq]
  cases first? malformed? offset bytes with
  | some => rfl
  | none =>
    cases Utf8.decode? (unescape (spaces read bytes)) with
    | none => rfl
    | some text =>
      cases first? forbidden? offset bytes with
      | some => rfl
      | none => cases first? question? offset bytes <;> rfl

theorem isSome_first?_offset {α : Type} (f : List UInt8 → Option α) (index index' : Nat)
    (bytes : List UInt8) : (first? f index' bytes).isSome = (first? f index bytes).isSome := by
  induction bytes generalizing index index' with
  | nil => rfl
  | cons b rest ih =>
    simp only [first?, Option.isSome_or, Option.isSome_map, ih (index + 1) (index' + 1)]

theorem kind_decode_offset (read : Bool) (offset offset' : Nat) (bytes : List UInt8) :
    (decode read offset' bytes).mapError Error.kind =
      (decode read offset bytes).mapError Error.kind := by
  rw [kind_decode, kind_decode, isSome_first?_offset malformed? offset offset',
    isSome_first?_offset forbidden? offset offset', isSome_first?_offset question? offset offset']

end Percent

theorem RawSegment.kind_decode_offset (read : Bool) (offset offset' : Nat) (raw : RawSegment) :
    (raw.decode read offset').mapError Error.kind =
      (raw.decode read offset).mapError Error.kind := by
  cases raw with
  | name content position =>
    rw [decode, decode, Result.mapError_map, Result.mapError_map,
      Percent.kind_decode_offset read (offset + position)]
  | index | append => rfl

theorem RawKeyPath.kind_decode_offset (read : Bool) (offset offset' : Nat) (raw : RawKeyPath) :
    (raw.decode read offset').mapError Error.kind =
      (raw.decode read offset).mapError Error.kind := by
  simp only [decode, Result.mapError_bind, Result.mapError_mapM,
    Percent.kind_decode_offset read offset offset',
    RawSegment.kind_decode_offset read offset offset']

namespace Query
variable {config : Config} {offset : Nat} {segment : List UInt8}

theorem Pair.kind_readKey_offset (config : Config) (offset offset' : Nat) (pair : Pair) :
    (pair.readKey config offset').mapError Error.kind =
      (pair.readKey config offset).mapError Error.kind := by
  rw [readKey, readKey, KeyPath.tokenize, KeyPath.tokenize]
  cases RawKeyPath.tokenize pair.key with
  | error => rfl
  | ok raw =>
    simp only [Result.mapError_ok, Result.ok_bind, Result.mapError_bind,
      RawKeyPath.kind_decode_offset _ offset offset']

theorem kind_readWrite_offset (config : Config) (offset offset' : Nat) (segment : List UInt8) :
    (readWrite config offset' segment).mapError Error.kind =
      (readWrite config offset segment).mapError Error.kind := by
  have hvalue := Percent.kind_decode_offset config.spaceAsPlus
    (offset + (segment.length - (Pair.ofSegment segment).value.length))
    (offset' + (segment.length - (Pair.ofSegment segment).value.length))
    (Pair.ofSegment segment).value
  rw [readWrite, readWrite]
  split
  · rw [Result.mapError_bind, Result.mapError_bind, hvalue]
  · simp only [Result.mapError_bind, hvalue, Pair.kind_readKey_offset config offset offset']

/-- Where a segment stands does not matter to what it is read as. -/
theorem readWrite_offset (offset' : Nat) {w : Option (KeyPath × String)}
    (h : readWrite config offset segment = .ok w) : readWrite config offset' segment = .ok w := by
  have hkind := kind_readWrite_offset config offset offset' segment
  exact Result.mapError_eq_ok.1 (hkind.trans (Result.mapError_eq_ok.2 h))

theorem kind_readPair_offset (config : Config) (offset offset' : Nat) (segment : List UInt8)
    (tree : Tree) :
    (readPair config offset' segment tree).mapError Error.kind =
      (readPair config offset segment tree).mapError Error.kind := by
  rw [readPair_eq, readPair_eq, Result.mapError_bind, Result.mapError_bind,
    kind_readWrite_offset config offset]

/-- What the pair in a segment makes of a tree, or the kind of its error. -/
def kindStep (config : Config) (tree : Tree) (segment : List UInt8) : Except ErrorKind Tree :=
  (readPair config 0 segment tree).mapError Error.kind

theorem kind_parse (config : Config) (input : List UInt8) :
    (parse config.unlimited input).mapError Error.kind =
      Tree.finish <$> (spellings input).foldlM (kindStep config.unlimited) .empty := by
  rw [parse_unlimited, Result.mapError_map, Result.mapError_foldlM, ← map_locatedIn,
    List.foldlM_map]
  congr 2
  funext tree p
  exact kind_readPair_offset _ 0 p.1 p.2 tree

end Query

end NestedQuery
