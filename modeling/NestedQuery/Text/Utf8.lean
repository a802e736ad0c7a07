/-! # UTF-8

`encode` and `decode?` go from text to bytes and back; `decode?_eq_some_iff` says that the bytes
of a text are the only ones that decode to it. `fault?` locates the first part of a byte string
that no character can start with, and `lossy` puts one replacement character for each such part. -/

namespace NestedQuery.Utf8

def encode (s : String) : List UInt8 :=
  s.toByteArray.data.toList

def decode? (bytes : List UInt8) : Option String :=
  String.fromUTF8? ⟨bytes.toArray⟩

theorem decode?_encode (s : String) : decode? (encode s) = some s := by
  simp [decode?, encode, String.fromUTF8?, s.isValidUTF8, String.fromUTF8]

theorem encode_of_decode? {bytes : List UInt8} {s : String} (h : decode? bytes = some s) :
    encode s = bytes := by
  simp only [decode?, String.fromUTF8?] at h
  split at h
  · cases h; simp [encode, String.fromUTF8]
  · cases h

theorem decode?_eq_some_iff {bytes : List UInt8} {s : String} :
    decode? bytes = some s ↔ bytes = encode s :=
  ⟨fun h => (encode_of_decode? h).symm, fun h => h ▸ decode?_encode s⟩

/-- An inclusive range of bytes. -/
structure Range where
  first : UInt8
  last : UInt8

def Range.contains (r : Range) (b : UInt8) : Bool :=
  r.first ≤ b && b ≤ r.last

/-- The bytes that may continue any character. -/
def continuation : Range := ⟨0x80, 0xBF⟩

/-- What must follow a first byte, position by position: `none` if no character starts with it.
The narrow second ranges keep out overlong forms, surrogates and values above U+10FFFF. -/
def following (b : UInt8) : Option (List Range) :=
  if b < 0x80 then some []
  else if b < 0xC2 then none
  else if b < 0xE0 then some [continuation]
  else if b = 0xE0 then some [⟨0xA0, 0xBF⟩, continuation]
  else if b = 0xED then some [⟨0x80, 0x9F⟩, continuation]
  else if b < 0xF0 then some [continuation, continuation]
  else if b = 0xF0 then some [⟨0x90, 0xBF⟩, continuation, continuation]
  else if b < 0xF4 then some [continuation, continuation, continuation]
  else if b = 0xF4 then some [⟨0x80, 0x8F⟩, continuation, continuation]
  else none

/-- How the bytes at hand meet a list of ranges. -/
inductive Match where
  | complete
  | broken
  | cut
  deriving DecidableEq, Repr

/-- Counts the bytes that meet the ranges in turn and says why the count stops. -/
def matchRanges : List Range → List UInt8 → Nat × Match
  | [], _ => (0, .complete)
  | _ :: _, [] => (0, .cut)
  | r :: rs, b :: bs =>
    if r.contains b then
      let (n, m) := matchRanges rs bs
      (n + 1, m)
    else (0, .broken)

/-- The length and state of the longest part at the front that could still be one character,
given the first byte and the bytes after it. -/
def front (b : UInt8) (rest : List UInt8) : Nat × Match :=
  match following b with
  | none => (1, .broken)
  | some ranges =>
    let (n, m) := matchRanges ranges rest
    (n + 1, m)

/-- The first place at which bytes stop being UTF-8: after `index` good bytes, `length` bytes that
no character starts with, or (`none`) a character that the end cuts short. -/
structure Fault where
  index : Nat
  length : Option Nat
  deriving DecidableEq, Repr

/-- Scans from the byte at position `index` on. -/
def faultFrom (index : Nat) : List UInt8 → Option Fault
  | [] => none
  | b :: rest =>
    match front b rest with
    | (n, .complete) => faultFrom (index + n) (rest.drop (n - 1))
    | (n, .broken) => some ⟨index, some n⟩
    | (_, .cut) => some ⟨index, none⟩
termination_by bytes => bytes.length
decreasing_by simp only [List.length_drop, List.length_cons]; omega

def fault? (bytes : List UInt8) : Option Fault :=
  faultFrom 0 bytes

def Fault.message (f : Fault) : String :=
  match f.length with
  | some n => s!"invalid utf-8 sequence of {n} bytes from index {f.index}"
  | none => s!"incomplete utf-8 byte sequence from index {f.index}"

/-- The character spelled by a first byte and its continuation bytes. -/
def assemble (b : UInt8) (tail : List UInt8) : Char :=
  let lead := b.toNat % if tail.isEmpty then 0x80 else Nat.pow 2 (6 - tail.length)
  Char.ofNat (tail.foldl (fun n b => 0x40 * n + b.toNat % 0x40) lead)

def replacement : Char := '\uFFFD'

/-- Appends to `text` what the bytes spell. -/
def lossyFrom (text : String) : List UInt8 → String
  | [] => text
  | b :: rest =>
    let (n, m) := front b rest
    let c := if m = .complete then assemble b (rest.take (n - 1)) else replacement
    lossyFrom (text.push c) (rest.drop (n - 1))
termination_by bytes => bytes.length
decreasing_by simp only [List.length_drop, List.length_cons]; omega

/-- Decodes bytes that may not be UTF-8, one replacement character for each maximal part that no
character starts with. -/
def lossy (bytes : List UInt8) : String :=
  lossyFrom "" bytes

end NestedQuery.Utf8
