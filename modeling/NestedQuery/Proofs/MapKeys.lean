import NestedQuery.Proofs.Naming
import NestedQuery.Proofs.ScalarText
import NestedQuery.Proofs.TypedData

/-!
# Map keys as texts and as scalars

Data that can be a map key is encoded as the same text in both places (`encode_of_encodeKey`), and
read back from that text where it stands for a value (`read_of_encodeKey`). Where it stands for a
key it is read back unless it is a newtype, which no key is read as: `readKey_encodeKey`.
-/

namespace NestedQuery

namespace Data

def isNewtype : Data → Bool
  | .newtype _ => true
  | _ => false

/-- As a value, a key is the scalar of its text. -/
theorem encode_of_encodeKey : ∀ (key : Data) {text : String}, key.encodeKey = .ok text →
    key.encode = .ok (some (.scalar text))
  | .bool _, _, h | .int _, _, h | .single _, _, h | .double _, _, h | .char _, _, h
  | .text _, _, h | .unitVariant _, _, h => by
    cases h
    rfl
  | .bytes bs, _, h => by
    rw [encodeKey] at h
    rw [encode, h]
    rfl
  | .newtype inner, _, h => by
    rw [encodeKey] at h
    rw [encode, encode_of_encodeKey inner h]
  | .absent, _, h | .present _, _, h | .unit, _, h | .seq _, _, h | .map _, _, h | .struct _, _, h
  | .newtypeVariant _ _, _, h | .tupleVariant _ _, _, h | .structVariant _ _, _, h
  | .valueOnly _, _, h | .keyOnly _, _, h => by
    cases h

theorem textOfBytes_eq_ok {bs : List UInt8} {text : String} (h : textOfBytes bs = .ok text) :
    Utf8.encode text = bs := by
  rw [textOfBytes] at h
  split at h
  · rename_i decoded hdecode
    cases h
    exact Utf8.encode_of_decode? hdecode
  · cases h

variable {s : Schema} {key : Data} {text : String}

/-- A key that is no newtype is read back from its text, for a key and for a value alike. -/
theorem readKey_of_encodeKey (holds : s.Holds key) (h : key.encodeKey = .ok text)
    (bare : key.isNewtype = false) :
    s.readKey text = .ok key ∧ s.read (.scalar text) = .ok key := by
  cases holds with
  | bool b =>
    cases h
    have hread : Schema.readKey .bool (boolText b) = .ok (.bool b) := by
      rw [Schema.readKey, Schema.readBool?_boolText]
      rfl
    exact ⟨hread, hread⟩
  | int n =>
    cases h
    have hread : Schema.readKey (.int n.type) n.text = .ok (.int n) := by
      rw [Schema.readKey, FixedInt.ofText?_text]
      rfl
    exact ⟨hread, hread⟩
  | char c =>
    cases h
    exact ⟨Schema.readChar_singleton c, Schema.readChar_singleton c⟩
  | string s =>
    cases h
    exact ⟨rfl, rfl⟩
  | bytes bs =>
    obtain rfl := textOfBytes_eq_ok h
    exact ⟨rfl, rfl⟩
  | enum name distinct mem hvariant =>
    cases hvariant with
    | unit variant =>
      cases h
      have hread := Schema.readVariantName_of_mem distinct mem
      refine ⟨by rw [Schema.readKey, hread], by rw [Schema.read, hread]⟩
    | newtype | tuple | struct => cases h
  | newtype => cases bare
  | unit | unitStruct | absent | present | seq | tuple | tupleStruct | map | struct => cases h

/-- Where it stands for a value, a key is read back from its text. -/
theorem read_of_encodeKey : ∀ (key : Data) {s : Schema} {text : String}, s.Holds key →
    key.encodeKey = .ok text → s.read (.scalar text) = .ok key
  | .newtype inner, _, _, holds, h => by
    cases holds with
    | newtype name holds =>
      rw [Schema.read, read_of_encodeKey inner holds h]
      rfl
    | enum _ _ _ hvariant => cases hvariant
  | .bool _, _, _, holds, h | .int _, _, _, holds, h | .single _, _, _, holds, h
  | .double _, _, _, holds, h | .char _, _, _, holds, h | .text _, _, _, holds, h
  | .unitVariant _, _, _, holds, h | .bytes _, _, _, holds, h | .absent, _, _, holds, h
  | .present _, _, _, holds, h | .unit, _, _, holds, h | .seq _, _, _, holds, h
  | .map _, _, _, holds, h | .struct _, _, _, holds, h | .newtypeVariant _ _, _, _, holds, h
  | .tupleVariant _ _, _, _, holds, h | .structVariant _ _, _, _, holds, h
  | .valueOnly _, _, _, holds, h | .keyOnly _, _, _, holds, h =>
    (readKey_of_encodeKey holds h rfl).2

theorem readKey_newtype (holds : s.Holds key) (h : key.isNewtype = true) (text : String) :
    s.readKey text = invalidType (.text text) s.expected := by
  cases key with
  | newtype =>
    cases holds with
    | newtype => rfl
    | enum _ _ _ hvariant => cases hvariant
  | _ => cases h

/-- A key is encoded as the same text for a key and for a value. From that text its schema reads the
key back for a value, and for a key too if it is no newtype; a newtype is refused there. -/
theorem readKey_encodeKey (h : key.encodeKey = .ok text) :
    key.encode = .ok (some (.scalar text)) ∧
      ∀ s : Schema, s.Holds key →
        s.read (.scalar text) = .ok key ∧
          s.readKey text =
            if key.isNewtype then invalidType (.text text) s.expected else .ok key := by
  refine ⟨encode_of_encodeKey key h, fun s holds => ⟨read_of_encodeKey key holds h, ?_⟩⟩
  split
  · rename_i hnewtype
    exact readKey_newtype holds hnewtype text
  · rename_i hbare
    exact (readKey_of_encodeKey holds h (by simpa using hbare)).1

/-- The least number of its width, as it is and in two newtypes. -/
theorem readKey_encodeKey_of_least :
    let least : FixedInt := ⟨⟨true, .w128⟩, -170141183460469231731687303715884105728, by decide⟩
    let text := "-170141183460469231731687303715884105728"
    let boxed : Schema := .newtype "Outer" (.newtype "Inner" (.int least.type))
    (int least).encodeKey = .ok text ∧ Schema.readKey (.int least.type) text = .ok (.int least) ∧
      (newtype (newtype (int least))).encodeKey = .ok text ∧
      boxed.read (.scalar text) = .ok (.newtype (.newtype (.int least))) ∧
      boxed.readKey text = invalidType (.text text) "tuple struct Outer" := by
  intro least text boxed
  have h : (int least).encodeKey = .ok text := rfl
  have hboxed : (newtype (newtype (int least))).encodeKey = .ok text := h
  have hread := (readKey_encodeKey h).2 (.int least.type) (.int least)
  obtain ⟨hvalue, hkey⟩ := (readKey_encodeKey hboxed).2 boxed (.newtype _ (.newtype _ (.int least)))
  exact ⟨h, hread.2, hboxed, hvalue, hkey⟩

/-- A newtype is written as a key but not read as one. -/
theorem not_readKey_of_newtype :
    ¬ ∀ (s : Schema) (key : Data) (text : String), s.Holds key → key.encodeKey = .ok text →
      s.readKey text = .ok key := by
  intro h
  have hread :=
    h (.newtype "Id" .string) (.newtype (.text "x")) "x" (.newtype "Id" (.string "x")) rfl
  cases hread

end Data

end NestedQuery
