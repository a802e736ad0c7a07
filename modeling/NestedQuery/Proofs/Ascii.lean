import Mathlib.Data.List.Forall2
import Mathlib.Tactic.IntervalCases
import Mathlib.Tactic.SplitIfs
import NestedQuery.Canonical
import NestedQuery.Number.Numeral

/-!
# Text of ASCII characters

An ASCII character is one byte of UTF-8, so bytes below 0x80 and the text of them are the same
thing (`encode_asciiText`), and one such byte may stand for another without a change to what is
UTF-8 (`Valid.of_forall₂`). A text has the bytes of digits exactly if it is one of digits
(`all_isDigit_encode`); the decimal text of a number is, and has that value
(`all_isDigit_decimal`, `decimal_encode`).
-/

namespace NestedQuery

namespace Utf8

theorem encode_append (front back : String) :
    encode (front ++ back) = encode front ++ encode back := by
  rw [encode, String.toByteArray_append]
  simp [encode]

theorem utf8EncodeChar_ascii {c : Char} (h : c.toNat < 0x80) :
    String.utf8EncodeChar c = [UInt8.ofNat c.toNat] := by
  rw [String.utf8EncodeChar_eq_singleton (Char.utf8Size_eq_one_iff.2 (by
    rw [UInt32.le_iff_toNat_le]; exact Nat.le_of_lt_succ h))]
  rfl

theorem encode_ofList (chars : List Char) :
    encode (String.ofList chars) = chars.flatMap String.utf8EncodeChar := by
  simp [encode, List.utf8Encode]

theorem encode_ofList_ascii {chars : List Char} (h : ∀ c ∈ chars, c.toNat < 0x80) :
    encode (String.ofList chars) = chars.map fun c => UInt8.ofNat c.toNat := by
  rw [encode_ofList]
  induction chars with
  | nil => rfl
  | cons c cs ih =>
    rw [List.flatMap_cons, utf8EncodeChar_ascii (h c (by simp)), List.map_cons,
      ih fun c hc => h c (by simp [hc])]
    rfl

end Utf8

theorem Byte.toNat_char (b : UInt8) : (Char.ofNat b.toNat).toNat = b.toNat :=
  Byte.forall_of_fin (P := fun b => (Char.ofNat b.toNat).toNat = b.toNat) (by decide +kernel) b

theorem Byte.char_inj {b c : UInt8} : Char.ofNat b.toNat = Char.ofNat c.toNat ↔ b = c := by
  rw [← Char.toNat_inj, toNat_char, toNat_char, UInt8.toNat_inj]

/-- Bytes below 0x80 are the UTF-8 of their text. -/
theorem Canonical.encode_asciiText {bytes : ByteArray} (h : ∀ b ∈ bytes.data.toList, b < 0x80) :
    Utf8.encode (asciiText bytes) = bytes.data.toList := by
  rw [asciiText, Utf8.encode_ofList_ascii, List.map_map]
  · refine (List.map_congr_left fun b hb => ?_).trans (List.map_id _)
    simp [Byte.toNat_char]
  · intro c hc
    obtain ⟨b, hb, rfl⟩ := List.mem_map.1 hc
    rw [Byte.toNat_char]
    exact UInt8.lt_iff_toNat_lt.1 (h b hb)

/-! ### Bytes of ASCII among others -/

namespace Utf8

def Valid (bytes : List UInt8) : Prop :=
  ∃ text, decode? bytes = some text

theorem valid_iff {bytes : List UInt8} :
    Valid bytes ↔ ∃ chars : List Char, bytes = chars.flatMap String.utf8EncodeChar := by
  constructor
  · rintro ⟨text, h⟩
    refine ⟨text.toList, ?_⟩
    rw [← encode_ofList, String.ofList_toList, decode?_eq_some_iff.1 h]
  · rintro ⟨chars, rfl⟩
    exact ⟨String.ofList chars, decode?_eq_some_iff.2 (encode_ofList chars).symm⟩

theorem not_ascii_of_mem_utf8EncodeChar {c : Char} (hc : ¬ c.toNat < 0x80) :
    ∀ b ∈ String.utf8EncodeChar c, ¬ b < 0x80 := by
  have large (n : Nat) (hn : 0x80 ≤ n) (hn' : n < 0x100) : ¬ UInt8.ofNat n < 0x80 := by
    rw [UInt8.lt_iff_toNat_lt, UInt8.toNat_ofNat', Nat.mod_eq_of_lt hn']
    exact Nat.not_lt.2 hn
  have hv : ¬ c.val.toNat ≤ 0x7f := fun h => hc (Nat.lt_succ_of_le h)
  intro b hb
  rw [String.utf8EncodeChar, if_neg hv] at hb
  split_ifs at hb
  all_goals
    simp only [List.mem_cons, List.not_mem_nil, or_false] at hb
    rcases hb with rfl | rfl | rfl | rfl
    all_goals exact large _ (by omega) (by omega)

/-- A character is one byte of ASCII, or has none. -/
theorem utf8EncodeChar_ascii_or (c : Char) :
    (∃ b < 0x80, String.utf8EncodeChar c = [b]) ∨
      ∀ b ∈ String.utf8EncodeChar c, ¬ b < 0x80 := by
  by_cases hc : c.toNat < 0x80
  · refine .inl ⟨UInt8.ofNat c.toNat, ?_, utf8EncodeChar_ascii hc⟩
    rw [UInt8.lt_iff_toNat_lt, UInt8.toNat_ofNat']
    exact Nat.lt_of_le_of_lt (Nat.mod_le ..) hc
  · exact .inr (not_ascii_of_mem_utf8EncodeChar hc)

/-- Bytes that differ in bytes of ASCII at most are UTF-8 together. -/
theorem Valid.of_forall₂ {as bs : List UInt8}
    (h : List.Forall₂ (fun a b => a = b ∨ a < 0x80 ∧ b < 0x80) as bs) (ha : Valid as) :
    Valid bs := by
  obtain ⟨chars, rfl⟩ := valid_iff.1 ha
  rw [valid_iff]
  clear ha
  induction chars generalizing bs with
  | nil => exact ⟨[], List.forall₂_nil_left_iff.1 h⟩
  | cons c chars ih =>
    rw [List.flatMap_cons] at h
    have hfront := (List.forall₂_take_append bs _ _ h.flip).flip
    obtain ⟨chars', hback⟩ := ih (List.forall₂_drop_append bs _ _ h.flip).flip
    rw [← List.take_append_drop (String.utf8EncodeChar c).length bs, hback]
    rcases utf8EncodeChar_ascii_or c with ⟨b, hb, hc⟩ | hc
    -- a character of ASCII may have become another one
    · rw [hc] at hfront ⊢
      obtain ⟨b', _, hbb', hnil, hfront⟩ := List.forall₂_cons_left_iff.1 hfront
      obtain rfl := List.forall₂_nil_left_iff.1 hnil
      have hb' : b' < 0x80 := by
        rcases hbb' with rfl | ⟨-, hb'⟩
        exacts [hb, hb']
      refine ⟨Char.ofNat b'.toNat :: chars', ?_⟩
      have hchar := Byte.toNat_char b'
      have hlt : (Char.ofNat b'.toNat).toNat < 0x80 := by
        rw [hchar]
        exact UInt8.lt_iff_toNat_lt.1 hb'
      rw [hfront, List.flatMap_cons, utf8EncodeChar_ascii hlt, hchar, UInt8.ofNat_toNat]
    -- any other one is as it was
    · have hsame : List.Forall₂ (· = ·) (String.utf8EncodeChar c)
          (bs.take (String.utf8EncodeChar c).length) := by
        refine ((List.forall₂_and_left _ _).2 ⟨hc, hfront⟩).imp fun a b hab => ?_
        rcases hab with ⟨ha, heq | ⟨ha', -⟩⟩
        exacts [heq, absurd ha' ha]
      rw [List.forall₂_eq_eq_eq] at hsame
      exact ⟨c :: chars', by rw [← hsame, List.flatMap_cons]⟩

theorem valid_of_ascii {bytes : List UInt8} (h : ∀ b ∈ bytes, b < 0x80) : Valid bytes :=
  ⟨_, decode?_eq_some_iff.2 (@Canonical.encode_asciiText ⟨bytes.toArray⟩ h).symm⟩

end Utf8

/-! ### Decimal numbers -/

namespace Byte

theorem lt_of_isDigit {b : UInt8} (h : isDigit b = true) : b < 0x80 := by
  simp only [isDigit, Bool.and_eq_true, decide_eq_true_eq] at h
  exact UInt8.lt_of_le_of_lt h.2 (by decide)

/-- The bytes of a character are digits exactly if it is one. -/
theorem all_isDigit_utf8EncodeChar (c : Char) :
    (String.utf8EncodeChar c).all isDigit = c.isDigit := by
  have hdigit : c.isDigit = true ↔ 48 ≤ c.toNat ∧ c.toNat ≤ 57 := by
    simp only [Char.isDigit, Bool.and_eq_true, decide_eq_true_eq, ge_iff_le,
      UInt32.le_iff_toNat_le]
    rfl
  rw [Bool.eq_iff_iff, hdigit]
  by_cases hc : c.toNat < 0x80
  · have hbyte : (UInt8.ofNat c.toNat).toNat = c.toNat := by
      rw [UInt8.toNat_ofNat']
      omega
    rw [Utf8.utf8EncodeChar_ascii hc, List.all_cons, List.all_nil, Bool.and_true]
    simp only [isDigit, Bool.and_eq_true, decide_eq_true_eq, UInt8.le_iff_toNat_le, hbyte]
    rfl
  · refine iff_of_false (fun hall => ?_) (by omega)
    rcases Utf8.utf8EncodeChar_ascii_or c with ⟨b, hb, hsingle⟩ | hlarge
    · have hsize := String.length_utf8EncodeChar c
      rw [hsingle] at hsize
      have hle := Char.utf8Size_eq_one_iff.1 hsize.symm
      exact hc (Nat.lt_succ_of_le (UInt32.le_iff_toNat_le.1 hle))
    · obtain ⟨b, hb⟩ := List.exists_mem_of_ne_nil _ (String.utf8EncodeChar_ne_nil (c := c))
      exact hlarge b hb (lt_of_isDigit (List.all_eq_true.1 hall b hb))

theorem all_isDigit_encode (text : String) :
    (Utf8.encode text).all isDigit = text.toList.all Char.isDigit := by
  rw [← String.ofList_toList (s := text), Utf8.encode_ofList, String.toList_ofList,
    List.all_flatMap]
  simp only [all_isDigit_utf8EncodeChar]

theorem lt_of_mem_toDigits {n : Nat} {c : Char} (h : c ∈ Nat.toDigits 10 n) : c.toNat < 0x80 := by
  have := Nat.isDigit_of_mem_toDigits (by decide) (by decide) h
  simp only [Char.isDigit, Bool.and_eq_true, decide_eq_true_eq] at this
  have h2 : c.val.toNat ≤ 57 := UInt32.le_iff_toNat_le.1 this.2
  show c.val.toNat < 0x80
  omega

/-- The last digit comes off the end. -/
theorem encode_toString (n : Nat) :
    Utf8.encode (toString n) =
      (if n < 10 then [] else Utf8.encode (toString (n / 10))) ++ [UInt8.ofNat (48 + n % 10)] := by
  rw [Nat.toString_eq_ofList_toDigits, Nat.toString_eq_ofList_toDigits,
    Utf8.encode_ofList_ascii fun _ h => lt_of_mem_toDigits h,
    Utf8.encode_ofList_ascii fun _ h => lt_of_mem_toDigits h, Nat.toDigits_eq_if (by decide)]
  split
  · rename_i h
    simp [Nat.toNat_digitChar_of_lt_ten h, Nat.mod_eq_of_lt h]
  · simp [Nat.toNat_digitChar_of_lt_ten (Nat.mod_lt n (by decide : 0 < 10))]

theorem isDigit_ofNat {d : Nat} (h : d < 10) : isDigit (UInt8.ofNat (48 + d)) = true := by
  interval_cases d <;> rfl

theorem toNat_ofNat_sub {d : Nat} (h : d < 10) : (UInt8.ofNat (48 + d)).toNat - 0x30 = d := by
  interval_cases d <;> rfl

theorem encode_toString_ne_nil (n : Nat) : Utf8.encode (toString n) ≠ [] := by
  rw [encode_toString]
  simp

theorem all_isDigit_decimal (n : Nat) : (Utf8.encode (toString n)).all isDigit = true := by
  induction n using Nat.strongRecOn with
  | ind n ih =>
    rw [encode_toString, List.all_append, Bool.and_eq_true]
    constructor
    · split
      · rfl
      · exact ih _ (by omega)
    · rw [List.all_cons, isDigit_ofNat (Nat.mod_lt n (by decide))]
      rfl

theorem decimal_append (digits : List UInt8) {d : Nat} (h : d < 10) :
    decimal (digits ++ [UInt8.ofNat (48 + d)]) = decimal digits * 10 + d := by
  rw [decimal, decimal, Numeral.value_eq_sequential, Numeral.value_eq_sequential, List.map_append,
    Numeral.sequential_append, List.map_singleton, toNat_ofNat_sub h, Numeral.sequential,
    Numeral.sequential, List.foldl_cons, List.foldl_nil, Nat.mul_zero, Nat.zero_add]
  rfl

theorem decimal_encode (n : Nat) : decimal (Utf8.encode (toString n)) = n := by
  induction n using Nat.strongRecOn with
  | ind n ih =>
    rw [encode_toString, decimal_append _ (Nat.mod_lt n (by decide))]
    split
    · rename_i h
      rw [show decimal [] = 0 from rfl, Nat.mod_eq_of_lt h]
      omega
    · rw [ih _ (by omega)]
      omega

end Byte

end NestedQuery
