import NestedQuery.Proofs.Ascii
import NestedQuery.Data.Encode
import NestedQuery.Document.Control
import NestedQuery.Schema.Scalar

/-!
# Scalars read back from their text

The text of a scalar spells it: an integer of any width up to the ends of its range
(`FixedInt.ofText?_text`), a boolean and a character. No text of a number or a boolean holds a
control character, so any of them can stand in a query, as a map key too.
-/

namespace NestedQuery

/-! ### Digits -/

theorem value_map_toNat (digits : List Char) :
    Numeral.value (digits.map fun c => c.toNat - 48) = Nat.ofDigitChars 10 digits 0 := by
  rw [Numeral.value_eq_sequential, Numeral.sequential, List.foldl_map]
  rfl

theorem readDigits?_toDigits (n : Nat) : readDigits? (Nat.toDigits 10 n) = some n := by
  have hne : Nat.toDigits 10 n ≠ [] := Nat.toDigits_ne_nil
  have hdigits : (Nat.toDigits 10 n).all Char.isDigit = true :=
    List.all_eq_true.2 fun c hc => Nat.isDigit_of_mem_toDigits (by decide) (by decide) hc
  rw [readDigits?, if_neg (by simp [hne, hdigits]), value_map_toNat,
    Nat.ofDigitChars_toDigits (by decide) (by decide)]

theorem hasControl_append (front back : String) :
    hasControl (front ++ back) = (hasControl front || hasControl back) := by
  rw [hasControl, Utf8.encode_append, List.any_append]
  rfl

theorem hasControl_toString (n : Nat) : hasControl (toString n) = false := by
  rw [hasControl, List.any_eq_false]
  intro b hb
  have := List.all_eq_true.1 (Byte.all_isDigit_decimal n) b hb
  revert this
  exact Byte.forall_of_fin (P := fun b => Byte.isDigit b = true → ¬Byte.isControl b = true)
    (by decide +kernel) b

/-! ### Integers -/

namespace IntType

theorem readSigned?_digits (t : IntType) (n : Nat) :
    t.readSigned? (Nat.toDigits 10 n) = some (n : Int) := by
  have hread := readDigits?_toDigits n
  cases hdigits : Nat.toDigits 10 n with
  | nil => exact absurd hdigits Nat.toDigits_ne_nil
  | cons c rest =>
    have hc : c.isDigit = true :=
      Nat.isDigit_of_mem_toDigits (by decide) (by decide) (hdigits ▸ List.mem_cons_self ..)
    have hplus : c ≠ '+' := by rintro rfl; cases hc
    have hminus : c ≠ '-' := by rintro rfl; cases hc
    rw [hdigits] at hread
    rw [readSigned?, if_neg hplus, if_neg (by simp [hminus]), hread]
    rfl

theorem readSigned?_minus {t : IntType} (h : t.signed = true) (n : Nat) :
    t.readSigned? ('-' :: Nat.toDigits 10 n) = some (-(n : Int)) := by
  rw [readSigned?, if_neg (by decide), if_pos (by simp [h]), readDigits?_toDigits]
  rfl

end IntType

namespace FixedInt

/-- The decimal digits of an integer, behind a minus sign if it is negative. -/
theorem text_eq (n : FixedInt) :
    n.text = (if n.val < 0 then "-" else "") ++ toString n.val.natAbs := by
  rw [text, Int.toString_eq_repr]
  cases n.val with
  | ofNat m =>
    rw [if_neg (Int.not_lt.2 (Int.natCast_nonneg m) : ¬ Int.ofNat m < 0), String.empty_append]
    rfl
  | negSucc m =>
    rw [if_pos (Int.negSucc_lt_zero m)]
    rfl

theorem signed_of_neg {n : FixedInt} (h : n.val < 0) : n.type.signed = true := by
  by_contra hsigned
  have hmin := n.inRange.1
  rw [IntType.min, if_neg hsigned] at hmin
  omega

/-- An integer is read back from its text. -/
theorem ofText?_text (n : FixedInt) : ofText? n.type n.text = some n := by
  have hread : n.type.readSigned? n.text.toList = some n.val := by
    rw [text_eq, String.toList_append, Nat.toString_eq_ofList_toDigits, String.toList_ofList]
    split
    · rename_i hneg
      refine (IntType.readSigned?_minus (signed_of_neg hneg) n.val.natAbs).trans ?_
      congr 1
      omega
    · refine (IntType.readSigned?_digits n.type n.val.natAbs).trans ?_
      congr 1
      omega
  rw [ofText?, hread, Option.bind_some, ofInt?, dif_pos n.inRange]

theorem hasControl_text (n : FixedInt) : hasControl n.text = false := by
  rw [text_eq, hasControl_append, hasControl_toString, Bool.or_false]
  split <;> decide

end FixedInt

/-! ### Other scalars -/

namespace Schema

theorem readBool?_boolText (b : Bool) : readBool? (Data.boolText b) = some (.bool b) := by
  cases b <;> rfl

theorem readChar_singleton (c : Char) : readChar (String.singleton c) = .ok (.char c) := by
  simp [readChar]

end Schema

theorem Data.hasControl_boolText (b : Bool) : hasControl (boolText b) = false := by
  cases b <;> decide

end NestedQuery
