/-! # Numerals

A numeral is a run of decimal digits, the most significant first. `value` reads a long one by
halves, since reading it digit by digit takes time quadratic in its length; `value_eq_sequential`
says that both give the same number. -/

namespace NestedQuery.Numeral

/-- Reads one digit after another. -/
def sequential (digits : List Nat) : Nat :=
  digits.foldl (fun n d => 10 * n + d) 0

/-- Reads the two halves and shifts the first one by the length of the second. -/
def byHalves (digits : List Nat) : Nat :=
  if digits.length ≤ 32 then sequential digits
  else
    let half := digits.length / 2
    byHalves (digits.take half) * Nat.pow 10 (digits.length - half) + byHalves (digits.drop half)
termination_by digits.length
decreasing_by
  · simp only [List.length_take]; omega
  · simp only [List.length_drop]; omega

/-- The number that the digits spell, 0 for none. -/
def value (digits : List Nat) : Nat :=
  if digits.length ≤ 32 then sequential digits else byHalves digits

theorem foldl_eq_add (digits : List Nat) (n : Nat) :
    digits.foldl (fun n d => 10 * n + d) n
      = n * Nat.pow 10 digits.length + sequential digits := by
  induction digits generalizing n with
  | nil => exact (Nat.mul_one n).symm
  | cons d digits ih =>
    have hpow : Nat.pow 10 (d :: digits).length = Nat.pow 10 digits.length * 10 := rfl
    have hseq : sequential (d :: digits) = digits.foldl (fun n d => 10 * n + d) (10 * 0 + d) := rfl
    rw [List.foldl_cons, ih, hseq, ih, hpow, Nat.mul_zero, Nat.zero_add, Nat.add_mul,
      Nat.mul_comm 10 n, Nat.mul_assoc, Nat.mul_comm 10, Nat.add_assoc]

theorem sequential_append (front back : List Nat) :
    sequential (front ++ back) = sequential front * Nat.pow 10 back.length + sequential back := by
  unfold sequential
  rw [List.foldl_append, foldl_eq_add]
  rfl

theorem byHalves_eq_sequential (digits : List Nat) : byHalves digits = sequential digits := by
  fun_induction byHalves digits with
  | case1 => rfl
  | case2 digits _ half ihFront ihBack =>
    rw [ihFront, ihBack, ← List.length_drop, ← sequential_append, List.take_append_drop]

theorem value_eq_sequential (digits : List Nat) : value digits = sequential digits := by
  unfold value
  split
  · rfl
  · exact byHalves_eq_sequential digits

end NestedQuery.Numeral
