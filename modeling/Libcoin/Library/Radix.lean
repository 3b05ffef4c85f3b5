/-
Strings of digits, the highest first, with the zeros at their front.

A string is the number that it stands for, and the count of its leading zeros: `numeral` writes both, `value`
and `zeros` read them, and `ext_of_lt` says that no two strings of digits have both in common.
-/

import Mathlib.Data.Nat.Digits.Defs
import Mathlib.Data.Nat.Digits.Lemmas

namespace Libcoin.Radix

/-- The number of zeros at the front. -/
def zeros (digits : List Nat) : Nat := (digits.takeWhile fun digit => decide (digit = 0)).length

/-- The number that some digits stand for. -/
def value (base : Nat) (digits : List Nat) : Nat := Nat.ofDigits base digits.reverse

/-- A number, with so many zeros at its front. -/
def numeral (base zeros n : Nat) : List Nat := List.replicate zeros 0 ++ (Nat.digits base n).reverse

theorem zeros_replicate_append (count : Nat) {digits : List Nat} (high : ∀ h : digits ≠ [], digits.head h ≠ 0) :
    zeros (List.replicate count 0 ++ digits) = count := by
  unfold zeros
  rw [List.takeWhile_append_of_pos fun digit member => decide_eq_true (List.eq_of_mem_replicate member),
    List.length_append, List.length_replicate]
  cases digits with
  | nil => rfl
  | cons first digits =>
    have nonzero : first ≠ 0 := high (List.cons_ne_nil _ _)
    simp [nonzero]

theorem value_replicate_append (base count : Nat) (digits : List Nat) :
    value base (List.replicate count 0 ++ digits) = value base digits := by
  unfold value
  rw [List.reverse_append, List.reverse_replicate, Nat.ofDigits_append_replicate_zero]

theorem zeros_numeral (base count n : Nat) : zeros (numeral base count n) = count := by
  refine zeros_replicate_append count fun some => ?_
  rw [List.head_reverse]
  refine Nat.getLast_digit_ne_zero base fun zero => some ?_
  rw [zero, Nat.digits_zero, List.reverse_nil]

theorem value_numeral (base count n : Nat) : value base (numeral base count n) = n := by
  unfold numeral
  rw [value_replicate_append, value, List.reverse_reverse, Nat.ofDigits_digits]

theorem lt_of_mem_numeral {base count n digit : Nat} (wide : 1 < base) (member : digit ∈ numeral base count n) :
    digit < base := by
  rcases List.mem_append.mp member with zero | digit
  · rw [List.eq_of_mem_replicate zero]
    omega
  · exact Nat.digits_lt_base wide (List.mem_reverse.mp digit)

/-- Every string of digits is a numeral. -/
theorem numeral_zeros_value {base : Nat} (wide : 1 < base) {digits : List Nat}
    (small : ∀ digit ∈ digits, digit < base) :
    numeral base (zeros digits) (value base digits) = digits := by
  induction digits with
  | nil => simp [numeral, zeros, value]
  | cons first digits ih =>
    have rest := ih fun digit member => small digit (List.mem_cons_of_mem _ member)
    by_cases zero : first = 0
    · have more : zeros (first :: digits) = zeros digits + 1 := by simp [zeros, zero]
      have same : value base (first :: digits) = value base digits := by
        rw [zero]
        exact value_replicate_append base 1 digits
      rw [more, same, numeral, List.replicate_succ, List.cons_append, zero]
      exact congrArg (List.cons 0) rest
    · have none : zeros (first :: digits) = 0 := by simp [zeros, zero]
      rw [none, numeral, List.replicate_zero, List.nil_append, value, Nat.digits_ofDigits base wide,
        List.reverse_reverse]
      · exact fun digit member => small digit (List.mem_reverse.mp member)
      · intro some
        rw [List.getLast_reverse]
        exact zero

/-- Strings of digits with the same zeros and the same value are the same. -/
theorem ext_of_lt {base : Nat} (wide : 1 < base) {first second : List Nat} (small : ∀ digit ∈ first, digit < base)
    (small' : ∀ digit ∈ second, digit < base) (zeros_eq : zeros first = zeros second)
    (value_eq : value base first = value base second) : first = second := by
  rw [← numeral_zeros_value wide small, ← numeral_zeros_value wide small', zeros_eq, value_eq]

/-- Reading a string from the front. -/
theorem foldl_value (base : Nat) (digits : List Nat) (start : Nat) :
    digits.foldl (fun n digit => n * base + digit) start = start * base ^ digits.length + value base digits := by
  induction digits generalizing start with
  | nil => simp [value]
  | cons first digits ih =>
    rw [List.foldl_cons, ih, value, value, List.reverse_cons, Nat.ofDigits_append, Nat.ofDigits_singleton,
      List.length_cons, List.length_reverse, pow_succ]
    ring

end Libcoin.Radix
