/-
Decimal numbers with digits after the point.

`value` is the number that digits stand for. `cut` keeps a fixed number of the digits after the point, and fills up with
zeros: `value_fixed` says that this is the whole number times a power of ten, cut off. `padded` writes a number with at
least so many digits.
-/

import Mathlib.Algebra.Order.Ring.Nat
import Mathlib.Data.List.Induction
import Mathlib.Tactic.Positivity
import Mathlib.Tactic.Ring

namespace Libcoin.Decimal

/-- The number that some digits stand for. -/
def value (digits : List Char) : Nat := Nat.ofDigitChars 10 digits 0

def AllDigits (text : List Char) : Prop := ∀ c ∈ text, c.isDigit = true

instance (text : List Char) : Decidable (AllDigits text) := List.decidableBAll _ _

theorem value_append (first second : List Char) :
    value (first ++ second) = value first * 10 ^ second.length + value second := by
  unfold value
  rw [Nat.ofDigitChars_append, Nat.ofDigitChars_eq_ofDigitChars_zero, Nat.mul_comm]

theorem value_zeros (count : Nat) : value (List.replicate count '0') = 0 := by
  unfold value
  rw [Nat.ofDigitChars_replicate_zero, Nat.mul_zero]

theorem allDigits_zeros (count : Nat) : AllDigits (List.replicate count '0') := by
  intro c member
  rw [List.eq_of_mem_replicate member]
  rfl

theorem allDigits_append {first second : List Char} :
    AllDigits (first ++ second) ↔ AllDigits first ∧ AllDigits second := List.forall_mem_append

theorem value_lt {text : List Char} (digits : AllDigits text) : value text < 10 ^ text.length := by
  induction text using List.reverseRecOn with
  | nil => decide
  | append_singleton text c ih =>
    obtain ⟨before, last⟩ := allDigits_append.mp digits
    have small : value [c] < 10 := by
      have digit := last c List.mem_cons_self
      rw [Char.isDigit_iff_toNat] at digit
      unfold value
      rw [Nat.ofDigitChars_cons, Nat.ofDigitChars_nil]
      have zero : '0'.toNat = 48 := rfl
      have nine : '9'.toNat = 57 := rfl
      omega
    have whole := ih before
    rw [value_append, List.length_append, List.length_singleton, pow_one, pow_succ]
    omega

/-- So many digits after the point. -/
def cut (decimals : Nat) (fraction : List Char) : List Char :=
  (fraction ++ List.replicate decimals '0').take decimals

theorem length_cut (decimals : Nat) (fraction : List Char) : (cut decimals fraction).length = decimals := by
  unfold cut
  rw [List.length_take, List.length_append, List.length_replicate]
  omega

theorem cut_of_length {decimals : Nat} {fraction : List Char} (length : fraction.length = decimals) :
    cut decimals fraction = fraction := by
  unfold cut
  rw [← length, List.take_left]

/-- The digits that are kept are those of the fraction times the power of ten, cut off. -/
theorem value_cut (decimals : Nat) {fraction : List Char} (digits : AllDigits fraction) :
    value fraction * 10 ^ decimals / 10 ^ fraction.length = value (cut decimals fraction) := by
  have positive : 0 < 10 ^ fraction.length := by positivity
  by_cases short : fraction.length ≤ decimals
  · have kept : cut decimals fraction = fraction ++ List.replicate (decimals - fraction.length) '0' := by
      unfold cut
      rw [List.take_append, List.take_of_length_le short, List.take_replicate, Nat.min_eq_left (Nat.sub_le _ _)]
    have power : (10 : Nat) ^ decimals = 10 ^ (decimals - fraction.length) * 10 ^ fraction.length := by
      rw [← pow_add, Nat.sub_add_cancel short]
    rw [kept, value_append, value_zeros, Nat.add_zero, List.length_replicate, power, ← Nat.mul_assoc,
      Nat.mul_div_cancel _ positive]
  · rw [not_le] at short
    have kept : cut decimals fraction = fraction.take decimals := by
      unfold cut
      rw [List.take_append_of_le_length short.le]
    have split : value fraction = value (fraction.take decimals) * 10 ^ (fraction.length - decimals) +
        value (fraction.drop decimals) := by
      rw [← List.length_drop, ← value_append, List.take_append_drop]
    have rest : value (fraction.drop decimals) < 10 ^ (fraction.length - decimals) := by
      rw [← List.length_drop]
      exact value_lt fun c member => digits c (List.mem_of_mem_drop member)
    have power : (10 : Nat) ^ fraction.length = 10 ^ (fraction.length - decimals) * 10 ^ decimals := by
      rw [← pow_add, Nat.sub_add_cancel short.le]
    rw [kept, power, Nat.mul_div_mul_right _ _ (by positivity), split, Nat.mul_comm, Nat.mul_add_div (by positivity),
      Nat.div_eq_of_lt rest, Nat.add_zero]

/-- A number with a point, times a power of ten, cut off. -/
theorem value_fixed (decimals : Nat) (whole : List Char) {fraction : List Char} (digits : AllDigits fraction) :
    value (whole ++ fraction) * 10 ^ decimals / 10 ^ fraction.length =
      value whole * 10 ^ decimals + value (cut decimals fraction) := by
  have positive : 0 < 10 ^ fraction.length := by positivity
  have split : (value whole * 10 ^ fraction.length + value fraction) * 10 ^ decimals =
      10 ^ fraction.length * (value whole * 10 ^ decimals) + value fraction * 10 ^ decimals := by
    ring
  rw [value_append, split, Nat.mul_add_div positive, value_cut decimals digits]

/-- The digits of a number, with zeros in front up to a width. -/
def padded (width n : Nat) : List Char :=
  List.replicate (width - (Nat.toDigits 10 n).length) '0' ++ Nat.toDigits 10 n

theorem value_padded (width n : Nat) : value (padded width n) = n := by
  unfold padded
  rw [value_append, value_zeros, Nat.zero_mul, Nat.zero_add, value, Nat.ofDigitChars_ten_toDigits]

theorem allDigits_toDigits (n : Nat) : AllDigits (Nat.toDigits 10 n) :=
  fun _ member => Nat.isDigit_of_mem_toDigits (by decide) (by decide) member

theorem allDigits_padded (width n : Nat) : AllDigits (padded width n) :=
  allDigits_append.mpr ⟨allDigits_zeros _, allDigits_toDigits n⟩

theorem le_length_padded (width n : Nat) : width ≤ (padded width n).length := by
  unfold padded
  rw [List.length_append, List.length_replicate]
  omega

end Libcoin.Decimal
