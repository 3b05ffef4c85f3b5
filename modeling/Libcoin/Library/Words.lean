/-
Numbers as lists of words of `w` bits, the least significant word first.

* `value` is the number that the words stand for. Lists of one length are equal when their values are
  (`ext_value`), and every number below the bound is a value (`value_ofValue`).
* `testBit_value` finds a bit of the number in its word: what is done word by word is proved bit by bit.
* `value_ripple`: additions from word to word that hand on a carry add the numbers, but for the last carry.
-/

import Mathlib.Data.List.Basic
import Mathlib.Data.Nat.Bitwise
import Mathlib.Tactic.Ring
import Mathlib.Tactic.Linarith

namespace Libcoin.Words

variable {w : Nat}

/-- The number that the words stand for. -/
def value : List (BitVec w) → Nat
  | [] => 0
  | word :: words => word.toNat + 2 ^ w * value words

/-- The words of a number, as many as there is room for. -/
def ofValue (w : Nat) : Nat → Nat → List (BitVec w)
  | 0, _ => []
  | length + 1, n => BitVec.ofNat w n :: ofValue w length (n / 2 ^ w)

@[simp] theorem value_nil : value ([] : List (BitVec w)) = 0 := rfl

@[simp] theorem value_cons (word : BitVec w) (words : List (BitVec w)) :
    value (word :: words) = word.toNat + 2 ^ w * value words := rfl

theorem two_pow_length_cons (word : BitVec w) (words : List (BitVec w)) :
    2 ^ (w * (word :: words).length) = 2 ^ w * 2 ^ (w * words.length) := by
  rw [List.length_cons, Nat.mul_succ, pow_add, mul_comm]

theorem value_lt (words : List (BitVec w)) : value words < 2 ^ (w * words.length) := by
  induction words with
  | nil => simp
  | cons word words ih =>
    rw [value_cons, two_pow_length_cons]
    have low := word.isLt
    calc word.toNat + 2 ^ w * value words < 2 ^ w + 2 ^ w * value words := by omega
      _ = 2 ^ w * (value words + 1) := by ring
      _ ≤ 2 ^ w * 2 ^ (w * words.length) := Nat.mul_le_mul_left _ ih

theorem value_replicate_zero (length : Nat) : value (List.replicate length (0 : BitVec w)) = 0 := by
  induction length with
  | zero => rfl
  | succ length ih =>
    rw [List.replicate_succ, value_cons, ih]
    simp

theorem value_append (low high : List (BitVec w)) :
    value (low ++ high) = value low + 2 ^ (w * low.length) * value high := by
  induction low with
  | nil => simp
  | cons word low ih =>
    rw [List.cons_append, value_cons, ih, value_cons, two_pow_length_cons]
    ring

/-! ### Words and numbers -/

@[simp] theorem ofValue_length (length n : Nat) : (ofValue w length n).length = length := by
  induction length generalizing n with
  | zero => rfl
  | succ length ih => rw [ofValue, List.length_cons, ih]

theorem value_ofValue {length n : Nat} (small : n < 2 ^ (w * length)) : value (ofValue w length n) = n := by
  induction length generalizing n with
  | zero =>
    rw [Nat.mul_zero, pow_zero, Nat.lt_one_iff] at small
    exact small.symm
  | succ length ih =>
    rw [ofValue, value_cons, ih, BitVec.toNat_ofNat, Nat.mod_add_div]
    refine Nat.div_lt_of_lt_mul ?_
    rwa [← pow_add, ← Nat.mul_succ w length |>.trans (Nat.add_comm _ _)]

/-- Lists of one length are equal when they stand for one number. -/
theorem ext_value {first second : List (BitVec w)} (long : first.length = second.length)
    (same : value first = value second) : first = second := by
  induction first generalizing second with
  | nil => exact (List.eq_nil_of_length_eq_zero long.symm).symm
  | cons word first ih =>
    cases second with
    | nil => cases long
    | cons word' second =>
      rw [value_cons, value_cons] at same
      have low : word.toNat = word'.toNat := by
        have rest := congrArg (· % 2 ^ w) same
        simpa [Nat.add_mul_mod_self_left, Nat.mod_eq_of_lt word.isLt, Nat.mod_eq_of_lt word'.isLt] using rest
      have high : value first = value second := by
        rw [low, Nat.add_left_cancel_iff] at same
        exact Nat.eq_of_mul_eq_mul_left (Nat.two_pow_pos w) same
      rw [BitVec.eq_of_toNat_eq low, ih (Nat.succ.inj long) high]

/-! ### Bits -/

theorem testBit_value (positive : 0 < w) (words : List (BitVec w)) (p : Nat) :
    (value words).testBit p = (words.getD (p / w) 0).getLsbD (p % w) := by
  induction words generalizing p with
  | nil => simp
  | cons word words ih =>
    rw [value_cons, Nat.add_comm, Nat.testBit_two_pow_mul_add _ word.isLt]
    split
    · rename_i low
      rw [Nat.div_eq_of_lt low, Nat.mod_eq_of_lt low, List.getD_cons_zero]
      rfl
    · rename_i high
      rw [ih, Nat.div_eq_sub_div positive (Nat.le_of_not_lt high), List.getD_cons_succ,
        Nat.mod_eq_sub_mod (Nat.le_of_not_lt high)]

/-- An operation on words that works bit by bit is that operation on the bits of the numbers. -/
theorem testBit_value_zipWith (positive : 0 < w) {f : BitVec w → BitVec w → BitVec w} {g : Bool → Bool → Bool}
    (bitwise : ∀ x y b, b < w → (f x y).getLsbD b = g (x.getLsbD b) (y.getLsbD b)) {first second : List (BitVec w)}
    (long : first.length = second.length) {p : Nat} (inside : p < w * first.length) :
    (value (List.zipWith f first second)).testBit p = g ((value first).testBit p) ((value second).testBit p) := by
  have there : p / w < first.length := Nat.div_lt_of_lt_mul inside
  have there' : p / w < second.length := long ▸ there
  simp only [testBit_value positive, List.getD_eq_getElem?_getD, List.getElem?_zipWith,
    List.getElem?_eq_getElem there, List.getElem?_eq_getElem there', Option.getD_some]
  exact bitwise _ _ _ (Nat.mod_lt p positive)

/-- The complement of every word. -/
theorem value_not (words : List (BitVec w)) :
    value (words.map (~~~·)) = 2 ^ (w * words.length) - 1 - value words := by
  induction words with
  | nil => rfl
  | cons word words ih =>
    have low := word.isLt
    have high := value_lt words
    rw [List.map_cons, value_cons, ih, value_cons, two_pow_length_cons, BitVec.toNat_not]
    obtain ⟨rest, total⟩ := Nat.exists_eq_add_of_lt high
    rw [total, show value words + rest + 1 - 1 - value words = rest by omega]
    have split : 2 ^ w * (value words + rest + 1) = 2 ^ w * value words + 2 ^ w * rest + 2 ^ w := by ring
    rw [split]
    omega

/-! ### Carries -/

/-- Additions from the lowest word up, each with the carry of the one before. -/
def ripple : Nat → List (BitVec w) → List (BitVec w) → List (BitVec w) × Nat
  | carry, x :: xs, y :: ys =>
    let (sums, last) := ripple ((carry + x.toNat + y.toNat) / 2 ^ w) xs ys
    (BitVec.ofNat w (carry + x.toNat + y.toNat) :: sums, last)
  | carry, _, _ => ([], carry)

theorem value_ripple (carry : Nat) {first second : List (BitVec w)} (long : first.length = second.length) :
    value (ripple carry first second).1 + 2 ^ (w * first.length) * (ripple carry first second).2 =
      carry + value first + value second := by
  induction first generalizing second carry with
  | nil => simp [ripple, List.eq_nil_of_length_eq_zero long.symm]
  | cons x first ih =>
    cases second with
    | nil => cases long
    | cons y second =>
      have rest := ih ((carry + x.toNat + y.toNat) / 2 ^ w) (Nat.succ.inj long)
      have split := Nat.mod_add_div (carry + x.toNat + y.toNat) (2 ^ w)
      rw [two_pow_length_cons, ripple]
      dsimp only
      rw [value_cons, value_cons, value_cons, BitVec.toNat_ofNat]
      calc _ = (carry + x.toNat + y.toNat) % 2 ^ w + 2 ^ w *
            (value (ripple ((carry + x.toNat + y.toNat) / 2 ^ w) first second).1 +
              2 ^ (w * first.length) * (ripple ((carry + x.toNat + y.toNat) / 2 ^ w) first second).2) := by ring
        _ = _ := by
          rw [rest, Nat.mul_add, Nat.mul_add, ← Nat.add_assoc, ← Nat.add_assoc, split]
          ring

theorem ripple_length (carry : Nat) {first second : List (BitVec w)} (long : first.length = second.length) :
    (ripple carry first second).1.length = first.length := by
  induction first generalizing second carry with
  | nil => rfl
  | cons x first ih =>
    cases second with
    | nil => cases long
    | cons y second =>
      rw [ripple]
      exact congrArg Nat.succ (ih _ (Nat.succ.inj long))

/-! ### Order -/

/-- The highest word in which two lists differ. -/
theorem value_lt_iff {word word' : BitVec w} {low low' : List (BitVec w)} (long : low.length = low'.length) :
    value (low ++ [word]) < value (low' ++ [word']) ↔
      word < word' ∨ word = word' ∧ value low < value low' := by
  have small := value_lt low
  have small' := value_lt low'
  rw [value_append, value_append, ← long, value_cons, value_cons, value_nil, Nat.mul_zero, Nat.add_zero, Nat.add_zero]
  rw [← long] at small'
  rcases lt_trichotomy word.toNat word'.toNat with less | same | more
  · refine iff_of_true ?_ (.inl less)
    calc value low + 2 ^ (w * low.length) * word.toNat < 2 ^ (w * low.length) * (word.toNat + 1) := by
          rw [Nat.mul_succ]
          omega
      _ ≤ 2 ^ (w * low.length) * word'.toNat := Nat.mul_le_mul_left _ less
      _ ≤ _ := Nat.le_add_left _ _
  · have equal : word = word' := BitVec.eq_of_toNat_eq same
    rw [same, Nat.add_lt_add_iff_right]
    exact ⟨fun less => .inr ⟨equal, less⟩, fun either => (either.resolve_left (by simp [equal])).2⟩
  · refine iff_of_false (not_lt.mpr ?_) ?_
    · calc value low' + 2 ^ (w * low.length) * word'.toNat ≤ 2 ^ (w * low.length) * (word'.toNat + 1) := by
            rw [Nat.mul_succ]
            omega
        _ ≤ 2 ^ (w * low.length) * word.toNat := Nat.mul_le_mul_left _ more
        _ ≤ _ := Nat.le_add_left _ _
    · rintro (less | ⟨equal, -⟩)
      · exact absurd (BitVec.lt_def.mp less) (Nat.not_lt.mpr more.le)
      · rw [equal] at more
        exact lt_irrefl _ more

end Libcoin.Words
