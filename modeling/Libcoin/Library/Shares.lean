/-
Amounts that are divided by shares, where every part is rounded towards zero and the remainder of the amount is added
once.

* `tdiv_split`: a part is that of the whole multiple of the denominator, and that of the remainder.
* `parts_add_rest`: what is paid out is the amount and its `excess`, and `excess_eq_zero_iff` says when there is none.
-/

import Mathlib.Algebra.Order.BigOperators.Group.List
import Mathlib.Algebra.BigOperators.Group.List.Basic
import Mathlib.Algebra.Order.Ring.Int
import Mathlib.Tactic.Ring

namespace Libcoin

namespace Shares

/-- The sum of the parts of an amount. -/
def parts (shares : List Int) (denominator amount : Int) : Int :=
  (shares.map fun share => (share * amount).tdiv denominator).sum

/-- What the parts of the remainder come to, and what is missing where the shares do not add up to the denominator. -/
def excess (shares : List Int) (denominator amount : Int) : Int :=
  amount.tdiv denominator * (shares.sum - denominator) + parts shares denominator (amount.tmod denominator)

theorem tdiv_split_pos {share denominator amount : Int} (nonneg : 0 ≤ share) (positive : 0 < denominator)
    (some : 0 ≤ amount) :
    (share * amount).tdiv denominator =
      share * amount.tdiv denominator + (share * amount.tmod denominator).tdiv denominator := by
  have rest : 0 ≤ amount.tmod denominator := Int.tmod_nonneg denominator some
  have whole : share * amount = share * amount.tmod denominator + denominator * (share * amount.tdiv denominator) := by
    rw [← mul_assoc, mul_comm denominator share, mul_assoc, ← mul_add, Int.tmod_add_mul_tdiv]
  rw [Int.tdiv_eq_ediv_of_nonneg (mul_nonneg nonneg some), Int.tdiv_eq_ediv_of_nonneg (mul_nonneg nonneg rest), whole,
    Int.add_mul_ediv_left _ _ positive.ne', add_comm]

theorem tdiv_split {share : Int} (nonneg : 0 ≤ share) (denominator amount : Int) :
    (share * amount).tdiv denominator =
      share * amount.tdiv denominator + (share * amount.tmod denominator).tdiv denominator := by
  have some : ∀ amount, 0 ≤ amount → (share * amount).tdiv denominator =
      share * amount.tdiv denominator + (share * amount.tmod denominator).tdiv denominator := by
    intro amount some
    rcases lt_trichotomy denominator 0 with negative | rfl | positive
    · have split := tdiv_split_pos nonneg (neg_pos.mpr negative) some
      rw [Int.tdiv_neg, Int.tdiv_neg, Int.tdiv_neg, Int.tmod_neg, mul_neg, ← neg_add, neg_inj] at split
      exact split
    · simp
    · exact tdiv_split_pos nonneg positive some
  rcases le_total 0 amount with positive | negative
  · exact some amount positive
  · have split := some (-amount) (neg_nonneg.mpr negative)
    rw [mul_neg, Int.neg_tdiv, Int.neg_tdiv, Int.neg_tmod, mul_neg, mul_neg, Int.neg_tdiv, ← neg_add, neg_inj] at split
    exact split

theorem parts_split {shares : List Int} (nonneg : ∀ share ∈ shares, 0 ≤ share) (denominator amount : Int) :
    parts shares denominator amount =
      shares.sum * amount.tdiv denominator + parts shares denominator (amount.tmod denominator) := by
  induction shares with
  | nil => simp [parts]
  | cons share shares ih =>
    unfold parts at ih ⊢
    rw [List.map_cons, List.sum_cons, List.map_cons, List.sum_cons, List.sum_cons,
      ih fun other member => nonneg other (List.mem_cons_of_mem _ member),
      tdiv_split (nonneg share List.mem_cons_self) denominator amount]
    ring

/-- The parts and the remainder are the amount and its excess. -/
theorem parts_add_rest {shares : List Int} (nonneg : ∀ share ∈ shares, 0 ≤ share) (denominator amount : Int) :
    parts shares denominator amount + amount.tmod denominator = amount + excess shares denominator amount := by
  have whole := Int.tmod_add_mul_tdiv amount denominator
  rw [parts_split nonneg, excess, mul_sub, mul_comm (amount.tdiv denominator) denominator, mul_comm shares.sum]
  omega

theorem parts_nonneg {shares : List Int} (nonneg : ∀ share ∈ shares, 0 ≤ share) {denominator amount : Int}
    (positive : 0 < denominator) (some : 0 ≤ amount) :
    ∀ part ∈ shares.map fun share => (share * amount).tdiv denominator, 0 ≤ part := by
  intro part member
  obtain ⟨share, inside, rfl⟩ := List.mem_map.mp member
  exact Int.tdiv_nonneg (mul_nonneg (nonneg share inside) some) positive.le

/-- Shares that add up to the denominator never pay less than the amount. -/
theorem excess_nonneg {shares : List Int} (nonneg : ∀ share ∈ shares, 0 ≤ share) {denominator amount : Int}
    (positive : 0 < denominator) (whole : shares.sum = denominator) (some : 0 ≤ amount) :
    0 ≤ excess shares denominator amount := by
  rw [excess, whole, sub_self, mul_zero, zero_add]
  exact List.sum_nonneg (parts_nonneg nonneg positive (Int.tmod_nonneg denominator some))

/-- They pay the amount exactly when the remainder is too small for a part of its own. -/
theorem excess_eq_zero_iff {shares : List Int} (nonneg : ∀ share ∈ shares, 0 ≤ share) {denominator amount : Int}
    (positive : 0 < denominator) (whole : shares.sum = denominator) (some : 0 ≤ amount) :
    excess shares denominator amount = 0 ↔ ∀ share ∈ shares, share * amount.tmod denominator < denominator := by
  have rest : 0 ≤ amount.tmod denominator := Int.tmod_nonneg denominator some
  rw [excess, whole, sub_self, mul_zero, zero_add, parts]
  clear whole
  induction shares with
  | nil => simp
  | cons share shares ih =>
    have first : 0 ≤ share * amount.tmod denominator := mul_nonneg (nonneg share List.mem_cons_self) rest
    have others := fun other member => nonneg other (List.mem_cons_of_mem share member)
    have part : 0 ≤ (share * amount.tmod denominator).tdiv denominator := Int.tdiv_nonneg first positive.le
    have sum := List.sum_nonneg (parts_nonneg others positive rest)
    have small : (share * amount.tmod denominator).tdiv denominator = 0 ↔ share * amount.tmod denominator < denominator := by
      rw [Int.tdiv_eq_ediv_of_nonneg first]
      constructor
      · intro zero
        by_contra large
        have least := (Int.le_ediv_iff_mul_le positive).mpr (show 1 * denominator ≤ share * amount.tmod denominator by omega)
        omega
      · exact Int.ediv_eq_zero_of_lt first
    rw [List.map_cons, List.sum_cons, List.forall_mem_cons, ← small]
    constructor
    · intro zero
      exact ⟨by omega, (ih others).mp (by omega)⟩
    · rintro ⟨zero, each⟩
      rw [zero, (ih others).mpr each, add_zero]

end Shares

end Libcoin
