/-
The highest bit in which two numbers differ.

* `distance a b` is one more than the position of that bit, and 0 for equal numbers. To be within `d`
  means to share all bits from `d` up (`distance_le`), so closeness is an equivalence for every `d`
  (`close_trans`).
* `same_side`, `either_side` and `apart` are what a binary trie rests on: two numbers that are at
  distance `d` part everything within `d` of them into two sides, and the order of the sides is the
  order of the two numbers.
* `signedDistance` has the order as its sign. It is found by words from the top (`signedDistance_words`).
-/

import Mathlib.Data.Nat.Bitwise
import Mathlib.Data.Nat.Size
import Mathlib.Tactic.Ring

namespace Libcoin.HighBit

/-- One more than the position of the highest bit in which two numbers differ. -/
def distance (a b : Nat) : Nat := Nat.size (a ^^^ b)

theorem distance_le {a b d : Nat} : distance a b ≤ d ↔ a / 2 ^ d = b / 2 ^ d := by
  have lower : distance a b ≤ d ↔ (a ^^^ b) / 2 ^ d = 0 := by
    unfold distance
    rw [Nat.size_le, Nat.div_eq_zero_iff]
    have nonzero : 2 ^ d ≠ 0 := (Nat.two_pow_pos d).ne'
    exact (or_iff_right nonzero).symm
  rw [lower, ← Nat.shiftRight_eq_div_pow, Nat.shiftRight_xor_distrib, Nat.shiftRight_eq_div_pow,
    Nat.shiftRight_eq_div_pow]
  exact Nat.xor_eq_zero_iff

@[simp] theorem distance_self (a : Nat) : distance a a = 0 :=
  Nat.le_zero.mp (distance_le.mpr rfl)

theorem distance_comm (a b : Nat) : distance a b = distance b a := by
  unfold distance
  rw [Nat.xor_comm]

@[simp] theorem distance_eq_zero {a b : Nat} : distance a b = 0 ↔ a = b := by
  rw [← Nat.le_zero, distance_le]
  simp

theorem close_trans {a b c d : Nat} (first : distance a b ≤ d) (second : distance b c ≤ d) :
    distance a c ≤ d :=
  distance_le.mpr ((distance_le.mp first).trans (distance_le.mp second))

theorem close_trans_lt {a b c d : Nat} (first : distance a b < d) (second : distance b c < d) :
    distance a c < d := by
  have both := close_trans (Nat.le_pred_of_lt first) (Nat.le_pred_of_lt second)
  exact both.trans_lt (Nat.pred_lt_of_lt first)

/-- What is between two numbers is as close to them as they are. -/
theorem distance_le_of_between {a b c d : Nat} (above : a ≤ b) (below : b ≤ c) (close : distance a c ≤ d) :
    distance a b ≤ d := by
  rw [distance_le] at close ⊢
  exact le_antisymm (Nat.div_le_div_right above) (close ▸ Nat.div_le_div_right below)

theorem distance_le_of_lt {a b width : Nat} (a_lt : a < 2 ^ width) (b_lt : b < 2 ^ width) :
    distance a b ≤ width := by
  rw [distance_le, Nat.div_eq_of_lt a_lt, Nat.div_eq_of_lt b_lt]

/-! ### Two sides -/

/-- At a distance `d + 1` the bits from `d` up are the two children of one number. -/
theorem children_of_distance {a b d : Nat} (far : distance a b = d + 1) :
    a / 2 ^ d / 2 = b / 2 ^ d / 2 ∧ a / 2 ^ d ≠ b / 2 ^ d := by
  constructor
  · have close : distance a b ≤ d + 1 := far.le
    rwa [distance_le, Nat.pow_succ, ← Nat.div_div_eq_div_mul, ← Nat.div_div_eq_div_mul] at close
  · intro same
    have close : distance a b ≤ d := distance_le.mpr same
    omega

theorem distance_of_children {a b d : Nat} (parent : a / 2 ^ d / 2 = b / 2 ^ d / 2)
    (different : a / 2 ^ d ≠ b / 2 ^ d) : distance a b = d + 1 := by
  have close : distance a b ≤ d + 1 := by
    rwa [distance_le, Nat.pow_succ, ← Nat.div_div_eq_div_mul, ← Nat.div_div_eq_div_mul]
  have far : ¬ distance a b ≤ d := fun close => different (distance_le.mp close)
  omega

theorem exists_succ_of_lt {a b d : Nat} (less : b < a) (far : distance a b = d) :
    ∃ low, d = low + 1 := by
  refine Nat.exists_eq_succ_of_ne_zero fun zero => ?_
  rw [zero, distance_eq_zero] at far
  omega

/-- Two numbers on the upper side of a third one, as far from it, are closer to each other. -/
theorem same_side_above {a a' b d : Nat} (less : b < a) (less' : b < a') (far : distance a b = d)
    (far' : distance a' b = d) : distance a a' < d := by
  obtain ⟨low, rfl⟩ := exists_succ_of_lt less far
  obtain ⟨parent, different⟩ := children_of_distance far
  obtain ⟨parent', different'⟩ := children_of_distance far'
  have above : b / 2 ^ low ≤ a / 2 ^ low := Nat.div_le_div_right less.le
  have above' : b / 2 ^ low ≤ a' / 2 ^ low := Nat.div_le_div_right less'.le
  exact Nat.lt_succ_of_le (distance_le.mpr (by omega))

theorem same_side_below {a b b' d : Nat} (less : b < a) (less' : b' < a) (far : distance a b = d)
    (far' : distance a b' = d) : distance b b' < d := by
  obtain ⟨low, rfl⟩ := exists_succ_of_lt less far
  obtain ⟨parent, different⟩ := children_of_distance far
  obtain ⟨parent', different'⟩ := children_of_distance far'
  have below : b / 2 ^ low ≤ a / 2 ^ low := Nat.div_le_div_right less.le
  have below' : b' / 2 ^ low ≤ a / 2 ^ low := Nat.div_le_div_right less'.le
  exact Nat.lt_succ_of_le (distance_le.mpr (by omega))

/-- What is within `d` of two numbers at distance `d` is closer to one of them. -/
theorem either_side {a b c d : Nat} (less : b < a) (far : distance a b = d)
    (within : distance a c ≤ d) : distance a c < d ∨ distance b c < d := by
  obtain ⟨low, rfl⟩ := exists_succ_of_lt less far
  obtain ⟨parent, different⟩ := children_of_distance far
  rw [distance_le, Nat.pow_succ, ← Nat.div_div_eq_div_mul, ← Nat.div_div_eq_div_mul] at within
  have two : a / 2 ^ low = c / 2 ^ low ∨ b / 2 ^ low = c / 2 ^ low := by omega
  exact two.imp (fun same => Nat.lt_succ_of_le (distance_le.mpr same))
    fun same => Nat.lt_succ_of_le (distance_le.mpr same)

/-- Distance and order are those of the two sides, whichever numbers stand for them. -/
theorem apart {a a' b b' d : Nat} (less : b < a) (far : distance a b = d)
    (close : distance a a' < d) (close' : distance b b' < d) : b' < a' ∧ distance a' b' = d := by
  obtain ⟨low, rfl⟩ := exists_succ_of_lt less far
  obtain ⟨parent, different⟩ := children_of_distance far
  have upper := distance_le.mp (Nat.le_of_lt_succ close)
  have lower := distance_le.mp (Nat.le_of_lt_succ close')
  have above : b / 2 ^ low ≤ a / 2 ^ low := Nat.div_le_div_right less.le
  constructor
  · refine lt_of_not_ge fun beyond => ?_
    have above' : a' / 2 ^ low ≤ b' / 2 ^ low := Nat.div_le_div_right beyond
    omega
  · exact distance_of_children (by omega) (by omega)

/-! ### The signed distance -/

/-- The distance, negative when the first number is the greater one. -/
def signedDistance (a b : Nat) : Int :=
  if b < a then -(distance a b : Int) else if a < b then distance a b else 0

@[simp] theorem natAbs_signedDistance (a b : Nat) : (signedDistance a b).natAbs = distance a b := by
  unfold signedDistance
  split_ifs with greater less
  · simp
  · simp
  · have same : a = b := by omega
    simp [same]

theorem signedDistance_eq_zero {a b : Nat} : signedDistance a b = 0 ↔ a = b := by
  rw [← Int.natAbs_eq_zero, natAbs_signedDistance, distance_eq_zero]

theorem signedDistance_pos {a b : Nat} : 0 < signedDistance a b ↔ a < b := by
  have positive : a ≠ b → 0 < distance a b := fun different =>
    Nat.pos_of_ne_zero fun zero => different (distance_eq_zero.mp zero)
  unfold signedDistance
  split_ifs with greater less
  · omega
  · have := positive (by omega)
    omega
  · omega

theorem signedDistance_neg {a b : Nat} : signedDistance a b < 0 ↔ b < a := by
  have zero := signedDistance_eq_zero (a := a) (b := b)
  have pos := signedDistance_pos (a := a) (b := b)
  omega

theorem distance_eq_log2 {a b : Nat} (different : a ≠ b) : distance a b = Nat.log2 (a ^^^ b) + 1 := by
  have nonzero : a ^^^ b ≠ 0 := fun zero => different (Nat.xor_eq_zero_iff.mp zero)
  have upper : distance a b ≤ Nat.log2 (a ^^^ b) + 1 := Nat.size_le.mpr Nat.lt_log2_self
  have lower : Nat.log2 (a ^^^ b) < distance a b := Nat.lt_size.mpr (Nat.log2_self_le nonzero)
  omega

/-! ### By words -/

/-- Numbers that differ in their upper part differ highest there. -/
theorem distance_upper {a b m : Nat} (different : a / 2 ^ m ≠ b / 2 ^ m) :
    distance a b = distance (a / 2 ^ m) (b / 2 ^ m) + m := by
  have shift : ∀ d, distance a b ≤ d + m ↔ distance (a / 2 ^ m) (b / 2 ^ m) ≤ d := by
    intro d
    rw [distance_le, distance_le, Nat.div_div_eq_div_mul, Nat.div_div_eq_div_mul, ← Nat.pow_add,
      Nat.add_comm m d]
  have far : ¬ distance a b ≤ m := fun close => different (distance_le.mp close)
  have upper := (shift (distance a b - m)).mp (by omega)
  have lower := (shift (distance (a / 2 ^ m) (b / 2 ^ m))).mpr le_rfl
  omega

/-- Numbers with the same upper part differ only in their lower part. -/
theorem distance_lower {a b m : Nat} (same : a / 2 ^ m = b / 2 ^ m) :
    distance a b = distance (a % 2 ^ m) (b % 2 ^ m) := by
  unfold distance
  rw [← Nat.xor_mod_two_pow]
  have close : a ^^^ b < 2 ^ m := Nat.size_le.mp (distance_le.mpr same)
  rw [Nat.mod_eq_of_lt close]

/-- The upper parts decide, and where they agree the lower ones. -/
theorem signedDistance_words (a b m : Nat) :
    signedDistance a b =
      if b / 2 ^ m < a / 2 ^ m then -((distance (a / 2 ^ m) (b / 2 ^ m) : Int) + m)
      else if a / 2 ^ m < b / 2 ^ m then distance (a / 2 ^ m) (b / 2 ^ m) + m
      else signedDistance (a % 2 ^ m) (b % 2 ^ m) := by
  have monotone : ∀ x y : Nat, x ≤ y → x / 2 ^ m ≤ y / 2 ^ m := fun x y => Nat.div_le_div_right
  split_ifs with greater less
  · have order : b < a := lt_of_not_ge fun le => absurd (monotone _ _ le) (by omega)
    unfold signedDistance
    rw [if_pos order, distance_upper greater.ne']
    push_cast
    ring
  · have order : a < b := lt_of_not_ge fun le => absurd (monotone _ _ le) (by omega)
    unfold signedDistance
    rw [if_neg (by omega), if_pos order, distance_upper less.ne]
    push_cast
    ring
  · have same : a / 2 ^ m = b / 2 ^ m := by omega
    have split_a := Nat.div_add_mod a (2 ^ m)
    have split_b := Nat.div_add_mod b (2 ^ m)
    rw [same] at split_a
    unfold signedDistance
    rw [distance_lower same]
    by_cases order : b < a
    · rw [if_pos order, if_pos (by omega)]
    · rw [if_neg order, if_neg (by omega : ¬ b % 2 ^ m < a % 2 ^ m)]
      by_cases order' : a < b
      · rw [if_pos order', if_pos (by omega)]
      · rw [if_neg order', if_neg (by omega)]

end Libcoin.HighBit
