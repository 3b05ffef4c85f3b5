/-
Order statistics: the element at an index of a sorted list, and the greatest value that more than so many elements
reach.

* `getElem?_insertionSort_iff`: an element is at an index of the sorted list if and only if no more elements than the
  index are less, and more are not greater.
* `reaching v xs` counts the elements that are at least `v`. `isGreatest_reaching_snoc` says what one more element
  changes for the greatest value that more than `k` elements reach.
* `Counts` says of a map that it is the histogram of a list, and `Counts.sum_filter` adds up the bins of some values.
-/

import Libcoin.Library.OrderedMap
import Mathlib.Data.List.Sort
import Mathlib.Order.Bounds.Basic
import Mathlib.Algebra.BigOperators.Group.List.Lemmas
import Mathlib.Algebra.Order.Ring.Int

namespace Libcoin

namespace OrderStatistics

variable {α : Type} [LinearOrder α]

/-! ### The element at an index -/

theorem getElem?_sorted_iff {xs : List α} (sorted : xs.Pairwise (· ≤ ·)) (i : Nat) (m : α) :
    xs[i]? = some m ↔ xs.countP (· < m) ≤ i ∧ i < xs.countP (· ≤ m) := by
  induction xs generalizing i with
  | nil => simp
  | cons x xs ih =>
    obtain ⟨least, sorted⟩ := List.pairwise_cons.mp sorted
    rw [List.countP_cons, List.countP_cons]
    rcases lt_trichotomy x m with less | rfl | greater
    · rw [if_pos (by simpa using less), if_pos (by simpa using less.le)]
      cases i with
      | zero => simpa using less.ne
      | succ i =>
        rw [List.getElem?_cons_succ, ih sorted i]
        omega
    · have none_less : xs.countP (· < x) = 0 :=
        List.countP_eq_zero.mpr fun y inside => by simpa using least y inside
      rw [if_neg (by simp), if_pos (by simp), none_less]
      cases i with
      | zero => simp
      | succ i =>
        rw [List.getElem?_cons_succ, ih sorted i, none_less]
        omega
    · have none_reached : xs.countP (· ≤ m) = 0 :=
        List.countP_eq_zero.mpr fun y inside => by simpa using lt_of_lt_of_le greater (least y inside)
      rw [if_neg (by simpa using greater.le), if_neg (by simpa using greater), none_reached]
      refine iff_of_false (fun found => ?_) (by omega)
      rcases List.mem_cons.mp (List.mem_of_getElem? found) with rfl | inside
      · exact lt_irrefl _ greater
      · exact absurd (least m inside) (not_le.mpr greater)

theorem getElem?_insertionSort_iff (xs : List α) (i : Nat) (m : α) :
    (xs.insertionSort (· ≤ ·))[i]? = some m ↔ xs.countP (· < m) ≤ i ∧ i < xs.countP (· ≤ m) := by
  have same := List.perm_insertionSort (· ≤ ·) xs
  rw [getElem?_sorted_iff (List.pairwise_insertionSort (· ≤ ·) xs), same.countP_eq, same.countP_eq]

/-- The element in the middle of a sorted list, at half of its length. -/
def median (xs : List α) : Option α := (xs.insertionSort (· ≤ ·))[xs.length / 2]?

/-- Copies of one element, which fill a list up to `n` elements, leave the element in the middle when it is that
element, or when the index that they leave in the middle has it too. -/
theorem median_fill_iff {xs : List α} {n : Nat} (short : xs.length ≤ n) {m g : α} (middle : median xs = some m) :
    median (xs ++ List.replicate (n - xs.length) g) = some m ↔
      m = g ∨ m < g ∧ (xs.insertionSort (· ≤ ·))[n / 2]? = some m ∨
        g < m ∧ n - xs.length ≤ n / 2 ∧ (xs.insertionSort (· ≤ ·))[n / 2 - (n - xs.length)]? = some m := by
  have total : (xs ++ List.replicate (n - xs.length) g).length = n := by
    rw [List.length_append, List.length_replicate]
    omega
  obtain ⟨less, more⟩ := (getElem?_insertionSort_iff xs (xs.length / 2) m).mp middle
  rw [median, total, getElem?_insertionSort_iff, getElem?_insertionSort_iff, getElem?_insertionSort_iff,
    List.countP_append, List.countP_append, List.countP_replicate, List.countP_replicate]
  rcases lt_trichotomy m g with below | rfl | above
  · rw [if_neg (by simpa using below.le), if_neg (by simpa using below)]
    simp only [below, below.ne, below.not_gt, Nat.add_zero, false_or, true_and, false_and, or_false]
  · rw [if_neg (by simp), if_pos (by simp)]
    exact iff_of_true ⟨by omega, by omega⟩ (.inl rfl)
  · rw [if_pos (by simpa using above), if_pos (by simpa using above.le)]
    simp only [above, above.ne', above.not_gt, false_or, true_and, false_and]
    omega

/-- Fewer than half of the elements do not move the one in the middle out of an interval. -/
theorem median_between {xs : List α} {m lo hi : α} (middle : median xs = some m)
    (most : 2 * xs.countP (fun x => decide (x < lo ∨ hi < x)) < xs.length) : lo ≤ m ∧ m ≤ hi := by
  obtain ⟨less, more⟩ := (getElem?_insertionSort_iff xs (xs.length / 2) m).mp middle
  constructor
  · by_contra below
    have outside : xs.countP (· ≤ m) ≤ xs.countP fun x => decide (x < lo ∨ hi < x) :=
      List.countP_mono_left fun x _ le => by
        simpa using Or.inl ((show x ≤ m by simpa using le).trans_lt (not_le.mp below))
    omega
  · by_contra above
    have outside : xs.countP (m ≤ ·) ≤ xs.countP fun x => decide (x < lo ∨ hi < x) :=
      List.countP_mono_left fun x _ le => by
        simpa using Or.inr ((not_le.mp above).trans_le (show m ≤ x by simpa using le))
    have all : xs.length = xs.countP (· < m) + xs.countP (m ≤ ·) := by
      simpa using @List.length_eq_countP_add_countP α (fun x => decide (x < m)) xs
    omega

/-! ### The greatest value that so many elements reach -/

/-- The number of elements that are at least `v`. -/
def reaching (v : α) (xs : List α) : Nat := xs.countP (v ≤ ·)

theorem reaching_antitone {v w : α} (le : v ≤ w) (xs : List α) : reaching w xs ≤ reaching v xs :=
  List.countP_mono_left fun x _ reached => by simpa using le.trans (by simpa using reached)

theorem reaching_append (v : α) (xs ys : List α) : reaching v (xs ++ ys) = reaching v xs + reaching v ys :=
  List.countP_append

theorem reaching_le_length (v : α) (xs : List α) : reaching v xs ≤ xs.length := List.countP_le_length

/-- The elements equal to `v` and those that are greater. -/
theorem count_add_reaching {v w : α} (less : v < w) (xs : List α) : xs.count v + reaching w xs ≤ xs.length := by
  induction xs with
  | nil => simp [reaching]
  | cons x xs ih =>
    unfold reaching at ih ⊢
    rw [List.count_cons, List.countP_cons, List.length_cons]
    by_cases same : x = v
    · subst same
      rw [if_neg (show ¬decide (w ≤ x) = true by simpa using less)]
      simp
      omega
    · rw [if_neg (by simpa using same)]
      split <;> omega

theorem count_le_reaching (v : α) (xs : List α) : xs.count v ≤ reaching v xs :=
  List.countP_mono_left fun x _ same => by simpa using (show v = x by simpa using Eq.symm (by simpa using same)).le

theorem exists_isGreatest_reaching {k : Nat} {xs : List α} (more : k < xs.length) :
    ∃ v, IsGreatest {u | k < reaching u xs} v := by
  obtain ⟨v, found⟩ : ∃ v, (xs.insertionSort (· ≤ ·))[xs.length - 1 - k]? = some v :=
    ⟨_, List.getElem?_eq_getElem (by rw [List.length_insertionSort]; omega)⟩
  obtain ⟨less, notGreater⟩ := (getElem?_insertionSort_iff xs _ v).mp found
  have others : reaching v xs + xs.countP (· < v) = xs.length := by
    rw [reaching, List.length_eq_countP_add_countP (fun x => decide (v ≤ x))]
    simp
  refine ⟨v, show k < reaching v xs by omega, fun u reached => ?_⟩
  by_contra greater
  have reached : k < reaching u xs := reached
  have apart : reaching u xs + xs.countP (· ≤ v) ≤ xs.length := by
    rw [reaching, List.length_eq_countP_add_countP (fun x => decide (u ≤ x))]
    refine Nat.add_le_add_left (List.countP_mono_left fun x _ le => ?_) _
    simpa using lt_of_le_of_lt (show x ≤ v by simpa using le) (not_le.mp greater)
  omega

/-- An element that is the majority of a list. -/
theorem isGreatest_of_count {k : Nat} {xs : List α} {v : α} (many : k < xs.count v) (most : xs.length ≤ 2 * k + 1) :
    IsGreatest {u | k < reaching u xs} v := by
  refine ⟨many.trans_le (count_le_reaching v xs), fun u reached => ?_⟩
  by_contra greater
  have reached : k < reaching u xs := reached
  have both := count_add_reaching (not_le.mp greater) xs
  omega

/-- One more element changes the greatest value that more than `k` elements reach if and only if it completes the
number for a greater one. -/
theorem isGreatest_reaching_snoc {k : Nat} {xs : List α} {x best : α}
    (greatest : IsGreatest {v | k < reaching v xs} best) :
    IsGreatest {v | k < reaching v (xs ++ [x])} best ↔ ∀ v ≤ x, reaching v xs ≠ k := by
  have one : ∀ v, reaching v (xs ++ [x]) = reaching v xs + if v ≤ x then 1 else 0 := by
    intro v
    rw [reaching_append, reaching, reaching, List.countP_singleton]
    simp
  constructor
  · intro still v le exact
    have reached : k < reaching v (xs ++ [x]) := by
      rw [one, if_pos le]
      omega
    have below := reaching_antitone (still.2 reached) xs
    have enough : k < reaching best xs := greatest.1
    omega
  · intro apart
    constructor
    · show k < reaching best (xs ++ [x])
      have enough : k < reaching best xs := greatest.1
      rw [one]
      omega
    · intro v reached
      have reached : k < reaching v (xs ++ [x]) := reached
      refine greatest.2 (show k < reaching v xs from ?_)
      rw [one] at reached
      split at reached
      · have := apart v (by assumption)
        omega
      · omega

end OrderStatistics

/-! ### Histograms -/

section Histogram

open OrderStatistics

variable {K : Type} [LinearOrder K]

/-- The map counts the elements of the list. -/
def Counts (xs : List K) (bins : Map K Nat) : Prop := ∀ v, bins[v]? = if v ∈ xs then some (xs.count v) else none

namespace Counts

variable {xs : List K} {bins : Map K Nat}

theorem empty : Counts [] (∅ : Map K Nat) := fun v => by simp

theorem getD (counts : Counts xs bins) (v : K) : bins.getD v 0 = xs.count v := by
  rw [Map.getD_lookup, counts v]
  split
  · rfl
  · exact (List.count_eq_zero_of_not_mem (by assumption)).symm

theorem insert (counts : Counts xs bins) (x : K) : Counts (xs ++ [x]) (bins.insert x (bins.getD x 0 + 1)) := by
  intro v
  rw [Map.lookup_insert, counts.getD, counts v, List.count_append, List.count_singleton]
  by_cases same : x = v
  · subst same
    simp
  · rw [if_neg same]
    simp [same, Ne.symm same]

theorem of_mem_toList (counts : Counts xs bins) {w : K} {n : Nat} (inside : (w, n) ∈ bins.toList) : n = xs.count w := by
  have found := Map.mem_toList.mp inside
  rw [counts w] at found
  split at found
  · exact (Option.some.inj found).symm
  · cases found

/-- The bins of the values with a property add up to the number of elements that have it. -/
theorem sum_filter (counts : Counts xs bins) (p : K → Bool) :
    ((bins.toList.filter fun bin => p bin.1).map Prod.snd).sum = xs.countP p := by
  have keys : (bins.toList.map Prod.fst).Perm xs.dedup := by
    refine (List.perm_ext_iff_of_nodup ?_ xs.nodup_dedup).mpr fun w => ?_
    · exact (List.pairwise_map.mpr (bins.toList_sorted.imp fun less => less.ne))
    · rw [Map.mem_toList_fst, counts w, List.mem_dedup]
      split <;> simp_all
  have pairs : (bins.toList.filter fun bin => p bin.1).map Prod.snd =
      ((bins.toList.map Prod.fst).filter p).map xs.count := by
    rw [List.filter_map, List.map_map]
    exact List.map_congr_left fun bin inside => counts.of_mem_toList (List.mem_of_mem_filter inside)
  rw [pairs, ((keys.filter _).map _).sum_eq, List.sum_map_count_dedup_filter_eq_countP]

theorem sum (counts : Counts xs bins) : (bins.toList.map Prod.snd).sum = xs.length := by
  have all := counts.sum_filter fun _ => true
  rwa [List.filter_true, List.countP_true] at all

end Counts

end Histogram

end Libcoin
