/-
A set held in the order of a comparison, as a tree-shaped set does: a value goes before the first
element that is not less than it, unless the two are equivalent, and erasing a value erases what is
equivalent to it.

The comparison is any Boolean function. Where it is the strict order of a rank, `insert_untied` and
`insert_tied` say when a value is added, and `mem_erase` what is erased.
-/

import Mathlib.Data.List.Basic
import Mathlib.Order.Lattice

namespace Libcoin.OrderedSet

variable {A R : Type} [LinearOrder R]

/-- Insertion at the lower bound. -/
def insert (less : A → A → Bool) (x : A) : List A → List A
  | [] => [x]
  | y :: ys =>
    if less y x then y :: insert less x ys
    else if less x y then x :: y :: ys
    else y :: ys

/-- Removal of the elements that are equivalent to a value. -/
def erase (less : A → A → Bool) (x : A) (xs : List A) : List A :=
  xs.filter fun y => less y x || less x y

/-- The elements by increasing rank. -/
def Sorted (rank : A → R) (xs : List A) : Prop := xs.Pairwise fun x y => rank x < rank y

/-- On these elements and a value the comparison is the order of their ranks. -/
def Agrees (less : A → A → Bool) (rank : A → R) (x : A) (xs : List A) : Prop :=
  ∀ y ∈ xs, (less y x = true ↔ rank y < rank x) ∧ (less x y = true ↔ rank x < rank y)

theorem Agrees.tail {less : A → A → Bool} {rank : A → R} {x y : A} {xs : List A}
    (agrees : Agrees less rank x (y :: xs)) : Agrees less rank x xs :=
  fun z member => agrees z (List.mem_cons_of_mem y member)

theorem insert_perm {less : A → A → Bool} {x : A} {xs : List A}
    (untied : ∀ y ∈ xs, less y x = true ∨ less x y = true) : (insert less x xs).Perm (x :: xs) := by
  induction xs with
  | nil => exact List.Perm.refl _
  | cons y ys ih =>
    unfold insert
    split_ifs with before after
    · have below := ih fun z member => untied z (List.mem_cons_of_mem y member)
      exact (below.cons y).trans (List.Perm.swap x y ys)
    · exact List.Perm.refl _
    · rcases untied y List.mem_cons_self with before' | after'
      · exact absurd before' before
      · exact absurd after' after

section Ranked

variable {less : A → A → Bool} {rank : A → R} {x : A} {xs : List A}

theorem insert_untied (sorted : Sorted rank xs) (agrees : Agrees less rank x xs)
    (untied : ∀ y ∈ xs, rank y ≠ rank x) :
    Sorted rank (insert less x xs) ∧ (insert less x xs).Perm (x :: xs) := by
  constructor
  · induction xs with
    | nil => exact List.pairwise_singleton _ _
    | cons y ys ih =>
      obtain ⟨first, rest⟩ := List.pairwise_cons.mp sorted
      obtain ⟨before_iff, after_iff⟩ := agrees y List.mem_cons_self
      have apart := untied y List.mem_cons_self
      have untied_rest := fun z member => untied z (List.mem_cons_of_mem y member)
      unfold insert
      split_ifs with before after
      · refine List.pairwise_cons.mpr ⟨fun z member => ?_, ih rest agrees.tail untied_rest⟩
        have perm : (insert less x ys).Perm (x :: ys) := insert_perm fun z z_mem =>
          (lt_or_gt_of_ne (untied_rest z z_mem)).imp (agrees.tail z z_mem).1.mpr
            (agrees.tail z z_mem).2.mpr
        rcases List.mem_cons.mp (perm.mem_iff.mp member) with rfl | old
        · exact before_iff.mp before
        · exact first z old
      · have less_y := after_iff.mp after
        refine List.pairwise_cons.mpr ⟨fun z member => ?_, sorted⟩
        rcases List.mem_cons.mp member with rfl | old
        · exact less_y
        · exact lt_trans less_y (first z old)
      · exact sorted
  · exact insert_perm fun y member =>
      (lt_or_gt_of_ne (untied y member)).imp (agrees y member).1.mpr (agrees y member).2.mpr

/-- A value with the rank of an element is not inserted. -/
theorem insert_tied (sorted : Sorted rank xs) (agrees : Agrees less rank x xs)
    (tied : ∃ y ∈ xs, rank y = rank x) : insert less x xs = xs := by
  induction xs with
  | nil =>
    obtain ⟨y, member, -⟩ := tied
    cases member
  | cons y ys ih =>
    obtain ⟨first, rest⟩ := List.pairwise_cons.mp sorted
    obtain ⟨before_iff, after_iff⟩ := agrees y List.mem_cons_self
    obtain ⟨z, member, same⟩ := tied
    unfold insert
    rcases List.mem_cons.mp member with rfl | old
    · rw [if_neg fun before => absurd (before_iff.mp before) (same ▸ lt_irrefl _),
        if_neg fun after => absurd (after_iff.mp after) (same ▸ lt_irrefl _)]
    · rw [if_pos (before_iff.mpr (same ▸ first z old)), ih rest agrees.tail ⟨z, old, same⟩]

theorem mem_erase (agrees : Agrees less rank x xs) {y : A} :
    y ∈ erase less x xs ↔ y ∈ xs ∧ rank y ≠ rank x := by
  unfold erase
  rw [List.mem_filter, Bool.or_eq_true]
  refine and_congr_right fun member => ?_
  rw [(agrees y member).1, (agrees y member).2]
  exact ne_iff_lt_or_gt.symm

theorem Sorted.erase (sorted : Sorted rank xs) (less : A → A → Bool) (x : A) :
    Sorted rank (erase less x xs) :=
  List.Pairwise.filter _ sorted

theorem Sorted.nodup (sorted : Sorted rank xs) : xs.Nodup :=
  List.Pairwise.imp (fun less same => absurd (same ▸ less) (lt_irrefl _)) sorted

/-- Elements of one rank are one element. -/
theorem Sorted.eq_of_rank (sorted : Sorted rank xs) {y z : A} (y_mem : y ∈ xs) (z_mem : z ∈ xs)
    (same : rank y = rank z) : y = z := by
  induction xs with
  | nil => cases y_mem
  | cons w ws ih =>
    obtain ⟨first, rest⟩ := List.pairwise_cons.mp sorted
    rcases List.mem_cons.mp y_mem with rfl | y_old
    · rcases List.mem_cons.mp z_mem with rfl | z_old
      · rfl
      · exact absurd (first z z_old) (same ▸ lt_irrefl _)
    · rcases List.mem_cons.mp z_mem with rfl | z_old
      · exact absurd (first y y_old) (same ▸ lt_irrefl _)
      · exact ih rest y_old z_old

end Ranked

end Libcoin.OrderedSet
