/-
Lists that are gone through until a count or a budget is used up, and what two lists have in common.

* `cutOff cost budget`: the part of a list that is taken when the loop stops after the element that uses up the
  count or the budget. `exists_cutOff_iff` says when it goes beyond a first part of the list.
* `commonPrefix`: the longest common prefix of two lists.
-/

import Mathlib.Algebra.GroupWithZero.Nat
import Mathlib.Algebra.Order.Group.Nat
import Mathlib.Data.List.TakeWhile

namespace Libcoin

variable {A : Type}

section CutOff

variable (cost : A → Nat) (budget : Nat)

/-- What is taken of a list, with so many elements left to take and so much spent. The element that uses up the
count or the budget is still taken. -/
def cutOff : Int → Nat → List A → List A
  | _, _, [] => []
  | limit, spent, a :: rest =>
    a :: if limit - 1 ≤ 0 ∨ budget ≤ spent + cost a then [] else cutOff (limit - 1) (spent + cost a) rest

variable {cost budget}

theorem prefix_cutOff (limit : Int) (spent : Nat) (list : List A) : cutOff cost budget limit spent list <+: list := by
  induction list generalizing limit spent with
  | nil => exact List.nil_prefix
  | cons a rest ih =>
    unfold cutOff
    rw [List.prefix_cons_inj]
    split
    · exact List.nil_prefix
    · exact ih _ _

/-- A part within the count and the budget is gone through. -/
theorem cutOff_append {limit : Int} {spent : Nat} {before : List A} (rest : List A)
    (counted : (before.length : Int) < limit) (within : spent + (before.map cost).sum < budget) :
    cutOff cost budget limit spent (before ++ rest) =
      before ++ cutOff cost budget (limit - before.length) (spent + (before.map cost).sum) rest := by
  induction before generalizing limit spent with
  | nil => simp
  | cons a before ih =>
    rw [List.length_cons] at counted
    rw [List.map_cons, List.sum_cons] at within
    have more : ¬(limit - 1 ≤ 0 ∨ budget ≤ spent + cost a) := by
      push_cast at counted
      omega
    have left : limit - 1 - (before.length : Int) = limit - ((before.length + 1 : Nat) : Int) := by
      push_cast
      omega
    rw [List.cons_append, cutOff, if_neg more, ih (by push_cast at counted; omega) (by omega), List.map_cons,
      List.sum_cons, List.length_cons, List.cons_append, left, add_assoc]

/-- A part that uses up the budget is not left. -/
theorem spent_cutOff {limit : Int} {spent : Nat} {before : List A} (rest : List A)
    (fresh : spent < budget) (beyond : budget ≤ spent + (before.map cost).sum) :
    cutOff cost budget limit spent (before ++ rest) <+: before := by
  induction before generalizing limit spent with
  | nil =>
    rw [List.map_nil, List.sum_nil] at beyond
    omega
  | cons a before ih =>
    rw [List.map_cons, List.sum_cons] at beyond
    rw [List.cons_append, cutOff, List.prefix_cons_inj]
    split
    · exact List.nil_prefix
    · rename_i more
      exact ih (by omega) (by omega)

/-- **What is taken goes beyond a part within the count if and only if the part is within the budget.** -/
theorem exists_cutOff_iff {new : A → Prop} {limit : Int} {before after : List A} {a : A}
    (counted : (before.length : Int) < limit) (positive : 0 < budget) (old : ∀ b ∈ before, ¬new b) (here : new a) :
    (∃ b ∈ cutOff cost budget limit 0 (before ++ a :: after), new b) ↔ (before.map cost).sum < budget := by
  constructor
  · rintro ⟨b, taken, fresh⟩
    by_contra beyond
    have beyond : budget ≤ 0 + (before.map cost).sum := by omega
    exact old b ((spent_cutOff (a :: after) positive beyond).subset taken) fresh
  · intro within
    refine ⟨a, ?_, here⟩
    rw [cutOff_append (a :: after) counted (by omega), cutOff]
    exact List.mem_append_right _ List.mem_cons_self

/-- A list that stops at an element or before it goes no further than the part below. -/
theorem takeWhile_subset_of_stop {going : A → Bool} {before after : List A} {a b : A}
    (stops : ¬∀ b ∈ before ++ [a], going b = true) (inside : b ∈ (before ++ a :: after).takeWhile going) :
    b ∈ before := by
  rw [List.takeWhile_append] at inside
  by_cases early : ∀ b ∈ before, going b = true
  · have here : ¬going a = true := fun holds => stops fun b member => by
      rcases List.mem_append.mp member with below | last
      · exact early b below
      · exact (List.mem_singleton.mp last) ▸ holds
    rw [List.takeWhile_eq_self_iff.mpr early, if_pos rfl, List.takeWhile_cons_of_neg here, List.append_nil] at inside
    exact inside
  · have shorter : ¬(before.takeWhile going).length = before.length := fun same =>
      early (List.takeWhile_eq_self_iff.mp ((List.takeWhile_prefix going).eq_of_length same))
    rw [if_neg shorter] at inside
    exact (List.takeWhile_prefix going).subset inside

/-- The same where the list stops at the first element that does not hold. -/
theorem exists_cutOff_takeWhile_iff {new : A → Prop} {going : A → Bool} {limit : Int} {before after : List A} {a : A}
    (counted : (before.length : Int) < limit) (positive : 0 < budget) (old : ∀ b ∈ before, ¬new b) (here : new a) :
    (∃ b ∈ cutOff cost budget limit 0 ((before ++ a :: after).takeWhile going), new b) ↔
      (∀ b ∈ before ++ [a], going b = true) ∧ (before.map cost).sum < budget := by
  by_cases passes : ∀ b ∈ before ++ [a], going b = true
  · have split : (before ++ a :: after).takeWhile going = before ++ a :: after.takeWhile going := by
      rw [List.append_cons, List.takeWhile_append_of_pos passes, ← List.append_cons]
    rw [split, exists_cutOff_iff counted positive old here]
    exact (and_iff_right passes).symm
  · refine iff_of_false ?_ fun both => passes both.1
    rintro ⟨b, taken, fresh⟩
    exact old b (takeWhile_subset_of_stop passes ((prefix_cutOff limit 0 _).subset taken)) fresh

end CutOff

section Common

variable [DecidableEq A]

def commonPrefix : List A → List A → List A
  | a :: as, b :: bs => if a = b then a :: commonPrefix as bs else []
  | _, _ => []

theorem commonPrefix_append (as bs : List A) : commonPrefix as (as ++ bs) = as := by
  induction as with
  | nil => cases bs <;> rfl
  | cons a as ih => rw [List.cons_append, commonPrefix, if_pos rfl, ih]

/-- After the common prefix the lists differ, or one of them ends. -/
theorem commonPrefix_split (as bs : List A) :
    ∃ as' bs', as = commonPrefix as bs ++ as' ∧ bs = commonPrefix as bs ++ bs' ∧
      ∀ a ∈ as'.head?, ∀ b ∈ bs'.head?, a ≠ b := by
  induction as generalizing bs with
  | nil => exact ⟨[], bs, rfl, rfl, nofun⟩
  | cons a as ih =>
    cases bs with
    | nil => exact ⟨a :: as, [], rfl, rfl, fun _ _ => nofun⟩
    | cons b bs =>
      by_cases same : a = b
      · subst same
        obtain ⟨as', bs', first, second, differ⟩ := ih bs
        refine ⟨as', bs', ?_, ?_, differ⟩
        · rw [commonPrefix, if_pos rfl, List.cons_append, ← first]
        · rw [commonPrefix, if_pos rfl, List.cons_append, ← second]
      · refine ⟨a :: as, b :: bs, ?_, ?_, ?_⟩
        · rw [commonPrefix, if_neg same, List.nil_append]
        · rw [commonPrefix, if_neg same, List.nil_append]
        · rintro _ ⟨⟩ _ ⟨⟩
          exact same

end Common

end Libcoin
