/-
The entries of an ordered map without their order, and lists that are sorted again.

* `Map.entries` is the multiset of the entries. Every update adds to it or takes from it.
* `sum_selected`: a sum over what a query selects is a sum over keys.
-/

import Libcoin.Library.Table
import Mathlib.Algebra.BigOperators.Group.Finset.Basic
import Mathlib.Algebra.Order.Group.Multiset
import Mathlib.Data.Multiset.Filter
import Mathlib.Data.List.Pairwise
import Mathlib.Data.List.Sort

namespace Libcoin

namespace Map

variable {K V : Type} [LinearOrder K]

/-- The entries of a map. -/
def entries (m : Map K V) : Multiset (K × V) := (m.toList : Multiset (K × V))

theorem mem_entries {m : Map K V} {key : K} {value : V} : (key, value) ∈ m.entries ↔ m[key]? = some value :=
  Multiset.mem_coe.trans mem_toList

theorem entries_insert {m : Map K V} {key : K} (fresh : m[key]? = none) (value : V) :
    entries (m.insert key value) = (key, value) ::ₘ m.entries :=
  Multiset.coe_eq_coe.mpr (toList_insert_perm fresh value)

theorem entries_erase {m : Map K V} {key : K} {value : V} (stored : m[key]? = some value) :
    m.entries = (key, value) ::ₘ entries (m.erase key) := by
  have restored : (m.erase key).insert key value = m := by
    ext other : 1
    rw [lookup_insert, lookup_erase]
    by_cases same : key = other
    · rw [if_pos same, ← same, stored]
    · rw [if_neg same, if_neg same]
  have added := entries_insert (lookup_erase_self m key) value
  rwa [restored] at added

theorem entries_filter (m : Map K V) (keep : K → V → Bool) :
    entries (m.filter keep) = m.entries.filter fun entry => keep entry.1 entry.2 = true := by
  unfold entries
  rw [Std.ExtTreeMap.toList_filter, Multiset.filter_coe]
  simp only [Bool.decide_eq_true]

theorem entries_filter_le (m : Map K V) (keep : K → V → Bool) : entries (m.filter keep) ≤ entries m := by
  rw [entries_filter]
  exact Multiset.filter_le _ _

/-- What a query selects. -/
theorem coe_select {Row : Type} (t : Table Row) (cond : Int → Row → Bool) :
    (t.select cond : Multiset (Int × Row)) = t.rows.entries.filter fun entry => cond entry.1 entry.2 = true := by
  unfold entries Table.select
  rw [Multiset.filter_coe]
  simp only [Bool.decide_eq_true]

end Map

/-- What has one tag among values that come from a list with different tags. -/
theorem filter_tagged {K A B : Type} [DecidableEq K] {f : K × A → List (K × B)}
    (tagged : ∀ pair, ∀ value ∈ f pair, value.1 = pair.1) {pairs : List (K × A)}
    (apart : (pairs.map Prod.fst).Nodup)
    {pair : K × A} (member : pair ∈ pairs) :
    (pairs.flatMap f).filter (fun value => decide (value.1 = pair.1)) = f pair := by
  induction pairs with
  | nil => cases member
  | cons first pairs ih =>
    rw [List.map_cons, List.nodup_cons] at apart
    rw [List.flatMap_cons, List.filter_append]
    rcases List.mem_cons.mp member with rfl | member
    · have own : (f pair).filter (fun value => decide (value.1 = pair.1)) = f pair :=
        List.filter_eq_self.mpr fun value known => decide_eq_true (tagged pair value known)
      have others : (pairs.flatMap f).filter (fun value => decide (value.1 = pair.1)) = [] := by
        refine List.filter_eq_nil_iff.mpr fun value known same => ?_
        obtain ⟨other, listed, known⟩ := List.mem_flatMap.mp known
        refine apart.1 (List.mem_map.mpr ⟨other, listed, ?_⟩)
        rw [← tagged other value known]
        exact of_decide_eq_true same
      rw [own, others, List.append_nil]
    · have others : (f first).filter (fun value => decide (value.1 = pair.1)) = [] := by
        refine List.filter_eq_nil_iff.mpr fun value known same => apart.1 (List.mem_map.mpr ⟨pair, member, ?_⟩)
        rw [← tagged first value known]
        exact (of_decide_eq_true same).symm
      rw [others, List.nil_append, ih apart.2 member]

/-- The positions in a list increase. -/
theorem zipIdx_pairwise {A : Type} (values : List A) (start : Nat) :
    (values.zipIdx start).Pairwise fun a b => a.2 < b.2 := by
  induction values generalizing start with
  | nil => exact List.Pairwise.nil
  | cons value values ih =>
    rw [List.zipIdx_cons, List.pairwise_cons]
    refine ⟨fun entry member => ?_, ih (start + 1)⟩
    have low := List.le_snd_of_mem_zipIdx member
    omega

/-- Sorting finds the order again, where the keys differ. -/
theorem sorted_of_perm {A B : Type} {f : A → B} [LinearOrder B] {values sorted : List A}
    (perm : values.Perm sorted)
    (order : sorted.Pairwise fun a b => f a < f b) :
    (values.insertionSort fun a b => f a ≤ f b) = sorted := by
  have total : Std.Total fun a b : A => f a ≤ f b := ⟨fun a b => le_total (f a) (f b)⟩
  have trans : IsTrans A fun a b => f a ≤ f b := ⟨fun a b c one two => le_trans one two⟩
  have same := (List.perm_insertionSort (fun a b => f a ≤ f b) values).trans perm
  have apart : sorted.Pairwise fun a b => f a ≠ f b := order.imp fun less => less.ne
  have symmetric : Std.Symm fun a b : A => f a ≠ f b := ⟨fun a b other => other.symm⟩
  refine List.Perm.eq_of_pairwise (fun a b left right one two => ?_) (List.pairwise_insertionSort _ _)
    (order.imp fun less => less.le) same
  by_contra different
  exact apart.forall (same.mem_iff.mp left) right different (le_antisymm one two)

end Libcoin
