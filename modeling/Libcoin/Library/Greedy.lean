/-
Pairs of two lists that are found in one pass, each element of the first list with the next one of the second that
fits.

* `greedy_iff`: the pass succeeds if and only if the first list fits some part of the second in its order.
* `greedy_iff_strictMono`: that is, if there are places for the first list in the second, in its order.
-/

import Mathlib.Data.List.Forall2
import Mathlib.Data.List.NodupEquivFin
import Mathlib.Data.List.Sublists

namespace Libcoin

variable {A B : Type} (fits : A → B → Bool)

/-- Whether there are elements in the second list that fit those of the first one, one after the other. -/
def greedy : List A → List B → Bool
  | [], _ => true
  | _ :: _, [] => false
  | a :: as, b :: bs => greedy (if fits a b then as else a :: as) bs

variable {fits}

theorem greedy_length {as : List A} {bs : List B} (found : greedy fits as bs = true) : as.length ≤ bs.length := by
  induction bs generalizing as with
  | nil =>
    cases as with
    | nil => exact le_rfl
    | cons a as => cases found
  | cons b bs ih =>
    cases as with
    | nil => exact Nat.zero_le _
    | cons a as =>
      rw [greedy] at found
      have shorter := ih found
      split at shorter
      · simpa using shorter
      · exact shorter.trans (Nat.le_succ _)

/-- **The pass succeeds if and only if the first list fits a part of the second.** -/
theorem greedy_iff {as : List A} {bs : List B} :
    greedy fits as bs = true ↔ ∃ part, part.Sublist bs ∧ List.Forall₂ (fun a b => fits a b = true) as part := by
  induction bs generalizing as with
  | nil =>
    cases as with
    | nil => exact iff_of_true rfl ⟨[], .slnil, .nil⟩
    | cons a as =>
      refine iff_of_false nofun ?_
      rintro ⟨part, below, fit⟩
      rw [List.sublist_nil.mp below] at fit
      cases fit
  | cons b bs ih =>
    cases as with
    | nil => exact iff_of_true rfl ⟨[], List.nil_sublist _, .nil⟩
    | cons a as =>
      rw [greedy]
      constructor
      · intro found
        split at found
        · rename_i here
          obtain ⟨part, below, fit⟩ := ih.mp found
          exact ⟨b :: part, below.cons_cons b, .cons here fit⟩
        · obtain ⟨part, below, fit⟩ := ih.mp found
          exact ⟨part, below.cons b, fit⟩
      · rintro ⟨part, below, fit⟩
        obtain ⟨c, part, rfl⟩ : ∃ c rest, part = c :: rest := by
          cases fit with
          | cons here later => exact ⟨_, _, rfl⟩
        cases fit with
        | cons here later =>
          -- the rest fits what is left of the list, wherever the first one was found
          have after : part.Sublist bs := by
            cases below with
            | cons _ below => exact (List.sublist_cons_self c part).trans below
            | cons_cons _ below => exact below
          split
          · exact ih.mpr ⟨part, after, later⟩
          · rename_i misses
            cases below with
            | cons _ below => exact ih.mpr ⟨c :: part, below, .cons here later⟩
            | cons_cons _ below => exact absurd here misses

/-- **The pass succeeds if and only if the first list has places in the second one, in its order, that fit.** -/
theorem greedy_iff_strictMono {as : List A} {bs : List B} :
    greedy fits as bs = true ↔
      ∃ place : Fin as.length → Fin bs.length, StrictMono place ∧ ∀ i, fits (as.get i) (bs.get (place i)) = true := by
  rw [greedy_iff]
  constructor
  · rintro ⟨part, below, fit⟩
    obtain ⟨place, found⟩ := List.sublist_iff_exists_fin_orderEmbedding_get_eq.mp below
    refine ⟨fun i => place (i.cast fit.length_eq), fun i j less => place.strictMono less, fun i => ?_⟩
    rw [← found]
    exact fit.get i.isLt (fit.length_eq ▸ i.isLt)
  · rintro ⟨place, mono, fit⟩
    have length : (List.ofFn fun i => bs.get (place i)).length = as.length := List.length_ofFn
    refine ⟨List.ofFn fun i => bs.get (place i), ?_, ?_⟩
    · refine List.sublist_iff_exists_fin_orderEmbedding_get_eq.mpr
        ⟨OrderEmbedding.ofStrictMono (fun i => place (i.cast length)) fun i j less => mono less, fun i => ?_⟩
      exact List.get_ofFn _ i
    · refine List.forall₂_iff_get.mpr ⟨length.symm, fun i low high => ?_⟩
      rw [List.get_ofFn]
      exact fit ⟨i, low⟩

end Libcoin
