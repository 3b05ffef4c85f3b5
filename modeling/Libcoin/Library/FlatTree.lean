/-
A hash tree in one array: the leaves, and the levels over them one after the other.

* `flatLevels` has so many levels, and `offset` is where a level begins (`flatLevels_getD`).
* `sibling` is the place of the other child of a node, which is the last node itself where there is no other.
  `hash_sibling`: a node and its sibling give their parent.
-/

import Libcoin.Library.HashTree

namespace Libcoin.HashTree

variable {H : Type}

/-- Where a level begins. -/
def offset (n : Nat) : Nat → Nat
  | 0 => 0
  | h + 1 => offset n h + width n h

/-- So many levels of the tree. -/
def flatLevels (hash : H → H → H) (leaves : List H) : Nat → List H
  | 0 => []
  | h + 1 => flatLevels hash leaves h ++ levelAt hash leaves h

theorem flatLevels_length (hash : H → H → H) (leaves : List H) (h : Nat) :
    (flatLevels hash leaves h).length = offset leaves.length h := by
  induction h with
  | zero => rfl
  | succ h ih => rw [flatLevels, List.length_append, ih, levelAt_length, offset]

theorem offset_le {n low h : Nat} (below : low ≤ h) : offset n low ≤ offset n h := by
  induction h with
  | zero => rw [Nat.le_zero.mp below]
  | succ h ih =>
    rcases Nat.le_succ_iff.mp below with lower | rfl
    · exact (ih lower).trans (Nat.le_add_right _ _)
    · exact le_rfl

/-- A level with a node ends in the array. -/
theorem offset_add_lt {n low h pos : Nat} (below : low < h) (inside : pos < width n low) :
    offset n low + pos < offset n h := by
  have next : offset n low + width n low ≤ offset n h := @offset_le n (low + 1) h below
  omega

/-- **A node of a level** in the array. -/
theorem flatLevels_getD (hash : H → H → H) (zero : H) (leaves : List H) {low h pos : Nat} (below : low < h)
    (inside : pos < width leaves.length low) :
    (flatLevels hash leaves h).getD (offset leaves.length low + pos) zero = nodeAt hash zero leaves low pos := by
  induction h with
  | zero => cases below
  | succ h ih =>
    have length := flatLevels_length hash leaves h
    rw [flatLevels]
    rcases Nat.lt_succ_iff_lt_or_eq.mp below with lower | rfl
    · rw [List.getD_append _ _ _ _ (by rw [length]; exact offset_add_lt lower inside), ih lower]
    · rw [List.getD_append_right _ _ _ _ (by rw [length]; exact Nat.le_add_right _ _), length, Nat.add_sub_cancel_left]
      rfl

/-- The place of the other child. -/
def sibling (size pos : Nat) : Nat := min (if pos % 2 = 1 then pos - 1 else pos + 1) (size - 1)

theorem sibling_lt {size pos : Nat} (some : 0 < size) : sibling size pos < size := by
  unfold sibling
  omega

/-- **A node and its sibling give their parent**, in the order of their places. -/
theorem hash_sibling (hash : H → H → H) (zero : H) (leaves : List H) {h pos : Nat}
    (inside : pos < width leaves.length h) :
    (if pos % 2 = 1 then
        hash (nodeAt hash zero leaves h (sibling (width leaves.length h) pos)) (nodeAt hash zero leaves h pos)
      else hash (nodeAt hash zero leaves h pos) (nodeAt hash zero leaves h (sibling (width leaves.length h) pos))) =
      nodeAt hash zero leaves (h + 1) (pos / 2) := by
  have above : pos / 2 < width leaves.length (h + 1) := by
    rw [width_succ]
    omega
  rw [nodeAt_succ hash zero leaves above]
  by_cases odd : pos % 2 = 1
  · have left : sibling (width leaves.length h) pos = pos / 2 * 2 := by
      unfold sibling
      rw [if_pos odd]
      omega
    have right : pos / 2 * 2 + 1 = pos := by omega
    rw [if_pos odd, left, right, if_pos inside]
  · have left : pos / 2 * 2 = pos := by omega
    rw [if_neg odd, left]
    by_cases two : pos + 1 < width leaves.length h
    · have right : sibling (width leaves.length h) pos = pos + 1 := by
        unfold sibling
        rw [if_neg odd]
        omega
      rw [if_pos two, right]
    · -- the last node of an odd level
      have alone : sibling (width leaves.length h) pos = pos := by
        unfold sibling
        rw [if_neg odd]
        omega
      rw [if_neg two, alone]

theorem height_unique {n h : Nat} (narrow : width n h ≤ 1) (wide : ∀ low < h, 1 < width n low) : height n = h := by
  obtain ⟨narrow', wide'⟩ := height_spec n
  rcases Nat.lt_trichotomy (height n) h with lower | same | higher
  · have := wide _ lower
    omega
  · exact same
  · have := wide' _ higher
    omega

end Libcoin.HashTree
