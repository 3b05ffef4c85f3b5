/-
Binary hash trees that are built level by level, over any type of hashes.

* `nextLevel` hashes the elements of a level in pairs, the last one of an odd level with itself.
* `width` is the number of nodes of a level, and `height` the first level that is not wider than one.
* `nodeAt_succ` is the recursion from a node down to its children, which the levels do not say.
* `leavesUnder` are the leaves below a node: those of its children, one after the other.
-/

import Mathlib.Data.List.GetD
import Mathlib.Tactic.Ring

namespace Libcoin.HashTree

variable {H : Type}

/-- The level above: the function of each pair. -/
def nextLevel {A B : Type} (hash : A → A → B) : List A → List B
  | [] => []
  | [last] => [hash last last]
  | left :: right :: rest => hash left right :: nextLevel hash rest

def levelAt (hash : H → H → H) (leaves : List H) : Nat → List H
  | 0 => leaves
  | h + 1 => nextLevel hash (levelAt hash leaves h)

/-- The number of nodes of a level over `n` leaves. -/
def width (n h : Nat) : Nat := (n + 2 ^ h - 1) / 2 ^ h

/-- The loop that looks for the level of the root. -/
def heightLoop (n : Nat) : Nat → Nat → Nat
  | 0, h => h
  | fuel + 1, h => if 1 < width n h then heightLoop n fuel (h + 1) else h

/-- The level of the root. -/
def height (n : Nat) : Nat := heightLoop n n 0

/-! ### Widths -/

@[simp] theorem width_zero (n : Nat) : width n 0 = n := by simp [width]

theorem width_succ (n h : Nat) : width n (h + 1) = (width n h + 1) / 2 := by
  have positive := Nat.two_pow_pos h
  unfold width
  rw [← Nat.add_div_right _ positive, Nat.div_div_eq_div_mul, pow_succ]
  congr 1
  omega

theorem width_le_one {n h : Nat} (few : n ≤ 2 ^ h) : width n h ≤ 1 := by
  have positive := Nat.two_pow_pos h
  refine Nat.le_of_lt_succ (Nat.div_lt_of_lt_mul ?_)
  omega

theorem width_pos {n : Nat} (some : 0 < n) (h : Nat) : 0 < width n h := by
  have positive := Nat.two_pow_pos h
  exact Nat.div_pos (by omega) positive

/-- The nodes that are there are those over a leaf. -/
theorem lt_width {n h pos : Nat} : pos < width n h ↔ pos * 2 ^ h < n := by
  have positive := Nat.two_pow_pos h
  unfold width
  rw [Nat.lt_div_iff_mul_lt positive]
  omega

/-- The height is the first level that is not wider than one. -/
theorem height_spec (n : Nat) : width n (height n) ≤ 1 ∧ ∀ h < height n, 1 < width n h := by
  have loop (fuel h : Nat) (enough : n ≤ h + fuel) (wide : ∀ low < h, 1 < width n low) :
      width n (heightLoop n fuel h) ≤ 1 ∧ ∀ low < heightLoop n fuel h, 1 < width n low := by
    induction fuel generalizing h with
    | zero => exact ⟨width_le_one (Nat.le_trans enough (Nat.le_of_lt Nat.lt_two_pow_self)), wide⟩
    | succ fuel ih =>
      unfold heightLoop
      split
      · next wider =>
        refine ih (h + 1) (by omega) fun low below => ?_
        rcases Nat.lt_succ_iff_lt_or_eq.mp below with lower | rfl
        · exact wide low lower
        · exact wider
      · next narrow => exact ⟨Nat.le_of_not_lt narrow, wide⟩
  exact loop n 0 (Nat.le_add_left n 0) nofun

/-- A level with more than one node is below the number of leaves. -/
theorem level_lt {n h : Nat} (wide : 1 < width n h) : h < n := by
  have more := lt_width.mp wide
  have power := @Nat.lt_two_pow_self h
  omega

theorem height_le (n : Nat) : height n ≤ n := by
  by_contra high
  exact Nat.lt_irrefl n (level_lt ((height_spec n).2 n (Nat.lt_of_not_le high)))

/-- All leaves are below the root. -/
theorem le_two_pow_height (n : Nat) : n ≤ 2 ^ height n := by
  have narrow := (height_spec n).1
  by_contra more
  have second : 1 < width n (height n) := lt_width.mpr (by omega)
  omega

/-! ### Levels -/

theorem nextLevel_length {A B : Type} (hash : A → A → B) (level : List A) :
    (nextLevel hash level).length = (level.length + 1) / 2 := by
  induction level using nextLevel.induct with
  | case1 => simp [nextLevel]
  | case2 last => simp [nextLevel]
  | case3 left right rest ih =>
    show (nextLevel hash rest).length + 1 = (rest.length + 1 + 1 + 1) / 2
    rw [ih]
    omega

theorem levelAt_length (hash : H → H → H) (leaves : List H) (h : Nat) :
    (levelAt hash leaves h).length = width leaves.length h := by
  induction h with
  | zero => exact (width_zero _).symm
  | succ h ih =>
    show (nextLevel hash _).length = _
    rw [nextLevel_length, ih, width_succ]

theorem levelAt_nextLevel (hash : H → H → H) (leaves : List H) (h : Nat) :
    levelAt hash (nextLevel hash leaves) h = levelAt hash leaves (h + 1) := by
  induction h with
  | zero => rfl
  | succ h ih => exact congrArg (nextLevel hash) ih

/-- An element of the level above. -/
theorem nextLevel_getElem? {A B : Type} (hash : A → A → B) (zero : A) (level : List A) {pos : Nat}
    (inside : pos * 2 < level.length) :
    (nextLevel hash level)[pos]? =
      some (hash (level.getD (pos * 2) zero)
        (if pos * 2 + 1 < level.length then level.getD (pos * 2 + 1) zero else level.getD (pos * 2) zero)) := by
  induction level using nextLevel.induct generalizing pos with
  | case1 => cases inside
  | case2 last =>
    obtain rfl : pos = 0 := by
      rw [List.length_singleton] at inside
      omega
    rfl
  | case3 left right rest ih =>
    cases pos with
    | zero => rfl
    | succ pos =>
      simp only [List.length_cons] at inside
      have below := @ih pos (by omega)
      have next : (pos + 1) * 2 = pos * 2 + 1 + 1 := by omega
      simp only [nextLevel, next, List.getElem?_cons_succ, List.getD_cons_succ, List.length_cons, below,
        Nat.add_lt_add_iff_right]

/-- A node of the tree. -/
def nodeAt (hash : H → H → H) (zero : H) (leaves : List H) (h pos : Nat) : H :=
  (levelAt hash leaves h).getD pos zero

/-- **A node is the hash of its children**, or of its only child twice. -/
theorem nodeAt_succ (hash : H → H → H) (zero : H) (leaves : List H) {h pos : Nat}
    (inside : pos < width leaves.length (h + 1)) :
    nodeAt hash zero leaves (h + 1) pos =
      hash (nodeAt hash zero leaves h (pos * 2))
        (if pos * 2 + 1 < width leaves.length h then nodeAt hash zero leaves h (pos * 2 + 1)
          else nodeAt hash zero leaves h (pos * 2)) := by
  have below : pos * 2 < (levelAt hash leaves h).length := by
    rw [levelAt_length]
    rw [width_succ] at inside
    omega
  have node := nextLevel_getElem? hash zero (levelAt hash leaves h) below
  rw [levelAt_length] at node
  show (nextLevel hash (levelAt hash leaves h)).getD pos zero = _
  rw [List.getD_eq_getElem?_getD, node]
  rfl

/-! ### Leaves -/

/-- What is below a node, of a list with an element for each leaf. -/
def leavesUnder {A : Type} (values : List A) (h pos : Nat) : List A := (values.drop (pos * 2 ^ h)).take (2 ^ h)

/-- What is below a node is below its children, the left one first. -/
theorem leavesUnder_succ {A : Type} (values : List A) (h pos : Nat) :
    leavesUnder values (h + 1) pos = leavesUnder values h (pos * 2) ++ leavesUnder values h (pos * 2 + 1) := by
  have left : pos * 2 ^ (h + 1) = pos * 2 * 2 ^ h := by ring
  have right : (pos * 2 + 1) * 2 ^ h = pos * 2 * 2 ^ h + 2 ^ h := by ring
  unfold leavesUnder
  rw [left, right, pow_succ, Nat.mul_two, ← List.drop_drop, List.take_add]

/-- There is nothing below a node that is not there. -/
theorem leavesUnder_outside {A : Type} {values : List A} {h pos : Nat} (outside : ¬pos < width values.length h) :
    leavesUnder values h pos = [] := by
  rw [lt_width, Nat.not_lt] at outside
  unfold leavesUnder
  rw [List.drop_of_length_le outside, List.take_nil]

theorem leavesUnder_pos {A : Type} {values : List A} {h pos : Nat} (inside : pos < width values.length h) :
    0 < (leavesUnder values h pos).length := by
  have positive := Nat.two_pow_pos h
  rw [lt_width] at inside
  unfold leavesUnder
  rw [List.length_take, List.length_drop]
  omega

theorem leavesUnder_leaf {A : Type} {values : List A} {pos : Nat} (zero : A) (inside : pos < values.length) :
    leavesUnder values 0 pos = [values.getD pos zero] := by
  unfold leavesUnder
  rw [pow_zero, mul_one, List.getD_eq_getElem _ _ inside, List.drop_eq_getElem_cons inside]
  rfl

/-- All leaves are below the root. -/
theorem leavesUnder_root {A : Type} (values : List A) : leavesUnder values (height values.length) 0 = values := by
  unfold leavesUnder
  rw [Nat.zero_mul, List.drop_zero, List.take_of_length_le (le_two_pow_height _)]

end Libcoin.HashTree
