/-
The order of a trie, and what the descent finds in an ordered one.

* `Ordered` is the invariant: at every branch all keys to the left are greater than all to the right,
  the depth of the branch is the place of the highest bit in which they differ, and the key stored in
  the branch shares the bits above it.
* `Reaches` is the descent as a relation, with one case for each way it can go on; the proofs about
  `insert`, `remove` and `branch` are inductions on it.
* `Reaches.of_mem` and `Reaches.mem` are the correctness of `find`.
-/

import Libcoin.Trie.MerkleTrie

namespace Libcoin

open HighBit

variable {E Key Hash : Type}

namespace BitElem

variable (bits : BitElem E Key Hash)

/-- The key of an element as a number. -/
def num (elem : E) : Nat := bits.number (bits.key elem)

end BitElem

namespace Node

variable (bits : BitElem E Key Hash)

/-- The sides of a branch with this depth. -/
def Parted (left right : Node E Key Hash) (depth : Nat) : Prop :=
  ∀ a ∈ left.elems, ∀ b ∈ right.elems,
    bits.num b < bits.num a ∧ distance (bits.num a) (bits.num b) = depth

def Ordered : Node E Key Hash → Prop
  | leaf _ => True
  | branch left right own depth _ =>
    Ordered left ∧ Ordered right ∧ Parted bits left right depth ∧
      ∀ e ∈ left.elems ++ right.elems, distance (bits.number own) (bits.num e) ≤ depth

section Fields

variable (ops : Elem E Key Hash) (on : Bool)

@[simp] theorem elems_rehash (node : Node E Key Hash) : (node.rehash ops).elems = node.elems := by
  cases node <;> rfl

@[simp] theorem elems_hashed (node : Node E Key Hash) : (node.hashed ops on).elems = node.elems := by
  unfold hashed
  split <;> simp

@[simp] theorem elems_rehashAll (node : Node E Key Hash) :
    (node.rehashAll ops).elems = node.elems := by
  induction node with
  | leaf => rfl
  | branch left right own depth hash left_ih right_ih => simp [rehashAll, elems, left_ih, right_ih]

end Fields

@[simp] theorem ordered_rehash (node : Node E Key Hash) :
    (node.rehash bits.toElem).Ordered bits ↔ node.Ordered bits := by
  cases node <;> rfl

@[simp] theorem ordered_hashed (node : Node E Key Hash) (on : Bool) :
    (node.hashed bits.toElem on).Ordered bits ↔ node.Ordered bits := by
  unfold hashed
  split <;> simp

theorem ordered_rehashAll {node : Node E Key Hash} (ordered : node.Ordered bits) :
    (node.rehashAll bits.toElem).Ordered bits := by
  induction node with
  | leaf => trivial
  | branch left right own depth hash left_ih right_ih =>
    obtain ⟨left_ordered, right_ordered, parted, covered⟩ := ordered
    unfold rehashAll
    rw [ordered_rehash]
    refine ⟨left_ih left_ordered, right_ih right_ordered, ?_, ?_⟩
    · unfold Parted
      rw [elems_rehashAll, elems_rehashAll]
      exact parted
    · rw [elems_rehashAll, elems_rehashAll]
      exact covered

theorem exists_elem (node : Node E Key Hash) : ∃ e, e ∈ node.elems := by
  induction node with
  | leaf elem => exact ⟨elem, List.mem_singleton_self elem⟩
  | branch left right own depth hash left_ih right_ih =>
    obtain ⟨e, member⟩ := left_ih
    exact ⟨e, List.mem_append_left _ member⟩

variable {bits}

/-! ### The depths -/

theorem Parted.depth_pos {left right : Node E Key Hash} {depth : Nat}
    (parted : Parted bits left right depth) : 0 < depth := by
  obtain ⟨a, a_mem⟩ := left.exists_elem
  obtain ⟨b, b_mem⟩ := right.exists_elem
  obtain ⟨less, far⟩ := parted a a_mem b b_mem
  obtain ⟨low, rfl⟩ := exists_succ_of_lt less far
  exact Nat.succ_pos low

/-- The key of a node shares with its elements the bits from its depth up. -/
theorem Ordered.covers {node : Node E Key Hash} (ordered : node.Ordered bits) {e : E}
    (member : e ∈ node.elems) :
    distance (bits.number (node.key bits.toElem)) (bits.num e) ≤ node.depth := by
  cases node with
  | leaf elem =>
    rw [elems, List.mem_singleton] at member
    rw [member]
    exact (distance_self _).le
  | branch left right own depth hash => exact ordered.2.2.2 e member

theorem Ordered.close {node : Node E Key Hash} (ordered : node.Ordered bits) {a b : E}
    (a_mem : a ∈ node.elems) (b_mem : b ∈ node.elems) :
    distance (bits.num a) (bits.num b) ≤ node.depth := by
  have first := ordered.covers a_mem
  rw [distance_comm] at first
  exact close_trans first (ordered.covers b_mem)

/-- Every depth is attained, except in a leaf. -/
theorem Ordered.leaf_or_apart {node : Node E Key Hash} (ordered : node.Ordered bits) :
    node.depth = 0 ∨ ∃ a ∈ node.elems, ∃ b ∈ node.elems,
      distance (bits.num a) (bits.num b) = node.depth := by
  cases node with
  | leaf => exact .inl rfl
  | branch left right own depth hash =>
    obtain ⟨a, a_mem⟩ := left.exists_elem
    obtain ⟨b, b_mem⟩ := right.exists_elem
    exact .inr ⟨a, List.mem_append_left _ a_mem, b, List.mem_append_right _ b_mem,
      (ordered.2.2.1 a a_mem b b_mem).2⟩

/-- The keys are distinct. -/
theorem Ordered.nodup {node : Node E Key Hash} (ordered : node.Ordered bits) :
    (node.elems.map bits.num).Nodup := by
  induction node with
  | leaf elem => exact List.pairwise_singleton _ _
  | branch left right own depth hash left_ih right_ih =>
    rw [elems, List.map_append, List.nodup_append]
    refine ⟨left_ih ordered.1, right_ih ordered.2.1, fun first first_mem second second_mem => ?_⟩
    obtain ⟨a, a_mem, rfl⟩ := List.mem_map.mp first_mem
    obtain ⟨b, b_mem, rfl⟩ := List.mem_map.mp second_mem
    exact (ordered.2.2.1 a a_mem b b_mem).1.ne'

section Branches

variable {left right : Node E Key Hash} {own : Key} {depth : Nat} {hash : Hash}

theorem Ordered.left_depth (ordered : (branch left right own depth hash).Ordered bits) :
    left.depth < depth := by
  obtain ⟨left_ordered, -, parted, -⟩ := ordered
  rcases left_ordered.leaf_or_apart with zero | ⟨a, a_mem, a', a'_mem, far⟩
  · rw [zero]
    exact parted.depth_pos
  · obtain ⟨b, b_mem⟩ := right.exists_elem
    obtain ⟨less, apart_b⟩ := parted a a_mem b b_mem
    obtain ⟨less', apart_b'⟩ := parted a' a'_mem b b_mem
    rw [← far]
    exact same_side_above less less' apart_b apart_b'

theorem Ordered.right_depth (ordered : (branch left right own depth hash).Ordered bits) :
    right.depth < depth := by
  obtain ⟨-, right_ordered, parted, -⟩ := ordered
  rcases right_ordered.leaf_or_apart with zero | ⟨b, b_mem, b', b'_mem, far⟩
  · rw [zero]
    exact parted.depth_pos
  · obtain ⟨a, a_mem⟩ := left.exists_elem
    obtain ⟨less, apart_a⟩ := parted a a_mem b b_mem
    obtain ⟨less', apart_a'⟩ := parted a a_mem b' b'_mem
    rw [← far]
    exact same_side_below less less' apart_a apart_a'

/-- What replaces the left child keeps the order when each of its elements is close to an old one. -/
theorem Ordered.replaceLeft (ordered : (branch left right own depth hash).Ordered bits)
    {left' : Node E Key Hash} (hash' : Hash) (ordered' : left'.Ordered bits)
    (near : ∀ e ∈ left'.elems, ∃ a ∈ left.elems, distance (bits.num a) (bits.num e) < depth) :
    (branch left' right own depth hash').Ordered bits := by
  obtain ⟨left_ordered, right_ordered, parted, covered⟩ := ordered
  refine ⟨ordered', right_ordered, ?_, ?_⟩
  · intro e e_mem b b_mem
    obtain ⟨a, a_mem, close⟩ := near e e_mem
    obtain ⟨less, far⟩ := parted a a_mem b b_mem
    have still : distance (bits.num b) (bits.num b) < depth := by
      rw [distance_self]
      exact parted.depth_pos
    exact apart less far close still
  · intro e member
    rcases List.mem_append.mp member with e_mem | e_mem
    · obtain ⟨a, a_mem, close⟩ := near e e_mem
      exact close_trans (covered a (List.mem_append_left _ a_mem)) close.le
    · exact covered e (List.mem_append_right _ e_mem)

theorem Ordered.replaceRight (ordered : (branch left right own depth hash).Ordered bits)
    {right' : Node E Key Hash} (hash' : Hash) (ordered' : right'.Ordered bits)
    (near : ∀ e ∈ right'.elems, ∃ b ∈ right.elems, distance (bits.num b) (bits.num e) < depth) :
    (branch left right' own depth hash').Ordered bits := by
  obtain ⟨left_ordered, right_ordered, parted, covered⟩ := ordered
  refine ⟨left_ordered, ordered', ?_, ?_⟩
  · intro a a_mem e e_mem
    obtain ⟨b, b_mem, close⟩ := near e e_mem
    obtain ⟨less, far⟩ := parted a a_mem b b_mem
    have still : distance (bits.num a) (bits.num a) < depth := by
      rw [distance_self]
      exact parted.depth_pos
    exact apart less far still close
  · intro e member
    rcases List.mem_append.mp member with e_mem | e_mem
    · exact covered e (List.mem_append_left _ e_mem)
    · obtain ⟨b, b_mem, close⟩ := near e e_mem
      exact close_trans (covered b (List.mem_append_right _ b_mem)) close.le

end Branches

/-! ### The descent -/

theorem natAbs_compare (node : Node E Key Hash) (key : Key) :
    (node.compare bits.toElem key).natAbs =
      distance (bits.number (node.key bits.toElem)) (bits.number key) := by
  unfold compare
  rw [bits.compare_eq, natAbs_signedDistance]

theorem descends_iff {node : Node E Key Hash} {key : Key} :
    node.descends bits.toElem key = true ↔
      distance (bits.number (node.key bits.toElem)) (bits.number key) ≤ node.depth := by
  unfold descends
  rw [decide_eq_true_iff, natAbs_compare]

theorem Ordered.descends {node : Node E Key Hash} (ordered : node.Ordered bits) {e : E}
    (member : e ∈ node.elems) : node.descends bits.toElem (bits.key e) = true :=
  descends_iff.mpr (ordered.covers member)

/-- A key for which the descent enters a node is as close to every element of it as they are. -/
theorem Ordered.close_of_descends {node : Node E Key Hash} (ordered : node.Ordered bits) {key : Key}
    (enters : node.descends bits.toElem key = true) {e : E} (member : e ∈ node.elems) :
    distance (bits.num e) (bits.number key) ≤ node.depth := by
  have covered := ordered.covers member
  rw [distance_comm] at covered
  exact close_trans covered (descends_iff.mp enters)

/-- The descent enters only one child. -/
theorem Ordered.not_both {left right : Node E Key Hash} {own : Key} {depth : Nat} {hash : Hash}
    (ordered : (branch left right own depth hash).Ordered bits) {key : Key}
    (enters : left.descends bits.toElem key = true) :
    right.descends bits.toElem key = false := by
  rw [Bool.eq_false_iff]
  intro enters'
  have left_depth := ordered.left_depth
  have right_depth := ordered.right_depth
  obtain ⟨left_ordered, right_ordered, parted, -⟩ := ordered
  obtain ⟨a, a_mem⟩ := left.exists_elem
  obtain ⟨b, b_mem⟩ := right.exists_elem
  have close_a := left_ordered.close_of_descends enters a_mem
  have close_b := right_ordered.close_of_descends enters' b_mem
  rw [distance_comm] at close_b
  have far := (parted a a_mem b b_mem).2
  have close : distance (bits.num a) (bits.num b) ≤ max left.depth right.depth :=
    close_trans (close_a.trans (le_max_left _ _)) (close_b.trans (le_max_right _ _))
  omega

end Node

/-- The descent for a key passes these steps and ends at this node. -/
inductive Reaches (ops : Elem E Key Hash) (key : Key) :
    Node E Key Hash → List (Step E Key Hash) → Node E Key Hash → Prop
  | here {elem : E} (same : ops.compare (ops.key elem) key = 0) :
    Reaches ops key (.leaf elem) [] (.leaf elem)
  | stop {left right : Node E Key Hash} {own : Key} {depth : Nat} {hash : Hash}
    (not_left : left.descends ops key = false) (not_right : right.descends ops key = false) :
    Reaches ops key (.branch left right own depth hash) [] (.branch left right own depth hash)
  | left {left right : Node E Key Hash} {own : Key} {depth : Nat} {hash : Hash}
    {steps : List (Step E Key Hash)} {back : Node E Key Hash}
    (enters : left.descends ops key = true) (reaches : Reaches ops key left steps back) :
    Reaches ops key (.branch left right own depth hash) ({ left, right, hash, side := .left } :: steps)
      back
  | right {left right : Node E Key Hash} {own : Key} {depth : Nat} {hash : Hash}
    {steps : List (Step E Key Hash)} {back : Node E Key Hash}
    (not_left : left.descends ops key = false) (enters : right.descends ops key = true)
    (reaches : Reaches ops key right steps back) :
    Reaches ops key (.branch left right own depth hash) ({ left, right, hash, side := .right } :: steps)
      back

namespace Reaches

theorem find {ops : Elem E Key Hash} {key : Key} {node back : Node E Key Hash}
    {steps : List (Step E Key Hash)} (reaches : Reaches ops key node steps back) :
    node.find ops key = some (.inside steps back) := by
  induction reaches with
  | here same => rw [Node.find, if_pos same]
  | stop not_left not_right =>
    rw [Node.find, if_neg (Bool.eq_false_iff.mp not_left), if_neg (Bool.eq_false_iff.mp not_right)]
  | left enters reaches ih =>
    rw [Node.find, if_pos enters, ih]
    rfl
  | right not_left enters reaches ih =>
    rw [Node.find, if_neg (Bool.eq_false_iff.mp not_left), if_pos enters, ih]
    rfl

variable {bits : BitElem E Key Hash} {key : Key}

/-- The descent from a node it enters always ends. -/
theorem exists_of_descends {node : Node E Key Hash} (enters : node.descends bits.toElem key = true) :
    ∃ steps back, Reaches bits.toElem key node steps back := by
  induction node with
  | leaf elem =>
    have same : bits.compare (bits.key elem) key = 0 := by
      have small := of_decide_eq_true enters
      exact Int.natAbs_eq_zero.mp (Nat.le_zero.mp small)
    exact ⟨[], .leaf elem, .here same⟩
  | branch left right own depth hash left_ih right_ih =>
    by_cases enters_left : left.descends bits.toElem key = true
    · obtain ⟨steps, back, reaches⟩ := left_ih enters_left
      exact ⟨_, back, .left enters_left reaches⟩
    · by_cases enters_right : right.descends bits.toElem key = true
      · obtain ⟨steps, back, reaches⟩ := right_ih enters_right
        exact ⟨_, back, .right (Bool.eq_false_iff.mpr enters_left) enters_right reaches⟩
      · exact ⟨[], _, .stop (Bool.eq_false_iff.mpr enters_left) (Bool.eq_false_iff.mpr enters_right)⟩

/-- A leaf at the end of the descent is an element with that key. -/
theorem mem {node : Node E Key Hash} {steps : List (Step E Key Hash)} {e : E}
    (reaches : Reaches bits.toElem key node steps (.leaf e)) : e ∈ node.elems ∧ bits.key e = key := by
  generalize target : Node.leaf e = back at reaches
  induction reaches with
  | here same =>
    cases target
    rw [bits.compare_eq, signedDistance_eq_zero] at same
    exact ⟨List.mem_singleton_self e, bits.number_injective same⟩
  | stop not_left not_right => cases target
  | left enters reaches ih =>
    obtain ⟨member, same⟩ := ih target
    exact ⟨List.mem_append_left _ member, same⟩
  | right not_left enters reaches ih =>
    obtain ⟨member, same⟩ := ih target
    exact ⟨List.mem_append_right _ member, same⟩

/-- The descent for the key of an element ends at that element. -/
theorem of_mem {node back : Node E Key Hash} {steps : List (Step E Key Hash)} {e : E}
    (ordered : node.Ordered bits) (member : e ∈ node.elems)
    (reaches : Reaches bits.toElem (bits.key e) node steps back) : back = .leaf e := by
  induction reaches with
  | here same => rw [List.mem_singleton.mp member]
  | stop not_left not_right =>
    rcases List.mem_append.mp member with e_mem | e_mem
    · rw [ordered.1.descends e_mem] at not_left
      cases not_left
    · rw [ordered.2.1.descends e_mem] at not_right
      cases not_right
  | left enters reaches ih =>
    rcases List.mem_append.mp member with e_mem | e_mem
    · exact ih ordered.1 e_mem
    · have other := ordered.not_both enters
      rw [ordered.2.1.descends e_mem] at other
      cases other
  | right not_left enters reaches ih =>
    rcases List.mem_append.mp member with e_mem | e_mem
    · rw [ordered.1.descends e_mem] at not_left
      cases not_left
    · exact ih ordered.2.1 e_mem

end Reaches

end Libcoin
