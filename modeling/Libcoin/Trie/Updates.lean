/-
`insert` and `remove` on one node: the order is kept, and the elements change by the one that was asked
for.

A new branch is put over a node that the descent does not enter (`splice_ordered`), or the branch over
the found leaf is replaced by its other child. Both are then carried up the path by
`Ordered.replaceLeft` and `Ordered.replaceRight`.
-/

import Libcoin.Trie.Ordered

namespace Libcoin

open HighBit

variable {E Key Hash : Type} {bits : BitElem E Key Hash}

namespace Node

section Splice

variable {node : Node E Key Hash} {elem : E}

theorem depth_lt_of_not_descends (outside : node.descends bits.toElem (bits.key elem) = false) :
    node.depth < distance (bits.number (node.key bits.toElem)) (bits.num elem) := by
  rw [Bool.eq_false_iff, Ne, descends_iff] at outside
  exact not_le.mp outside

/-- A key that the descent does not enter with has the same distance to all elements of a node, and is
on the same side of all of them. -/
theorem Ordered.apart_of_not_descends (ordered : node.Ordered bits)
    (outside : node.descends bits.toElem (bits.key elem) = false) {e : E} (member : e ∈ node.elems) :
    distance (bits.num e) (bits.num elem) =
        distance (bits.number (node.key bits.toElem)) (bits.num elem) ∧
      (bits.number (node.key bits.toElem) < bits.num elem ↔ bits.num e < bits.num elem) := by
  have far := depth_lt_of_not_descends outside
  have close := (ordered.covers member).trans_lt far
  have self : distance (bits.num elem) (bits.num elem) <
      distance (bits.number (node.key bits.toElem)) (bits.num elem) := by
    rw [distance_self]
    omega
  rcases Nat.lt_trichotomy (bits.number (node.key bits.toElem)) (bits.num elem) with
    less | same | greater
  · obtain ⟨less', far'⟩ := apart less (distance_comm _ _) self close
    rw [distance_comm] at far'
    exact ⟨far', iff_of_true less less'⟩
  · rw [same, distance_self] at far
    omega
  · obtain ⟨greater', far'⟩ := apart greater rfl close self
    exact ⟨far', iff_of_false (by omega) (by omega)⟩

theorem splice_eq (node : Node E Key Hash) (elem : E) :
    node.splice bits.toElem elem =
      if bits.number (node.key bits.toElem) < bits.num elem then
        newBranch bits.toElem (leaf elem) node
          (distance (bits.number (node.key bits.toElem)) (bits.num elem))
      else if bits.num elem < bits.number (node.key bits.toElem) then
        newBranch bits.toElem node (leaf elem)
          (distance (bits.number (node.key bits.toElem)) (bits.num elem))
      else leaf elem := by
  unfold splice
  simp only [natAbs_compare]
  simp only [compare, bits.compare_eq, signedDistance_pos, signedDistance_neg]
  rfl

theorem splice_elems (outside : node.descends bits.toElem (bits.key elem) = false) :
    (node.splice bits.toElem elem).elems.Perm (elem :: node.elems) := by
  have far := depth_lt_of_not_descends outside
  rw [splice_eq]
  split_ifs with less greater
  · exact List.Perm.refl _
  · exact List.perm_append_singleton elem node.elems
  · have same : bits.number (node.key bits.toElem) = bits.num elem := by omega
    rw [same, distance_self] at far
    omega

theorem splice_ordered (ordered : node.Ordered bits)
    (outside : node.descends bits.toElem (bits.key elem) = false) :
    (node.splice bits.toElem elem).Ordered bits := by
  have far := depth_lt_of_not_descends outside
  have sides := fun e (member : e ∈ node.elems) => ordered.apart_of_not_descends outside member
  rw [splice_eq]
  split_ifs with less greater
  · refine ⟨trivial, ordered, ?_, ?_⟩
    · intro a a_mem b b_mem
      rw [List.mem_singleton.mp a_mem, distance_comm]
      obtain ⟨same, order⟩ := sides b b_mem
      exact ⟨order.mp less, same⟩
    · intro e member
      rcases List.mem_cons.mp member with rfl | e_mem
      · exact le_rfl
      · exact (ordered.covers e_mem).trans far.le
  · refine ⟨ordered, trivial, ?_, ?_⟩
    · intro a a_mem b b_mem
      rw [List.mem_singleton.mp b_mem]
      obtain ⟨same, order⟩ := sides a a_mem
      have different : bits.num a ≠ bits.num elem := fun equal => by
        rw [equal, distance_self] at same
        omega
      have above := mt order.mpr (not_lt_of_gt greater)
      exact ⟨by omega, same⟩
    · intro e member
      rcases List.mem_append.mp member with e_mem | e_mem
      · have same := (sides e e_mem).1
        rw [distance_comm] at same
        exact same.le
      · rw [List.mem_singleton.mp e_mem]
        exact (distance_self _).trans_le (Nat.zero_le _)
  · trivial

end Splice

/-! ### Insertion -/

section Insertion

variable {left right : Node E Key Hash} {own : Key} {depth : Nat} {hash : Hash} {elem : E}

/-- The keys stored in the children of a branch are apart as their elements are. -/
theorem Ordered.parted_keys (ordered : (branch left right own depth hash).Ordered bits) :
    bits.number (right.key bits.toElem) < bits.number (left.key bits.toElem) ∧
      distance (bits.number (left.key bits.toElem)) (bits.number (right.key bits.toElem)) = depth := by
  obtain ⟨a, a_mem⟩ := left.exists_elem
  obtain ⟨b, b_mem⟩ := right.exists_elem
  obtain ⟨less, far⟩ := ordered.2.2.1 a a_mem b b_mem
  have close_a := (ordered.1.covers a_mem).trans_lt ordered.left_depth
  have close_b := (ordered.2.1.covers b_mem).trans_lt ordered.right_depth
  rw [distance_comm] at close_a close_b
  exact apart less far close_a close_b

/-- At the last branch of a path the key is on the side of the child whose key is closer to it. -/
theorem Ordered.closer_child (ordered : (branch left right own depth hash).Ordered bits)
    (enters : (branch left right own depth hash).descends bits.toElem (bits.key elem) = true) :
    min (distance (bits.number (left.key bits.toElem)) (bits.num elem))
      (distance (bits.number (right.key bits.toElem)) (bits.num elem)) < depth := by
  obtain ⟨less, far⟩ := ordered.parted_keys
  obtain ⟨a, a_mem⟩ := left.exists_elem
  have within_a := ordered.close_of_descends enters (List.mem_append_left _ a_mem)
  have within := close_trans ((ordered.1.covers a_mem).trans ordered.left_depth.le) within_a
  exact min_lt_iff.mpr (either_side less far within)

/-- A key close to the key of a node is as close to its elements. -/
theorem Ordered.near_elem {node : Node E Key Hash} (ordered : node.Ordered bits) {bound : Nat}
    (shallow : node.depth < bound)
    (close : distance (bits.number (node.key bits.toElem)) (bits.num elem) < bound) :
    ∃ e ∈ node.elems, distance (bits.num e) (bits.num elem) < bound := by
  obtain ⟨e, member⟩ := node.exists_elem
  have covered := (ordered.covers member).trans_lt shallow
  rw [distance_comm] at covered
  exact ⟨e, member, close_trans_lt covered close⟩

/-- The elements of a child with the new one in it, for `replaceLeft` and `replaceRight`. -/
theorem Ordered.near_perm {node changed : Node E Key Hash} (ordered : node.Ordered bits) {bound : Nat}
    (shallow : node.depth < bound)
    (close : distance (bits.number (node.key bits.toElem)) (bits.num elem) < bound)
    (perm : changed.elems.Perm (elem :: node.elems)) :
    ∀ e ∈ changed.elems, ∃ a ∈ node.elems, distance (bits.num a) (bits.num e) < bound := by
  intro e member
  rcases List.mem_cons.mp (perm.mem_iff.mp member) with rfl | old
  · exact ordered.near_elem shallow close
  · refine ⟨e, old, ?_⟩
    rw [distance_self]
    omega

theorem insertHere_spec (on : Bool) (ordered : (branch left right own depth hash).Ordered bits)
    (enters : (branch left right own depth hash).descends bits.toElem (bits.key elem) = true)
    (not_left : left.descends bits.toElem (bits.key elem) = false)
    (not_right : right.descends bits.toElem (bits.key elem) = false) :
    (insertHere bits.toElem on elem left right own depth hash).Ordered bits ∧
      (insertHere bits.toElem on elem left right own depth hash).elems.Perm
        (elem :: (left.elems ++ right.elems)) := by
  have closer := ordered.closer_child enters
  unfold insertHere
  simp only [natAbs_compare]
  change min (distance _ (bits.number (bits.key elem))) (distance _ (bits.number (bits.key elem))) < depth
    at closer
  split_ifs with choice
  · rw [min_eq_left choice.le] at closer
    have perm : ((left.splice bits.toElem elem).hashed bits.toElem on).elems.Perm
        (elem :: left.elems) := by
      rw [elems_hashed]
      exact splice_elems not_left
    have spliced : ((left.splice bits.toElem elem).hashed bits.toElem on).Ordered bits := by
      rw [ordered_hashed]
      exact splice_ordered ordered.1 not_left
    exact ⟨ordered.replaceLeft hash spliced (ordered.1.near_perm ordered.left_depth closer perm),
      perm.append_right _⟩
  · rw [min_eq_right (not_lt.mp choice)] at closer
    have perm : ((right.splice bits.toElem elem).hashed bits.toElem on).elems.Perm
        (elem :: right.elems) := by
      rw [elems_hashed]
      exact splice_elems not_right
    have spliced : ((right.splice bits.toElem elem).hashed bits.toElem on).Ordered bits := by
      rw [ordered_hashed]
      exact splice_ordered ordered.2.1 not_right
    exact ⟨ordered.replaceRight hash spliced (ordered.2.1.near_perm ordered.right_depth closer perm),
      (perm.append_left _).trans List.perm_middle⟩

end Insertion

/-- Insertion along the path of a key that the trie does not have. -/
theorem insertAt_spec (on : Bool) {node back : Node E Key Hash} {steps : List (Step E Key Hash)}
    {elem : E} (reaches : Reaches bits.toElem (bits.key elem) node steps back)
    (ordered : node.Ordered bits) (enters : node.descends bits.toElem (bits.key elem) = true)
    (missing : ∀ e, back ≠ leaf e) :
    (node.insertAt bits.toElem on elem (steps.map Step.side)).Ordered bits ∧
      (node.insertAt bits.toElem on elem (steps.map Step.side)).elems.Perm (elem :: node.elems) := by
  induction reaches with
  | here same => exact absurd rfl (missing _)
  | stop not_left not_right =>
    rw [List.map_nil, insertAt, ordered_hashed, elems_hashed]
    exact insertHere_spec on ordered enters not_left not_right
  | left enters_left reaches ih =>
    obtain ⟨changed, perm⟩ := ih ordered.1 enters_left missing
    have close := (descends_iff.mp enters_left).trans_lt ordered.left_depth
    rw [List.map_cons, insertAt, ordered_hashed, elems_hashed]
    exact ⟨ordered.replaceLeft _ changed (ordered.1.near_perm ordered.left_depth close perm),
      perm.append_right _⟩
  | right not_left enters_right reaches ih =>
    obtain ⟨changed, perm⟩ := ih ordered.2.1 enters_right missing
    have close := (descends_iff.mp enters_right).trans_lt ordered.right_depth
    rw [List.map_cons, insertAt, ordered_hashed, elems_hashed]
    exact ⟨ordered.replaceRight _ changed (ordered.2.1.near_perm ordered.right_depth close perm),
      (perm.append_left _).trans List.perm_middle⟩

/-! ### Removal -/

/-- Elements taken away keep a child close to what it was. -/
theorem near_subset {node changed : Node E Key Hash} {e : E} {bound : Nat} (positive : 0 < bound)
    (perm : node.elems.Perm (e :: changed.elems)) :
    ∀ a ∈ changed.elems, ∃ b ∈ node.elems, distance (bits.num b) (bits.num a) < bound := by
  intro a member
  refine ⟨a, perm.mem_iff.mpr (List.mem_cons_of_mem _ member), ?_⟩
  rwa [distance_self]

/-- Removal along the path of an element. -/
theorem removeAt_spec (on : Bool) {key : Key} {node : Node E Key Hash} {steps : List (Step E Key Hash)}
    {e : E} (reaches : Reaches bits.toElem key node steps (leaf e)) (ordered : node.Ordered bits) :
    (∀ changed, node.removeAt bits.toElem on (steps.map Step.side) = some changed →
        changed.Ordered bits) ∧
      node.elems.Perm (e :: elemsOf (node.removeAt bits.toElem on (steps.map Step.side))) := by
  generalize target : leaf e = back at reaches
  induction reaches with
  | here same =>
    cases target
    exact ⟨nofun, List.Perm.refl _⟩
  | stop not_left not_right => cases target
  | @left left right own depth hash steps back enters reaches ih =>
    obtain ⟨keeps, perm⟩ := ih ordered.1 target
    rw [List.map_cons, removeAt]
    cases below : left.removeAt bits.toElem on (steps.map Step.side) with
    | none =>
      rw [below] at perm
      refine ⟨fun changed same => ?_, perm.append_right _⟩
      cases same
      exact ordered.2.1
    | some left' =>
      rw [below] at perm
      refine ⟨fun changed same => ?_, ?_⟩
      · cases same
        rw [ordered_hashed]
        exact ordered.replaceLeft _ (keeps left' below) (near_subset ordered.2.2.1.depth_pos perm)
      · simp only [elemsOf, Option.map_some, Option.getD_some, elems_hashed]
        exact perm.append_right _
  | @right left right own depth hash steps back not_left enters reaches ih =>
    obtain ⟨keeps, perm⟩ := ih ordered.2.1 target
    rw [List.map_cons, removeAt]
    cases below : right.removeAt bits.toElem on (steps.map Step.side) with
    | none =>
      rw [below] at perm
      refine ⟨fun changed same => ?_,
        (perm.append_left _).trans (List.perm_append_singleton e left.elems)⟩
      cases same
      exact ordered.1
    | some right' =>
      rw [below] at perm
      refine ⟨fun changed same => ?_, ?_⟩
      · cases same
        rw [ordered_hashed]
        exact ordered.replaceRight _ (keeps right' below) (near_subset ordered.2.2.1.depth_pos perm)
      · simp only [elemsOf, Option.map_some, Option.getD_some, elems_hashed]
        exact (perm.append_left _).trans List.perm_middle

end Node

end Libcoin
