/-
The root hash of a trie depends on its elements only.

* `Hashed` says that every branch has the hash of its two children. An authenticated trie keeps it
  (`perform_hashed`): `insert` and `remove` hash the path they changed, and switching the authentication
  on hashes everything.
* `Ordered.mem_left` finds the two sides of a branch again from the set of its elements, so ordered
  tries with the same elements have the same shape, and the same hash (`hash_rehashAll_of_elems`).
-/

import Libcoin.Trie.Spendables

namespace Libcoin

open HighBit

variable {E Key Hash : Type}

namespace Node

section Hashing

variable (ops : Elem E Key Hash)

/-- Every branch has the hash of its children. -/
def Hashed : Node E Key Hash → Prop
  | leaf _ => True
  | branch left right _ _ hash =>
    Hashed left ∧ Hashed right ∧ hash = ops.hashPair (left.hash ops) (right.hash ops)

variable {ops}

theorem hashed_leaf (elem : E) : (leaf elem : Node E Key Hash).Hashed ops := trivial

theorem Hashed.rehashAll {node : Node E Key Hash} (hashed : node.Hashed ops) :
    node.rehashAll ops = node := by
  induction node with
  | leaf => rfl
  | branch left right own depth hash left_ih right_ih =>
    obtain ⟨left_hashed, right_hashed, same⟩ := hashed
    rw [Node.rehashAll, left_ih left_hashed, right_ih right_hashed, rehash, ← same]

theorem hashed_rehashAll (node : Node E Key Hash) : (node.rehashAll ops).Hashed ops := by
  induction node with
  | leaf => trivial
  | branch left right own depth hash left_ih right_ih => exact ⟨left_ih, right_ih, rfl⟩

/-- Hashing a branch over hashed children. -/
theorem hashed_branch {left right : Node E Key Hash} (left_hashed : left.Hashed ops)
    (right_hashed : right.Hashed ops) (own : Key) (depth : Nat) (hash : Hash) :
    ((branch left right own depth hash).hashed ops true).Hashed ops :=
  ⟨left_hashed, right_hashed, rfl⟩

theorem splice_hashed {node : Node E Key Hash} (hashed : node.Hashed ops) (elem : E) :
    ((node.splice ops elem).hashed ops true).Hashed ops := by
  unfold splice
  simp only
  split_ifs
  · exact hashed_branch (hashed_leaf elem) hashed _ _ _
  · exact hashed_branch hashed (hashed_leaf elem) _ _ _
  · trivial

theorem insertAt_hashed {node : Node E Key Hash} (hashed : node.Hashed ops) (elem : E)
    (sides : List Side) : (node.insertAt ops true elem sides).Hashed ops := by
  induction node generalizing sides with
  | leaf => exact hashed
  | branch left right own depth hash left_ih right_ih =>
    obtain ⟨left_hashed, right_hashed, -⟩ := hashed
    cases sides with
    | nil =>
      unfold insertAt insertHere
      split_ifs
      · exact hashed_branch (splice_hashed left_hashed elem) right_hashed _ _ _
      · exact hashed_branch left_hashed (splice_hashed right_hashed elem) _ _ _
    | cons side sides =>
      cases side with
      | left => exact hashed_branch (left_ih left_hashed sides) right_hashed _ _ _
      | right => exact hashed_branch left_hashed (right_ih right_hashed sides) _ _ _

theorem removeAt_hashed {node : Node E Key Hash} (hashed : node.Hashed ops) (sides : List Side) :
    ∀ changed, node.removeAt ops true sides = some changed → changed.Hashed ops := by
  induction node generalizing sides with
  | leaf => exact nofun
  | branch left right own depth hash left_ih right_ih =>
    have children := hashed
    obtain ⟨left_hashed, right_hashed, -⟩ := children
    intro changed result
    cases sides with
    | nil =>
      cases result
      exact hashed
    | cons side sides =>
      cases side with
      | left =>
        rw [removeAt] at result
        cases below : left.removeAt ops true sides with
        | none =>
          rw [below] at result
          cases result
          exact right_hashed
        | some left' =>
          rw [below] at result
          cases result
          exact hashed_branch (left_ih left_hashed sides left' below) right_hashed _ _ _
      | right =>
        rw [removeAt] at result
        cases below : right.removeAt ops true sides with
        | none =>
          rw [below] at result
          cases result
          exact left_hashed
        | some right' =>
          rw [below] at result
          cases result
          exact hashed_branch left_hashed (right_ih right_hashed sides right' below) _ _ _

end Hashing

/-! ### Shape -/

variable {bits : BitElem E Key Hash}

section Branches

variable {left right : Node E Key Hash} {own : Key} {depth : Nat} {hash : Hash}

/-- The left elements of a branch are those with an element under them that is as far as can be. -/
theorem Ordered.mem_left (ordered : (branch left right own depth hash).Ordered bits) {e : E} :
    e ∈ left.elems ↔ e ∈ (branch left right own depth hash).elems ∧
      ∃ b ∈ (branch left right own depth hash).elems,
        bits.num b < bits.num e ∧ distance (bits.num e) (bits.num b) = depth := by
  constructor
  · intro member
    obtain ⟨b, b_mem⟩ := right.exists_elem
    exact ⟨List.mem_append_left _ member, b, List.mem_append_right _ b_mem,
      ordered.2.2.1 e member b b_mem⟩
  · rintro ⟨member, b, b_mem, less, far⟩
    rcases List.mem_append.mp member with e_left | e_right
    · exact e_left
    · rcases List.mem_append.mp b_mem with b_left | b_right
      · have greater := (ordered.2.2.1 b b_left e e_right).1
        omega
      · have close := ordered.2.1.close e_right b_right
        have shallow := ordered.right_depth
        omega

/-- And the right ones those with an element over them. -/
theorem Ordered.mem_right (ordered : (branch left right own depth hash).Ordered bits) {e : E} :
    e ∈ right.elems ↔ e ∈ (branch left right own depth hash).elems ∧
      ∃ a ∈ (branch left right own depth hash).elems,
        bits.num e < bits.num a ∧ distance (bits.num a) (bits.num e) = depth := by
  constructor
  · intro member
    obtain ⟨a, a_mem⟩ := left.exists_elem
    exact ⟨List.mem_append_right _ member, a, List.mem_append_left _ a_mem,
      ordered.2.2.1 a a_mem e member⟩
  · rintro ⟨member, a, a_mem, less, far⟩
    rcases List.mem_append.mp member with e_left | e_right
    · rcases List.mem_append.mp a_mem with a_left | a_right
      · have close := ordered.1.close a_left e_left
        have shallow := ordered.left_depth
        omega
      · have greater := (ordered.2.2.1 e e_left a a_right).1
        omega
    · exact e_right

/-- The depth of a branch bounds the distances of its elements, and one pair attains it. -/
theorem Ordered.depth_le {node : Node E Key Hash}
    (ordered : (branch left right own depth hash).Ordered bits) (other : node.Ordered bits)
    (same : ∀ e ∈ (branch left right own depth hash).elems, e ∈ node.elems) : depth ≤ node.depth := by
  obtain ⟨a, a_mem⟩ := left.exists_elem
  obtain ⟨b, b_mem⟩ := right.exists_elem
  have far := (ordered.2.2.1 a a_mem b b_mem).2
  have close := other.close (same a (List.mem_append_left _ a_mem)) (same b (List.mem_append_right _ b_mem))
  omega

end Branches

/-- Ordered nodes with the same elements have the same hash when all of it is computed. -/
theorem hash_rehashAll_of_elems {first second : Node E Key Hash} (ordered : first.Ordered bits)
    (ordered' : second.Ordered bits) (same : ∀ e, e ∈ first.elems ↔ e ∈ second.elems) :
    (first.rehashAll bits.toElem).hash bits.toElem = (second.rehashAll bits.toElem).hash bits.toElem := by
  induction first generalizing second with
  | leaf elem =>
    cases second with
    | leaf other =>
      have equal := (same elem).mp (List.mem_singleton_self elem)
      rw [List.mem_singleton.mp equal]
    | branch left right own depth hash =>
      have depth_zero := ordered'.depth_le ordered fun e member => (same e).mpr member
      have positive := ordered'.2.2.1.depth_pos
      exact absurd (positive.trans_le depth_zero) (lt_irrefl 0)
  | branch left right own depth hash left_ih right_ih =>
    have depth_le := ordered.depth_le ordered' fun e member => (same e).mp member
    cases second with
    | leaf other => exact absurd (ordered.2.2.1.depth_pos.trans_le depth_le) (lt_irrefl 0)
    | branch left' right' own' depth' hash' =>
      have depth_ge := ordered'.depth_le ordered fun e member => (same e).mpr member
      have equal : depth = depth' := le_antisymm depth_le depth_ge
      subst equal
      have lefts : ∀ e, e ∈ left.elems ↔ e ∈ left'.elems := fun e => by
        rw [ordered.mem_left, ordered'.mem_left]
        simp only [same]
      have rights : ∀ e, e ∈ right.elems ↔ e ∈ right'.elems := fun e => by
        rw [ordered.mem_right, ordered'.mem_right]
        simp only [same]
      exact congrArg₂ bits.hashPair (left_ih ordered.1 ordered'.1 lefts)
        (right_ih ordered.2.1 ordered'.2.1 rights)

end Node

namespace MerkleTrie

variable {bits : BitElem E Key Hash}

/-- The hashes of an authenticated trie are up to date. -/
def UpToDate (ops : Elem E Key Hash) (trie : MerkleTrie E Key Hash) : Prop :=
  trie.authenticated = true → ∀ root, trie.root = some root → root.Hashed ops

variable {ops : Elem E Key Hash} {trie : MerkleTrie E Key Hash}

theorem UpToDate.insert (current : trie.UpToDate ops) (elem : E) :
    (trie.insert ops elem).2.UpToDate ops := by
  unfold MerkleTrie.insert
  split
  · intro on root is_root
    cases is_root
    exact Node.hashed_leaf elem
  · rename_i root was_root
    split
    · exact current
    · intro on node is_root
      have authenticated : trie.authenticated = true := on
      cases is_root
      rw [authenticated]
      exact Node.insertAt_hashed (current on root was_root) elem _
    · split
      · intro on node is_root
        have authenticated : trie.authenticated = true := on
        cases is_root
        rw [authenticated]
        exact Node.splice_hashed (current on root was_root) elem
      · exact current
    · exact current

theorem UpToDate.remove (current : trie.UpToDate ops) (key : Key) :
    (trie.remove ops key).2.UpToDate ops := by
  unfold MerkleTrie.remove
  split
  · rename_i root steps elem was_root found
    intro on node is_root
    have authenticated : trie.authenticated = true := on
    rw [authenticated] at is_root
    exact Node.removeAt_hashed (current on root was_root) _ node is_root
  · exact current

theorem UpToDate.setAuthenticated (current : trie.UpToDate ops) (on : Bool) :
    (trie.setAuthenticated ops on).UpToDate ops := by
  unfold MerkleTrie.setAuthenticated
  split_ifs with same turned_on
  · exact current
  · intro _ node is_root
    obtain ⟨root, was_root, rfl⟩ := Option.map_eq_some_iff.mp is_root
    exact Node.hashed_rehashAll root
  · intro is_on
    exact absurd is_on turned_on

theorem UpToDate.perform (current : trie.UpToDate ops) (call : TrieOp E Key) :
    (trie.perform ops call).2.UpToDate ops := by
  cases call with
  | find key => exact current
  | insert elem => exact current.insert elem
  | remove key => exact current.remove key
  | authenticated on => exact current.setAuthenticated on

theorem UpToDate.run (current : trie.UpToDate ops) (calls : List (TrieOp E Key)) :
    (trie.run ops calls).2.UpToDate ops := by
  induction calls generalizing trie with
  | nil => exact current
  | cons call calls ih => exact ih (current.perform call)

theorem upToDate_empty : (empty : MerkleTrie E Key Hash).UpToDate ops := nofun

/-- An authenticated trie has the root hash of a full computation. -/
theorem UpToDate.rehashAll (current : trie.UpToDate ops) (on : trie.authenticated = true) :
    trie.root.map (Node.rehashAll ops) = trie.root := by
  cases is_root : trie.root with
  | none => rfl
  | some root => exact congrArg some (current on root is_root).rehashAll

/-- Ordered tries with the same elements, both authenticated, have the same root hash. -/
theorem rootHash_of_elems {first second : MerkleTrie E Key Hash} (ordered : first.Ordered bits)
    (ordered' : second.Ordered bits) (current : first.UpToDate bits.toElem)
    (current' : second.UpToDate bits.toElem) (on : first.authenticated = true)
    (on' : second.authenticated = true) (same : ∀ e, e ∈ first.elems ↔ e ∈ second.elems) :
    first.rootHash bits.toElem = second.rootHash bits.toElem := by
  obtain ⟨root, was⟩ := first
  obtain ⟨root', was'⟩ := second
  cases root with
  | none =>
    cases root' with
    | none => rfl
    | some root' =>
      obtain ⟨e, member⟩ := root'.exists_elem
      exact absurd ((same e).mpr member) List.not_mem_nil
  | some root =>
    cases root' with
    | none =>
      obtain ⟨e, member⟩ := root.exists_elem
      exact absurd ((same e).mp member) List.not_mem_nil
    | some root' =>
      have hashes := Node.hash_rehashAll_of_elems (ordered root rfl) (ordered' root' rfl) same
      rw [(current on root rfl).rehashAll, (current' on' root' rfl).rehashAll] at hashes
      exact congrArg some hashes

/-- **The root hash is canonical.** Two authenticated tries with the same elements have the same root
hash, whichever calls led to them, and no hash changes when all of them are computed again. -/
theorem rootHash_canonical (calls calls' : List (TrieOp E Key))
    (on : (empty.run bits.toElem calls).2.authenticated = true)
    (on' : (empty.run bits.toElem calls').2.authenticated = true)
    (same : ∀ e, e ∈ (empty.run bits.toElem calls).2.elems ↔
      e ∈ (empty.run bits.toElem calls').2.elems) :
    (empty.run bits.toElem calls).2.rootHash bits.toElem =
        (empty.run bits.toElem calls').2.rootHash bits.toElem ∧
      (empty.run bits.toElem calls).2.root.map (Node.rehashAll bits.toElem) =
        (empty.run bits.toElem calls).2.root := by
  have ordered : (empty.run bits.toElem calls).2.Ordered bits := ordered_empty.run calls
  have ordered' : (empty.run bits.toElem calls').2.Ordered bits := ordered_empty.run calls'
  have current : (empty.run bits.toElem calls).2.UpToDate bits.toElem := upToDate_empty.run calls
  have current' : (empty.run bits.toElem calls').2.UpToDate bits.toElem := upToDate_empty.run calls'
  exact ⟨rootHash_of_elems ordered ordered' current current' on on' same, current.rehashAll on⟩

open Spendables in
/-- Hashing from the start, with a coin that came and went, against hashing at the end. -/
theorem rootHash_canonical_sample :
    (empty.run symbolic.toElem [.authenticated true, .insert (sample 0), .insert (sample 1),
        .insert (sample 2), .remove (symbolic.key (sample 2))]).2.rootHash symbolic.toElem =
      (empty.run symbolic.toElem [.insert (sample 1), .insert (sample 0),
        .authenticated true]).2.rootHash symbolic.toElem := by
  have left : (empty.run symbolic.toElem [.authenticated true, .insert (sample 0), .insert (sample 1),
      .insert (sample 2), .remove (symbolic.key (sample 2))]).2.elems = [sample 1, sample 0] := by decide
  have right : (empty.run symbolic.toElem [.insert (sample 1), .insert (sample 0),
      .authenticated true]).2.elems = [sample 1, sample 0] := by decide
  refine (rootHash_canonical _ _ (by decide) (by decide) fun e => ?_).1
  rw [left, right]

end MerkleTrie

end Libcoin
