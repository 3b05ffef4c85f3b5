/-
What the merkle root of a block says about its transactions.

* `levelPairs` are the pairs that are hashed for one level of the tree, `treePairs` those of all levels.
* The last hash of an odd level is paired with itself, so that a list with its end repeated can have the same
  root: this is where the length is needed.
-/

import Libcoin.Library.HashTree
import Libcoin.Ledger.Detach

namespace Libcoin

open HashTree

/-- A function that tells the elements of two lists apart tells the lists apart. -/
theorem eq_of_map_eq {A B : Type} {f : A → B} {xs ys : List A} (apart : ∀ x ∈ xs, ∀ y ∈ ys, f x = f y → x = y)
    (same : xs.map f = ys.map f) : xs = ys := by
  induction xs generalizing ys with
  | nil => exact (List.map_eq_nil_iff.mp same.symm).symm
  | cons x xs ih =>
    cases ys with
    | nil => cases same
    | cons y ys =>
      obtain ⟨first, rest⟩ := List.cons.inj same
      obtain rfl := apart x List.mem_cons_self y List.mem_cons_self first
      rw [ih (fun one inside two among => apart one (List.mem_cons_of_mem _ inside) two
        (List.mem_cons_of_mem _ among))
        rest]

/-! ### Levels -/

/-- The pairs that are hashed for the level above. -/
def levelPairs : List Uint256 → List (Uint256 × Uint256)
  | [] => []
  | [hash] => [(hash, hash)]
  | left :: right :: hashes => (left, right) :: levelPairs hashes

/-- The pairs that `merkleRoot` hashes. -/
def treePairs (prim : Primitives) : Nat → List Uint256 → List (Uint256 × Uint256)
  | _, [] => []
  | _, [_] => []
  | 0, _ :: _ :: _ => []
  | fuel + 1, left :: right :: hashes =>
    levelPairs (left :: right :: hashes) ++ treePairs prim fuel (merkleLevel prim (left :: right :: hashes))

theorem merkleLevel_eq (prim : Primitives) (hashes : List Uint256) :
    merkleLevel prim hashes = (levelPairs hashes).map fun pair => prim.pairHash pair.1 pair.2 := by
  induction hashes using levelPairs.induct with
  | case1 => rfl
  | case2 hash => rfl
  | case3 left right hashes ih =>
    show prim.pairHash left right :: merkleLevel prim hashes = _
    rw [ih]
    rfl

theorem levelPairs_length (hashes : List Uint256) : (levelPairs hashes).length = (hashes.length + 1) / 2 := by
  induction hashes using levelPairs.induct with
  | case1 => rfl
  | case2 hash => simp [levelPairs]
  | case3 left right hashes ih =>
    show (levelPairs hashes).length + 1 = (hashes.length + 1 + 1 + 1) / 2
    rw [ih]
    omega

theorem merkleLevel_length (prim : Primitives) (hashes : List Uint256) :
    (merkleLevel prim hashes).length = (hashes.length + 1) / 2 := by
  rw [merkleLevel_eq, List.length_map, levelPairs_length]

/-- The pairs of a level and its length give the level. -/
theorem levelPairs_injective {hashes others : List Uint256} (long : hashes.length = others.length)
    (same : levelPairs hashes = levelPairs others) : hashes = others := by
  induction hashes using levelPairs.induct generalizing others with
  | case1 => exact (List.length_eq_zero_iff.mp long.symm).symm
  | case2 hash =>
    obtain ⟨other, rfl⟩ := List.length_eq_one_iff.mp long.symm
    obtain ⟨pair, -⟩ := List.cons.inj same
    rw [(Prod.mk.inj pair).1]
  | case3 left right hashes ih =>
    match others with
    | [] => cases long
    | [other] => simp at long
    | left' :: right' :: others =>
      obtain ⟨pair, rest⟩ := List.cons.inj same
      obtain ⟨rfl, rfl⟩ := Prod.mk.inj pair
      rw [List.length_cons, List.length_cons, List.length_cons, List.length_cons] at long
      rw [ih (by omega) rest]

/-! ### Trees -/

/-- No two of the pairs have the same hash. -/
def PairsApart (prim : Primitives) (pairs others : List (Uint256 × Uint256)) : Prop :=
  ∀ pair ∈ pairs, ∀ other ∈ others, prim.pairHash pair.1 pair.2 = prim.pairHash other.1 other.2 → pair = other

-- over the lists, not over all pairs
instance (prim : Primitives) (pairs others : List (Uint256 × Uint256)) :
    Decidable (PairsApart prim pairs others) :=
  @List.decidableBAll _ _ (fun _ => @List.decidableBAll _ _ (fun _ => inferInstance) others) pairs

/-- **The merkle root is injective on lists of one length.** -/
theorem merkleRoot_injective {prim : Primitives} {fuel : Nat} {hashes others : List Uint256}
    (enough : hashes.length ≤ fuel + 1) (long : hashes.length = others.length)
    (apart : PairsApart prim (treePairs prim fuel hashes) (treePairs prim fuel others))
    (same : merkleRoot prim fuel hashes = merkleRoot prim fuel others) : hashes = others := by
  induction fuel generalizing hashes others with
  | zero =>
    match hashes, others with
    | [], [] => rfl
    | [hash], [other] => exact congrArg (fun hash => [hash]) same
    | _ :: _ :: _, _ => simp at enough
  | succ fuel ih =>
    match hashes, others with
    | [], [] => rfl
    | [hash], [other] => exact congrArg (fun hash => [hash]) same
    | left :: right :: hashes, left' :: right' :: others =>
      have lengths := merkleLevel_length prim (left :: right :: hashes)
      have lengths' := merkleLevel_length prim (left' :: right' :: others)
      have level : merkleLevel prim (left :: right :: hashes) = merkleLevel prim (left' :: right' :: others) := by
        refine ih ?_ (by rw [lengths, lengths', long]) ?_ same
        · rw [lengths]
          rw [List.length_cons, List.length_cons] at enough ⊢
          omega
        · exact fun one inside two among =>
            apart one (List.mem_append_right _ inside) two (List.mem_append_right _ among)
      rw [merkleLevel_eq, merkleLevel_eq] at level
      refine levelPairs_injective long (eq_of_map_eq (fun one inside two among => ?_) level)
      exact apart one (List.mem_append_left _ inside) two (List.mem_append_left _ among)

/-! ### Nodes -/

theorem merkleLevel_eq_nextLevel (prim : Primitives) (hashes : List Uint256) :
    merkleLevel prim hashes = nextLevel prim.pairHash hashes := by
  induction hashes using levelPairs.induct with
  | case1 => rfl
  | case2 hash => rfl
  | case3 left right hashes ih => exact congrArg (prim.pairHash left right :: ·) ih

theorem levelPairs_eq_nextLevel (hashes : List Uint256) : levelPairs hashes = nextLevel Prod.mk hashes := by
  induction hashes using levelPairs.induct with
  | case1 => rfl
  | case2 hash => rfl
  | case3 left right hashes ih => exact congrArg ((left, right) :: ·) ih

/-- The widths of the levels over the next one. -/
theorem width_merkleLevel (prim : Primitives) (hashes : List Uint256) (h : Nat) :
    width (merkleLevel prim hashes).length h = width hashes.length (h + 1) := by
  rw [merkleLevel_eq_nextLevel, ← levelAt_length prim.pairHash, ← levelAt_length prim.pairHash, levelAt_nextLevel]

/-- The root is the node at the first level that is not wider than one. -/
theorem merkleRoot_eq_nodeAt {prim : Primitives} {h fuel : Nat} {hashes : List Uint256} (enough : h ≤ fuel)
    (wide : ∀ low < h, 1 < width hashes.length low) (narrow : width hashes.length h ≤ 1) :
    merkleRoot prim fuel hashes = nodeAt prim.pairHash 0 hashes h 0 := by
  induction h generalizing fuel hashes with
  | zero =>
    rw [width_zero] at narrow
    match hashes with
    | [] => cases fuel <;> rfl
    | [hash] => cases fuel <;> rfl
    | _ :: _ :: _ => simp at narrow
  | succ h ih =>
    have long := wide 0 h.succ_pos
    rw [width_zero] at long
    match fuel, hashes with
    | fuel + 1, left :: right :: hashes =>
      have lengths := width_merkleLevel prim (left :: right :: hashes)
      show merkleRoot prim fuel (merkleLevel prim (left :: right :: hashes)) = _
      rw [ih (Nat.le_of_succ_le_succ enough) (fun low below =>
        lengths low ▸ wide (low + 1) (Nat.succ_lt_succ below))
        (lengths h ▸ narrow), merkleLevel_eq_nextLevel]
      unfold nodeAt
      rw [levelAt_nextLevel]

/-- The pairs of a level are pairs of the tree. -/
theorem levelPairs_subset {prim : Primitives} {h fuel : Nat} {hashes : List Uint256} (enough : h < fuel)
    (wide : ∀ low ≤ h, 1 < width hashes.length low) :
    levelPairs (levelAt prim.pairHash hashes h) ⊆ treePairs prim fuel hashes := by
  have long := wide 0 h.zero_le
  rw [width_zero] at long
  match fuel, hashes with
  | fuel + 1, left :: right :: hashes =>
    intro pair member
    cases h with
    | zero => exact List.mem_append_left _ member
    | succ h =>
      rw [← levelAt_nextLevel, ← merkleLevel_eq_nextLevel] at member
      refine List.mem_append_right _ (levelPairs_subset (Nat.lt_of_succ_lt_succ enough) (fun low below =>
        ?_) member)
      rw [width_merkleLevel]
      exact wide (low + 1) (Nat.succ_le_succ below)

/-- The children of a node are a pair of the tree. -/
theorem mem_treePairs {prim : Primitives} {h fuel pos : Nat} {hashes : List Uint256} (enough : h < fuel)
    (wide : ∀ low ≤ h, 1 < width hashes.length low) (inside : pos * 2 < width hashes.length h) :
    (nodeAt prim.pairHash 0 hashes h (pos * 2),
      if pos * 2 + 1 < width hashes.length h then nodeAt prim.pairHash 0 hashes h (pos * 2 + 1)
      else nodeAt prim.pairHash 0 hashes h (pos * 2)) ∈ treePairs prim fuel hashes := by
  apply levelPairs_subset enough wide
  rw [← levelAt_length prim.pairHash] at inside ⊢
  rw [levelPairs_eq_nextLevel]
  exact List.mem_of_getElem? (nextLevel_getElem? Prod.mk 0 _ inside)

/-! ### Branches -/

/-- The loop of `checkMerkleBranch`. -/
def foldBranch (prim : Primitives) : Uint256 → List Uint256 → Int → Uint256
  | hash, [], _ => hash
  | hash, otherside :: branch, index =>
    foldBranch prim (if index % 2 = 1 then prim.pairHash otherside hash else prim.pairHash hash otherside) branch
      (index / 2)

/-- `Block::checkMerkleBranch`. -/
def checkMerkleBranch (prim : Primitives) (hash : Uint256) (branch : List Uint256) (index : Int) : Uint256 :=
  if index = -1 then 0 else foldBranch prim hash branch index

/-- The pairs that are hashed for a branch. -/
def branchPairs (prim : Primitives) : Uint256 → List Uint256 → Int → List (Uint256 × Uint256)
  | _, [], _ => []
  | hash, otherside :: branch, index =>
    if index % 2 = 1 then
      (otherside, hash) :: branchPairs prim (prim.pairHash otherside hash) branch (index / 2)
    else (hash, otherside) :: branchPairs prim (prim.pairHash hash otherside) branch (index / 2)

/-- **Branches of one length, folded at one index to the same root, are of the same hash.** -/
theorem foldBranch_injective {prim : Primitives} {hash other : Uint256} {branch branch' : List Uint256}
    {index : Int}
    (long : branch.length = branch'.length)
    (apart : PairsApart prim (branchPairs prim hash branch index) (branchPairs prim other branch' index))
    (same : foldBranch prim hash branch index = foldBranch prim other branch' index) : hash = other := by
  induction branch generalizing hash other branch' index with
  | nil =>
    obtain rfl := List.length_eq_zero_iff.mp long.symm
    exact same
  | cons otherside branch ih =>
    obtain ⟨otherside', branch', rfl⟩ := List.exists_cons_of_length_eq_add_one long.symm
    have shorter := Nat.succ.inj long
    unfold foldBranch at same
    unfold branchPairs at apart
    by_cases odd : index % 2 = 1
    · rw [if_pos odd, if_pos odd] at same apart
      have pair := ih shorter (fun one inside two among =>
        apart one (List.mem_cons_of_mem _ inside) two (List.mem_cons_of_mem _ among)) same
      exact (Prod.mk.inj (apart _ List.mem_cons_self _ List.mem_cons_self pair)).2
    · rw [if_neg odd, if_neg odd] at same apart
      have pair := ih shorter (fun one inside two among =>
        apart one (List.mem_cons_of_mem _ inside) two (List.mem_cons_of_mem _ among)) same
      exact (Prod.mk.inj (apart _ List.mem_cons_self _ List.mem_cons_self pair)).1

/-! ### Blocks -/

/-- No two transactions of the blocks have the same hash, and no two of the pairs that are hashed for their
merkle roots. -/
structure Block.HashesApart (prim : Primitives) (block other : Block) : Prop where
  txns : ∀ txn ∈ block.transactions, ∀ txn' ∈ other.transactions, prim.txnHash txn = prim.txnHash txn' →
    txn = txn'
  pairs : PairsApart prim (treePairs prim block.transactions.length (block.transactions.map prim.txnHash))
    (treePairs prim other.transactions.length (other.transactions.map prim.txnHash))

/-- Blocks with as many transactions and the same merkle root have the same transactions. -/
theorem Block.buildMerkleTree_injective {prim : Primitives} {block other : Block}
    (apart : HashesApart prim block other) (long : block.transactions.length = other.transactions.length)
    (same : block.buildMerkleTree prim = other.buildMerkleTree prim) :
      block.transactions = other.transactions := by
  unfold Block.buildMerkleTree at same
  obtain ⟨txns, pairs⟩ := apart
  rw [← long] at same pairs
  have lengths : (block.transactions.map prim.txnHash).length = (other.transactions.map prim.txnHash).length := by
    rw [List.length_map, List.length_map, long]
  exact eq_of_map_eq txns (merkleRoot_injective (by rw [List.length_map]; omega) lengths pairs same)

namespace Small

/-- Hashes of pairs that are told apart. -/
def pairing : Primitives := { prim with pairHash := fun left right => left * 1000 + right + 1 }

end Small

end Libcoin
