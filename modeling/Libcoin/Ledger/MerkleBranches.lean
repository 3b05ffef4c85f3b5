/-
`_merkleTree` of a block, and the branches that are read from it.

* `CachedBlock` has the array with all levels of the tree that was built last. `buildLevels_flat`: it is `flatLevels`.
* The array is only built where it is empty. `TreeCounts` has the number of transactions, and how many there were when
  it was built: a branch is right where these are the same (`branches_verify`), and is not even read where they are not
  (`branches_stale`).
-/

import Libcoin.Ledger.Merkle
import Libcoin.Library.FlatTree

namespace Libcoin

open HashTree

/-- A block with its `_merkleTree`. -/
structure CachedBlock where
  block : Block
  merkleTree : List Uint256

/-! ### The array -/

/-- The inner loop of `buildMerkleTree`: the pairs of one level from `i` on. -/
def pushPairs (prim : Primitives) (j size : Nat) : Nat → Nat → List Uint256 → List Uint256
  | 0, _, tree => tree
  | turns + 1, i, tree =>
    if i < size then
      let i2 := min (i + 1) (size - 1)
      pushPairs prim j size turns (i + 2) (tree ++ [prim.pairHash (tree.getD (j + i) 0) (tree.getD (j + i2) 0)])
    else tree

/-- The outer loop. -/
def buildLevels (prim : Primitives) : Nat → Nat → Nat → List Uint256 → List Uint256
  | 0, _, _, tree => tree
  | turns + 1, j, size, tree =>
    if 1 < size then buildLevels prim turns (j + size) ((size + 1) / 2) (pushPairs prim j size size 0 tree) else tree

/-- `_merkleTree[j+i]`, with a place that must be in the array. -/
def readNode (tree : List Uint256) (place : Int) : Except Fault Uint256 :=
  if 0 ≤ place ∧ place < tree.length then .ok (tree.getD place.toNat 0) else .error .undefined

/-- `index^1`. -/
def otherIndex (index : Int) : Int := if index % 2 = 1 then index - 1 else index + 1

/-- The loop of `getMerkleBranch`. -/
def branchLoop (tree : List Uint256) : Nat → Nat → Nat → Int → Except Fault (List Uint256)
  | 0, _, _, _ => .ok []
  | turns + 1, j, size, index =>
    if 1 < size then do
      let otherside ← readNode tree (j + min (otherIndex index) (size - 1))
      let merkleBranch ← branchLoop tree turns (j + size) ((size + 1) / 2) (index / 2)
      return otherside :: merkleBranch
    else .ok []

namespace CachedBlock

/-- `Block::buildMerkleTree`. -/
def buildMerkleTree (prim : Primitives) (b : CachedBlock) : Uint256 × CachedBlock :=
  let hashes := b.block.transactions.map prim.txnHash
  let tree := buildLevels prim hashes.length 0 hashes.length hashes
  (tree.getLastD 0, { b with merkleTree := tree })

/-- `Block::updateMerkleTree`. -/
def updateMerkleTree (prim : Primitives) (b : CachedBlock) : CachedBlock :=
  let built := b.buildMerkleTree prim
  { built.2 with block := { built.2.block with merkleRoot := built.1 } }

/-- `Block::addTransaction`. -/
def addTransaction (txn : Transaction) (b : CachedBlock) : CachedBlock :=
  { b with block := { b.block with transactions := b.block.transactions ++ [txn] } }

/-- `Block::getMerkleBranch`. -/
def getMerkleBranch (prim : Primitives) (index : Int) (b : CachedBlock) :
    Except Fault (List Uint256 × CachedBlock) := do
  let b := if b.merkleTree.isEmpty then (b.buildMerkleTree prim).2 else b
  let size := b.block.transactions.length
  let merkleBranch ← branchLoop b.merkleTree size 0 size index
  return (merkleBranch, b)

end CachedBlock

/-- A call on a block. -/
inductive MerkleCall
  | addTransaction (txn : Transaction)
  | buildMerkleTree
  | updateMerkleTree
  | getMerkleBranch (index : Int)

namespace MerkleCall

/-- What a call does to the block. -/
def apply (prim : Primitives) (b : CachedBlock) : MerkleCall → Except Fault CachedBlock
  | addTransaction txn => .ok (b.addTransaction txn)
  | buildMerkleTree => .ok (b.buildMerkleTree prim).2
  | updateMerkleTree => .ok (b.updateMerkleTree prim)
  | getMerkleBranch index => do
    let (_, b) ← b.getMerkleBranch prim index
    return b

/-- One call after the other. -/
def run (prim : Primitives) : List MerkleCall → CachedBlock → Except Fault CachedBlock
  | [], b => .ok b
  | call :: calls, b => call.apply prim b >>= run prim calls

end MerkleCall

/-! ### Building -/

section Building

variable {prim : Primitives} {hashes : List Uint256}

theorem levelAt_getElem? {h k : Nat} (inside : k < width hashes.length (h + 1)) :
    (levelAt prim.pairHash hashes (h + 1))[k]? = some (nodeAt prim.pairHash 0 hashes (h + 1) k) := by
  have size : k < (levelAt prim.pairHash hashes (h + 1)).length := by rwa [levelAt_length]
  rw [nodeAt, List.getD_eq_getElem _ _ size, List.getElem?_eq_getElem size]

/-- The pairs of a level are the level over it. -/
theorem pushPairs_flat {h k turns : Nat} (enough : width hashes.length h ≤ 2 * k + turns)
    (upto : k ≤ width hashes.length (h + 1)) :
    pushPairs prim (offset hashes.length h) (width hashes.length h) turns (2 * k)
        (flatLevels prim.pairHash hashes (h + 1) ++ (levelAt prim.pairHash hashes (h + 1)).take k) =
      flatLevels prim.pairHash hashes (h + 2) := by
  have above := width_succ hashes.length h
  have whole {k : Nat} (all : width hashes.length h ≤ 2 * k) :
      (levelAt prim.pairHash hashes (h + 1)).take k = levelAt prim.pairHash hashes (h + 1) :=
    List.take_of_length_le (by rw [levelAt_length]; omega)
  induction turns generalizing k with
  | zero =>
    rw [pushPairs, whole enough]
    rfl
  | succ turns ih =>
    rw [pushPairs]
    by_cases more : 2 * k < width hashes.length h
    · have read {pos : Nat} (inside : pos < width hashes.length h) :
          (flatLevels prim.pairHash hashes (h + 1) ++ (levelAt prim.pairHash hashes (h + 1)).take k).getD
            (offset hashes.length h + pos) 0 = nodeAt prim.pairHash 0 hashes h pos := by
        rw [List.getD_append _ _ _ _ (by
          rw [flatLevels_length]
          exact offset_add_lt (Nat.lt_succ_self h) inside)]
        exact flatLevels_getD prim.pairHash 0 hashes (Nat.lt_succ_self h) inside
      have inside : k < width hashes.length (h + 1) := by omega
      have parent := nodeAt_succ prim.pairHash 0 hashes inside
      have second : (if k * 2 + 1 < width hashes.length h then nodeAt prim.pairHash 0 hashes h (k * 2 + 1)
          else nodeAt prim.pairHash 0 hashes h (k * 2)) =
          nodeAt prim.pairHash 0 hashes h (min (2 * k + 1) (width hashes.length h - 1)) := by
        split
        · rw [Nat.min_eq_left (by omega), Nat.mul_comm]
        · rw [Nat.min_eq_right (by omega), show width hashes.length h - 1 = k * 2 by omega]
      rw [second, Nat.mul_comm k 2] at parent
      have next : (levelAt prim.pairHash hashes (h + 1)).take k ++ [nodeAt prim.pairHash 0 hashes (h + 1) k] =
          (levelAt prim.pairHash hashes (h + 1)).take (k + 1) := by
        rw [List.take_add_one, levelAt_getElem? inside]
        rfl
      rw [if_pos more]
      dsimp only
      rw [read more, read (by omega), ← parent, List.append_assoc, next]
      exact @ih (k + 1) (by omega) inside
    · rw [if_neg more, whole (Nat.not_lt.mp more)]
      rfl

/-- **The array has all levels of the tree.** -/
theorem buildLevels_flat : buildLevels prim hashes.length 0 hashes.length hashes =
    flatLevels prim.pairHash hashes (height hashes.length + 1) := by
  have loop {turns h : Nat} (enough : width hashes.length h ≤ turns + 1)
      (wide : ∀ low < h, 1 < width hashes.length low) :
      buildLevels prim turns (offset hashes.length h) (width hashes.length h)
          (flatLevels prim.pairHash hashes (h + 1)) =
        flatLevels prim.pairHash hashes (height hashes.length + 1) := by
    induction turns generalizing h with
    | zero =>
      rw [height_unique enough wide]
      rfl
    | succ turns ih =>
      rw [buildLevels]
      by_cases more : 1 < width hashes.length h
      · have pairs := @pushPairs_flat prim hashes h 0 (width hashes.length h) (by omega) (Nat.zero_le _)
        rw [List.take_zero, List.append_nil] at pairs
        have above := width_succ hashes.length h
        rw [if_pos more, pairs, ← above]
        refine @ih (h + 1) (by omega) fun low below => ?_
        rcases Nat.lt_succ_iff_lt_or_eq.mp below with lower | rfl
        · exact wide low lower
        · exact more
      · rw [if_neg more, height_unique (Nat.not_lt.mp more) wide]
  have whole := @loop hashes.length 0 (by rw [width_zero]; omega) nofun
  rw [width_zero] at whole
  exact whole

/-! ### Branches -/

theorem readNode_inside {tree : List Uint256} {place : Nat} (inside : place < tree.length) :
    readNode tree place = .ok (tree.getD place 0) := by
  unfold readNode
  rw [if_pos (by omega), Int.toNat_natCast]

/-- The place of the other node, for an index that is not too large, and for one that is. -/
theorem otherIndex_sibling {index : Int} {size : Nat} (nonneg : 0 ≤ index) (some : 0 < size) :
    min (otherIndex index) (size - 1) = (sibling size index.toNat : Int) := by
  unfold otherIndex sibling
  split <;> split <;> omega

/-- **A branch that is read from the tree leads from its node to the root.** -/
theorem foldBranch_branchLoop {turns h : Nat} {index : Int} (enough : width hashes.length h ≤ turns + 1)
    (below : h ≤ height hashes.length) (nonneg : 0 ≤ index) :
    ∃ branch, branchLoop (flatLevels prim.pairHash hashes (height hashes.length + 1)) turns (offset hashes.length h)
        (width hashes.length h) index = .ok branch ∧
      (index < width hashes.length h →
        foldBranch prim (nodeAt prim.pairHash 0 hashes h index.toNat) branch index =
          nodeAt prim.pairHash 0 hashes (height hashes.length) 0) := by
  obtain ⟨narrow, wide⟩ := height_spec hashes.length
  have ends {h : Nat} {index : Int} (below : h ≤ height hashes.length) (few : width hashes.length h ≤ 1)
      (inside : index < width hashes.length h) :
      foldBranch prim (nodeAt prim.pairHash 0 hashes h index.toNat) [] index =
        nodeAt prim.pairHash 0 hashes (height hashes.length) 0 := by
    obtain rfl : h = height hashes.length := by
      by_contra other
      have := wide h (by omega)
      omega
    rw [show index.toNat = 0 by omega]
    rfl
  induction turns generalizing h index with
  | zero => exact ⟨[], rfl, ends below enough⟩
  | succ turns ih =>
    rw [branchLoop]
    by_cases more : 1 < width hashes.length h
    · have lower : h < height hashes.length := by
        by_contra other
        obtain rfl : h = height hashes.length := by omega
        omega
      have above := width_succ hashes.length h
      obtain ⟨branch, read, folds⟩ := @ih (h + 1) (index / 2) (by omega) lower (by omega)
      have other := @sibling_lt _ index.toNat (show 0 < width hashes.length h by omega)
      have node : readNode (flatLevels prim.pairHash hashes (height hashes.length + 1))
          (offset hashes.length h + min (otherIndex index) (width hashes.length h - 1)) =
          .ok (nodeAt prim.pairHash 0 hashes h (sibling (width hashes.length h) index.toNat)) := by
        rw [otherIndex_sibling nonneg (by omega), ← Int.natCast_add, readNode_inside (by
          rw [flatLevels_length]
          exact offset_add_lt (Nat.lt_succ_of_lt lower) other)]
        rw [flatLevels_getD prim.pairHash 0 hashes (Nat.lt_succ_of_lt lower) other]
      rw [if_pos more, node, ← above]
      refine ⟨_ :: branch, by rw [Exec.ok_bind]; exact (congrArg (· >>= _) read), fun inside => ?_⟩
      have parent := hash_sibling prim.pairHash 0 hashes (show index.toNat < width hashes.length h by omega)
      have half : (index / 2).toNat = index.toNat / 2 := by omega
      have onward := folds (by omega)
      rw [half, ← parent] at onward
      unfold foldBranch
      by_cases odd : index % 2 = 1
      · rw [if_pos odd]
        rwa [if_pos (by omega)] at onward
      · rw [if_neg odd]
        rwa [if_neg (by omega)] at onward
    · rw [if_neg more]
      exact ⟨[], rfl, ends below (Nat.not_lt.mp more)⟩

end Building

/-! ### Runs -/

/-- The tree of some transactions. -/
def treeOf (prim : Primitives) (txns : List Transaction) : List Uint256 :=
  flatLevels prim.pairHash (txns.map prim.txnHash) (height txns.length + 1)

/-- How many transactions there are, and how many there were when the tree was built. -/
structure TreeCounts where
  txns : Nat
  built : Nat

namespace TreeCounts

/-- The tree is not there, or it is that of the transactions. -/
def Fresh (c : TreeCounts) : Prop := c.built = 0 ∨ c.built = c.txns

/-- The counts after a call. A branch builds the tree where it is empty. -/
def next (c : TreeCounts) : MerkleCall → TreeCounts
  | .addTransaction _ => { c with txns := c.txns + 1 }
  | .buildMerkleTree | .updateMerkleTree => { c with built := c.txns }
  | .getMerkleBranch _ => if c.built = 0 then { c with built := c.txns } else c

/-- The counts after some calls. -/
def after (c : TreeCounts) (calls : List MerkleCall) : TreeCounts := calls.foldl next c

/-- Every branch is asked for at an index that is not negative, where the tree is not there or is that of the
transactions. -/
def InTime (c : TreeCounts) : List MerkleCall → Prop
  | [] => True
  | .getMerkleBranch index :: calls => c.Fresh ∧ 0 ≤ index ∧ InTime (c.next (.getMerkleBranch index)) calls
  | call :: calls => InTime (c.next call) calls

end TreeCounts

/-- The counts are those of a block. -/
structure CountedBy (prim : Primitives) (b : CachedBlock) (c : TreeCounts) : Prop where
  txns : b.block.transactions.length = c.txns
  built : c.built ≤ c.txns
  tree : b.merkleTree = treeOf prim (b.block.transactions.take c.built)

section Runs

variable {prim : Primitives} {b b' : CachedBlock} {c : TreeCounts}

theorem treeOf_length_pos (prim : Primitives) {txns : List Transaction} (some : txns ≠ []) :
    treeOf prim txns ≠ [] := by
  have leaf := @offset_add_lt txns.length 0 (height txns.length + 1) 0 (Nat.succ_pos _)
    (by rw [width_zero]; exact List.length_pos_iff.mpr some)
  rw [← List.length_pos_iff, treeOf, flatLevels_length, List.length_map]
  omega

theorem buildMerkleTree_tree (prim : Primitives) (b : CachedBlock) :
    (b.buildMerkleTree prim).2 = { b with merkleTree := treeOf prim b.block.transactions } := by
  unfold CachedBlock.buildMerkleTree treeOf
  dsimp only
  rw [buildLevels_flat, List.length_map]

/-- The root that is returned is the one of the chain. -/
theorem buildMerkleTree_root (prim : Primitives) (b : CachedBlock) :
    (b.buildMerkleTree prim).1 = b.block.buildMerkleTree prim := by
  unfold CachedBlock.buildMerkleTree Block.buildMerkleTree
  dsimp only
  rw [buildLevels_flat]
  have hashed : (b.block.transactions.map prim.txnHash).length = b.block.transactions.length := List.length_map ..
  generalize b.block.transactions.map prim.txnHash = hashes at hashed
  obtain ⟨narrow, wide⟩ := height_spec hashes.length
  rw [merkleRoot_eq_nodeAt (hashed ▸ height_le _) wide narrow, flatLevels]
  by_cases empty : hashes = []
  · subst empty
    rfl
  · have top := width_pos (List.length_pos_iff.mpr empty) (height hashes.length)
    obtain ⟨root, single⟩ : ∃ root, levelAt prim.pairHash hashes (height hashes.length) = [root] := by
      rw [← List.length_eq_one_iff, levelAt_length]
      omega
    rw [nodeAt, single, List.getLastD_concat]
    rfl

theorem CountedBy.built_all (counted : CountedBy prim b c) :
    CountedBy prim { b with merkleTree := treeOf prim b.block.transactions } { c with built := c.txns } where
  txns := counted.txns
  built := le_rfl
  tree := by
    rw [List.take_of_length_le counted.txns.le]

/-- The tree is empty where it was not built, or there was nothing to build it of. -/
theorem CountedBy.isEmpty (counted : CountedBy prim b c) : b.merkleTree.isEmpty = decide (c.built = 0) := by
  rw [counted.tree]
  by_cases zero : c.built = 0
  · rw [zero, decide_eq_true rfl]
    rfl
  · have some : b.block.transactions.take c.built ≠ [] := by
      rw [← List.length_pos_iff, List.length_take, counted.txns]
      have := counted.built
      omega
    rw [decide_eq_false zero, List.isEmpty_eq_false_iff]
    exact treeOf_length_pos prim some

/-- What a branch leaves: the tree is built where it was empty. -/
theorem getMerkleBranch_block {index : Int} {branch : List Uint256}
    (read : b.getMerkleBranch prim index = .ok (branch, b')) :
    b' = if b.merkleTree.isEmpty then (b.buildMerkleTree prim).2 else b := by
  obtain ⟨found, -, same⟩ := Exec.bind_eq_ok.mp read
  cases same
  rfl

/-- **A call keeps the counts.** -/
theorem CountedBy.next {call : MerkleCall} (counted : CountedBy prim b c) (applied : call.apply prim b = .ok b') :
    CountedBy prim b' (c.next call) := by
  cases call with
  | addTransaction txn =>
    cases applied
    refine ⟨?_, counted.built.trans (Nat.le_succ _), ?_⟩
    · show (b.block.transactions ++ [txn]).length = c.txns + 1
      rw [List.length_append, counted.txns]
      rfl
    · show b.merkleTree = treeOf prim ((b.block.transactions ++ [txn]).take c.built)
      rw [List.take_append_of_le_length (by rw [counted.txns]; exact counted.built)]
      exact counted.tree
  | buildMerkleTree =>
    cases applied
    rw [buildMerkleTree_tree]
    exact counted.built_all
  | updateMerkleTree =>
    cases applied
    have all := counted.built_all
    unfold CachedBlock.updateMerkleTree
    dsimp only
    rw [buildMerkleTree_tree]
    exact ⟨all.txns, all.built, all.tree⟩
  | getMerkleBranch index =>
    obtain ⟨⟨branch, b''⟩, read, same⟩ := Exec.bind_eq_ok.mp applied
    cases same
    have left := getMerkleBranch_block read
    simp only [counted.isEmpty, decide_eq_true_eq] at left
    show CountedBy prim b' (if c.built = 0 then { c with built := c.txns } else c)
    rw [left]
    split
    · rw [buildMerkleTree_tree]
      exact counted.built_all
    · exact counted

/-- A branch of a fresh tree. -/
theorem CountedBy.branch {index : Int} (counted : CountedBy prim b c) (fresh : c.Fresh) (nonneg : 0 ≤ index) :
    ∃ branch b', b.getMerkleBranch prim index = .ok (branch, b') ∧ b'.block = b.block ∧
      ∀ txn, b.block.transactions[index.toNat]? = some txn →
        checkMerkleBranch prim (prim.txnHash txn) branch index = b.block.buildMerkleTree prim := by
  have built : (if b.merkleTree.isEmpty then (b.buildMerkleTree prim).2 else b) =
      { b with merkleTree := treeOf prim b.block.transactions } := by
    rw [counted.isEmpty, buildMerkleTree_tree]
    by_cases zero : c.built = 0
    · rw [decide_eq_true zero, if_pos rfl]
    · rw [decide_eq_false zero, if_neg Bool.false_ne_true]
      have all := counted.tree
      rw [fresh.resolve_left zero, List.take_of_length_le counted.txns.le] at all
      rw [← all]
  have hashed : (b.block.transactions.map prim.txnHash).length = b.block.transactions.length := List.length_map ..
  obtain ⟨branch, read, folds⟩ := @foldBranch_branchLoop prim (b.block.transactions.map prim.txnHash)
    b.block.transactions.length 0 index (by rw [width_zero, hashed]; omega) (Nat.zero_le _) nonneg
  rw [width_zero, hashed] at read folds
  refine ⟨branch, { b with merkleTree := treeOf prim b.block.transactions }, ?_, rfl, fun txn found => ?_⟩
  · unfold CachedBlock.getMerkleBranch
    dsimp only
    rw [built]
    exact congrArg (· >>= _) read
  · obtain ⟨narrow, wide⟩ := height_spec b.block.transactions.length
    have inside : index < b.block.transactions.length := by
      have short := (List.getElem?_eq_some_iff.mp found).1
      omega
    have leaf : nodeAt prim.pairHash 0 (b.block.transactions.map prim.txnHash) 0 index.toNat = prim.txnHash txn := by
      show (b.block.transactions.map prim.txnHash).getD index.toNat 0 = _
      rw [List.getD_eq_getElem?_getD, List.getElem?_map, found]
      rfl
    have root := folds inside
    rw [leaf, ← @merkleRoot_eq_nodeAt prim _ b.block.transactions.length _ (height_le _) (by rwa [hashed])
      (by rwa [hashed])] at root
    unfold checkMerkleBranch Block.buildMerkleTree
    rw [if_neg (by omega), root]

/-- The counts after a run. -/
theorem CountedBy.run {calls : List MerkleCall} (counted : CountedBy prim b c)
    (ran : MerkleCall.run prim calls b = .ok b') :
    CountedBy prim b' (c.after calls) := by
  induction calls generalizing b c with
  | nil =>
    cases ran
    exact counted
  | cons call calls ih =>
    obtain ⟨between, applied, rest⟩ := Exec.bind_eq_ok.mp ran
    exact ih (counted.next applied) rest

/-- In a run where every branch is in time, nothing is read outside of the tree. -/
theorem CountedBy.inTime {calls : List MerkleCall} (counted : CountedBy prim b c) (inTime : c.InTime calls) :
    ∃ b', MerkleCall.run prim calls b = .ok b' := by
  induction calls generalizing b c with
  | nil => exact ⟨b, rfl⟩
  | cons call calls ih =>
    obtain ⟨between, applied, rest⟩ : ∃ between, call.apply prim b = .ok between ∧ (c.next call).InTime calls := by
      cases call with
      | addTransaction txn => exact ⟨_, rfl, inTime⟩
      | buildMerkleTree => exact ⟨_, rfl, inTime⟩
      | updateMerkleTree => exact ⟨_, rfl, inTime⟩
      | getMerkleBranch index =>
        obtain ⟨fresh, nonneg, rest⟩ := inTime
        obtain ⟨branch, between, read, -⟩ := counted.branch fresh nonneg
        exact ⟨between, Exec.bind_eq_ok.mpr ⟨_, read, rfl⟩, rest⟩
    obtain ⟨b', ran⟩ := ih (counted.next applied) rest
    refine ⟨b', ?_⟩
    show call.apply prim b >>= MerkleCall.run prim calls = _
    rw [applied]
    exact ran

end Runs

namespace Small

/-- A transaction whose hash is its version. -/
def versioned (version : Int) : Transaction := { version := version, inputs := [], outputs := [], lockTime := 0 }

end Small

/-! ### The branches of a block -/

/-- The branch of every transaction leads from its hash to the root that is built. -/
def BranchesVerify (prim : Primitives) (b : CachedBlock) : Prop :=
  ∀ (i : Nat) (txn : Transaction), b.block.transactions[i]? = some txn →
    ∃ branch b', b.getMerkleBranch prim i = .ok (branch, b') ∧
      checkMerkleBranch prim (prim.txnHash txn) branch i = (b'.buildMerkleTree prim).1

/-- The counts of a block whose tree was not built. -/
def TreeCounts.start (block : Block) : TreeCounts := { txns := block.transactions.length, built := 0 }

/-- **Merkle branches verify in every run that ends with a fresh tree.** Such a run is one where no transaction was
added since the tree was built, or where it was not built; and if that holds wherever a branch is asked for, the run
gets to its end. -/
theorem branches_verify (prim : Primitives) (block : Block) (calls : List MerkleCall) :
    ((TreeCounts.start block).InTime calls → ∃ b, MerkleCall.run prim calls ⟨block, []⟩ = .ok b) ∧
      ∀ b, MerkleCall.run prim calls ⟨block, []⟩ = .ok b → ((TreeCounts.start block).after calls).Fresh →
        BranchesVerify prim b := by
  have counted : CountedBy prim ⟨block, []⟩ (TreeCounts.start block) := ⟨rfl, Nat.zero_le _, rfl⟩
  refine ⟨counted.inTime, fun b ran fresh i txn found => ?_⟩
  obtain ⟨branch, b', read, same, verifies⟩ := @CountedBy.branch _ _ _ i (counted.run ran) fresh (Int.natCast_nonneg i)
  refine ⟨branch, b', read, ?_⟩
  rw [buildMerkleTree_root, same]
  exact verifies txn found

/-- Three transactions, and the tree over them. -/
theorem branches_verify_three :
    ∃ b, MerkleCall.run Small.pairing [.addTransaction (Small.versioned 1), .addTransaction (Small.versioned 2),
        .addTransaction (Small.versioned 3), .getMerkleBranch 2] ⟨Block.null, []⟩ = .ok b ∧
      BranchesVerify Small.pairing b := by
  obtain ⟨reaches, verify⟩ := branches_verify Small.pairing Block.null [.addTransaction (Small.versioned 1),
    .addTransaction (Small.versioned 2), .addTransaction (Small.versioned 3), .getMerkleBranch 2]
  obtain ⟨b, ran⟩ := reaches ⟨.inl rfl, by decide, trivial⟩
  exact ⟨b, ran, verify b ran (.inr rfl)⟩

/-- A transaction is added to one whose tree is built: the branch of the first is read past the end of the tree. -/
theorem branches_stale :
    ¬∀ (calls : List MerkleCall) (b : CachedBlock),
      MerkleCall.run Small.pairing calls ⟨Block.null, []⟩ = .ok b → 1 ≤ b.block.transactions.length →
        BranchesVerify Small.pairing b := by
  intro all
  obtain ⟨branch, b', read, -⟩ := all [.addTransaction (Small.versioned 1), .buildMerkleTree,
    .addTransaction (Small.versioned 2)] _ rfl (by decide) 0 (Small.versioned 1) rfl
  cases read

end Libcoin
