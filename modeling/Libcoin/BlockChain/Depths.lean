/-
How deep a block is: `isInMainChain`, `getHeight`, `getDepthInMainChain` and `getBlocksToMaturity`.

* `getHeight` drops the sign of a height, which says that the block is on a branch, so `getDepthInMainChain` counts a
  block of a branch as one of the trunk (`getDepth_branch`).
* `isInMainChain` reads through the iterator to a block that is not known (`isInMainChain_unknown`).
* `getBlocksToMaturity` asks for the depth of the hash of the transaction.
-/

import Libcoin.BlockChain.Append
import Libcoin.Tree.Backward
import Libcoin.Tree.Compact

namespace Libcoin

open Exec
open BlockTree (Represents)

namespace BlockChain

/-- `isInMainChain`. The iterator is not compared with `end()`. -/
def isInMainChain (s : BlockChain) (hash : Uint256) : Except Fault Bool := do
  let height ← s.tree.heightAt hash
  return decide (0 ≤ height)

/-- `getHeight` of a hash. -/
def getHeightOf (s : BlockChain) (hash : Uint256) : Except Fault Int := do
  match ← s.tree.find hash with
  | none => return -1
  | some blk =>
    let height ← s.tree.heightOf blk.hash
    return height.natAbs

/-- `getDepthInMainChain`. -/
def getDepthInMainChain (s : BlockChain) (hash : Uint256) : Except Fault Int := do
  let height ← s.getHeightOf hash
  return if height < 0 then 0 else s.tree.height - height + 1

/-- `getBlocksToMaturity`. -/
def getBlocksToMaturity (cfg : Config) (s : BlockChain) (tx : Transaction) : Except Fault Int :=
  if !tx.isCoinBase then .ok 0
  else do
    let depth ← s.getDepthInMainChain (cfg.prim.txnHash tx)
    return max 0 (cfg.chain.maturity s.tree.height + 20 - depth)

section Depths

variable {s : BlockChain} {known : List (BlockRef Uint256)} {b : BlockRef Uint256} {hash : Uint256}

theorem isInMainChain_known (rep : Represents known s.tree) (grown : Grown known) (member : b ∈ known) :
    s.isInMainChain b.hash = .ok (decide (b ∈ s.tree.trunk)) := by
  unfold isInMainChain BlockTree.heightAt
  rw [rep.find_known grown member]
  obtain ⟨height, is, -, branch, -⟩ := rep.heightOf_cases grown member
  simp only [bind, Except.bind, is, pure, Except.pure]
  refine congrArg Except.ok (decide_eq_decide.mpr ?_)
  rw [← not_iff_not, not_le, branch]

theorem isInMainChain_unknown (rep : Represents known s.tree) (unknown : hash ∉ hashes known) :
    s.isInMainChain hash = .error .undefined := by
  unfold isInMainChain BlockTree.heightAt
  rw [rep.find_unknown unknown]
  rfl

theorem depth_at (rep : Represents known s.tree) (grown : Grown known) {h : Nat} (on : s.tree.trunk[h]? = some b) :
    depth known b.hash = h := by
  obtain ⟨inside, here⟩ := List.getElem?_eq_some_iff.mp on
  have split : s.tree.trunk = s.tree.trunk.take h ++ b :: s.tree.trunk.drop (h + 1) := by
    rw [← here, List.cons_getElem_drop_succ, List.take_append_drop]
  rw [BlockTree.depth_trunk rep grown split, List.length_take, min_eq_left inside.le]

/-- A block of the trunk is as deep as there are blocks from it to the best one. -/
theorem getDepth_trunk (rep : Represents known s.tree) (grown : Grown known) {h : Nat}
    (on : s.tree.trunk[h]? = some b) : s.getDepthInMainChain b.hash = .ok (s.tree.height - h + 1) := by
  have member : b ∈ s.tree.trunk := List.mem_of_getElem? on
  have height := depth_at rep grown on
  unfold getDepthInMainChain getHeightOf
  rw [rep.find_known grown (rep.trunk_known member)]
  simp only [bind, Except.bind, rep.heightOf_trunk member, height, pure, Except.pure]
  simp

/-- So is a block of a branch. -/
theorem getDepth_branch (rep : Represents known s.tree) (grown : Grown known) (member : b ∈ known)
    (off : b ∉ s.tree.trunk) :
    s.getDepthInMainChain b.hash = .ok (s.tree.height - depth known b.hash + 1) := by
  have positive := rep.depth_pos grown member off
  unfold getDepthInMainChain getHeightOf
  rw [rep.find_known grown member]
  simp only [bind, Except.bind, rep.heightOf_branch member off, pure, Except.pure]
  rw [Int.natAbs_neg, Int.natAbs_of_nonneg positive.le, if_neg (not_lt.mpr positive.le)]

/-- The depth of a known block. -/
theorem getDepth_known (rep : Represents known s.tree) (grown : Grown known) (member : b ∈ known) :
    s.getDepthInMainChain b.hash = .ok (s.tree.height - depth known b.hash + 1) := by
  by_cases on : b ∈ s.tree.trunk
  · obtain ⟨h, found⟩ := List.mem_iff_getElem?.mp on
    rw [getDepth_trunk rep grown found, depth_at rep grown found]
  · exact getDepth_branch rep grown member on

theorem getDepth_unknown (rep : Represents known s.tree) (unknown : hash ∉ hashes known) :
    s.getDepthInMainChain hash = .ok 0 := by
  unfold getDepthInMainChain getHeightOf
  rw [rep.find_unknown unknown]
  rfl

/-- There is a depth for every hash. -/
theorem exists_getDepth (rep : Represents known s.tree) (grown : Grown known) (hash : Uint256) :
    ∃ depth, s.getDepthInMainChain hash = .ok depth := by
  by_cases isKnown : hash ∈ hashes known
  · obtain ⟨b, member, rfl⟩ := List.mem_map.mp isKnown
    exact ⟨_, getDepth_known rep grown member⟩
  · exact ⟨0, getDepth_unknown rep isKnown⟩

end Depths

end BlockChain

end Libcoin
