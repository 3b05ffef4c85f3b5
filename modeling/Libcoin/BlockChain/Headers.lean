/-
What a block header says about the transactions under it.

* `Shadows`: a block that fails to attach keeps another block with its hash out.
* The check of blocks does not ask whether transactions are repeated, and the merkle root of a list does not change
  when its end is repeated to fill up a level.
-/

import Libcoin.Ledger.Merkle
import Libcoin.BlockChain.Flow

namespace Libcoin

open Exec

namespace Chain

variable {chain : Chain} {prim : Primitives} {adjustedTime : Int} {block : Block}

/-- What `check(Block)` asks. -/
theorem checkBlock_ok :
    chain.checkBlock prim adjustedTime block = .ok () ↔
      ¬(block.transactions.isEmpty || decide (chain.maxBlockSize < block.transactions.length) ||
        decide (chain.maxBlockSize < prim.blockSize block)) = true ∧
      ¬adjustedTime + 2 * 60 * 60 < block.time ∧
      block.transactions.head?.any Transaction.isCoinBase = true ∧
      ¬block.transactions.tail.any Transaction.isCoinBase = true ∧
      (block.transactions.forM fun txn => chain.checkTransaction prim txn) = .ok () ∧
      ¬maxBlockSigops < prim.sigOpCount block ∧ block.merkleRoot = block.buildMerkleTree prim := by
  unfold checkBlock
  rw [mapError_eq_ok]
  unfold checkBlockBody
  simp only [unless_bind_eq_ok, bind_eq_ok, unless_eq_ok, Bool.not_eq_true', Bool.not_eq_false, ne_eq, not_not,
    Unique.exists_iff, PUnit.default_eq_unit]

/-- A block that passes the check has its own merkle root. -/
theorem checkBlock_merkleRoot (passed : chain.checkBlock prim adjustedTime block = .ok ()) :
    block.merkleRoot = block.buildMerkleTree prim := (checkBlock_ok.mp passed).2.2.2.2.2.2

/-- The transactions of a block that passes the check are not empty. -/
theorem checkBlock_transactions (passed : chain.checkBlock prim adjustedTime block = .ok ()) :
    block.transactions ≠ [] := by
  intro none
  have first := (checkBlock_ok.mp passed).2.2.1
  rw [none] at first
  cases first

end Chain

/-- A block that is read back is that of the tables, with its merkle root, or has the version and the transactions
of the null block. -/
theorem Database.getBlock_cases (db : Database) (env : Setting) (count : Int) :
    (db.getBlock env count).version = 1 ∧ (db.getBlock env count).transactions = [] ∨
      (db.getBlock env count).transactions = (db.readBlock env count).transactions ∧
        (db.getBlock env count).merkleRoot = (db.readBlock env count).buildMerkleTree env.prim := by
  unfold getBlock
  split
  · exact .inl ⟨rfl, rfl⟩
  · dsimp only
    split
    · refine .inr ?_
      split <;> exact ⟨rfl, rfl⟩
    · refine .inl ?_
      split <;> exact ⟨rfl, rfl⟩

namespace BlockChain

/-- A block that fails in some state keeps another block out, which is taken if it comes first. -/
def Shadows (cfg : Config) (block other : Block) : Prop :=
  block.transactions ≠ other.transactions ∧
    ∃ clock clock' s s₁ s₂ s₃ fault, append cfg clock block s = .error fault s₁ ∧
      append cfg clock' other s = .ok () s₂ ∧
      append cfg clock' other s₁ = .error (.error "Block already accepted as invalid") s₃

/-- **A header commits to the transactions if and only if it commits to their number**, and then no block keeps
another one out. -/
theorem header_commits_iff {cfg : Config} {adjustedTime adjustedTime' : Int} {block other : Block}
    (header : block.toBlockHeader = other.toBlockHeader)
    (passed : cfg.chain.checkBlock cfg.prim adjustedTime block = .ok ())
    (passed' : cfg.chain.checkBlock cfg.prim adjustedTime' other = .ok ())
    (apart : Block.HashesApart cfg.prim block other) :
    block.transactions = other.transactions ∧ ¬Shadows cfg block other ↔
      block.transactions.length = other.transactions.length := by
  constructor
  · rintro ⟨same, -⟩
    rw [same]
  · intro long
    have root : block.buildMerkleTree cfg.prim = other.buildMerkleTree cfg.prim := by
      rw [← Chain.checkBlock_merkleRoot passed, ← Chain.checkBlock_merkleRoot passed', header]
    have same := Block.buildMerkleTree_injective apart long root
    exact ⟨same, fun shadows => shadows.1 same⟩

end BlockChain

namespace Small

/-- The small chain where different pairs of small hashes have different hashes. -/
def hashing : Config :=
  { config 1 0 with
    prim := { prim with pairHash := fun left right => Fin.ofNat _ (1000 * left.val + right.val + 1) } }

/-- Three transactions and, if asked to, the last one again. -/
def repeated (again : Bool) : Block :=
  { mined 2 1 ([coinbase 2 [50], spend 3 [(1, 0)] [30], spend 4 [(3, 0)] [30]] ++
      if again then [spend 4 [(3, 0)] [30]] else []) with
    merkleRoot := 2008006 }

theorem repeated_apart (again : Bool) :
    Block.HashesApart hashing.prim (repeated again) (repeated false) := by
  cases again <;> exact ⟨by decide +kernel, by decide +kernel⟩

theorem repeated_passes (again : Bool) :
    hashing.chain.checkBlock hashing.prim 100 (repeated again) = .ok () := by
  cases again <;> decide +kernel

end Small

namespace BlockChain

open Libcoin.Small in
/-- The block with its last transaction repeated spends a coin twice. It fails, and then the block itself is
refused. -/
theorem header_shadows :
    (repeated true).toBlockHeader = (repeated false).toBlockHeader ∧
    hashing.chain.checkBlock hashing.prim 100 (repeated true) = .ok () ∧
    hashing.chain.checkBlock hashing.prim 100 (repeated false) = .ok () ∧
    Block.HashesApart hashing.prim (repeated true) (repeated false) ∧
    (repeated true).transactions ≠ (repeated false).transactions ∧
    Shadows hashing (repeated true) (repeated false) := by
  refine ⟨rfl, repeated_passes true, repeated_passes false, repeated_apart true, by decide, by decide,
    clock, clock, ?_⟩
  have run : (do
      let s ← (create hashing clock (mined 1 0 [coinbase 1 [50]]) true 0).toOption
      return (succeeds (append hashing clock (repeated false) s) fun _ _ => true,
        fails (append hashing clock (repeated true) s) fun _ s₁ =>
          fails (append hashing clock (repeated false) s₁) fun fault _ =>
            decide (fault = .error "Block already accepted as invalid"))) = some (true, true) := by
    decide +kernel
  obtain ⟨s, -, run⟩ := Option.bind_eq_some_iff.mp run
  obtain ⟨taken, kept⟩ := Prod.mk.inj (Option.some.inj run)
  obtain ⟨_, s₂, taken, -⟩ := of_succeeds taken
  obtain ⟨fault, s₁, failed, kept⟩ := of_fails kept
  obtain ⟨other, s₃, refused, same⟩ := of_fails kept
  rw [of_decide_eq_true same] at refused
  exact ⟨s, s₁, s₂, s₃, fault, failed, taken, refused⟩

open Libcoin.Small in
/-- The block of three transactions and itself, and with its last transaction repeated. -/
theorem header_commits_itself :
    ((repeated false).transactions = (repeated false).transactions ∧
      ¬Shadows hashing (repeated false) (repeated false)) ∧
    ¬((repeated true).transactions = (repeated false).transactions ∧
      ¬Shadows hashing (repeated true) (repeated false)) :=
  ⟨(header_commits_iff rfl (repeated_passes false) (repeated_passes false) (repeated_apart false)).mpr rfl,
    mt (header_commits_iff (show (repeated true).toBlockHeader = (repeated false).toBlockHeader from rfl)
      (repeated_passes true) (repeated_passes false) (repeated_apart true)).mp (by decide)⟩

end BlockChain

end Libcoin
