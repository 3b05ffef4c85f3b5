/-
Blocks that are stored and sent.

* `Served` is a run on the tables: blocks are attached on the top, the top one is detached, old rows are purged,
  and an `append` that fails leaves the tables alone.
* `served_differs`: on a chain that adheres to the auxiliary proof of work no block that has one is received as it
  was attached. `getBlock` gives a block that does not write the proof, and the receiver reads one.
-/

import Libcoin.BlockChain.Flow
import Libcoin.BlockChain.Headers
import Libcoin.Ledger.Confirmations
import Libcoin.Ledger.Wire

namespace Libcoin

open Exec Map

section Served

variable (chain : Chain) (prim : Primitives) (validationDepth : Int)

/-- The blocks that are attached, and the ledger. -/
inductive Served : List Offer → Ledger → Prop
  | start (unspentIndex : Bool) : Served [] (Ledger.empty unspentIndex)
  | attach {offers : List Offer} {offer : Offer} {s s' : Ledger} {result : Txns × Hashes}
      (before : Served offers s) (next : offer.blk.count = offers.length + 1)
      (run : offer.attach chain prim validationDepth s = .ok result s') : Served (offers ++ [offer]) s'
  | detach {offers : List Offer} {offer later : Offer} {s s' : Ledger} {unconfirmed : Txns}
    {result : Block × Txns}
      (before : Served (offers ++ [offer]) s) (top : offer.blk.count = offers.length + 1)
      (run : detach (later.setting chain prim validationDepth) offer.blk unconfirmed s = .ok result s') :
      Served offers s'
  | purge {offers : List Offer} {s : Ledger} (depth : Int) (before : Served offers s) :
      Served offers { s with db := s.db.purge depth }
  | fail {offers : List Offer} {s : Ledger} (other : Ledger) (before : Served offers s) :
      Served offers { other with db := s.db }

end Served

section Runs

variable {chain : Chain} {prim : Primitives} {validationDepth : Int} {offers : List Offer} {s : Ledger}

theorem Served.tallied (served : Served chain prim validationDepth offers s) :
    Tallied (offers.map Offer.block) s.confirmations := by
  induction served with
  | start => exact Tallied.empty
  | attach before next run ih =>
    rw [List.map_append]
    exact ih.attach (by rw [next, List.length_map]) run
  | detach before top run ih =>
    obtain ⟨-, rfl, -⟩ := BlockChain.detach_ok run
    rw [rollbackBlock_confirmations, top]
    rw [List.map_append] at ih
    have rest := ih.dropLast
    rwa [List.length_map] at rest
  | purge depth before ih => exact ih.filter fun count => decide (count ≤ depth)
  | fail other before ih => exact ih

/-- The block at a place is received as it was attached: the same header, proof and transactions. -/
def Survives (s : Ledger) (env : Setting) (count : Int) (original : Block) : Prop :=
  ∃ (into block : WireBlock) (rest : Stream),
    WireBlock.new.adhereAuxPow.read { bytes := (WireBlock.getBlock s.db env count into).write, good := true } =
        some (block, rest) ∧
      block.toBlock = original

/-- **No block with an auxiliary proof of work is received as it was attached.** -/
theorem served_differs (served : Served chain prim validationDepth offers s) {env : Setting}
    (same : env.prim = prim)
    {i : Nat} (lt : i < offers.length) {adjustedTime : Int}
    (passed : chain.checkBlock prim adjustedTime offers[i].block = .ok ())
    (aux : hasAuxPow offers[i].block.version = true)
    (apart : Block.HashesApart prim offers[i].block (s.db.readBlock env (i + 1))) :
    ¬Survives s env (i + 1) offers[i].block := by
  rintro ⟨into, block, rest, run, original⟩
  have aux : hasAuxPow block.version = true := by
    rw [← aux, ← original]
  have header := WireBlock.read_header run aux
  obtain ⟨version, root⟩ := writeHeader_inj header
  have quiet : (WireBlock.getBlock s.db env (i + 1) into).ignoreAuxPow = true := rfl
  have some : block.transactions ≠ [] := by
    have some := Chain.checkBlock_transactions passed
    rwa [← original] at some
  have shorter := WireBlock.read_core quiet run aux some
  rcases s.db.getBlock_cases env (i + 1) with ⟨null, -⟩ | ⟨transactions, merkle⟩
  · have version : block.version % 256 ^ 4 = (s.db.getBlock env (i + 1)).version % 256 ^ 4 := version
    rw [null] at version
    unfold hasAuxPow at aux
    have odd := of_decide_eq_true aux
    omega
  · have own := Chain.checkBlock_merkleRoot passed
    have root : block.merkleRoot = (s.db.getBlock env (i + 1)).merkleRoot := root
    have trees : offers[i].block.buildMerkleTree prim = (s.db.readBlock env (i + 1)).buildMerkleTree prim := by
      rw [← own, ← original, root, merkle, same]
    have tallied := served.tallied
    have long : offers[i].block.transactions.length = (s.db.readBlock env (i + 1)).transactions.length := by
      have read : (s.db.readBlock env (i + 1)).transactions.length = (rowsAt (i + 1) s.confirmations).card :=
        (List.length_map _).trans (confirmationsOf_length s.db (i + 1))
      rcases tallied.all i (by rwa [List.length_map]) with all | none
      · rw [read, all, List.getElem_map]
      · -- nothing would be sent
        have nothing : (s.db.readBlock env (i + 1)).transactions = [] := by
          rw [← List.length_eq_zero_iff, read, none, Multiset.card_zero]
        have sent : (WireBlock.getBlock s.db env (i + 1) into).transactions = [] := transactions.trans nothing
        rw [sent] at shorter
        exact absurd shorter (Nat.not_lt_zero _)
    have equal := Block.buildMerkleTree_injective apart long trees
    have sent : (WireBlock.getBlock s.db env (i + 1) into).transactions = block.transactions := by
      rw [original, equal]
      exact transactions
    rw [sent] at shorter
    exact lt_irrefl _ shorter

end Runs

namespace Small

/-- The small chain that adheres to the auxiliary proof of work. -/
def merging : Chain := { chain 1 with adhereAuxPow := true }

/-- A proof of work in a parent block. -/
def proof : AuxPow :=
  { txn := coinbase 9 [50], blockHash := 7, merkleBranch := [], index := 0, chainMerkleBranch := [],
    chainIndex := 0
    parentBlock := { version := 1, prevBlock := 0, merkleRoot := 9, time := 1, bits := 0, nonce := 7 } }

/-- A first block with a proof. -/
def merged : Offer :=
  { offer 1 0 [] with
    block := { block 1 0 [coinbase 1 [50]] with version := 257, merkleRoot := 1, auxPow := writeAuxPow proof } }

end Small

open Libcoin.Small in
/-- A block with a proof is attached and is read back from the tables as it was, and what is sent of it cannot be
received. -/
theorem served_merged :
    merging.adhereAuxPow = true ∧ hasAuxPow merged.block.version = true ∧
    merging.checkBlock prim 100 merged.block = .ok () ∧
    ∃ s, Served merging prim 0 [merged] s ∧ s.db.getBlock (merged.setting merging prim 0) 1 = merged.block ∧
      ¬Survives s (merged.setting merging prim 0) 1 merged.block := by
  refine ⟨rfl, by decide, by decide +kernel, ?_⟩
  have run : succeeds (merged.attach merging prim 0 (Ledger.empty true)) (fun _ s =>
      decide (s.db.getBlock (merged.setting merging prim 0) 1 = merged.block) &&
      (WireBlock.new.adhereAuxPow.read
        { bytes := (WireBlock.getBlock s.db (merged.setting merging prim 0) 1 WireBlock.new).write
          good := true }).isNone) = true := by
    decide +kernel
  obtain ⟨result, s, attached, fails⟩ := of_succeeds run
  obtain ⟨stored, fails⟩ := (Bool.and_eq_true _ _).mp fails
  refine ⟨s, (Served.start true).attach rfl attached, of_decide_eq_true stored, ?_⟩
  rintro ⟨into, block, rest, received, -⟩
  have received : WireBlock.new.adhereAuxPow.read
      { bytes := (WireBlock.getBlock s.db (merged.setting merging prim 0) 1 WireBlock.new).write
        good := true } = some (block, rest) := received
  rw [received] at fails
  cases fails

open Libcoin.Small in
/-- The same block. -/
theorem served_differs_merged :
    ∃ s, Served merging prim 0 [merged] s ∧ ¬Survives s (merged.setting merging prim 0) 1 merged.block := by
  have run : succeeds (merged.attach merging prim 0 (Ledger.empty true)) (fun _ s =>
      decide (s.db.readBlock (merged.setting merging prim 0) 1 =
        { merged.block with auxPow := [] })) = true := by
    decide +kernel
  obtain ⟨result, s, attached, stored⟩ := of_succeeds run
  have served := (Served.start true).attach rfl attached
  have apart : Block.HashesApart prim merged.block (s.db.readBlock (merged.setting merging prim 0) 1) := by
    rw [of_decide_eq_true stored]
    exact ⟨by decide +kernel, by decide +kernel⟩
  have passed : merging.checkBlock prim 100 merged.block = .ok () := by decide +kernel
  exact ⟨s, served, served_differs served (i := 0) rfl Nat.one_pos passed (by decide) apart⟩

end Libcoin
