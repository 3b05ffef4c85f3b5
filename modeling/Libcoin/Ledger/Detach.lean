/-
`BlockChain::detach`: a block is read back from the tables, and its rows are rolled back.

* `Database.getBlock` is `getBlock(count, block)`, with `Chain.checkBlock` as its last test.
* `rollbackConfirmation` undoes one transaction: what it redeemed goes from `Spendings` back to
  `Unspents`, and what it issued is deleted. `rollbackBlock` does so for the transactions of a block,
  the last one first.
-/

import Libcoin.Ledger.Attach
import Mathlib.Data.List.Sort

namespace Libcoin

/-! ### Blocks -/

/-- One level of the merkle tree above another. The last hash is paired with itself if it is alone. -/
def merkleLevel (prim : Primitives) : List Uint256 → List Uint256
  | [] => []
  | [hash] => [prim.pairHash hash hash]
  | left :: right :: hashes => prim.pairHash left right :: merkleLevel prim hashes

/-- The loop of `buildMerkleTree`. Each turn halves the level. -/
def merkleRoot (prim : Primitives) : Nat → List Uint256 → Uint256
  | _, [] => 0
  | _, [hash] => hash
  | 0, hash :: _ => hash
  | fuel + 1, hashes => merkleRoot prim fuel (merkleLevel prim hashes)

/-- `Block::buildMerkleTree`. -/
def Block.buildMerkleTree (prim : Primitives) (block : Block) : Uint256 :=
  merkleRoot prim block.transactions.length (block.transactions.map prim.txnHash)

/-- `MAX_BLOCK_SIGOPS`. -/
def maxBlockSigops : Int := 20000

namespace Chain

/-- The checks of `check(Block)`. -/
def checkBlockBody (chain : Chain) (prim : Primitives) (adjustedTime : Int) (block : Block) :
    Except String Unit := do
  if block.transactions.isEmpty || decide (chain.maxBlockSize < block.transactions.length) ||
      decide (chain.maxBlockSize < prim.blockSize block) then
    throw "CheckBlock() : size limits failed"
  if adjustedTime + 2 * 60 * 60 < block.time then
    throw "CheckBlock() : block timestamp too far in the future"
  if !block.transactions.head?.any Transaction.isCoinBase then
    throw "CheckBlock() : first tx is not coinbase"
  if block.transactions.tail.any Transaction.isCoinBase then
    throw "CheckBlock() : more than one coinbase"
  block.transactions.forM fun txn => chain.checkTransaction prim txn
  if maxBlockSigops < prim.sigOpCount block then
    throw "CheckBlock() : too many nonstandard transactions"
  if block.merkleRoot ≠ block.buildMerkleTree prim then
    throw "CheckBlock() : hashMerkleRoot mismatch"

/-- `Chain::check(Block)`. -/
def checkBlock (chain : Chain) (prim : Primitives) (adjustedTime : Int) (block : Block) :
    Except String Unit :=
  (chain.checkBlockBody prim adjustedTime block).mapError ("check(Block): " ++ ·)

end Chain

namespace Database

/-- `SELECT cnf, ... FROM Confirmations WHERE count = ? ORDER BY idx`. -/
def confirmationsOf (db : Database) (count : Int) : List (Int × ConfirmationRow) :=
  (db.confirmations.select fun _ row => decide (row.count = count)).insertionSort
    fun first second => first.2.idx ≤ second.2.idx

/-- `SELECT ... FROM Spendings WHERE icnf = ?`, by increasing coin. -/
def spendingsOf (db : Database) (cnf : Int) : List (Int × Spending) :=
  db.spendings.toList.filter fun entry => decide (entry.2.icnf = cnf)

/-- `SELECT hash, idx, signature, sequence FROM Spendings WHERE icnf = ? ORDER BY iidx`. -/
def inputsOf (db : Database) (cnf : Int) : List Input :=
  ((db.spendingsOf cnf).insertionSort fun first second => first.2.iidx ≤ second.2.iidx).map
    fun entry =>
      { prevout := entry.2.key, signature := entry.2.signature, sequence := entry.2.sequence }

/-- The outputs of a confirmation: the `UNION` of those in `Unspents` and in `Spendings`, by index. -/
def outputsOf (db : Database) (cnf : Int) : List Output :=
  let unspents := (db.unspents.select fun _ row => decide (row.cnf = cnf)).map
    fun entry => (entry.2.key.index, entry.2.output)
  let spendings := (db.spendings.toList.filter fun entry => decide (entry.2.ocnf = cnf)).map
    fun entry => (entry.2.key.index, entry.2.output)
  ((unspents ++ spendings).dedup.insertionSort fun first second => first.1 ≤ second.1).map Prod.snd

/-- `BlockChain::getBlockHeader`. -/
def getBlockHeader (db : Database) (count : Int) : BlockHeader :=
  (db.blocks[count]?).elim Block.null.toBlockHeader BlockRow.toBlockHeader

/-- The block of a count as the tables have it, before it is checked. -/
def readBlock (db : Database) (env : Setting) (count : Int) : Block :=
  let transactions := (db.confirmationsOf count).map fun entry =>
    { version := entry.2.version, inputs := db.inputsOf entry.1,
      outputs := db.outputsOf (env.chain.duplicateTx entry.1), lockTime := entry.2.lockTime }
  let block : Block := { db.getBlockHeader count with transactions := transactions, auxPow := [] }
  { block with merkleRoot := block.buildMerkleTree env.prim }

/-- `BlockChain::getBlock(count, block)`. A block that does not pass the check is the null block. -/
def getBlock (db : Database) (env : Setting) (count : Int) : Block :=
  if count < db.getDeepestDepth then Block.null
  else
    let block := db.readBlock env count
    let block :=
      match env.chain.checkBlock env.prim env.adjustedTime block with
      | .ok _ => block
      | .error _ => Block.null
    if env.chain.adhereAuxPow && hasAuxPow block.version then
      { block with
        auxPow := (db.auxProofOfWorks.first fun _ row => decide (row.count = count)).elim []
          fun entry => entry.2.auxPow }
    else block

/-! ### Statements of the rollback -/

/-- `SELECT count FROM Confirmations WHERE cnf = ?`. -/
def countOf (db : Database) (cnf : Int) : Int := (db.confirmations.rows[cnf]?).elim 0 ConfirmationRow.count

/-- `SELECT count FROM Confirmations WHERE cnf = (SELECT ocnf FROM Spendings WHERE icnf=?)`. -/
def originCount (db : Database) (cnf : Int) : Int :=
  (db.spendingsOf cnf).head?.elim 0 fun entry => db.countOf entry.2.ocnf

/-- The row of `Unspents` for a row of `Spendings`. -/
def restoredRow (count : Int) (row : Spending) : UnspentRow :=
  { key := row.key, output := row.output, count := count, cnf := row.ocnf }

/-- The rows that `INSERT INTO Unspents (...) SELECT ... FROM Spendings WHERE icnf = ?` inserts: all that
are selected or, where a row is in the way, none. -/
def restoredRows (count cnf : Int) (db : Database) : List (Int × UnspentRow) :=
  let rows := (db.spendingsOf cnf).map fun entry => (entry.1, restoredRow count entry.2)
  let conflict := rows.any fun entry =>
    db.unspents.rows.contains entry.1 || db.unspentIndex && (db.findUnspent entry.2.key).isSome
  if conflict || db.unspentIndex && !decide (rows.map fun entry => entry.2.key).Nodup then [] else rows

/-- `INSERT INTO Unspents (...) SELECT ... FROM Spendings WHERE icnf = ?`. -/
def restoreUnspents (count cnf : Int) (db : Database) : Database :=
  { db with
    unspents :=
      { rows := Map.insertAll (db.restoredRows count cnf) db.unspents.rows
        seq := ((db.restoredRows count cnf).map Prod.fst).foldl max db.unspents.seq } }

/-- `DELETE FROM Spendings WHERE coin=?`. -/
def deleteSpending (coin : Int) (db : Database) : Database :=
  { db with spendings := db.spendings.erase coin }

/-- `DELETE FROM Spendings WHERE icnf = ?`. -/
def deleteSpendings (cnf : Int) (db : Database) : Database :=
  { db with spendings := db.spendings.filter fun _ row => !decide (row.icnf = cnf) }

/-- `DELETE FROM Names WHERE coin IN (SELECT coin FROM Unspents WHERE ocnf = ?)`. -/
def deleteNames (cnf : Int) (db : Database) : Database :=
  { db with
    names := db.names.deleteWhere fun _ row =>
      (db.unspents.rows[row.coin]?).any fun unspent => decide (unspent.cnf = cnf) }

/-- `DELETE FROM Unspents WHERE ocnf = ?`. -/
def deleteUnspents (cnf : Int) (db : Database) : Database :=
  { db with unspents := db.unspents.deleteWhere fun _ row => decide (row.cnf = cnf) }

/-- `DELETE FROM Confirmations WHERE cnf = ?`. -/
def deleteConfirmation (cnf : Int) (db : Database) : Database :=
  { db with confirmations := db.confirmations.delete cnf }

/-- `DELETE FROM Blocks WHERE count = ?` and `DELETE FROM AuxProofOfWorks WHERE count = ?`. -/
def deleteBlock (count : Int) (db : Database) : Database :=
  { db with
    blocks := db.blocks.erase count
    auxProofOfWorks := db.auxProofOfWorks.deleteWhere fun _ row => decide (row.count = count) }

/-- What `rollbackConfirmation` does to the tables. -/
def rollbackConfirmation (names : Bool) (cnf : Int) (db : Database) : Database :=
  let db :=
    if cnf < 0 then db.deleteSpending (-db.countOf cnf)
    else (db.restoreUnspents (db.originCount cnf) cnf).deleteSpendings cnf
  let db := if names then db.deleteNames cnf else db
  (db.deleteUnspents cnf).deleteConfirmation cnf

end Database

/-! ### Detaching -/

/-- What `rollbackConfirmation` does to the spendables, with the count of the confirmation that is rolled
back: the coins it redeemed are inserted with this count, and those it issued are removed. -/
def restoreSpendables (db : Database) (cnf : Int) (spendables : Map Coin Unspent) : Map Coin Unspent :=
  let restored := (db.spendingsOf cnf).map fun entry =>
    (entry.2.key, (Database.restoredRow (db.countOf cnf) entry.2).unspent entry.1)
  let issued := (db.unspents.select fun _ row => decide (row.cnf = cnf)).map fun entry => entry.2.key
  Map.eraseAll issued (Map.insertNewAll restored spendables)

/-- `BlockChain::rollbackConfirmation`. -/
def rollbackConfirmation (env : Setting) (cnf : Int) (s : Ledger) : Ledger :=
  { s with
    spendables :=
      if env.validationDepth > 0 ∧ cnf > 0 then restoreSpendables s.db cnf s.spendables else s.spendables
    db := s.db.rollbackConfirmation env.chain.adhereNames cnf
    lastRowid :=
      if cnf < 0 then s.lastRowid
      else (s.db.restoredRows (s.db.originCount cnf) cnf).getLast?.elim s.lastRowid Prod.fst }

/-- `BlockChain::rollbackBlock`. -/
def rollbackBlock (env : Setting) (count : Int) (s : Ledger) : Ledger :=
  let s := (((s.db.confirmationsOf count).map Prod.fst).reverse).foldl
    (fun s cnf => rollbackConfirmation env cnf s) s
  { s with db := s.db.deleteBlock count }

/-- `BlockChain::detach`: the block that is stored in `_branches`, and the unconfirmed transactions. The
loop over the transactions starts after the coinbase, which a block that could not be read back does not
have. -/
def detach (env : Setting) (blk : Blk) (unconfirmed : Txns) : LedgerM (Block × Txns) := do
  let s ← get
  let block := s.db.getBlock env blk.count
  modify fun s => rollbackBlock env blk.count s
  match block.transactions with
  | [] => throw .undefined
  | _ :: txns =>
    pure (block, txns.foldl (fun known txn => known.insert (env.prim.txnHash txn) txn) unconfirmed)

end Libcoin
