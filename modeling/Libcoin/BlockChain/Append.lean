/-
`BlockChain::append`.

* `accept` is what comes before the tree is changed, `reorganize` what is between `try` and `catch`, and
  `commit` both with the `catch`. `notify` and `settle` are the ends of `append`: the calls of the
  listeners, and what becomes of the claims.
* The database transaction is the database that `rollback` goes back to.
* Statistics, logs, and whether the trie of spendables is hashed, are left out.

No share ever enters the tree of shares, so `checkShare` never holds and the end that `append` has for
blocks that are only shares is not reached.
-/

import Libcoin.BlockChain.State
import Libcoin.Script.CoinbaseHeight

namespace Libcoin

namespace Database

/-- The two statements of `append` that purge. -/
def purge (depth : Int) (db : Database) : Database :=
  { db with
    spendings := db.spendings.filter fun _ row =>
      !(db.confirmations.rows[row.icnf]?).any fun confirmation => decide (confirmation.count ≤ depth)
    confirmations := db.confirmations.deleteWhere fun _ row => decide (row.count ≤ depth) }

end Database

namespace BlockTree

/-! ### What is read from the tree -/

/-- `_medianTimeSpan`. -/
def medianTimeSpan : Nat := 11

/-- The loop of `getMedianTimePast`. The samples are unsigned. -/
def sampleTimes (t : BlockTree Uint256) : Nat → Option (BlockRef Uint256) → Except Fault (List Int)
  | 0, _ => .ok []
  | _, none => .ok []
  | turns + 1, some blk => do
    let below ← t.advance blk (-1)
    let times ← sampleTimes t turns below
    return blk.time % 2 ^ 32 :: times

/-- `getMedianTimePast`. -/
def getMedianTimePast (blk : BlockRef Uint256) (t : BlockTree Uint256) : Except Fault Int := do
  let samples ← t.sampleTimes medianTimeSpan (some blk)
  return ((samples.insertionSort (· ≤ ·))[samples.length / 2]?).getD 0

/-- The bins below the highest one, cumulated until they are a majority. -/
def cumulate (majority : Nat) : List (Int × Nat) → Nat → Option Int
  | [], _ => none
  | (version, n) :: bins, count =>
    if majority < count + n then some version else cumulate majority bins (count + n)

/-- What the loops over versions look for once they have met more blocks than the quorum. -/
def commonVersion (majority : Nat) (bins : Map Int Nat) : Option Int :=
  match bins.toList.reverse with
  | [] => none
  | (_, n) :: bins => cumulate majority bins n

/-- The loop of `getMinAcceptedBlockVersion` and of `getMinEnforcedBlockVersion`. -/
def binVersions (t : BlockTree Uint256) (quorum majority : Nat) :
    Nat → Option (BlockRef Uint256) → Map Int Nat → Nat → Except Fault Int
  | 0, _, _, _ => .error .undefined
  | _, none, _, _ => .ok 1
  | turns + 1, some blk, bins, blocks =>
    let n := bins.getD blk.version 0 + 1
    let bins := bins.insert blk.version n
    if majority < n then .ok blk.version
    else
      match if quorum < blocks + 1 then commonVersion majority bins else none with
      | some version => .ok version
      | none => do
        let below ← t.advance blk (-1)
        binVersions t quorum majority turns below bins (blocks + 1)

/-- The two functions with the quorum and the majority that each asks for. The loop ends when it has met
more blocks than the quorum. -/
def minVersion (quorum majority : Nat) (t : BlockTree Uint256) : Except Fault Int :=
  if quorum < majority then .ok 1
  else do
    let best ← t.best
    t.binVersions quorum majority (quorum + 2) (some best) ∅ 0

/-- The iterator to a hash. One that is not known is dereferenced. -/
def blkOf (hash : Uint256) (t : BlockTree Uint256) : Except Fault Blk := do
  match ← t.find hash with
  | none => .error .undefined
  | some ref =>
    let height ← t.heightOf ref.hash
    return { hash := ref.hash, time := ref.time, height := height
             prevHash := (t.back ref).toOption.elim 0 BlockRef.hash }

/-- `_tree.find(hash)` and `height` of what it has found. -/
def heightAt (hash : Uint256) (t : BlockTree Uint256) : Except Fault Int := do
  match ← t.find hash with
  | none => .error .undefined
  | some ref => t.heightOf ref.hash

/-- The loop of `updateBestLocator` over the heights after the first one, with the number of heights so
far. -/
def locatorHeights : Nat → Nat → Int → Int → List Int
  | 0, _, _, _ => []
  | turns + 1, size, step, last =>
    if last - step ≤ 0 then []
    else
      (last - step) ::
        locatorHeights turns (size + 1) (if 10 < size + 1 then step * 2 else step) (last - step)

/-- `iterator(height)->hash`. -/
def hashAt (t : BlockTree Uint256) (height : Int) : Except Fault Uint256 :=
  match t.trunk.head? with
  | none => .error .undefined
  | some genesis => do
    match ← t.advance genesis height with
    | none => .error .undefined
    | some ref => return ref.hash

/-- The hashes of `updateBestLocator`, without the genesis block. -/
def locatorHashes (t : BlockTree Uint256) : Except Fault (List Uint256) :=
  (t.height :: locatorHeights t.trunk.length 1 1 t.height).mapM t.hashAt

end BlockTree

namespace BlockChain

variable (cfg : Config) (clock : Clock)

/-- `getMinAcceptedBlockVersion`. -/
def getMinAcceptedBlockVersion (t : BlockTree Uint256) : Except Fault Int :=
  t.minVersion cfg.chain.acceptQuorum cfg.chain.acceptMajority

/-- `getMinEnforcedBlockVersion`. -/
def getMinEnforcedBlockVersion (t : BlockTree Uint256) : Except Fault Int :=
  t.minVersion cfg.chain.enforceQuorum cfg.chain.enforceMajority

/-- `checkShare`. It looks for the share before this one, in a tree that is empty. -/
def checkShare (_share : Block) : Bool := false

/-- `updateBestLocator`. -/
def updateBestLocator : ChainM Unit := do
  let hashes ← readTree BlockTree.locatorHashes
  modify fun s => { s with bestLocator := hashes ++ [cfg.genesisHash] }

/-! ### Before the tree is changed -/

/-- The reference to a block, on the block before it. -/
def refOf (block : Block) (prev : Uint256) : BlockRef Uint256 :=
  { version := block.version, hash := cfg.prim.headerHash block.toBlockHeader, prev := prev
    time := block.time.bmod (2 ^ 32), bits := block.bits }

/-- A block on an invalid block is invalid. -/
def recordInvalid (block : Block) : ChainM Unit := do
  let s ← get
  let prev ← ask (s.invalidTree.find block.prevBlock)
  if prev.isSome then do
    let (invalidTree, _) ← ask (s.invalidTree.insert (refOf cfg block block.prevBlock))
    modify fun s => { s with invalidTree := invalidTree }
  else pure ()

/-- The target of a block is that of the chain or, after a long time, the limit. -/
def checkTarget (block : Block) (prev : BlockRef Uint256) : ChainM Unit := do
  let s ← get
  if block.bits ≠ cfg.chain.nextWorkRequired s.tree prev then do
    failIf (decide (block.time.bmod (2 ^ 32) - prev.time < cfg.chain.maxInterBlockTime)) (.error "Incorrect proof of work: ")
    failIf (decide (block.bits ≠ cfg.chain.proofOfWorkLimit)) (.error "Incorrect proof of work (limit): ")
  else pure ()

/-- What `append` asks of a block before the tree is changed: the block before it, and its height. -/
def accept (block : Block) : ChainM (BlockRef Uint256 × Int) := do
  let hash := cfg.prim.headerHash block.toBlockHeader
  failIf (!cfg.chain.checkProofOfWork block && !checkShare block)
    (.error "Block hash does not meet target and Block is not a Share either")
  let known ← readTree (·.find hash)
  failIf known.isSome (.error "Block already accepted")
  let s ← get
  let invalid ← ask (s.invalidTree.find hash)
  failIf invalid.isSome (.error "Block already accepted as invalid")
  recordInvalid cfg block
  let prev ← readTree (·.find block.prevBlock)
  let version ← readTree (getMinAcceptedBlockVersion cfg)
  failIf (decide (block.version < version)) (.error "Rejected version = ")
  match prev with
  | none => throw (.error "Cannot accept orphan block: ")
  | some prev =>
    checkTarget cfg block prev
    let median ← readTree (BlockTree.getMedianTimePast prev)
    failIf (decide (block.time ≤ median)) (.error "Block's timestamp is too early")
    let height ← readTree (·.heightOf prev.hash)
    pure (prev, height.natAbs)

/-- `_tree.insert`. -/
def growTree (ref : BlockRef Uint256) : ChainM (BlockTree.Changes Uint256) := do
  let s ← get
  let (tree, changes) ← ask (s.tree.insert ref)
  modify fun s => { s with tree := tree }
  pure changes

/-! ### Inside of the database transaction -/

/-- `detach(blk, unconfirmed)` for the block with a hash. -/
def detachBlock (hash : Uint256) (unconfirmed : Txns) : ChainM Txns := do
  let blk ← readTree (BlockTree.blkOf hash)
  let s ← get
  let (block, unconfirmed) ← onLedger (detach (s.setting cfg clock) blk unconfirmed)
  modify fun s => { s with branches := s.branches.insert blk.hash block }
  pure unconfirmed

/-- The loop over the deleted blocks. -/
def detachBlocks : List Uint256 → Txns → ChainM Txns
  | [], unconfirmed => pure unconfirmed
  | hash :: hashes, unconfirmed => do
    let unconfirmed ← detachBlock cfg clock hash unconfirmed
    detachBlocks hashes unconfirmed

/-- `attach(blk, unconfirmed, confirmed)` for the block with a hash. -/
def attachBlock (hash : Uint256) (unconfirmed : Txns) (confirmed : Hashes) :
    ChainM (Blk × Txns × Hashes) := do
  let blk ← readTree (BlockTree.blkOf hash)
  let block ← branchBlock blk.hash
  let s ← get
  let (unconfirmed, confirmed) ← onLedger (attach (s.setting cfg clock) blk block unconfirmed confirmed)
  pure (blk, unconfirmed, confirmed)

/-- The loop over the inserted blocks, in the order they are attached. The first result is the block that
the iterator is left at. -/
def attachBlocks : List Uint256 → Option Blk → Txns → Hashes → ChainM (Option Blk × Txns × Hashes)
  | [], blk, unconfirmed, confirmed => pure (blk, unconfirmed, confirmed)
  | hash :: hashes, _, unconfirmed, confirmed => do
    let (blk, unconfirmed, confirmed) ← attachBlock cfg clock hash unconfirmed confirmed
    attachBlocks hashes (some blk) unconfirmed confirmed

/-- Spendings and confirmations of old blocks are deleted. -/
def purgeBlocks (prevHeight count : Int) (s : BlockChain) : BlockChain :=
  if s.purgeDepth ≠ 0 ∧ cfg.lazyPurging = false ∧ s.purgeDepth ≤ count then
    { s with
      ledger := { s.ledger with db := s.ledger.db.purge s.purgeDepth }
      purgeDepth :=
        if s.purgeDepth = prevHeight - cfg.chain.maturity prevHeight then s.purgeDepth + 1
        else s.purgeDepth }
  else s

/-- The check of the height in the coinbase, from version 2 on. -/
def enforceVersion (block : Block) (prevHeight : Int) : ChainM Unit := do
  let version ← readTree (getMinEnforcedBlockVersion cfg)
  if 2 ≤ version ∧ 2 ≤ block.version then
    let height ← ask block.getHeight
    failIf (decide (height ≠ prevHeight + 1))
      (.error "Version 2(or more) block with wrong or missing height in coinbase rejected!")
  else pure ()

/-- What is between `try` and `catch`: the transactions that are left unconfirmed, and those that are
confirmed. -/
def reorganize (block : Block) (prevHeight : Int) (changes : BlockTree.Changes Uint256) :
    ChainM (Txns × Hashes) := do
  let unconfirmed ← detachBlocks cfg clock changes.deleted ∅
  let (blk, unconfirmed, confirmed) ←
    attachBlocks cfg clock changes.inserted.reverse none unconfirmed ∅
  modify fun s => purgeBlocks cfg prevHeight (blk.elim 0 Blk.count) s
  enforceVersion cfg block prevHeight
  modify fun s => { s with branches := Map.eraseAll changes.inserted s.branches }
  updateBestLocator cfg
  pure (unconfirmed, confirmed)

/-- What is done in `catch`, for the ledger at the begin of the database transaction. -/
def rollback {A : Type} (before : Ledger) (what : String) : ChainM A := do
  modify fun s => { s with ledger := { s.ledger with db := before.db } }
  let s ← get
  let tree ← ask s.tree.popBack
  modify fun s =>
    { s with tree := tree, ledger := { s.ledger with spendables := before.spendables } }
  throw (.error ("append(Block): " ++ what))

/-- `try` with its `catch`. -/
def commit (block : Block) (prevHeight : Int) (changes : BlockTree.Changes Uint256) :
    ChainM (Txns × Hashes) := fun s =>
  match reorganize cfg clock block prevHeight changes s with
  | .ok result s' => .ok result s'
  | .error (.error what) s' => rollback s.ledger what s'
  | .error (.reject what) s' => rollback s.ledger what s'
  | .error .undefined s' => .error .undefined s'

/-! ### After the commit -/

/-- The loop over the inserted hashes that calls the listeners. It looks up the block that `append` was
called with. -/
def notify (hash : Uint256) : List Uint256 → ChainM Unit
  | [] => pure ()
  | _ :: hashes => do
    let height ← readTree (BlockTree.heightAt hash)
    let block ← branchBlock hash
    modify fun s => block.transactions.foldl (fun s txn => s.callListeners cfg txn height) s
    notify hash hashes

/-- The block chain after a claim. One that throws changes nothing. -/
def afterClaim (verify : Bool) (s : BlockChain) (txn : Transaction) : BlockChain :=
  match tryClaim cfg clock s txn verify with
  | .ok (spents, fee) => claimed cfg clock s txn spents fee
  | .error _ => s

/-- The loop that claims what is left unconfirmed. -/
def reclaim (s : BlockChain) (txns : List Transaction) : BlockChain :=
  txns.foldl (afterClaim cfg clock false) s

/-- The claims without those that are confirmed and those that are older than a day. -/
def cleared (confirmed : Hashes) (s : BlockChain) : BlockChain :=
  { s with
    claims := ((confirmed.toList.map Prod.fst).foldl Claims.erase s.claims).purge
      (clock.now - 24 * 60 * 60) }

/-- What becomes of the claims. -/
def settle (unconfirmed : Txns) (confirmed : Hashes) (s : BlockChain) : BlockChain :=
  reclaim cfg clock (cleared clock confirmed s) (unconfirmed.toList.map Prod.snd)

/-- The end of `append` for a block that the trunk takes. -/
def extend (block : Block) (prevHeight : Int) (changes : BlockTree.Changes Uint256) : ChainM Unit := do
  let (unconfirmed, confirmed) ← commit cfg clock block prevHeight changes
  notify cfg (cfg.prim.headerHash block.toBlockHeader) changes.inserted
  modify fun s => settle cfg clock unconfirmed confirmed s

/-- `append`. -/
def append (block : Block) : ChainM Unit := do
  let (prev, prevHeight) ← accept cfg block
  let changes ← growTree (refOf cfg block prev.hash)
  failIf (decide (prevHeight < cfg.chain.totalBlocksEstimate) && changes.inserted.isEmpty)
    (.error "Branching disallowed before last checkpoint at: ")
  modify fun s =>
    { s with branches := s.branches.insert (cfg.prim.headerHash block.toBlockHeader) block }
  if changes.inserted.isEmpty then pure ()
  else extend cfg clock block prevHeight changes

/-! ### A new chain -/

/-- The constructor on empty tables, where the genesis block is attached. What it leaves to the settings
of the depths is as it is after them. -/
def create (genesis : Block) (unspentIndex : Bool) (purgeDepth : Int) : Except Fault BlockChain := do
  let hash := cfg.prim.headerHash genesis.toBlockHeader
  let tree ← BlockTree.empty.assign [refOf cfg genesis genesis.prevBlock]
  let start : BlockChain :=
    { tree := tree, invalidTree := tree, branches := (∅ : Map Uint256 Block).insert hash genesis
      ledger := Ledger.empty unspentIndex, claims := Claims.empty, purgeDepth := 0, bestLocator := []
      calls := [] }
  match attachBlock cfg clock hash ∅ ∅ start with
  | .error fault _ => .error fault
  | .ok _ s =>
    match updateBestLocator cfg { s with branches := ∅ } with
    | .error fault _ => .error fault
    | .ok _ s => .ok { s with purgeDepth := purgeDepth }

end BlockChain

/-! ### The small chain -/

namespace Small

/-- The small chain with a validation depth, and one listener. -/
def config (maturity validationDepth : Int) : Config :=
  { chain := { chain maturity with nextWorkRequired := fun _ _ => 0x1d00ffff }
    prim := prim, verifyInput := fun _ _ _ _ => true, genesisHash := 1, validationDepth := validationDepth
    verificationDepth := 0, lazyPurging := false, listeners := [0] }

def clock : Clock := { now := 100, adjusted := 100 }

/-- The block with hash `n` and time `n` on the block with hash `prev`. -/
def mined (n prev : Nat) (transactions : List Transaction) : Block :=
  { block n prev transactions with time := n, bits := 0x1d00ffff }

/-- The chain of the genesis block with hash 1. -/
def created (maturity validationDepth : Int) : Except Fault BlockChain :=
  BlockChain.create (config maturity validationDepth) clock (mined 1 0 [coinbase 1 [50]])
    (decide (validationDepth = 0)) 0

end Small

end Libcoin
