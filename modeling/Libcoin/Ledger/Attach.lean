/-
`BlockChain::attach`: the transactions of a block are carried out on the ledger.

* `redeem`, `issue` and `maturate` move one coin. With a validation depth of 0 coins are looked up in
  the table of unspents; otherwise in the trie of spendables.
* `postTransaction` and `postSubsidy` carry out a transaction and the coinbase. Their loops are
  `redeemAll` and `issueAll`; the loop of `attach` over the transactions is `postAll`.
* What these functions only read of a `BlockChain` is a `Setting`; `Blk` is what they read through the
  block iterator.

An error has the constant part of its text.
-/

import Libcoin.Ledger.Database
import Libcoin.Ledger.Names

namespace Libcoin

/-- The members of `BlockChain` that `attach` reads: the depths, the height of the tree, the hashes
of the claims, and the time. -/
structure Setting where
  chain : Chain
  prim : Primitives
  validationDepth : Int
  purgeDepth : Int
  verificationDepth : Int
  treeHeight : Int
  adjustedTime : Int
  claimed : Uint256 → Bool

/-- A block iterator: the hash and the time it points at, its height, and the hash before it. -/
structure Blk where
  hash : Uint256
  time : Int
  height : Int
  prevHash : Uint256
  deriving DecidableEq, Repr

/-- `blk.count()`. -/
def Blk.count (blk : Blk) : Int := (blk.height.natAbs : Int) + 1

/-- `LOCKTIME_THRESHOLD`. -/
def locktimeThreshold : Int := 500000000

/-- `NAMECOIN_TX_VERSION`. -/
def namecoinTxVersion : Int := 0x7100

/-- `BLOCK_VERSION_AUXPOW`, bit 8. -/
def hasAuxPow (version : Int) : Bool := decide (version / 256 % 2 = 1)

namespace Database

/-- `DELETE FROM Unspents WHERE coin = ?`. -/
def deleteUnspent (coin : Int) (db : Database) : Database :=
  { db with unspents := db.unspents.delete coin }

end Database

/-! ### Coins -/

/-- The coin of an input, from the table of unspents. -/
def lookupUnspent (env : Setting) (input : Input) (iconf : Confirmation) : LedgerM Unspent := do
  let s ← get
  match s.db.findUnspent input.prevout with
  | none => throw (.reject "Spent coin not found !")
  | some (id, row) =>
    throwIf (!(row.unspent id).isValid) (.reject "Spent coin not found !")
    throwIf (decide (row.count < 0 ∧ iconf.count + row.count < env.chain.maturity (-row.count)))
      (.error "Tried to spend immature coinbase")
    pure (row.unspent id)

/-- The coin of an input, from the trie of spendables, which loses it. -/
def takeSpendable (input : Input) : LedgerM Unspent := do
  let s ← get
  match s.spendables[input.prevout]? with
  | none => throw (.error "Spent coin: not found or immature coinbase")
  | some coin =>
    modify fun s => { s with spendables := s.spendables.erase input.prevout }
    pure coin

/-- The coin of an input, where the validation depth says to look for it. -/
def findCoin (env : Setting) (input : Input) (iconf : Confirmation) : LedgerM Unspent :=
  if env.validationDepth = 0 then lookupUnspent env input iconf else takeSpendable input

/-- The row of `Spendings` for a coin. Nothing is stored below the purge depth. -/
def recordSpending (env : Setting) (coin : Unspent) (input : Input) (iidx : Int)
    (iconf : Confirmation) : LedgerM Unit :=
  if env.purgeDepth ≤ iconf.count then do
    let _ ← query (Database.insertSpending coin.coin
      { ocnf := coin.cnf, key := input.prevout, output := coin.output, signature := input.signature,
        sequence := input.sequence, iidx := iidx, icnf := iconf.cnf })
  else pure ()

/-- `BlockChain::redeem`. -/
def redeem (env : Setting) (input : Input) (iidx : Int) (iconf : Confirmation) : LedgerM Unspent := do
  let coin ← findCoin env input iconf
  throwIf (!env.chain.range coin.output.value) (.error "Input values out of range")
  recordSpending env coin input iidx iconf
  execute (Database.deleteUnspent coin.coin)
  pure coin

/-- A coinbase enters the trie of immature coinbases. It is tested to be unique if asked to. -/
def addCoinbase (unspent : Unspent) (unique : Bool) : LedgerM Unit := do
  let s ← get
  throwIf (unique && s.immatureCoinbases.contains unspent.key)
    (.error "Attempting to insert dublicate coinbase")
  throwIf (unique && s.spendables.contains unspent.key)
    (.error "Attempting to insert dublicate coinbase")
  modify fun s => { s with immatureCoinbases := s.immatureCoinbases.insertNew unspent.key unspent }

/-- A coin enters the trie of spendables. -/
def addSpendable (unspent : Unspent) : LedgerM Unit :=
  modify fun s => { s with spendables := s.spendables.insertNew unspent.key unspent }

/-- The trie that an issued coin enters. -/
def addUnspent (unspent : Unspent) (coinbase unique : Bool) : LedgerM Unit :=
  if coinbase then addCoinbase unspent unique else addSpendable unspent

/-- `BlockChain::issue`. -/
def issue (env : Setting) (output : Output) (hash : Uint256) (outIdx : Nat) (conf : Confirmation)
    (unique : Bool) : LedgerM Int := do
  let row : UnspentRow :=
    { key := { hash := hash, index := outIdx }, output := output,
      count := if conf.isCoinbase then -conf.count else conf.count, cnf := conf.cnf }
  if env.validationDepth = 0 then
    if unique then query (Database.insertUnspent row) else query (Database.replaceUnspent row)
  else do
    let coin ← query (Database.insertUnspent row)
    addUnspent (row.unspent coin) conf.isCoinbase unique
    pure coin

/-- The loop of `maturate`: a coinbase becomes spendable. -/
def promote (s : Ledger) (unspent : Unspent) : Ledger :=
  { s with
    spendables := s.spendables.insertNew unspent.key unspent
    immatureCoinbases := s.immatureCoinbases.erase unspent.key }

/-- `BlockChain::maturate`. -/
def maturate (env : Setting) (count : Int) : LedgerM Unit :=
  if env.validationDepth = 0 then pure ()
  else modify fun s =>
    ((s.db.unspents.select fun _ row => decide (row.count = -count)).map
      fun entry => entry.2.unspent entry.1).foldl promote s

/-! ### Headers and names -/

/-- `BlockChain::insertBlockHeader`. -/
def insertBlockHeader (env : Setting) (count : Int) (block : Block) : LedgerM Unit := do
  let _ ← query (Database.insertBlock count
    { block.toBlockHeader with hash := env.prim.headerHash block.toBlockHeader })
  if env.chain.adhereAuxPow && hasAuxPow block.version then do
    let _ ← query (Database.insertAuxProofOfWork
      { count := count, hash := env.prim.auxPowHash block.auxPow, auxPow := block.auxPow })
  else pure ()

/-- `BlockChain::isExpired(count, treeCount)`. -/
def Setting.isExpired (env : Setting) (count treeCount : Int) : Bool :=
  decide (count = 0 ∨ count ≤ treeCount - env.chain.expirationDepth treeCount)

/-- The name `d/postmortem`, which was reserved before it had expired. -/
def postmortem : Data := "d/postmortem".toUTF8.toList

/-- `BlockChain::updateName`. -/
def updateName (env : Setting) (op : NameOperation) (coin count : Int) : LedgerM Unit := do
  let s ← get
  let latestCount := s.db.latestNameCount op.name
  let expired := env.isExpired latestCount count
  let row : NameRow := { coin := coin, count := count, name := op.name, value := op.value }
  if op.reserve then do
    throwIf (decide (count - op.inputCount < minFirstUpdateDepth))
      (.error "Tried to reserve a name less than 12 blocks after name_new: ")
    throwIf (!(expired || (decide (op.name = postmortem) && decide (latestCount = 139937))))
      (.error "Tried to reserve non expired name: ")
    let _ ← query (Database.insertName row)
  else do
    throwIf expired (.error "Tried to update an expired name: ")
    let _ ← query (Database.insertName row)

/-! ### Transactions -/

/-- `if (_chain.adhere_names() && name_op.input(output, count)) name_op.name(getCoinName(coin.coin))`. -/
def nameInput (env : Setting) (op : NameOperation) (coin : Unspent) : LedgerM NameOperation := do
  if env.chain.adhereNames then do
    let (op, named) ← liftExcept (op.input env.prim coin.output coin.count)
    let s ← get
    pure (if named then { op with name := s.db.getCoinName coin.coin } else op)
  else pure op

/-- The loop of `postTransaction` over the inputs: the sum of their values, and their scripts. -/
def redeemAll (env : Setting) (conf : Confirmation) :
    List Input → Nat → Int → NameOperation → List Script → LedgerM (Int × NameOperation × List Script)
  | [], _, valueIn, op, scripts => pure (valueIn, op, scripts)
  | input :: inputs, idx, valueIn, op, scripts => do
    let coin ← redeem env input idx conf
    let op ← nameInput env op coin
    redeemAll env conf inputs (idx + 1) (wrap64 (valueIn + coin.output.value)) op
      (scripts ++ [coin.output.script])

/-- `if (_chain.adhere_names() && name_op.output(out)) updateName(..)`. -/
def nameOutput (env : Setting) (version : Int) (op : NameOperation) (output : Output)
    (coin count : Int) : LedgerM NameOperation := do
  if env.chain.adhereNames then do
    let (op, named) ← liftExcept (op.output env.prim output)
    if named then do
      throwIf (decide (version ≠ namecoinTxVersion))
        (.error "Namecoin scripts only allowed in Namecoin transactions")
      updateName env op coin count
      pure op
    else pure op
  else pure op

/-- The loop of `postTransaction` over the outputs. -/
def issueAll (env : Setting) (version : Int) (hash : Uint256) (conf : Confirmation) :
    List Output → Nat → NameOperation → LedgerM NameOperation
  | [], _, op => pure op
  | output :: outputs, idx, op => do
    let coin ← issue env output hash idx conf true
    let op ← nameOutput env version op output coin conf.count
    issueAll env version hash conf outputs (idx + 1) op

/-- The row of `Confirmations` for a transaction. Nothing is stored below the purge depth. -/
def confirm (env : Setting) (txn : Transaction) (count idx : Int) : LedgerM Int :=
  if env.purgeDepth ≤ count then
    query (Database.insertConfirmation
      { version := txn.version, lockTime := txn.lockTime, count := count, idx := idx })
  else pure locktimeThreshold

/-- `_verifier.verify(scripts, txn, strictPayToScriptHash)`, if asked to. -/
def pushVerification (verify : Bool) (verification : Verification) : LedgerM Unit :=
  if verify then modify fun s => { s with pending := s.pending ++ [verification] } else pure ()

/-- The fees after a transaction that redeems `valueIn`. -/
def addFee (env : Setting) (txn : Transaction) (valueIn fees minFee : Int) : LedgerM Int := do
  let fee := wrap64 (valueIn - txn.getValueOut)
  throwIf (decide (fee < 0)) (.error "fee < 0")
  throwIf (decide (fee < minFee)) (.error "fee < min_fee")
  let fees := wrap64 (fees + fee)
  throwIf (!env.chain.range fees) (.error "fees out of range")
  pure fees

/-- `if (_chain.adhere_names()) name_op.check_fees(..)`. -/
def checkNameFees (env : Setting) (op : NameOperation) (count : Int) : LedgerM Unit :=
  if env.chain.adhereNames then liftExcept (op.checkFees (env.chain.networkFee count)) else pure ()

/-- What `postTransaction` throws in place of an error. -/
def inTransaction : Fault → Fault
  | .error what => .error ("Error in transaction: " ++ what)
  | fault => fault

/-- The body of `postTransaction`. -/
def postTransactionBody (env : Setting) (txn : Transaction) (fees minFee : Int) (blk : Blk) (idx : Int)
    (verify : Bool) : LedgerM Int := do
  let cnf ← confirm env txn blk.count idx
  let conf : Confirmation := { cnf := cnf, count := blk.count }
  let ignoreRules := if env.chain.adhereNames then !env.chain.enforceNameRules blk.count else true
  let (valueIn, op, scripts) ←
    redeemAll env conf txn.inputs 0 0 (NameOperation.new env.prim ignoreRules) []
  pushVerification verify
    { scripts := scripts, txn := txn,
      strictPayToScriptHash := decide (env.chain.timeStamp16 < blk.time) }
  let fees ← addFee env txn valueIn fees minFee
  let op ← issueAll env txn.version (env.prim.txnHash txn) conf txn.outputs 0 op
  checkNameFees env op blk.count
  pure fees

/-- `BlockChain::postTransaction`: the fees after the transaction. -/
def postTransaction (env : Setting) (txn : Transaction) (fees minFee : Int) (blk : Blk) (idx : Int)
    (verify : Bool) : LedgerM Int :=
  (postTransactionBody env txn fees minFee blk idx verify).adaptExcept inTransaction

/-! ### The coinbase -/

/-- The row of `Confirmations` for the coinbase. -/
def confirmCoinbase (env : Setting) (txn : Transaction) (count : Int) : LedgerM Int :=
  if env.purgeDepth ≤ count then
    query (Database.insertConfirmationAt (-count)
      { version := txn.version, lockTime := txn.lockTime, count := count, idx := 0 })
  else pure (-count)

/-- The row of `Spendings` for the input of the coinbase. -/
def recordCoinbase (env : Setting) (count valueIn : Int) (input : Input) : LedgerM Unit :=
  if env.purgeDepth ≤ count then do
    let _ ← query (Database.insertSpending (-count)
      { ocnf := 0, key := Coin.null, output := { value := valueIn, script := [] },
        signature := input.signature, sequence := input.sequence, iidx := 0, icnf := -count })
  else pure ()

/-- The loop of `postSubsidy` over the outputs. -/
def issueCoinbase (env : Setting) (hash : Uint256) (conf : Confirmation) (unique : Bool) :
    List Output → Nat → LedgerM Unit
  | [], _ => pure ()
  | output :: outputs, idx => do
    let _ ← issue env output hash idx conf unique
    issueCoinbase env hash conf unique outputs (idx + 1)

/-- The condition and the call of `maturate`. -/
def maturateNext (env : Setting) (blk : Blk) : LedgerM Unit :=
  if env.validationDepth > 0 ∧ env.chain.maturity blk.height < blk.count then
    maturate env (blk.count - env.chain.maturity blk.height + 1)
  else pure ()

/-- `BlockChain::postSubsidy`. -/
def postSubsidy (env : Setting) (txn : Transaction) (blk : Blk) (fees : Int) : LedgerM Unit := do
  throwIf (!txn.isCoinBase) (.error "postSubsidy only valid for coinbase transactions.")
  let cnf ← confirmCoinbase env txn blk.count
  let conf : Confirmation := { cnf := cnf, count := blk.count }
  let prev := if blk.count = 1 then 0 else blk.prevHash
  let valueIn := wrap64 (env.chain.subsidy blk.height prev + fees)
  throwIf (decide (valueIn < txn.getValueOut)) (.error "value in < value out")
  match txn.inputs with
  | [] => throw .undefined
  | input :: _ => recordCoinbase env blk.count valueIn input
  issueCoinbase env (env.prim.txnHash txn) conf (decide (env.chain.timeStamp30 < blk.time)) txn.outputs 0
  maturateNext env blk

/-! ### Blocks -/

/-- `BlockChain::isFinal`, where a height or a time of 0 stands for the present one. -/
def Setting.isFinal (env : Setting) (txn : Transaction) (height time : Int) : Bool :=
  let height := if height = 0 then env.treeHeight else height
  let time := if time = 0 then env.adjustedTime else time
  decide (txn.lockTime = 0) ||
    decide (txn.lockTime < if txn.lockTime < locktimeThreshold then height else time) ||
    txn.inputs.all Input.isFinal

/-- `Txns` and `Hashes`. -/
abbrev Txns := Map Uint256 Transaction

abbrev Hashes := Map Uint256 Unit

/-- The loop of `attach` over the transactions after the coinbase. -/
def postAll (env : Setting) (blk : Blk) :
    List Transaction → Int → Int → Bool → Txns → Hashes → LedgerM (Int × Txns × Hashes)
  | [], _, fees, _, unconfirmed, confirmed => pure (fees, unconfirmed, confirmed)
  | txn :: txns, idx, fees, verify, unconfirmed, confirmed => do
    let hash := env.prim.txnHash txn
    let verify := if unconfirmed.contains hash || env.claimed hash then false else verify
    let fees ← postTransaction env txn fees 0 blk idx verify
    postAll env blk txns (idx + 1) fees verify (unconfirmed.erase hash) (confirmed.insert hash ())

/-- `_verifier.yield_success()`. -/
def Setting.yieldSuccess (env : Setting) (pending : List Verification) : Bool :=
  pending.all fun v => env.prim.verify v.txn v.scripts v.strictPayToScriptHash

/-- `BlockChain::attach` for the block that `_branches` has: the transactions that stay unconfirmed, and
those that are confirmed. -/
def attach (env : Setting) (blk : Blk) (block : Block) (unconfirmed : Txns) (confirmed : Hashes) :
    LedgerM (Txns × Hashes) := do
  throwIf (!env.chain.checkPoints blk.height blk.hash) (.error "Rejected by checkpoint lockin at ")
  throwIf (!block.transactions.all fun txn => env.isFinal txn blk.height blk.time)
    (.error "Contains a non-final transaction")
  modify fun s => { s with pending := [] }
  insertBlockHeader env blk.count block
  let verify := decide (env.verificationDepth ≠ 0 ∧ env.verificationDepth < blk.height)
  let (fees, unconfirmed, confirmed) ←
    postAll env blk block.transactions.tail 1 0 verify unconfirmed confirmed
  match block.transactions with
  | [] => throw .undefined
  | coinbase :: _ => postSubsidy env coinbase blk fees
  let s ← get
  throwIf (!env.yieldSuccess s.pending) (.error "Verify Signature failed with: ")
  pure (unconfirmed, confirmed)

/-- A block that is offered, with what `attach` reads besides the chain and the ledger. -/
structure Offer where
  blk : Blk
  block : Block
  unconfirmed : Txns
  confirmed : Hashes
  purgeDepth : Int
  verificationDepth : Int
  treeHeight : Int
  adjustedTime : Int
  claimed : Uint256 → Bool

namespace Offer

def setting (chain : Chain) (prim : Primitives) (validationDepth : Int) (offer : Offer) : Setting :=
  { chain := chain, prim := prim, validationDepth := validationDepth, purgeDepth := offer.purgeDepth,
    verificationDepth := offer.verificationDepth, treeHeight := offer.treeHeight,
    adjustedTime := offer.adjustedTime, claimed := offer.claimed }

def attach (chain : Chain) (prim : Primitives) (validationDepth : Int) (offer : Offer) :
    LedgerM (Txns × Hashes) :=
  Libcoin.attach (offer.setting chain prim validationDepth) offer.blk offer.block offer.unconfirmed
    offer.confirmed

end Offer

/-- Blocks that are attached one after the other. -/
def attachAll (chain : Chain) (prim : Primitives) (validationDepth : Int) : List Offer → LedgerM Unit
  | [] => pure ()
  | offer :: offers => do
    let _ ← offer.attach chain prim validationDepth
    attachAll chain prim validationDepth offers

/-! ### A small chain

It pays 50 for each block. A transaction hashes to its version and a block to its nonce. -/

namespace Small

def prim : Primitives :=
  { txnHash := fun txn => Fin.ofNat _ txn.version.toNat
    headerHash := fun header => Fin.ofNat _ header.nonce.toNat
    auxPowHash := fun _ => 0
    pairHash := fun _ _ => 0
    txnSize := fun _ => 1
    blockSize := fun _ => 1
    sigOpCount := fun _ => 0
    verify := fun _ _ _ => true
    getDropped := fun _ => []
    evalInput := fun _ _ => ⟨false, false, false, [], []⟩
    evalOutput := fun _ _ _ => none
    indeterminate := 0 }

def chain (maturity : Int) : Chain :=
  { subsidy := fun _ _ => 50
    maturity := fun _ => maturity
    maxMoney := 1000
    maxBlockSize := 1000
    timeStamp16 := 0
    timeStamp30 := 0
    checkPoints := fun _ _ => true
    totalBlocksEstimate := 0
    adhereAuxPow := false
    adhereNames := false
    enforceNameRules := fun _ => false
    networkFee := fun _ => 0
    expirationDepth := fun _ => 0
    duplicateTx := id
    checkProofOfWork := fun _ => true
    nextWorkRequired := fun _ _ => 0
    proofOfWorkLimit := 0
    maxInterBlockTime := 0
    acceptQuorum := 0
    acceptMajority := 1
    enforceQuorum := 0
    enforceMajority := 1
    subsidy_nonneg := fun _ _ => by decide
    maxMoney_nonneg := by decide
    maxMoney_le := by decide }

def setting (maturity validationDepth : Int) : Setting :=
  { chain := chain maturity, prim := prim, validationDepth := validationDepth, purgeDepth := 0,
    verificationDepth := 0, treeHeight := 0, adjustedTime := 0, claimed := fun _ => false }

/-- The coinbase with hash `n`. -/
def coinbase (n : Nat) (values : List Int) : Transaction :=
  { version := n
    inputs := [{ prevout := Coin.null, signature := [0, 0], sequence := 0xffffffff }]
    outputs := values.map fun value => { value := value, script := [] }
    lockTime := 0 }

/-- The transaction with hash `n` that spends `coins`, given by hash and index. -/
def spend (n : Nat) (coins : List (Nat × Nat)) (values : List Int) : Transaction :=
  { version := n
    inputs := coins.map fun coin =>
      { prevout := { hash := Fin.ofNat _ coin.1, index := coin.2 }, signature := []
        sequence := 0xffffffff }
    outputs := values.map fun value => { value := value, script := [] }
    lockTime := 0 }

/-- The block with hash `n` on the block with hash `prev`. -/
def block (n prev : Nat) (transactions : List Transaction) : Block :=
  { version := 1, prevBlock := Fin.ofNat _ prev, merkleRoot := 0, time := 1, bits := 0, nonce := n,
    transactions := transactions, auxPow := [] }

/-- The iterator to the block with hash `n`, on the block with hash `n - 1`. -/
def blk (n : Nat) (height : Int) : Blk :=
  { hash := Fin.ofNat _ n, time := 1, height := height, prevHash := Fin.ofNat _ (n - 1) }

/-- The offer of a block with nothing unconfirmed. -/
def offer (n : Nat) (height : Int) (transactions : List Transaction) : Offer :=
  { blk := blk n height, block := block n (n - 1) transactions, unconfirmed := ∅, confirmed := ∅
    purgeDepth := 0, verificationDepth := 0, treeHeight := 0, adjustedTime := 0
    claimed := fun _ => false }

end Small

end Libcoin
