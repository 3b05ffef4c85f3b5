/-
`BlockChain`: the tree of blocks, the blocks of branches, the ledger, and the pool of claims.

* `Config` is what stays as it is while blocks and claims come in; `Clock` is the time of a call.
* A member function that changes the block chain is a `ChainM`, which keeps what it has done when it
  throws.
* `tryClaim` and `claim` are the member functions of the same names. The loops of `try_claim` are
  `claimInputs` and `claimOutputs`.

A call of a listener is recorded in `calls` with its arguments.
-/

import Libcoin.Ledger.Detach
import Libcoin.Pool.Claims

namespace Libcoin

/-- The chain, what was chosen when the block chain was opened, and the listeners. `verifyInput` is
`Transaction::verify` on one input and the script it spends. -/
structure Config where
  chain : Chain
  prim : Primitives
  verifyInput : Transaction → Nat → Script → Bool → Bool
  genesisHash : Uint256
  validationDepth : Int
  verificationDepth : Int
  lazyPurging : Bool
  listeners : List Nat

/-- The time of this computer, and the time that is adjusted to other nodes. -/
structure Clock where
  now : Int
  adjusted : Int
  deriving DecidableEq, Repr

/-- A call of a listener. The second argument is the height of a block or, for a claim, the time. -/
structure Call where
  listener : Nat
  txn : Transaction
  height : Int
  deriving DecidableEq, Repr

/-- The members of `BlockChain` that change. -/
structure BlockChain where
  tree : BlockTree Uint256
  invalidTree : BlockTree Uint256
  branches : Map Uint256 Block
  ledger : Ledger
  claims : Claims
  purgeDepth : Int
  bestLocator : List Uint256
  calls : List Call

/-- A part of the source that changes the block chain and can throw. -/
abbrev ChainM := EStateM Fault BlockChain

/-- `if (bad) throw fault`. -/
def failIf (bad : Bool) (fault : Fault) : ChainM Unit :=
  if bad then throw fault else pure ()

/-- A call that changes nothing. -/
def ask {A : Type} : Except Fault A → ChainM A
  | .ok a => pure a
  | .error fault => throw fault

/-- A call that only reads the tree. -/
def readTree {A : Type} (call : BlockTree Uint256 → Except Fault A) : ChainM A := do
  let s ← get
  ask (call s.tree)

/-- The part of a call that changes the ledger alone. -/
def onLedger {A : Type} (part : LedgerM A) : ChainM A := fun s =>
  match part s.ledger with
  | .ok a ledger => .ok a { s with ledger := ledger }
  | .error fault ledger => .error fault { s with ledger := ledger }

namespace BlockChain

/-- What `attach` and `detach` read. -/
def setting (cfg : Config) (clock : Clock) (s : BlockChain) : Setting :=
  { chain := cfg.chain, prim := cfg.prim, validationDepth := cfg.validationDepth
    purgeDepth := s.purgeDepth, verificationDepth := cfg.verificationDepth, treeHeight := s.tree.height
    adjustedTime := clock.adjusted, claimed := s.claims.haveHash }

/-- `_tree.count()`. -/
def treeCount (s : BlockChain) : Int := s.tree.trunk.length

/-- `_branches[hash]`, which inserts the null block under a hash that is missing. -/
def branchBlock (hash : Uint256) : ChainM Block :=
  modifyGet fun s =>
    match s.branches[hash]? with
    | some block => (block, s)
    | none => (Block.null, { s with branches := s.branches.insert hash Block.null })

/-- The calls of all listeners, in the order they have subscribed. -/
def callListeners (cfg : Config) (txn : Transaction) (height : Int) (s : BlockChain) : BlockChain :=
  { s with calls := s.calls ++ cfg.listeners.map fun listener => ⟨listener, txn, height⟩ }

/-! ### Claims -/

/-- The coin of an input: an output of a claim, or a confirmed coin. -/
def claimedCoin (cfg : Config) (s : BlockChain) (input : Input) : Except Fault Unspent :=
  let output := s.claims.prev input.prevout
  if !output.isNull then
    .ok { key := input.prevout, output := output, coin := 0, count := 0, cnf := 0 }
  else if cfg.validationDepth = 0 then
    match s.ledger.db.findUnspent input.prevout with
    | none => .error (.reject "Spent coin not found !")
    | some (id, row) =>
      if !(row.unspent id).isValid then .error (.reject "Spent coin not found !")
      else if row.count < 0 ∧ s.treeCount + row.count + 1 < cfg.chain.maturity s.tree.height then
        .error (.error "Tried to spend immature coinbase: ")
      else .ok (row.unspent id)
  else
    match s.ledger.spendables[input.prevout]? with
    | some coin => .ok coin
    | none => .error (.reject "Spent coin not found or immature coinbase")

/-- `if (_chain.adhere_names() && name_op.input(coin.output, coin.count))
name_op.name(getCoinName(coin.coin))`. -/
def claimName (cfg : Config) (s : BlockChain) (op : NameOperation) (coin : Unspent) :
    Except Fault NameOperation :=
  if cfg.chain.adhereNames then do
    let (op, named) ← op.input cfg.prim coin.output coin.count
    return if named then { op with name := s.ledger.db.getCoinName coin.coin } else op
  else .ok op

/-- `if (bad) throw fault`, in a call that changes nothing. -/
def refuseIf (bad : Bool) (fault : Fault) : Except Fault Unit :=
  if bad then .error fault else .ok ()

/-- The loop of `try_claim` over the inputs: the sum of their values, and the coins they spend. -/
def claimInputs (cfg : Config) (clock : Clock) (s : BlockChain) (txn : Transaction) (verify : Bool) :
    List Input → Nat → Int → NameOperation → Finset Coin → Except Fault (Int × NameOperation × Finset Coin)
  | [], _, valueIn, op, spents => .ok (valueIn, op, spents)
  | input :: inputs, idx, valueIn, op, spents => do
    refuseIf (s.claims.spent input.prevout || decide (input.prevout ∈ spents)) (.error "Coin already spent!")
    let coin ← claimedCoin cfg s input
    let op ← claimName cfg s op coin
    refuseIf (!cfg.chain.range coin.output.value) (.error "Input values out of range")
    refuseIf (verify && !cfg.verifyInput txn idx coin.output.script
        (decide (cfg.chain.timeStamp16 < clock.now)))
      (.error "Verify Signature failed with verifying: ")
    claimInputs cfg clock s txn verify inputs (idx + 1) (wrap64 (valueIn + coin.output.value)) op
      (spents ∪ {input.prevout})

/-- `getNameAge`. An empty name is bound as null, which no row is equal to. -/
def getNameAge (s : BlockChain) (name : Data) : Int :=
  if name.isEmpty then 0 else s.ledger.db.latestNameCount name

/-- The body of the loop of `try_claim` over the outputs. -/
def claimOutput (cfg : Config) (clock : Clock) (s : BlockChain) (txn : Transaction) (op : NameOperation)
    (output : Output) : Except Fault NameOperation := do
  let (op, named) ← op.output cfg.prim output
  if named then do
    refuseIf (decide (txn.version ≠ namecoinTxVersion))
      (.error "Namecoin scripts only allowed in Namecoin transactions")
    let expired := (s.setting cfg clock).isExpired (s.getNameAge op.name) s.treeCount
    if op.reserve then
      refuseIf (!expired) (.reject "Trying to reserve existing and not expired name: ")
    else
      refuseIf expired (.error "Trying to update expired or non existing name: ")
    return op
  else return op

/-- The loop of `try_claim` over the outputs. -/
def claimOutputs (cfg : Config) (clock : Clock) (s : BlockChain) (txn : Transaction) :
    List Output → NameOperation → Except Fault NameOperation
  | [], op => .ok op
  | output :: outputs, op => do
    let op ← claimOutput cfg clock s txn op output
    claimOutputs cfg clock s txn outputs op

/-- The names that a claim changes, and the fee for them. -/
def claimNames (cfg : Config) (clock : Clock) (s : BlockChain) (txn : Transaction) (op : NameOperation) :
    Except Fault Unit :=
  if cfg.chain.adhereNames then do
    let op ← claimOutputs cfg clock s txn txn.outputs op
    op.checkFees (cfg.chain.networkFee s.treeCount)
  else .ok ()

/-- What `try_claim` throws in place of what is thrown inside of it. -/
def inClaim : Fault → Fault
  | .reject what => .reject ("claim(Transaction): " ++ what)
  | .error what => .error ("claim(Transaction): " ++ what)
  | .undefined => .undefined

/-- What `try_claim` does between `try` and `catch`. -/
def tryClaimBody (cfg : Config) (clock : Clock) (s : BlockChain) (txn : Transaction) (verify : Bool) :
    Except Fault (Finset Coin × Int) := do
  let ignoreRules := if cfg.chain.adhereNames then !cfg.chain.enforceNameRules clock.now else true
  let (valueIn, op, spents) ←
    claimInputs cfg clock s txn verify txn.inputs 0 0 (NameOperation.new cfg.prim ignoreRules) ∅
  let fee := wrap64 (valueIn - txn.getValueOut)
  refuseIf (decide (fee < 0)) (.error "fee < 0")
  claimNames cfg clock s txn op
  return (spents, fee)

/-- `try_claim`: the coins that the transaction spends, and its fee. -/
def tryClaim (cfg : Config) (clock : Clock) (s : BlockChain) (txn : Transaction) (verify : Bool) :
    Except Fault (Finset Coin × Int) :=
  if s.claims.haveHash (cfg.prim.txnHash txn) then .error (.error "Transaction already exists : ")
  else if txn.isCoinBase then .error (.error "Cannot claim coinbase transactions!")
  else (tryClaimBody cfg clock s txn verify).mapError inClaim

/-- The block chain with one claim more. -/
def claimed (cfg : Config) (clock : Clock) (s : BlockChain) (txn : Transaction) (spents : Finset Coin)
    (fee : Int) : BlockChain :=
  callListeners cfg txn clock.now
    { s with claims := s.claims.insert cfg.prim clock.now txn spents fee 0 }

/-- `claim`. -/
def claim (cfg : Config) (clock : Clock) (txn : Transaction) (verify : Bool) : ChainM Unit := do
  let s ← get
  let (spents, fee) ← ask (tryClaim cfg clock s txn verify)
  set (claimed cfg clock s txn spents fee)

end BlockChain

end Libcoin
