/-
`Claims`: the transactions that wait for a block, with an index of their hashes by priority.

* `Claim` is a pooled transaction; its size, fee and number of spendables are summed up over the claims
  it depends on when it is inserted.
* `insert`, `erase`, `purge`, `prev` and `transactions` are the member functions of the same names.
* `transactions` selects claims for a block: `insertClaim` is its recursion over the claims that a claim
  depends on, with a bound on the depth. Running out of it stands for a recursion that does not end.
-/

import Libcoin.Library.OrderedSet
import Libcoin.Ledger.Types
import Mathlib.Data.Finset.Basic

namespace Libcoin

/-- A value in `unsigned int`. -/
def wrapU32 (value : Int) : Int := value % 2 ^ 32

/-- `MAX_BLOCK_SIZE`. -/
def maxBlockSize : Int := 1000000

structure Claim where
  txn : Transaction
  timestamp : Int
  size : Int
  fee : Int
  deltaSpendables : Int
  depends : List Uint256
  deriving DecidableEq

namespace Claim

/-- `txn.getNumOutputs()-txn.getNumInputs()`. -/
def spendablesOf (txn : Transaction) : Int := txn.outputs.length - txn.inputs.length

/-- The constructor. A time of 0 stands for the present one. -/
def new (prim : Primitives) (now : Int) (txn : Transaction) (fee ts : Int) : Claim :=
  { txn := txn
    timestamp := if ts = 0 then now else ts
    size := wrapU32 (prim.txnSize txn)
    fee := fee
    deltaSpendables := spendablesOf txn
    depends := [] }

/-- `OptimizeForFeeThenDeltaSpendables` on two claims. -/
def before (l r : Claim) : Bool :=
  if wrap64 (r.fee * l.size) < wrap64 (l.fee * r.size) then true
  else if wrap64 (l.fee * r.size) < wrap64 (r.fee * l.size) then false
  else decide (l.deltaSpendables < r.deltaSpendables)

end Claim

/-- The members of `Claims`. -/
structure Claims where
  confirmations : Map Uint256 Claim
  priorities : List Uint256
  spents : Finset Coin
  scripts : List (Script × Coin)

namespace Claims

def empty : Claims := { confirmations := ∅, priorities := [], spents := ∅, scripts := [] }

def spent (claims : Claims) (coin : Coin) : Bool := decide (coin ∈ claims.spents)

def haveHash (claims : Claims) (hash : Uint256) : Bool := claims.confirmations[hash]?.isSome

/-- `prev`: the output of a claim, or the default output. -/
def prev (claims : Claims) (coin : Coin) : Output :=
  match claims.confirmations[coin.hash]? with
  | some claim => (claim.txn.outputs[coin.index]?).getD { value := -1, script := [] }
  | none => { value := -1, script := [] }

/-- `claimed`: the outputs of the claims with a script. -/
def claimed (claims : Claims) (script : Script) : List (Coin × Output) :=
  (claims.scripts.filter fun entry => decide (entry.1 = script)).filterMap fun entry => do
    let claim ← claims.confirmations[entry.2.hash]?
    let output ← claim.txn.outputs[entry.2.index]?
    return (entry.2, output)

/-- The comparison of `_priorities`, which looks the two claims up. -/
def before (confirmations : Map Uint256 Claim) (lhs rhs : Uint256) : Bool :=
  match confirmations[lhs]?, confirmations[rhs]? with
  | some l, some r => l.before r
  | _, _ => false

/-- The body of the loop of `insert` over the inputs. -/
def addParent (confirmations : Map Uint256 Claim) (claim : Claim) (input : Input) : Claim :=
  match confirmations[input.prevout.hash]? with
  | none => claim
  | some parent =>
    { claim with
      depends := claim.depends ++ [input.prevout.hash]
      size := wrapU32 (claim.size + parent.size)
      fee := wrap64 (claim.fee + parent.fee)
      deltaSpendables := claim.deltaSpendables + Claim.spendablesOf claim.txn }

/-- The claim that `insert` builds. -/
def newClaim (prim : Primitives) (now : Int) (claims : Claims) (txn : Transaction) (fee ts : Int) : Claim :=
  txn.inputs.foldl (addParent claims.confirmations) (Claim.new prim now txn fee ts)

/-- The outputs of a transaction, for the map of scripts. -/
def scriptsOf (hash : Uint256) (txn : Transaction) : List (Script × Coin) :=
  txn.outputs.zipIdx.map fun output => (output.1.script, { hash := hash, index := output.2 })

/-- `insert`. The maps keep what they have under a key. -/
def insert (prim : Primitives) (now : Int) (claims : Claims) (txn : Transaction) (spents : Finset Coin)
    (fee ts : Int) : Claims :=
  let hash := prim.txnHash txn
  let confirmations := claims.confirmations.insertNew hash (newClaim prim now claims txn fee ts)
  { confirmations := confirmations
    priorities := OrderedSet.insert (before confirmations) hash claims.priorities
    spents := claims.spents ∪ spents
    scripts := claims.scripts ++ scriptsOf hash txn }

/-- `erase`. -/
def erase (claims : Claims) (hash : Uint256) : Claims :=
  match claims.confirmations[hash]? with
  | none => claims
  | some claim =>
    { confirmations := claims.confirmations.erase hash
      priorities := OrderedSet.erase (before claims.confirmations) hash claims.priorities
      spents := (claim.txn.inputs.map Input.prevout).foldl Finset.erase claims.spents
      scripts := (scriptsOf hash claim.txn).foldl List.erase claims.scripts }

theorem erase_absent {claims : Claims} {hash : Uint256} (missed : claims.confirmations[hash]? = none) :
    claims.erase hash = claims := by
  unfold erase
  rw [missed]

theorem erase_pooled {claims : Claims} {hash : Uint256} {claim : Claim}
    (found : claims.confirmations[hash]? = some claim) :
    claims.erase hash =
      { confirmations := claims.confirmations.erase hash
        priorities := OrderedSet.erase (before claims.confirmations) hash claims.priorities
        spents := (claim.txn.inputs.map Input.prevout).foldl Finset.erase claims.spents
        scripts := (scriptsOf hash claim.txn).foldl List.erase claims.scripts } := by
  unfold erase
  rw [found]

/-- The hashes of the claims older than a time. -/
def deathRow (claims : Claims) (before : Int) : List Uint256 :=
  (claims.confirmations.toList.filter fun entry => decide (entry.2.timestamp < before)).map Prod.fst

/-- `purge`. -/
def purge (claims : Claims) (before : Int) : Claims := (claims.deathRow before).foldl erase claims

/-! ### Selection for a block -/

/-- What the selection has so far: the transactions, and the hashes among them. -/
structure Selection where
  txns : List Transaction
  inserted : Finset Uint256

/-- The loop of `insert_claim` over what a claim depends on. The recursion is the first argument. -/
def insertDepends (recursion : Claim → Selection → Option (Int × Selection))
    (confirmations : Map Uint256 Claim) : List Uint256 → Int → Selection → Option (Int × Selection)
  | [], size, selection => some (size, selection)
  | hash :: hashes, size, selection =>
    if hash ∈ selection.inserted then insertDepends recursion confirmations hashes size selection
    else
      match confirmations[hash]? with
      | none => insertDepends recursion confirmations hashes size selection
      | some claim => do
        let (added, selection) ← recursion claim selection
        insertDepends recursion confirmations hashes (size + added) selection

/-- `insert_claim`: the size that is added, and the selection with the claim. -/
def insertClaim (prim : Primitives) (confirmations : Map Uint256 Claim) :
    Nat → Claim → Selection → Option (Int × Selection)
  | 0, _, _ => none
  | depth + 1, claim, selection => do
    let (size, selection) ←
      insertDepends (insertClaim prim confirmations depth) confirmations claim.depends 0 selection
    some (size + claim.size,
      { txns := selection.txns ++ [claim.txn]
        inserted := selection.inserted ∪ {prim.txnHash claim.txn} })

/-- The loop of `transactions` over the priorities. -/
def selectAll (prim : Primitives) (confirmations : Map Uint256 Claim) :
    List Uint256 → Int → Int → Selection → Option (List Transaction × Int)
  | [], _, fee, selection => some (selection.txns, fee)
  | hash :: hashes, size, fee, selection =>
    match confirmations[hash]? with
    | none => selectAll prim confirmations hashes size fee selection
    | some claim =>
      if hash ∈ selection.inserted then selectAll prim confirmations hashes size fee selection
      else if maxBlockSize ≤ size + claim.size then some (selection.txns, fee)
      else do
        let (added, selection) ← insertClaim prim confirmations (confirmations.size + 1) claim selection
        selectAll prim confirmations hashes (size + added) (wrap64 (fee + claim.fee)) selection

/-- `transactions`: the transactions for a block, and the fee. -/
def transactions (prim : Primitives) (claims : Claims) (headerAndCoinbase : Int) :
    Option (List Transaction × Int) :=
  selectAll prim claims.confirmations claims.priorities headerAndCoinbase 0 { txns := [], inserted := ∅ }

end Claims

end Libcoin
