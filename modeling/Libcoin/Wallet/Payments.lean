/-
`CreateTransaction`: the transaction that pays some payees, and its fee.

* `getMinFee` is the fee that a transaction of its size needs. `feeNeeded` is the greater one of it and the fee of the
  wallet for each kilobyte.
* `FeeTurn` is what one turn of the fee loop gets from outside: the coins that are selected and a random position.
  `SelectionContract` is what is expected of a selection.

The priority of a transaction is a number of floating point. What it allows is any function of the inputs and the size.
-/

import Libcoin.Ledger.Wire
import Libcoin.Script.NameScripts
import Libcoin.Wallet.ExactSelection
import Libcoin.Wallet.KeyPool
import Libcoin.Wallet.Ownership

namespace Libcoin

open Exec Map

/-! ### Fees -/

/-- `MIN_TX_FEE`. -/
def minTxFee : Int := 50000

/-- `MIN_RELAY_TX_FEE`. -/
def minRelayTxFee : Int := 10000

/-- `MAX_BLOCK_SIZE_GEN`. -/
def maxBlockSizeGen : Nat := 500000

/-- `MAX_MONEY`. -/
def maxMoney : Int := 21000000 * 100000000

namespace Transaction

/-- `serialize_size`, as an `unsigned int`. -/
def serializeSize (txn : Transaction) : Nat := (writeTransaction txn).length % 2 ^ 32

/-- The part of `getMinFee` for a transaction of so many bytes. -/
def sizeFee (nBaseFee : Int) (nBlockSize nBytes : Nat) (fAllowFree : Bool) : Int :=
  if fAllowFree && (if nBlockSize = 1 then decide (nBytes < 10000) else decide ((nBlockSize + nBytes) % 2 ^ 32 < 27000))
  then 0
  else (1 + (nBytes / 1000 : Nat)) * nBaseFee

/-- `getMinFee`. -/
def getMinFee (txn : Transaction) (nBlockSize : Nat) (fAllowFree fForRelay : Bool) : Int :=
  let nBaseFee := if fForRelay then minRelayTxFee else minTxFee
  let nNewBlockSize := (nBlockSize + txn.serializeSize) % 2 ^ 32
  let nMinFee := sizeFee nBaseFee nBlockSize txn.serializeSize fAllowFree
  -- dust
  let nMinFee := if nMinFee < nBaseFee ∧ ∃ output ∈ txn.outputs, output.value < cent then nBaseFee else nMinFee
  -- a block that is nearly full
  if nBlockSize ≠ 1 ∧ maxBlockSizeGen ≤ nNewBlockSize then maxMoney
  else
    let nMinFee :=
      if nBlockSize ≠ 1 ∧ maxBlockSizeGen / 2 ≤ nNewBlockSize then
        wrap64 (nMinFee * (maxBlockSizeGen / (maxBlockSizeGen - nNewBlockSize) : Nat))
      else nMinFee
    if moneyRange nMinFee then nMinFee else maxMoney

end Transaction

/-! ### Scripts for change -/

/-- `getAddress` without names. -/
def Script.getAddress (script : Script) : Uint160 :=
  match Script.getOp script with
  | some (118, _, pc) =>
    match Script.getOp pc with
    | some (169, _, pc) =>
      match Script.getOp pc with
      | some (_, vch, pc) =>
        if vch.length = 20 then
          match Script.getOp pc with
          | some (136, _, pc) =>
            match Script.getOp pc with
            | some (172, _, []) => readHash160 vch
            | _ => 0
          | _ => 0
        else 0
      | _ => 0
    | _ => 0
  | _ => 0

/-- The script of the change, in the form of the first payee. -/
def changeScript (fns : KeyFunctions) (first : Script) (vchPubKey : Data) : Script :=
  if first.getAddress ≠ 0 then Script.payToPubKeyHash (writeHash160 (fns.toPubKeyHash vchPubKey))
  else Script.pushData vchPubKey ++ [172]

/-! ### Signatures -/

/-- `Solver` with some key store. -/
abbrev Solves := Script → Uint256 → Int → Except String (Option (Script × TxnOutType))

/-- `SignSignature`, with what `Solver` does for the key store. -/
def signWith (k : Signer) (solve : Solves) (scriptPubKey : Script) (txTo : Transaction) (nIn : Nat) (nHashType : Int) :
    Option (Bool × Transaction) := do
  let txin ← txTo.inputs[nIn]?
  let hash := txTo.getSignatureHash k.signing.hash scriptPubKey nIn nHashType
  match ← (solve scriptPubKey hash nHashType).toOption with
  | none => return (false, txTo)
  | some (signature, whichType) =>
    if whichType = .scriptHash then do
      let subscript := txin.signature
      let hash2 := txTo.getSignatureHash k.signing.hash subscript nIn nHashType
      match ← (solve subscript hash2 nHashType).toOption with
      | none => return (false, txTo)
      | some (signature, subType) =>
        if subType = .scriptHash then return (false, txTo)
        else BasicKeyStore.replaceAndTest k scriptPubKey txTo nIn (signature ++ Script.pushData subscript)
    else BasicKeyStore.replaceAndTest k scriptPubKey txTo nIn signature

/-! ### The loop -/

/-- What one turn gets from outside: the result of `SelectCoins`, its coins in the order of the set, and a random
number. -/
structure FeeTurn where
  selectCoins : Int → Except Fault (Option (List (Uint256 × Nat) × Int))
  rand : Nat

/-- `GetRandInt`, with the random number. -/
def getRandInt (rand nMax : Nat) : Nat := if nMax = 0 then 0 else rand % nMax

/-- What the loop works on: the transaction, its fee, the holder of the key for change, and the wallet of the keys. -/
structure Draft where
  wtxNew : Transaction
  nFeeRet : Int
  reservekey : CReserveKey
  keys : Wallet

/-- How a turn ends: with `return false`, with `continue`, or with `break`. -/
inductive Verdict
  | refused (draft : Draft)
  | raised (draft : Draft)
  | created (draft : Draft)

namespace TxWallet

section Source

variable (prim : Primitives) (k : Signer) (solve : Solves) (random : Generator) (allowFree : List Coin → Nat → Bool)
  (nTransactionFee : Int) (w : TxWallet) (vecSend : List (Script × Int))

/-- A coin of the wallet: its transaction and its index. -/
def findCoin (coin : Uint256 × Nat) : Except Fault (CWalletTx × Nat) :=
  match w.mapWallet[coin.1]? with
  | none => .error .undefined
  | some wtx => .ok (wtx, coin.2)

/-- The outputs for the payees. -/
def payees : List Output := vecSend.map fun s => { value := s.2, script := s.1 }

/-- The change and the fee, once a change below a cent is moved to the fee. -/
def moveToFee (nChange nFeeRet : Int) : Int × Int :=
  if nFeeRet < minTxFee ∧ 0 < nChange ∧ nChange < cent then
    (nChange - min nChange (minTxFee - nFeeRet), nFeeRet + min nChange (minTxFee - nFeeRet))
  else (nChange, nFeeRet)

/-- The output for the change is put at a random position, or the key for it is returned. -/
def addChange (turn : FeeTurn) (nChange : Int) (draft : Draft) : Except Fault Draft :=
  if 0 < nChange then
    let (reservekey, keys, reserved) := draft.reservekey.getReservedKey k.fns random draft.keys
    match reserved with
    | .error err => .error (.error err)
    | .ok vchPubKey =>
      let change : Output :=
        { value := nChange, script := changeScript k.fns ((vecSend.head?.map Prod.fst).getD []) vchPubKey }
      let position := getRandInt turn.rand draft.wtxNew.outputs.length
      .ok { draft with
        wtxNew.outputs := draft.wtxNew.outputs.take position ++ change :: draft.wtxNew.outputs.drop position
        reservekey := reservekey, keys := keys }
  else
    let (reservekey, keys) := draft.reservekey.returnKey draft.keys
    .ok { draft with reservekey := reservekey, keys := keys }

/-- The loop that signs the inputs from an index on. -/
def signInputs : List (CWalletTx × Nat) → Nat → Transaction → Except Fault (Option Transaction)
  | [], _, wtxNew => .ok (some wtxNew)
  | (txFrom, index) :: coins, nIn, wtxNew =>
    match txFrom.outputs[index]? with
    | none => .error .undefined
    | some txout =>
      match signWith k solve txout.script wtxNew nIn 1 with
      | none => .error .undefined
      | some (false, _) => .ok none
      | some (true, wtxNew) => signInputs coins (nIn + 1) wtxNew

/-- The fee that a transaction needs. -/
def feeNeeded (wtxNew : Transaction) : Int :=
  max (wrap64 (nTransactionFee * (1 + (wtxNew.serializeSize / 1000 : Nat))))
    (wtxNew.getMinFee 1 (allowFree (wtxNew.inputs.map Input.prevout) wtxNew.serializeSize) false)

/-- The end of a turn: the inputs are signed, and the fee is compared. -/
def finishTurn (coins : List (CWalletTx × Nat)) (draft : Draft) : Except Fault Verdict := do
  let inputs := coins.map fun coin =>
    ({ prevout := { hash := prim.txnHash coin.1.toTransaction, index := coin.2 }, signature := []
       sequence := 0xffffffff } : Input)
  let signed ← signInputs k solve coins 0 { draft.wtxNew with inputs := inputs }
  match signed with
  | none => return .refused draft
  | some wtxNew =>
    let draft := { draft with wtxNew := wtxNew }
    if maxBlockSizeGen / 5 ≤ wtxNew.serializeSize then return .refused draft
    else if draft.nFeeRet < feeNeeded allowFree nTransactionFee wtxNew then
      return .raised { draft with nFeeRet := feeNeeded allowFree nTransactionFee wtxNew }
    else return .created draft

/-- One turn of the loop. -/
def feeTurn (nValue : Int) (turn : FeeTurn) (draft : Draft) : Except Fault Verdict := do
  let draft := { draft with wtxNew.inputs := [], wtxNew.outputs := payees vecSend }
  let selected ← turn.selectCoins (wrap64 (nValue + draft.nFeeRet))
  match selected with
  | none => return .refused draft
  | some (setCoins, nValueIn) =>
    let coins ← setCoins.mapM w.findCoin
    let moved := moveToFee (wrap64 (wrap64 (nValueIn - nValue) - draft.nFeeRet)) draft.nFeeRet
    let draft ← addChange k random vecSend turn moved.1 { draft with nFeeRet := moved.2 }
    finishTurn prim k solve allowFree nTransactionFee coins draft

/-- The loop from a turn on, with at most so many turns: nothing if it has not ended by then, and otherwise what
`CreateTransaction` returns. -/
def feeLoop (nValue : Int) (turns : Nat → FeeTurn) : Nat → Nat → Draft → Option (Except Fault (Bool × Draft))
  | 0, _, _ => none
  | fuel + 1, n, draft =>
    match feeTurn prim k solve random allowFree nTransactionFee w vecSend nValue (turns n) draft with
    | .error fault => some (.error fault)
    | .ok (.refused draft) => some (.ok (false, draft))
    | .ok (.created draft) => some (.ok (true, draft))
    | .ok (.raised draft) => feeLoop nValue turns fuel (n + 1) draft

/-- The sum of the amounts, unless it is negative before one of them. -/
def sumAmounts : List (Script × Int) → Int → Option Int
  | [], nValue => some nValue
  | s :: rest, nValue => if nValue < 0 then none else sumAmounts rest (wrap64 (nValue + s.2))

/-- `CreateTransaction`, with at most so many turns of the loop. The transaction that it is given keeps its version and
lock time. -/
def createTransaction (turns : Nat → FeeTurn) (fuel : Nat) (draft : Draft) : Option (Except Fault (Bool × Draft)) :=
  match sumAmounts vecSend 0 with
  | none => some (.ok (false, draft))
  | some nValue =>
    if vecSend.isEmpty ∨ nValue < 0 then some (.ok (false, draft))
    else
      feeLoop prim k solve random allowFree nTransactionFee w vecSend nValue turns fuel 0
        { draft with nFeeRet := nTransactionFee }

end Source

end TxWallet

/-! ### What is expected -/

/-- The contract of `SelectCoins`: own coins of the wallet, each once, with their sum, which is enough and is an
`int64_t`. -/
structure SelectionContract (w : TxWallet) (nTargetValue : Int) (result : List (Uint256 × Nat) × Int) : Prop where
  picked : ∃ picked : List OwnCoin, picked.Subperm (w.mapWallet.toList.flatMap w.ownCoins) ∧
    result.1 = picked.map Prod.snd ∧ result.2 = TxWallet.totalOf picked
  once : result.1.Nodup
  enough : nTargetValue ≤ result.2
  fits : result.2 < 2 ^ 63

/-- What is expected of `SelectCoinsMinConf` meets the contract. -/
theorem TxWallet.Selected.contract {w : TxWallet} {considered : WalletEntry → Bool} {nTargetValue : Int}
    {result : List (Uint256 × Nat) × Int}
    (selected : TxWallet.Selected ((w.mapWallet.toList.filter considered).flatMap w.ownCoins) nTargetValue result)
    (fits : result.2 < 2 ^ 63) : SelectionContract w nTargetValue result := by
  obtain ⟨picked, fewer, coins, sum⟩ := selected.picked
  exact ⟨⟨picked, fewer.trans (List.filter_sublist.flatMap _).subperm, coins, sum⟩, selected.once, selected.enough,
    fits⟩

/-- A key of the wallet. -/
def Wallet.Owns (fns : KeyFunctions) (keys : Wallet) (vchPubKey : Data) : Prop :=
  keys.store.haveKey (fns.toPubKeyHash vchPubKey) = true

/-- The default key is a key of the wallet, as `LoadWallet` leaves it, and so is the one that the holder of the key for
change holds. -/
structure Draft.Held (fns : KeyFunctions) (draft : Draft) : Prop where
  standard : draft.keys.Owns fns draft.keys.vchDefaultKey
  reserved : draft.reservekey.nIndex ≠ -1 → draft.keys.Owns fns draft.reservekey.vchPubKey

/-- The value of a coin, for the wallet. -/
def TxWallet.coinValue (w : TxWallet) (coin : Coin) : Int :=
  (w.mapWallet[coin.hash]?.bind fun wtx => wtx.outputs[coin.index]?).elim 0 Output.value

/-- A transaction that balances. Its outputs are those for the payees, with at most one for change in between. -/
structure Draft.Balances (fns : KeyFunctions) (allowFree : List Coin → Nat → Bool) (nTransactionFee : Int)
    (w : TxWallet) (vecSend : List (Script × Int)) (draft : Draft) : Prop where
  outputs : ∃ before change after : List Output, TxWallet.payees vecSend = before ++ after ∧
    draft.wtxNew.outputs = before ++ change ++ after ∧ change.length ≤ 1 ∧
    ∀ txout ∈ change, ∃ vchPubKey, draft.keys.Owns fns vchPubKey ∧
      txout.script = changeScript fns ((vecSend.head?.map Prod.fst).getD []) vchPubKey
  inputs : (draft.wtxNew.inputs.map Input.prevout).Nodup
  sum : ((draft.wtxNew.inputs.map Input.prevout).map w.coinValue).sum =
    (draft.wtxNew.outputs.map Output.value).sum + draft.nFeeRet
  perKilobyte : nTransactionFee * (1 + (draft.wtxNew.serializeSize / 1000 : Nat)) ≤ draft.nFeeRet
  minFee : draft.wtxNew.getMinFee 1
    (allowFree (draft.wtxNew.inputs.map Input.prevout) draft.wtxNew.serializeSize) false ≤ draft.nFeeRet

/-! ### Keys for change -/

namespace Wallet

variable {fns : KeyFunctions} (random : Generator)

/-- New keys leave the default key with the wallet. -/
theorem generateNewKey_standard :
    Preserves (fun keys : Wallet => keys.Owns fns keys.vchDefaultKey) (generateNewKey fns random) := by
  intro keys own
  have stays := @CryptoKeyStore.generateNewKey_haveKey fns _ (random.secret keys.drawn) keys.store own
  unfold generateNewKey
  cases run : CryptoKeyStore.generateNewKey fns (random.secret keys.drawn) keys.store with
  | ok vchPubKey store =>
    rw [run] at stays
    dsimp only
    split
    · exact stays
    · exact stays
  | error err store =>
    rw [run] at stays
    exact stays

theorem topUpLoop_standard (fuel : Nat) :
    Preserves (fun keys : Wallet => keys.Owns fns keys.vchDefaultKey) (topUpLoop fns random fuel) := by
  induction fuel with
  | zero => exact preserves_pure _
  | succ fuel ih =>
    intro keys own
    unfold topUpLoop
    rw [bind_get]
    split
    · refine preserves_bind (generateNewKey_standard random) (fun vchPubKey => ?_) keys own
      split
      · exact fun _ start => start
      · exact preserves_bind (preserves_modify fun _ own => own) fun _ => ih
    · exact own

theorem reserveKey_standard (keys : Wallet) (own : keys.Owns fns keys.vchDefaultKey) :
    (keys.reserveKeyFromKeyPool fns random).1.Owns fns (keys.reserveKeyFromKeyPool fns random).1.vchDefaultKey := by
  have stays : (refilled fns random keys).Owns fns (refilled fns random keys).vchDefaultKey := by
    unfold refilled
    cases locked : keys.store.isLocked with
    | true => exact own
    | false =>
      rw [if_neg (by decide), topUpKeyPool_unlocked locked]
      exact topUpLoop_standard random _ keys own
  rcases @reserve_cases fns random keys with ⟨same, -⟩ | ⟨nIndex, -, same, -⟩
  · rw [same]
    exact stays
  · rw [same]
    exact stays

/-- A key from the pool is one that the wallet has. -/
theorem reserveKey_owns {keys keys' : Wallet} {nIndex : Int} {vchPubKey : Data}
    (ran : keys.reserveKeyFromKeyPool fns random = (keys', nIndex, .ok vchPubKey)) (index : nIndex ≠ -1) :
    keys'.Owns fns vchPubKey := by
  unfold reserveKeyFromKeyPool at ran
  split at ran
  · cases ran
  · split at ran
    · dsimp only at ran
      split at ran
      · cases ran
      · split at ran
        · cases ran
        · rename_i known
          split at ran
          · cases ran
          · cases ran
            rwa [Bool.not_eq_true', Bool.not_eq_false] at known
    · cases ran
      exact absurd rfl index

end Wallet

theorem CReserveKey.returnKey_standard {fns : KeyFunctions} {key : CReserveKey} {keys : Wallet}
    (own : keys.Owns fns keys.vchDefaultKey) : (key.returnKey keys).2.Owns fns (key.returnKey keys).2.vchDefaultKey := by
  unfold returnKey
  dsimp only
  split
  · exact own
  · exact own

/-! ### The fee -/

namespace TxWallet

section Fees

variable {allowFree : List Coin → Nat → Bool} {nTransactionFee : Int} {wtxNew : Transaction}

/-- No fee that is needed is above this one. -/
def feeBound (nTransactionFee : Int) : Int := 100 * max nTransactionFee minTxFee

theorem sizeFee_range {nBytes : Nat} (size : nBytes < maxBlockSizeGen / 5) (fAllowFree : Bool) :
    0 ≤ Transaction.sizeFee minTxFee 1 nBytes fAllowFree ∧
      Transaction.sizeFee minTxFee 1 nBytes fAllowFree ≤ 100 * minTxFee := by
  unfold Transaction.sizeFee minTxFee
  unfold maxBlockSizeGen at size
  rw [if_pos rfl]
  split
  · decide
  · have part : nBytes / 1000 ≤ 99 := by omega
    omega

theorem getMinFee_range (size : wtxNew.serializeSize < maxBlockSizeGen / 5) (fAllowFree : Bool) :
    0 ≤ wtxNew.getMinFee 1 fAllowFree false ∧ wtxNew.getMinFee 1 fAllowFree false ≤ 100 * minTxFee := by
  obtain ⟨low, high⟩ := sizeFee_range size fAllowFree
  unfold Transaction.getMinFee
  simp only [ne_eq, not_true_eq_false, false_and, if_false, Bool.false_eq_true]
  generalize Transaction.sizeFee minTxFee 1 wtxNew.serializeSize fAllowFree = sized at low high
  generalize dusty : (if sized < minTxFee ∧ ∃ output ∈ wtxNew.outputs, output.value < cent then minTxFee else sized) =
    nMinFee
  have range : 0 ≤ nMinFee ∧ nMinFee ≤ 100 * minTxFee := by
    rw [← dusty]
    split
    · decide
    · exact ⟨low, high⟩
  have inside : moneyRange nMinFee = true := by
    unfold moneyRange
    unfold minTxFee at range
    exact decide_eq_true ⟨range.1, by omega⟩
  rw [if_pos inside]
  exact range

/-- The fee for each kilobyte does not overflow. -/
theorem perKilobyte_range (range : moneyRange nTransactionFee = true) {nBytes : Nat}
    (size : nBytes < maxBlockSizeGen / 5) :
    wrap64 (nTransactionFee * (1 + (nBytes / 1000 : Nat))) = nTransactionFee * (1 + (nBytes / 1000 : Nat)) ∧
      nTransactionFee * (1 + (nBytes / 1000 : Nat)) ≤ 100 * nTransactionFee := by
  obtain ⟨low, high⟩ := of_decide_eq_true range
  unfold maxBlockSizeGen at size
  have part : (1 + (nBytes / 1000 : Nat) : Int) ≤ 100 := by omega
  have most : nTransactionFee * (1 + (nBytes / 1000 : Nat)) ≤ nTransactionFee * 100 :=
    Int.mul_le_mul_of_nonneg_left part low
  have least : 0 ≤ nTransactionFee * (1 + (nBytes / 1000 : Nat)) := Int.mul_nonneg low (by omega)
  exact ⟨wrap64_of_range (by omega) (by omega), by omega⟩

/-- What is needed of a transaction that is small enough. -/
theorem feeNeeded_range (range : moneyRange nTransactionFee = true)
    (size : wtxNew.serializeSize < maxBlockSizeGen / 5) :
    nTransactionFee * (1 + (wtxNew.serializeSize / 1000 : Nat)) ≤ feeNeeded allowFree nTransactionFee wtxNew ∧
      wtxNew.getMinFee 1 (allowFree (wtxNew.inputs.map Input.prevout) wtxNew.serializeSize) false ≤
        feeNeeded allowFree nTransactionFee wtxNew ∧
      feeNeeded allowFree nTransactionFee wtxNew ≤ feeBound nTransactionFee := by
  obtain ⟨exact, most⟩ := perKilobyte_range range size
  obtain ⟨-, high⟩ := getMinFee_range size (allowFree (wtxNew.inputs.map Input.prevout) wtxNew.serializeSize)
  unfold feeNeeded feeBound
  rw [exact]
  omega

/-- A change below a cent goes to the fee up to the smallest fee, and the sum of both is kept. -/
theorem moveToFee_spec {nChange nFeeRet : Int} (low : 0 ≤ nChange) :
    (moveToFee nChange nFeeRet).1 + (moveToFee nChange nFeeRet).2 = nChange + nFeeRet ∧
      0 ≤ (moveToFee nChange nFeeRet).1 ∧ nFeeRet ≤ (moveToFee nChange nFeeRet).2 ∧
      (moveToFee nChange nFeeRet).2 ≤ max nFeeRet minTxFee := by
  unfold moveToFee
  split
  · dsimp only
    omega
  · dsimp only
    omega

end Fees

/-! ### The parts of a turn -/

section Parts

variable {prim : Primitives} {k : Signer} {solve : Solves} {random : Generator} {w : TxWallet}
  {vecSend : List (Script × Int)}

/-- A transaction with other signature scripts. -/
def Resigned (before after : Transaction) : Prop :=
  after.outputs = before.outputs ∧ after.inputs.map Input.prevout = before.inputs.map Input.prevout

theorem signWith_resigned {script : Script} {before after : Transaction} {n : Nat} {type : Int} {accepted : Bool}
    (ran : signWith k solve script before n type = some (accepted, after)) : Resigned before after := by
  have replaced {signature : Script}
      (ran : BasicKeyStore.replaceAndTest k script before n signature = some (accepted, after)) :
      Resigned before after := by
    obtain ⟨verified, -, same⟩ := Option.bind_eq_some_iff.mp ran
    obtain ⟨-, rfl⟩ := Prod.mk.inj (Option.some.inj same)
    exact ⟨rfl, Transaction.map_withSignature fun _ => rfl⟩
  have kept (ran : some (false, before) = some (accepted, after)) : Resigned before after := by
    obtain ⟨-, rfl⟩ := Prod.mk.inj (Option.some.inj ran)
    exact ⟨rfl, rfl⟩
  obtain ⟨txin, -, ran⟩ := Option.bind_eq_some_iff.mp ran
  obtain ⟨solved, -, ran⟩ := Option.bind_eq_some_iff.mp ran
  cases solved with
  | none => exact kept ran
  | some solved =>
    dsimp only at ran
    split at ran
    · obtain ⟨again, -, ran⟩ := Option.bind_eq_some_iff.mp ran
      cases again with
      | none => exact kept ran
      | some again =>
        dsimp only at ran
        split at ran
        · exact kept ran
        · exact replaced ran
    · exact replaced ran

theorem signInputs_resigned {coins : List (CWalletTx × Nat)} {n : Nat} {before after : Transaction}
    (ran : signInputs k solve coins n before = .ok (some after)) : Resigned before after := by
  induction coins generalizing n before with
  | nil =>
    obtain rfl := Option.some.inj (Except.ok.inj ran)
    exact ⟨rfl, rfl⟩
  | cons coin coins ih =>
    unfold signInputs at ran
    split at ran
    · cases ran
    · split at ran
      · cases ran
      · cases ran
      · rename_i mid signed
        obtain ⟨outputs, inputs⟩ := signWith_resigned signed
        obtain ⟨outputs', inputs'⟩ := ih ran
        exact ⟨outputs'.trans outputs, inputs'.trans inputs⟩

/-- What a holder gives is a key of the wallet. -/
theorem getReservedKey_owns {key key' : CReserveKey} {keys keys' : Wallet} {vchPubKey : Data}
    (standard : keys.Owns k.fns keys.vchDefaultKey) (held : key.nIndex ≠ -1 → keys.Owns k.fns key.vchPubKey)
    (ran : key.getReservedKey k.fns random keys = (key', keys', .ok vchPubKey)) :
    keys'.Owns k.fns keys'.vchDefaultKey ∧ keys'.Owns k.fns vchPubKey ∧ keys'.Owns k.fns key'.vchPubKey := by
  unfold CReserveKey.getReservedKey at ran
  dsimp only at ran
  split at ran
  · have stays := keys.reserveKey_standard random standard
    have owned := @Wallet.reserveKey_owns k.fns random keys
    generalize keys.reserveKeyFromKeyPool k.fns random = result at ran owned stays
    obtain ⟨keys'', nIndex, reserved⟩ := result
    cases reserved with
    | error err => cases ran
    | ok given =>
      have own : Wallet.Owns k.fns keys'' (if nIndex ≠ -1 then given else keys''.vchDefaultKey) := by
        split
        · rename_i index
          exact owned rfl index
        · exact stays
      dsimp only at ran
      generalize (if nIndex ≠ -1 then given else keys''.vchDefaultKey) = chosen at ran own
      split at ran
      · cases ran
      · cases ran
        exact ⟨stays, own, own⟩
  · rename_i index
    split at ran
    · cases ran
    · cases ran
      exact ⟨standard, held index, held index⟩

/-- What the turn adds to the outputs. -/
theorem addChange_spec {turn : FeeTurn} {nChange : Int} {draft draft' : Draft} (held : draft.Held k.fns)
    (ran : addChange k random vecSend turn nChange draft = .ok draft') :
    draft'.Held k.fns ∧ draft'.nFeeRet = draft.nFeeRet ∧
      ∃ before change after : List Output, draft.wtxNew.outputs = before ++ after ∧
        draft'.wtxNew.outputs = before ++ change ++ after ∧ change.length ≤ 1 ∧
        (change.map Output.value).sum = max nChange 0 ∧
        ∀ txout ∈ change, ∃ vchPubKey, draft'.keys.Owns k.fns vchPubKey ∧
          txout.script = changeScript k.fns ((vecSend.head?.map Prod.fst).getD []) vchPubKey := by
  unfold addChange at ran
  split at ran
  · rename_i positive
    cases reserve : draft.reservekey.getReservedKey k.fns random draft.keys with
    | mk reservekey rest =>
      obtain ⟨keys, reserved⟩ := rest
      rw [reserve] at ran
      cases reserved with
      | error err => cases ran
      | ok vchPubKey =>
        obtain ⟨standard, own, keeps⟩ := getReservedKey_owns held.standard held.reserved reserve
        cases ran
        let position := getRandInt turn.rand draft.wtxNew.outputs.length
        refine ⟨⟨standard, fun _ => keeps⟩, rfl, draft.wtxNew.outputs.take position, [{
            value := nChange, script := changeScript k.fns ((vecSend.head?.map Prod.fst).getD []) vchPubKey }],
          draft.wtxNew.outputs.drop position, (List.take_append_drop position _).symm, ?_, le_rfl, ?_,
          fun txout member => ?_⟩
        · rw [List.append_assoc]
          rfl
        · rw [max_eq_left positive.le]
          exact List.sum_singleton
        · obtain rfl := List.mem_singleton.mp member
          exact ⟨vchPubKey, own, rfl⟩
  · rename_i nothing
    cases ran
    refine ⟨⟨CReserveKey.returnKey_standard held.standard, fun index => absurd rfl index⟩, rfl, draft.wtxNew.outputs, [], [], (List.append_nil _).symm,
      by rw [List.append_nil, List.append_nil], Nat.zero_le 1, ?_, nofun⟩
    rw [max_eq_right (not_lt.mp nothing)]
    rfl

/-- The coins that are found, as they are named by the inputs. -/
theorem findCoins (keyed : ∀ (hash : Uint256) (wtx : CWalletTx), w.mapWallet[hash]? = some wtx →
      prim.txnHash wtx.toTransaction = hash) {setCoins : List (Uint256 × Nat)} {coins : List (CWalletTx × Nat)}
    (ran : setCoins.mapM w.findCoin = .ok coins) :
    coins.map (fun coin => ({ hash := prim.txnHash coin.1.toTransaction, index := coin.2 } : Coin)) =
      setCoins.map fun coin => { hash := coin.1, index := coin.2 } := by
  induction setCoins generalizing coins with
  | nil =>
    cases ran
    rfl
  | cons coin setCoins ih =>
    rw [List.mapM_cons] at ran
    obtain ⟨found, own, ran⟩ := bind_eq_ok.mp ran
    obtain ⟨rest, others, ran⟩ := bind_eq_ok.mp ran
    cases ran
    rw [List.map_cons, List.map_cons, ih others]
    unfold findCoin at own
    split at own
    · cases own
    · rename_i wtx stored
      cases own
      rw [keyed _ wtx stored]

/-- The value of an own coin. -/
theorem coinValue_of_own {coin : OwnCoin} (member : coin ∈ w.mapWallet.toList.flatMap w.ownCoins) :
    w.coinValue { hash := coin.2.1, index := coin.2.2 } = coin.1 := by
  obtain ⟨entry, stored, inside⟩ := List.mem_flatMap.mp member
  unfold ownCoins at inside
  obtain ⟨⟨output, i⟩, place, found⟩ := List.mem_filterMap.mp inside
  dsimp only at found
  split at found
  · cases found
  · cases found
    unfold coinValue
    dsimp only
    rw [mem_toList.mp stored, Option.bind_some, List.mem_zipIdx_iff_getElem?.mp place]
    rfl

/-- The coins of a selection have its sum. -/
theorem selection_coinValues {nTargetValue : Int} {result : List (Uint256 × Nat) × Int}
    (contract : SelectionContract w nTargetValue result) :
    ((result.1.map fun coin => ({ hash := coin.1, index := coin.2 } : Coin)).map w.coinValue).sum = result.2 := by
  obtain ⟨picked, own, coins, sum⟩ := contract.picked
  rw [coins, sum, List.map_map, List.map_map]
  refine congrArg List.sum (List.map_congr_left fun coin member => ?_)
  exact coinValue_of_own (own.subset member)

end Parts

/-! ### The turns -/

section Turns

variable {prim : Primitives} {k : Signer} {solve : Solves} {random : Generator} {allowFree : List Coin → Nat → Bool}
  {nTransactionFee nValue : Int} {w : TxWallet} {vecSend : List (Script × Int)} {draft : Draft}

/-- What is right about the end of a turn: the fee is raised within its bound, or the transaction balances. -/
def Right (fns : KeyFunctions) (allowFree : List Coin → Nat → Bool) (nTransactionFee : Int) (w : TxWallet)
    (vecSend : List (Script × Int)) (draft : Draft) : Verdict → Prop
  | .refused _ => True
  | .raised draft' =>
    draft.nFeeRet < draft'.nFeeRet ∧ draft'.nFeeRet ≤ feeBound nTransactionFee ∧ draft'.Held fns
  | .created draft' => draft'.Balances fns allowFree nTransactionFee w vecSend

theorem payees_values (vecSend : List (Script × Int)) :
    ((payees vecSend).map Output.value).sum = (vecSend.map Prod.snd).sum := by
  unfold payees
  rw [List.map_map]
  rfl

/-- How the end of a turn compares the fee. -/
theorem finishTurn_cases {coins : List (CWalletTx × Nat)} {verdict : Verdict}
    (ran : finishTurn prim k solve allowFree nTransactionFee coins draft = .ok verdict) :
    (∃ draft', verdict = .refused draft') ∨ ∃ wtxNew : Transaction, wtxNew.outputs = draft.wtxNew.outputs ∧
      wtxNew.inputs.map Input.prevout =
        coins.map (fun coin => { hash := prim.txnHash coin.1.toTransaction, index := coin.2 }) ∧
      wtxNew.serializeSize < maxBlockSizeGen / 5 ∧
      (draft.nFeeRet < feeNeeded allowFree nTransactionFee wtxNew ∧
          verdict = .raised { draft with
            wtxNew := wtxNew, nFeeRet := feeNeeded allowFree nTransactionFee wtxNew } ∨
        feeNeeded allowFree nTransactionFee wtxNew ≤ draft.nFeeRet ∧
          verdict = .created { draft with wtxNew := wtxNew }) := by
  obtain ⟨signed, resigned, ran⟩ := bind_eq_ok.mp ran
  cases signed with
  | none =>
    cases ran
    exact .inl ⟨_, rfl⟩
  | some wtxNew =>
    obtain ⟨outputs, inputs⟩ := signInputs_resigned resigned
    rw [List.map_map] at inputs
    dsimp only at ran
    split at ran
    · cases ran
      exact .inl ⟨_, rfl⟩
    · rename_i size
      refine .inr ⟨wtxNew, outputs, inputs, not_le.mp size, ?_⟩
      split at ran
      · rename_i less
        cases ran
        exact .inl ⟨less, rfl⟩
      · rename_i enough
        cases ran
        exact .inr ⟨not_lt.mp enough, rfl⟩

/-- What is left of a selection for change, without a wrap. -/
theorem selection_change (range : moneyRange nTransactionFee = true) (money : moneyRange nValue = true) {nFeeRet : Int}
    (low : 0 ≤ nFeeRet) (high : nFeeRet ≤ feeBound nTransactionFee) {result : List (Uint256 × Nat) × Int}
    (selection : SelectionContract w (wrap64 (nValue + nFeeRet)) result) :
    wrap64 (wrap64 (result.2 - nValue) - nFeeRet) = result.2 - nValue - nFeeRet ∧
      0 ≤ result.2 - nValue - nFeeRet := by
  obtain ⟨least, most⟩ := of_decide_eq_true range
  obtain ⟨least', most'⟩ := of_decide_eq_true money
  have small : feeBound nTransactionFee ≤ 2 ^ 60 := by
    unfold feeBound minTxFee
    omega
  have enough := selection.enough
  have fits := selection.fits
  rw [wrap64_of_range (by omega) (by omega)] at enough
  have rest : wrap64 (result.2 - nValue) = result.2 - nValue := wrap64_of_range (by omega) (by omega)
  have change : wrap64 (result.2 - nValue - nFeeRet) = result.2 - nValue - nFeeRet :=
    wrap64_of_range (by omega) (by omega)
  rw [rest, change]
  exact ⟨rfl, by omega⟩

/-- One turn from a fee that is not beyond the bound. -/
theorem feeTurn_spec
    (keyed : ∀ (hash : Uint256) (wtx : CWalletTx), w.mapWallet[hash]? = some wtx →
      prim.txnHash wtx.toTransaction = hash)
    (range : moneyRange nTransactionFee = true) (sum : (vecSend.map Prod.snd).sum = nValue)
    (money : moneyRange nValue = true) {turn : FeeTurn}
    (contract : ∀ nTargetValue result, turn.selectCoins nTargetValue = .ok (some result) →
      SelectionContract w nTargetValue result)
    (low : 0 ≤ draft.nFeeRet) (high : draft.nFeeRet ≤ feeBound nTransactionFee) (held : draft.Held k.fns)
    {verdict : Verdict}
    (ran : feeTurn prim k solve random allowFree nTransactionFee w vecSend nValue turn draft = .ok verdict) :
    Right k.fns allowFree nTransactionFee w vecSend draft verdict := by
  obtain ⟨selected, chosen, ran⟩ := bind_eq_ok.mp ran
  cases selected with
  | none =>
    cases ran
    trivial
  | some result =>
    obtain ⟨setCoins, nValueIn⟩ := result
    have selection : SelectionContract w (wrap64 (nValue + draft.nFeeRet)) (setCoins, nValueIn) := contract _ _ chosen
    obtain ⟨coins, found, ran⟩ := bind_eq_ok.mp ran
    obtain ⟨draft', changed, ran⟩ := bind_eq_ok.mp ran
    obtain ⟨change, left⟩ := selection_change range money low high selection
    rw [change] at changed
    obtain ⟨together, positive, more, less⟩ := @moveToFee_spec _ draft.nFeeRet left
    generalize moveToFee (nValueIn - nValue - draft.nFeeRet) draft.nFeeRet = moved at changed together positive more less
    have start : Draft.Held k.fns
        { draft with wtxNew.inputs := [], wtxNew.outputs := payees vecSend, nFeeRet := moved.2 } := ⟨held.standard, held.reserved⟩
    obtain ⟨held', fee, before, added, after, listed, outputs, one, value, own⟩ := addChange_spec start changed
    rcases finishTurn_cases ran with ⟨refused, rfl⟩ | ⟨wtxNew, same, coinsOf, size, ⟨raised, rfl⟩ | ⟨paid, rfl⟩⟩
    · trivial
    · obtain ⟨-, -, bound⟩ := @feeNeeded_range allowFree _ _ range size
      refine ⟨?_, bound, held'.standard, held'.reserved⟩
      dsimp only at fee more ⊢
      omega
    · obtain ⟨perKilobyte, minFee, -⟩ := @feeNeeded_range allowFree _ _ range size
      rw [findCoins keyed found] at coinsOf
      refine ⟨⟨before, added, after, listed, same.trans outputs, one, own⟩, ?_, ?_, perKilobyte.trans paid,
        minFee.trans paid⟩
      · dsimp only
        rw [coinsOf]
        refine selection.once.map fun first second equal => ?_
        exact Prod.ext (congrArg Coin.hash equal) (congrArg Coin.index equal)
      · dsimp only
        have values := payees_values vecSend
        have listed : payees vecSend = before ++ after := listed
        rw [listed, List.map_append, List.sum_append] at values
        rw [coinsOf, selection_coinValues selection, same, outputs, List.map_append, List.map_append, List.sum_append,
          List.sum_append, value, max_eq_left positive, fee]
        dsimp only
        omega

/-- The loop ends before the fee is raised to the bound. -/
theorem feeLoop_spec
    (keyed : ∀ (hash : Uint256) (wtx : CWalletTx), w.mapWallet[hash]? = some wtx →
      prim.txnHash wtx.toTransaction = hash)
    (range : moneyRange nTransactionFee = true) (sum : (vecSend.map Prod.snd).sum = nValue)
    (money : moneyRange nValue = true) {turns : Nat → FeeTurn}
    (contract : ∀ n nTargetValue result, (turns n).selectCoins nTargetValue = .ok (some result) →
      SelectionContract w nTargetValue result)
    (low : 0 ≤ draft.nFeeRet) (high : draft.nFeeRet ≤ feeBound nTransactionFee) (held : draft.Held k.fns) {fuel n : Nat}
    (many : (feeBound nTransactionFee - draft.nFeeRet).toNat < fuel) :
    ∃ outcome, feeLoop prim k solve random allowFree nTransactionFee w vecSend nValue turns fuel n draft =
        some outcome ∧
      ∀ draft', outcome = .ok (true, draft') → draft'.Balances k.fns allowFree nTransactionFee w vecSend := by
  induction fuel generalizing n draft with
  | zero => exact absurd many (Nat.not_lt_zero _)
  | succ fuel ih =>
    unfold feeLoop
    cases ran : feeTurn prim k solve random allowFree nTransactionFee w vecSend nValue (turns n) draft with
    | error fault => exact ⟨_, rfl, nofun⟩
    | ok verdict =>
      have right := feeTurn_spec keyed range sum money (contract n) low high held ran
      cases verdict with
      | refused draft' =>
        refine ⟨_, rfl, fun draft'' same => ?_⟩
        cases same
      | created draft' =>
        refine ⟨_, rfl, fun draft'' same => ?_⟩
        cases same
        exact right
      | raised draft' =>
        obtain ⟨more, bound, held'⟩ := right
        exact ih (by omega) bound held' (by omega)

/-- Amounts that are in range are summed without a wrap. -/
theorem sumAmounts_eq {n : Int} (amounts : ∀ s ∈ vecSend, moneyRange s.2 = true) (start : 0 ≤ n)
    (fits : n + (vecSend.map Prod.snd).sum < 2 ^ 63) :
    sumAmounts vecSend n = some (n + (vecSend.map Prod.snd).sum) := by
  induction vecSend generalizing n with
  | nil => exact congrArg some (add_zero n).symm
  | cons s rest ih =>
    rw [List.map_cons, List.sum_cons, ← add_assoc] at fits ⊢
    obtain ⟨first, others⟩ := List.forall_mem_cons.mp amounts
    have positive : 0 ≤ s.2 := (of_decide_eq_true first).1
    have more : 0 ≤ (rest.map Prod.snd).sum := by
      refine List.sum_nonneg fun value member => ?_
      obtain ⟨other, inside, rfl⟩ := List.mem_map.mp member
      exact (of_decide_eq_true (others other inside)).1
    unfold sumAmounts
    rw [if_neg (not_lt.mpr start), wrap64_of_range (by omega) (by omega)]
    exact ih others (by omega) fits

/-- **A transaction that is created balances**, and the loop ends whatever is selected. -/
theorem createTransaction_balances
    (keyed : ∀ (hash : Uint256) (wtx : CWalletTx), w.mapWallet[hash]? = some wtx →
      prim.txnHash wtx.toTransaction = hash)
    (range : moneyRange nTransactionFee = true) (payees : vecSend ≠ [])
    (amounts : ∀ s ∈ vecSend, moneyRange s.2 = true) (total : moneyRange (vecSend.map Prod.snd).sum = true)
    {turns : Nat → FeeTurn}
    (contract : ∀ n nTargetValue result, (turns n).selectCoins nTargetValue = .ok (some result) →
      SelectionContract w nTargetValue result)
    (held : draft.Held k.fns) {fuel : Nat} (many : (feeBound nTransactionFee).toNat < fuel) :
    ∃ outcome, createTransaction prim k solve random allowFree nTransactionFee w vecSend turns fuel draft =
        some outcome ∧
      ∀ draft', outcome = .ok (true, draft') → draft'.Balances k.fns allowFree nTransactionFee w vecSend := by
  obtain ⟨low, high⟩ := of_decide_eq_true range
  obtain ⟨positive, most⟩ := of_decide_eq_true total
  have bound : nTransactionFee ≤ feeBound nTransactionFee := by
    unfold feeBound
    omega
  unfold createTransaction
  rw [sumAmounts_eq amounts le_rfl (by omega), zero_add]
  dsimp only
  rw [if_neg (by rintro (empty | negative); exacts [payees (List.isEmpty_iff.mp empty), by omega])]
  refine feeLoop_spec keyed range rfl total contract ?_ ?_ ?_ ?_
  · exact low
  · exact bound
  · exact ⟨held.standard, held.reserved⟩
  · dsimp only
    omega

end Turns

end TxWallet

namespace Small

def walletKey : Data := keyFunctions.i2o (secretOf 1) true

def walletStore : BasicKeyStore :=
  { BasicKeyStore.new with
    keys := (∅ : Map Uint160 (Secret × Bool)).insert (keyFunctions.toPubKeyHash walletKey) (secretOf 1, true) }

/-- A wallet with one coin, which is for its key. -/
def fundedWallet : TxWallet where
  mapWallet := (∅ : Map Uint256 CWalletTx).insert 20
    { version := 20, inputs := [], outputs := [{ value := 100000000, script := Script.pushData walletKey ++ [172] }]
      lockTime := 0, blockHash := 0, vtxPrev := [], vfSpent := [], debitCached := none }
  isMine := fun _ => true

/-- The coin is selected if it is enough. -/
def onlyCoin : FeeTurn where
  selectCoins nTargetValue := if nTargetValue ≤ 100000000 then .ok (some ([(20, 0)], 100000000)) else .ok none
  rand := 0

/-- Nothing yet, with a key for the change that was reserved before. -/
def newDraft : Draft where
  wtxNew := { version := 1, inputs := [], outputs := [], lockTime := 0 }
  nFeeRet := 0
  reservekey := { nIndex := 5, vchPubKey := walletKey }
  keys :=
    { newWallet with
      store := { CryptoKeyStore.new with toBasicKeyStore := walletStore }, vchDefaultKey := walletKey }

theorem onlyCoin_contract {nTargetValue : Int} {result : List (Uint256 × Nat) × Int}
    (selected : onlyCoin.selectCoins nTargetValue = .ok (some result)) :
    SelectionContract fundedWallet nTargetValue result := by
  unfold onlyCoin at selected
  dsimp only at selected
  split at selected
  · rename_i enough
    cases selected
    have own : fundedWallet.mapWallet.toList.flatMap fundedWallet.ownCoins = [(100000000, (20, 0))] := by
      decide +kernel
    refine ⟨⟨[(100000000, (20, 0))], ?_, rfl, rfl⟩, List.nodup_singleton _, enough, by decide⟩
    rw [own]
  · cases selected

end Small

open Libcoin.Small in
/-- Half of the coin is paid, and the rest but the fee is change: the fee is raised once. -/
theorem TxWallet.createTransaction_balances_half : ∃ draft : Draft,
    TxWallet.createTransaction prim signer (walletStore.solve signer) counting (fun _ _ => false) 0 fundedWallet
        [([82], 50000000)] (fun _ => onlyCoin) 5000001 newDraft = some (.ok (true, draft)) ∧
      draft.Balances keyFunctions (fun _ _ => false) 0 fundedWallet [([82], 50000000)] := by
  have paid : (TxWallet.createTransaction prim signer (walletStore.solve signer) counting (fun _ _ => false) 0
      fundedWallet [([82], 50000000)] (fun _ => onlyCoin) 5000001 newDraft).any
        (fun outcome => outcome.toOption.any Prod.fst) = true := by
    decide +kernel
  have keyed (hash : Uint256) (wtx : CWalletTx) (stored : fundedWallet.mapWallet[hash]? = some wtx) :
      prim.txnHash wtx.toTransaction = hash := by
    unfold fundedWallet at stored
    rw [lookup_insert] at stored
    split at stored
    · rename_i same
      cases stored
      exact same
    · cases (lookup_empty hash).symm.trans stored
  have held : newDraft.keys.Owns keyFunctions walletKey := by
    show (walletStore.keys[keyFunctions.toPubKeyHash walletKey]?).isSome = true
    unfold walletStore
    rw [lookup_insert_self]
    rfl
  obtain ⟨outcome, ran, balances⟩ := @createTransaction_balances prim signer (walletStore.solve signer) counting
    (fun _ _ => false) 0 fundedWallet [([82], 50000000)] newDraft keyed rfl (List.cons_ne_nil _ _) (by decide)
    (by decide) (fun _ => onlyCoin) (fun _ _ _ => onlyCoin_contract) ⟨held, fun _ => held⟩ 5000001 (by decide)
  rw [ran] at paid
  cases outcome with
  | error fault => cases paid
  | ok result =>
    obtain ⟨created, draft⟩ := result
    cases created with
    | false => cases paid
    | true => exact ⟨draft, ran, balances draft rfl⟩

end Libcoin
