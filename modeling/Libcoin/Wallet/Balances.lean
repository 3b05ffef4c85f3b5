/-
What a wallet counts: transactions that are added to it, the outputs that are marked as spent, and the balance.

* `addToWalletIfInvolvingMe` adds a transaction that is not in a block, and `walletUpdateSpent` marks the outputs that
  it spends. The default key that is replaced when it is used is left out: the keys are those of `isMine`.
* `WalletEvent` are the transactions that arrive and the credits that are asked for in between. They fill the caches.
* `Booked` is the invariant: the own outputs of what arrived are those of the transactions of the wallet, an own output
  is marked as spent if and only if some transaction that arrived spends it, and a cached credit is the one of the
  outputs that are not marked. `BookedTx` is the part about one transaction of the wallet.

What a wallet writes to its file has no effect on it, but `addToWallet` ends early if it cannot write.
-/

import Libcoin.Wallet.Ancestors
import Libcoin.Wallet.CoinSelection
import Mathlib.Algebra.BigOperators.Group.Finset.Basic
import Mathlib.Algebra.BigOperators.Group.Finset.Piecewise
import Mathlib.Algebra.Order.BigOperators.Group.Finset

namespace Libcoin

open Exec Map

/-! ### Credits -/

namespace TxWallet

/-- `IsMine` of a transaction. -/
def isMineTx (w : TxWallet) (tx : Transaction) : Bool := tx.outputs.any fun txout => w.isMine txout.script

/-- `GetCredit` of an output. -/
def getCreditOut (w : TxWallet) (txout : Output) : Except Fault Int :=
  if moneyRange txout.value then .ok (if w.isMine txout.script then txout.value else 0)
  else .error (.error "Wallet::GetCredit() : value out of range")

/-- An amount is added to a sum that has to stay in range. -/
def addInRange (what : String) (sum amount : Int) : Except Fault Int :=
  if moneyRange (wrap64 (sum + amount)) then .ok (wrap64 (sum + amount)) else .error (.error what)

/-- `GetCredit`. -/
def getCredit (w : TxWallet) (tx : Transaction) : Except Fault Int :=
  tx.outputs.foldlM (fun credit txout => do
    let amount ← w.getCreditOut txout
    addInRange "Wallet::GetCredit() : value out of range" credit amount) 0

end TxWallet

namespace CWalletTx

section Source

variable (cfg : Config) (s : BlockChain) (w : TxWallet) (tx : CWalletTx) (fUseCache : Bool)

/-- `CWalletTx(pwallet, tx)`. -/
def ofTransaction (tx : Transaction) : CWalletTx :=
  { tx with blockHash := 0, vtxPrev := [], vfSpent := [], debitCached := none }

/-- `GetCredit` of a transaction of the wallet, with its cache. -/
def getCredit : Except Fault (Int × CWalletTx) := do
  let immature ← TxWallet.isImmature cfg s tx
  if immature then return (0, tx)
  else
    match if fUseCache then tx.creditCached else none with
    | some credit => return (credit, tx)
    | none =>
      let credit ← w.getCredit tx.toTransaction
      return (credit, { tx with creditCached := some credit })

/-- The loop of `GetAvailableCredit` over the outputs. -/
def sumAvailable : Except Fault Int :=
  tx.outputs.zipIdx.foldlM (fun credit (txout, i) =>
    if tx.isSpent i then .ok credit
    else do
      let amount ← w.getCreditOut txout
      TxWallet.addInRange "CWalletTx::GetAvailableCredit() : value out of range" credit amount) 0

/-- `GetAvailableCredit`, with its cache. -/
def getAvailableCredit : Except Fault (Int × CWalletTx) := do
  let immature ← TxWallet.isImmature cfg s tx
  if immature then return (0, tx)
  else
    match if fUseCache then tx.availableCreditCached else none with
    | some credit => return (credit, tx)
    | none =>
      let credit ← tx.sumAvailable w
      return (credit, { tx with availableCreditCached := some credit })

/-- `IsSpent`, with its test of the index. -/
def checkedIsSpent (nOut : Nat) : Except Fault Bool :=
  if tx.outputs.length ≤ nOut then .error (.error "CWalletTx::IsSpent() : nOut out of range")
  else .ok (tx.isSpent nOut)

/-- `vfSpent.resize(_outputs.size())`. -/
def resized : List Bool :=
  tx.vfSpent.take tx.outputs.length ++ List.replicate (tx.outputs.length - tx.vfSpent.length) false

/-- `MarkSpent`. -/
def markSpent (nOut : Nat) : Except Fault CWalletTx :=
  if tx.outputs.length ≤ nOut then .error (.error "CWalletTx::MarkSpent() : nOut out of range")
  else if tx.resized.getD nOut false then .ok { tx with vfSpent := tx.resized }
  else .ok { tx with vfSpent := tx.resized.set nOut true, availableCreditCached := none }

/-- The loop of `UpdateSpent`, which ends with the shorter one of the vectors. -/
def mergeSpent : List Bool → List Bool → List Bool
  | old :: olds, new :: news => (old || new) :: mergeSpent olds news
  | olds, _ => olds

/-- `UpdateSpent`, with its result. -/
def updateSpent (vfNewSpent : List Bool) : Bool × CWalletTx :=
  if mergeSpent tx.vfSpent vfNewSpent = tx.vfSpent then (false, tx)
  else (true, { tx with vfSpent := mergeSpent tx.vfSpent vfNewSpent, availableCreditCached := none })

/-- The merge of `AddToWallet`, and whether anything is updated. -/
def merge (wtxIn : CWalletTx) : Bool × CWalletTx :=
  let newBlock := decide (wtxIn.blockHash ≠ 0 ∧ wtxIn.blockHash ≠ tx.blockHash)
  let wtx := if newBlock then { tx with blockHash := wtxIn.blockHash } else tx
  let newBranch := decide (wtxIn.index ≠ -1 ∧ (wtxIn.merkleBranch ≠ wtx.merkleBranch ∨ wtxIn.index ≠ wtx.index))
  let wtx := if newBranch then { wtx with merkleBranch := wtxIn.merkleBranch, index := wtxIn.index } else wtx
  let newFromMe := wtxIn.fFromMe && !wtx.fFromMe
  let wtx := if newFromMe then { wtx with fFromMe := wtxIn.fFromMe } else wtx
  let (newSpent, wtx) := wtx.updateSpent wtxIn.vfSpent
  (newBlock || newBranch || newFromMe || newSpent, wtx)

end Source

end CWalletTx

/-! ### The wallet -/

namespace TxWallet

section Source

variable (cfg : Config) (clock : Clock) (s : BlockChain) (writeToDisk : CWalletTx → Bool) (w : TxWallet)

/-- The loop of `WalletUpdateSpent`, one input of it. A credit is looked up for the log. -/
def updateSpentBy (txin : Input) : Except Fault TxWallet :=
  match w.mapWallet[txin.prevout.hash]? with
  | none => .ok w
  | some wtx => do
    let spent ← wtx.checkedIsSpent txin.prevout.index
    if !spent && wtx.outputs[txin.prevout.index]?.any (fun txout => w.isMine txout.script) then
      let (_, wtx) ← wtx.getCredit cfg s w true
      let wtx ← wtx.markSpent txin.prevout.index
      return { w with mapWallet := w.mapWallet.insert txin.prevout.hash wtx }
    else return w

/-- `WalletUpdateSpent`. -/
def walletUpdateSpent (tx : Transaction) : Except Fault TxWallet :=
  tx.inputs.foldlM (fun w txin => updateSpentBy cfg s w txin) w

/-- `AddToWallet`, with its result. -/
def addToWallet (wtxIn : CWalletTx) : Except Fault (Bool × TxWallet) :=
  let hash := cfg.prim.txnHash wtxIn.toTransaction
  let (changed, wtx) :=
    match w.mapWallet[hash]? with
    | none => (true, wtxIn)
    | some wtx => wtx.merge wtxIn
  let stored := { w with mapWallet := w.mapWallet.insert hash wtx }
  if changed && !writeToDisk wtx then .ok (false, stored)
  else do
    let updated ← walletUpdateSpent cfg s stored wtx.toTransaction
    return (true, updated)

/-- Whether `AddToWalletIfInvolvingMe` adds a transaction. -/
def involvesMe (tx : Transaction) : Except Fault Bool :=
  if w.mapWallet[cfg.prim.txnHash tx]?.isSome || w.isMineTx tx then .ok true else w.isFromMe tx

/-- `AddToWalletIfInvolvingMe(tx, NULL, fUpdate)`, with its result. -/
def addToWalletIfInvolvingMe (tx : Transaction) (fUpdate : Bool) : Except Fault (Bool × TxWallet) :=
  if w.mapWallet[cfg.prim.txnHash tx]?.isSome && !fUpdate then .ok (false, w)
  else do
    let involved ← involvesMe cfg w tx
    if involved then addToWallet cfg s writeToDisk w (.ofTransaction tx)
    else
      let updated ← walletUpdateSpent cfg s w tx
      return (false, updated)

/-- The loop of `GetBalance`, one transaction of it. -/
def addBalance (confirmed : Bool) (nTotal : Int) (entry : WalletEntry) : Except Fault (Int × CWalletTx) := do
  let counted ← if confirmed then isConfirmed cfg clock s w entry.2 else pure true
  if !counted then return (nTotal, entry.2)
  else
    let (credit, wtx) ← entry.2.getAvailableCredit cfg s w false
    return (wrap64 (nTotal + credit), wtx)

/-- `GetBalance`, with the caches that it leaves. -/
def getBalance (confirmed : Bool) : Except Fault (Int × TxWallet) :=
  w.mapWallet.toList.foldlM (fun (nTotal, w) entry => do
    let (nTotal, wtx) ← addBalance cfg clock s w confirmed nTotal entry
    return (nTotal, { w with mapWallet := w.mapWallet.insert entry.1 wtx })) (0, w)

end Source

end TxWallet

/-- A wallet without transactions. -/
def TxWallet.empty (isMine : Script → Bool) : TxWallet := { mapWallet := ∅, isMine := isMine }

/-- What happens to a wallet: a transaction is accepted, or somebody asks for a credit. -/
inductive WalletEvent
  | transactionAccepted (tx : Transaction)
  | getBalance
  | getAvailableCredit (hash : Uint256) (fUseCache : Bool)
  deriving DecidableEq, Repr

namespace WalletEvent

/-- The wallet after an event. -/
def apply (cfg : Config) (clock : Clock) (s : BlockChain) (writeToDisk : CWalletTx → Bool) (w : TxWallet) :
    WalletEvent → Except Fault TxWallet
  | transactionAccepted tx => do
    let (_, w) ← w.addToWalletIfInvolvingMe cfg s writeToDisk tx true
    return w
  | getBalance => do
    let (_, w) ← w.getBalance cfg clock s false
    return w
  | getAvailableCredit hash fUseCache =>
    match w.mapWallet[hash]? with
    | none => .ok w
    | some wtx => do
      let (_, wtx) ← wtx.getAvailableCredit cfg s w fUseCache
      return { w with mapWallet := w.mapWallet.insert hash wtx }

/-- The transactions among the events. -/
def arrived (events : List WalletEvent) : List Transaction :=
  events.filterMap fun
    | transactionAccepted tx => some tx
    | _ => none

end WalletEvent

/-- The wallet after a list of events. -/
def TxWallet.after (cfg : Config) (clock : Clock) (s : BlockChain) (writeToDisk : CWalletTx → Bool) (w : TxWallet)
    (events : List WalletEvent) : Except Fault TxWallet :=
  events.foldlM (WalletEvent.apply cfg clock s writeToDisk) w

/-! ### What the balance should be -/

/-- The coins that some transaction spends. -/
def spentCoins (txs : List Transaction) : List Coin := txs.flatMap fun tx => tx.inputs.map Input.prevout

/-- The own outputs of a transaction that are not spent, in values. -/
def unspentValue (prim : Primitives) (isMine : Script → Bool) (spent : List Coin) (tx : Transaction) : Int :=
  (tx.outputs.zipIdx.map fun (txout, i) =>
    if isMine txout.script ∧ ({ hash := prim.txnHash tx, index := i } : Coin) ∉ spent then txout.value else 0).sum

/-- The sum of the own outputs of distinct transactions that none of them spends. -/
def balanceOf (prim : Primitives) (isMine : Script → Bool) (txs : List Transaction) : Int :=
  ∑ tx ∈ txs.toFinset, unspentValue prim isMine (spentCoins txs) tx

/-- The value that an input spends, if the transaction that it spends is among some. -/
def valueSpent (prim : Primitives) (txs : List Transaction) (txin : Input) : Int :=
  ((txs.find? fun prev => prim.txnHash prev = txin.prevout.hash).bind fun prev =>
    prev.outputs[txin.prevout.index]?).elim 0 Output.value

/-- No output of a transaction is negative, and the sum of them is in range. -/
def Transaction.InRange (tx : Transaction) : Prop :=
  (∀ txout ∈ tx.outputs, 0 ≤ txout.value) ∧ moneyRange (tx.outputs.map Output.value).sum = true

instance (tx : Transaction) : Decidable tx.InRange := inferInstanceAs (Decidable (_ ∧ _))

/-- Transactions that are told apart by their hashes, none of which is a coinbase, each after the ones that it spends,
with indices, values and sums of values in range. -/
structure Arrivals (prim : Primitives) (isMine : Script → Bool) (txs : List Transaction) : Prop where
  apart : ∀ tx ∈ txs, ∀ other ∈ txs, prim.txnHash tx = prim.txnHash other → tx = other
  plain : ∀ tx ∈ txs, tx.isCoinBase = false
  ordered : ∀ (i : Nat) (lt : i < txs.length), ∀ txin ∈ txs[i].inputs, ∀ prev ∈ txs,
    prim.txnHash prev = txin.prevout.hash → prev ∈ txs.take i
  indices : ∀ tx ∈ txs, ∀ txin ∈ tx.inputs, ∀ prev ∈ txs, prim.txnHash prev = txin.prevout.hash →
    txin.prevout.index < prev.outputs.length
  values : ∀ tx ∈ txs, tx.InRange
  debits : ∀ tx ∈ txs, moneyRange (tx.inputs.map (valueSpent prim txs)).sum = true
  total : balanceOf prim isMine txs < 2 ^ 63

/-! ### Sums in range -/

section Sums

open TxWallet

theorem moneyRange_iff {value : Int} : moneyRange value = true ↔ 0 ≤ value ∧ value ≤ 21000000 * 100000000 := by
  unfold moneyRange
  exact decide_eq_true_iff

theorem addInRange_ok (what : String) {sum amount : Int} (range : moneyRange (sum + amount) = true) :
    addInRange what sum amount = .ok (sum + amount) := by
  obtain ⟨low, high⟩ := moneyRange_iff.mp range
  unfold addInRange
  rw [wrap64_of_range (by omega) (by omega), if_pos range]

/-- A loop that adds amounts, none of which is negative, up to a sum in range. -/
theorem foldlM_inRange {A : Type} {step : Int → A → Except Fault Int} {amount : A → Int} {xs : List A}
    (each : ∀ x ∈ xs, 0 ≤ amount x ∧ ∀ sum, moneyRange sum = true → moneyRange (sum + amount x) = true →
      step sum x = .ok (sum + amount x)) {start : Int} (first : moneyRange start = true)
    (range : moneyRange (start + (xs.map amount).sum) = true) :
    xs.foldlM step start = .ok (start + (xs.map amount).sum) := by
  induction xs generalizing start with
  | nil =>
    rw [List.map_nil, List.sum_nil, Int.add_zero]
    rfl
  | cons x xs ih =>
    rw [List.map_cons, List.sum_cons, ← Int.add_assoc] at range ⊢
    obtain ⟨positive, ran⟩ := each x List.mem_cons_self
    have rest : 0 ≤ (xs.map amount).sum := by
      refine List.sum_nonneg fun value member => ?_
      obtain ⟨y, inside, rfl⟩ := List.mem_map.mp member
      exact (each y (List.mem_cons_of_mem _ inside)).1
    have inside : moneyRange (start + amount x) = true := by
      rw [moneyRange_iff] at first range ⊢
      omega
    rw [List.foldlM_cons, ran start first inside, ok_bind]
    exact ih (fun y member => each y (List.mem_cons_of_mem _ member)) inside range

end Sums

/-! ### The books -/

/-- What holds of a transaction of the wallet, after some transactions arrived and some coins were spent. -/
structure BookedTx (prim : Primitives) (isMine : Script → Bool) (seen : List Transaction) (spent : List Coin)
    (hash : Uint256) (wtx : CWalletTx) : Prop where
  member : wtx.toTransaction ∈ seen
  named : prim.txnHash wtx.toTransaction = hash
  flags : ∀ (i : Nat) (txout : Output), wtx.outputs[i]? = some txout → isMine txout.script = true →
    (wtx.isSpent i = true ↔ ({ hash := hash, index := i } : Coin) ∈ spent)
  cached : ∀ credit, wtx.availableCreditCached = some credit →
    credit = unspentValue prim isMine spent wtx.toTransaction

/-- What holds of a wallet. -/
structure Booked (prim : Primitives) (isMine : Script → Bool) (seen : List Transaction) (spent : List Coin)
    (w : TxWallet) : Prop where
  keys : w.isMine = isMine
  entries : ∀ hash wtx, w.mapWallet[hash]? = some wtx → BookedTx prim isMine seen spent hash wtx
  own : ∀ tx ∈ seen, w.isMineTx tx = true → w.mapWallet[prim.txnHash tx]?.isSome = true

section Wallets

variable {cfg : Config} {clock : Clock} {s : BlockChain} {isMine : Script → Bool} {txs seen : List Transaction}
  {spent : List Coin} {hash : Uint256} {wtx : CWalletTx} {w : TxWallet} {events : List WalletEvent}

/-- A transaction of the wallet is stored, in place of another one or not. -/
theorem books_insert (keys : w.isMine = isMine) (entry : BookedTx cfg.prim isMine seen spent hash wtx)
    (others : ∀ other ≠ hash, ∀ stored, w.mapWallet[other]? = some stored →
      BookedTx cfg.prim isMine seen spent other stored)
    (own : ∀ tx ∈ seen, w.isMineTx tx = true →
      cfg.prim.txnHash tx = hash ∨ w.mapWallet[cfg.prim.txnHash tx]?.isSome = true) :
    Booked cfg.prim isMine seen spent { w with mapWallet := w.mapWallet.insert hash wtx } := by
  refine ⟨keys, fun other stored found => ?_, fun tx member mine => ?_⟩
  · dsimp only at found
    rw [lookup_insert] at found
    split at found
    · rename_i same
      cases found
      exact same ▸ entry
    · rename_i different
      exact others other (Ne.symm different) stored found
  · dsimp only
    rw [lookup_insert]
    split
    · rfl
    · rename_i different
      exact (own tx member mine).resolve_left (Ne.symm different)

/-- A stored transaction changes in its caches only. -/
theorem Booked.insert (books : Booked cfg.prim isMine seen spent w)
    (entry : BookedTx cfg.prim isMine seen spent hash wtx) :
    Booked cfg.prim isMine seen spent { w with mapWallet := w.mapWallet.insert hash wtx } :=
  books_insert books.keys entry (fun other _ => books.entries other)
    fun tx member mine => .inr (books.own tx member mine)

namespace Transaction.InRange

variable {tx : Transaction}

theorem output (range : tx.InRange) {txout : Output} (member : txout ∈ tx.outputs) : moneyRange txout.value = true := by
  have most := List.single_le_sum (fun value inside => by
    obtain ⟨other, there, rfl⟩ := List.mem_map.mp inside
    exact range.1 other there) _ (List.mem_map_of_mem member)
  exact moneyRange_iff.mpr ⟨range.1 txout member, most.trans (moneyRange_iff.mp range.2).2⟩

/-- A sum of amounts of the outputs that are at most their values is in range. -/
theorem part (range : tx.InRange) {A : Type} {xs : List A} {output : A → Output} (all : xs.map output = tx.outputs)
    {amount : A → Int} (each : ∀ x ∈ xs, 0 ≤ amount x ∧ amount x ≤ (output x).value) :
    moneyRange (xs.map amount).sum = true := by
  have most := List.sum_le_sum fun x member => (each x member).2
  have values : (xs.map fun x => (output x).value).sum = (tx.outputs.map Output.value).sum := by
    rw [← all, List.map_map]
    rfl
  rw [values] at most
  refine moneyRange_iff.mpr ⟨List.sum_nonneg fun value inside => ?_, most.trans (moneyRange_iff.mp range.2).2⟩
  obtain ⟨x, member, rfl⟩ := List.mem_map.mp inside
  exact (each x member).1

/-- What the loops over the outputs of a transaction return. -/
theorem sum (range : tx.InRange) {A : Type} {xs : List A} {output : A → Output} (all : xs.map output = tx.outputs)
    (amount : A → Int) (each : ∀ x ∈ xs, 0 ≤ amount x ∧ amount x ≤ (output x).value)
    {step : Int → A → Except Fault Int}
    (ran : ∀ x ∈ xs, ∀ sum, moneyRange sum = true → moneyRange (sum + amount x) = true →
      step sum x = .ok (sum + amount x)) : xs.foldlM step 0 = .ok (xs.map amount).sum := by
  have inside : moneyRange (0 + (xs.map amount).sum) = true := by
    rw [Int.zero_add]
    exact range.part all each
  have added := foldlM_inRange (fun x member => ⟨(each x member).1, ran x member⟩) rfl inside
  rwa [Int.zero_add] at added

/-- What is counted of an output. -/
theorem counted_le (range : tx.InRange) {txout : Output} (member : txout ∈ tx.outputs) (counted : Prop)
    [Decidable counted] :
    0 ≤ (if counted then txout.value else 0) ∧ (if counted then txout.value else 0) ≤ txout.value := by
  have positive := range.1 txout member
  split
  · exact ⟨positive, le_rfl⟩
  · exact ⟨le_rfl, positive⟩

end Transaction.InRange

theorem getCreditOut_inRange (w : TxWallet) {txout : Output} (range : moneyRange txout.value = true) :
    w.getCreditOut txout = .ok (if w.isMine txout.script then txout.value else 0) := by
  unfold TxWallet.getCreditOut
  rw [if_pos range]

theorem isImmature_plain (plain : wtx.isCoinBase = false) : TxWallet.isImmature cfg s wtx = .ok false := by
  unfold TxWallet.isImmature
  rw [plain]
  rfl

theorem exists_creditOf (range : wtx.InRange) (w : TxWallet) :
    ∃ credit, w.getCredit wtx.toTransaction = .ok credit := by
  refine ⟨_, range.sum (List.map_id wtx.outputs) (fun txout => if w.isMine txout.script then txout.value else 0)
    (fun txout member => range.counted_le member _) fun txout member sum _ inside => ?_⟩
  rw [getCreditOut_inRange w (range.output member), ok_bind]
  exact addInRange_ok _ inside

/-- A credit that is looked up is found, whatever is cached. -/
theorem exists_getCredit (cfg : Config) (s : BlockChain) (range : wtx.InRange) (plain : wtx.isCoinBase = false)
    (w : TxWallet) :
    ∃ credit creditCached, wtx.getCredit cfg s w true = .ok (credit, { wtx with creditCached := creditCached }) := by
  unfold CWalletTx.getCredit
  rw [isImmature_plain plain, ok_bind, if_neg Bool.false_ne_true, if_pos rfl]
  cases cache : wtx.creditCached with
  | some credit =>
    exact ⟨credit, wtx.creditCached, rfl⟩
  | none =>
    obtain ⟨credit, found⟩ := exists_creditOf range w
    dsimp only
    rw [found]
    exact ⟨_, _, rfl⟩

/-- The credit that is available is the one of the outputs that are not spent. -/
theorem BookedTx.sumAvailable (entry : BookedTx cfg.prim isMine seen spent hash wtx) (range : wtx.InRange)
    (keys : w.isMine = isMine) : wtx.sumAvailable w = .ok (unspentValue cfg.prim isMine spent wtx.toTransaction) := by
  unfold CWalletTx.sumAvailable unspentValue
  have inside {x : Output × Nat} (member : x ∈ wtx.outputs.zipIdx) : x.1 ∈ wtx.outputs :=
    List.mem_of_getElem? (List.mem_zipIdx_iff_getElem?.mp member)
  refine range.sum (List.zipIdx_map_fst 0 _) _ (fun x member => range.counted_le (inside member) _)
    fun (txout, i) member sum low high => ?_
  have flags := entry.flags i txout (List.mem_zipIdx_iff_getElem?.mp member)
  dsimp only at high ⊢
  rw [entry.named] at high ⊢
  by_cases mine : isMine txout.script = true
  · have flag := flags mine
    by_cases known : wtx.isSpent i = true
    · rw [if_pos known, if_neg fun both => both.2 (flag.mp known), Int.add_zero]
    · have unspent : isMine txout.script = true ∧ ({ hash := hash, index := i } : Coin) ∉ spent :=
        ⟨mine, fun gone => known (flag.mpr gone)⟩
      rw [if_pos unspent] at high ⊢
      rw [if_neg known, getCreditOut_inRange w (range.output (inside member)), ok_bind, keys, if_pos mine]
      exact addInRange_ok _ high
  · have foreign : ¬(isMine txout.script = true ∧ ({ hash := hash, index := i } : Coin) ∉ spent) :=
      fun both => mine both.1
    rw [if_neg foreign, Int.add_zero]
    by_cases known : wtx.isSpent i = true
    · rw [if_pos known]
    · rw [if_neg known, getCreditOut_inRange w (range.output (inside member)), ok_bind, keys, if_neg mine]
      have whole : moneyRange (sum + 0) = true := by rwa [Int.add_zero]
      have same := addInRange_ok "CWalletTx::GetAvailableCredit() : value out of range" whole
      rwa [Int.add_zero] at same

theorem resized_getD {i : Nat} (inside : i < wtx.outputs.length) : wtx.resized.getD i false = wtx.isSpent i := by
  unfold CWalletTx.resized CWalletTx.isSpent
  grind

/-- What `MarkSpent` does to a transaction with an output that is not spent. -/
theorem exists_markSpent {nOut : Nat} (inside : nOut < wtx.outputs.length) (unspent : wtx.isSpent nOut = false) :
    ∃ marked, wtx.markSpent nOut = .ok marked ∧ marked.toTransaction = wtx.toTransaction ∧
      marked.availableCreditCached = none ∧
      ∀ i < wtx.outputs.length, marked.isSpent i = true ↔ i = nOut ∨ wtx.isSpent i = true := by
  have long : wtx.resized.length = wtx.outputs.length := by
    unfold CWalletTx.resized
    grind
  unfold CWalletTx.markSpent
  rw [if_neg (not_le.mpr inside), resized_getD inside, unspent, if_neg Bool.false_ne_true]
  refine ⟨_, rfl, rfl, rfl, fun i lt => ?_⟩
  rw [← resized_getD lt]
  unfold CWalletTx.isSpent
  grind

/-- What an entry says of a transaction of the wallet that differs in its caches. -/
theorem BookedTx.recache (entry : BookedTx cfg.prim isMine seen spent hash wtx) {other : CWalletTx}
    (same : other.toTransaction = wtx.toTransaction) (flags : other.vfSpent = wtx.vfSpent)
    (cached : ∀ credit, other.availableCreditCached = some credit →
      credit = unspentValue cfg.prim isMine spent wtx.toTransaction) :
    BookedTx cfg.prim isMine seen spent hash other := by
  refine ⟨same ▸ entry.member, same ▸ entry.named, fun i txout found mine => ?_, same ▸ cached⟩
  have found : wtx.outputs[i]? = some txout := same ▸ found
  have flag := entry.flags i txout found mine
  unfold CWalletTx.isSpent at flag ⊢
  rwa [flags]

/-- A coin of another transaction, or one that is not mine, makes no difference to an entry. -/
theorem BookedTx.skip (entry : BookedTx cfg.prim isMine seen spent hash wtx) {coin : Coin}
    (unrelated : ∀ (i : Nat) (txout : Output), wtx.outputs[i]? = some txout → isMine txout.script = true →
      coin = { hash := hash, index := i } → wtx.isSpent i = true) :
    BookedTx cfg.prim isMine seen (spent ++ [coin]) hash wtx := by
  have known (i : Nat) (txout : Output) (found : wtx.outputs[i]? = some txout) (mine : isMine txout.script = true) :
      ({ hash := hash, index := i } : Coin) ∈ spent ++ [coin] ↔ ({ hash := hash, index := i } : Coin) ∈ spent := by
    rw [List.mem_append, List.mem_singleton]
    refine ⟨fun either => either.elim id fun same => ?_, Or.inl⟩
    exact (entry.flags i txout found mine).mp (unrelated i txout found mine same.symm)
  refine ⟨entry.member, entry.named, fun i txout found mine => ?_, fun credit cached => ?_⟩
  · rw [known i txout found mine]
    exact entry.flags i txout found mine
  · rw [entry.cached credit cached]
    unfold unspentValue
    refine congrArg List.sum (List.map_congr_left fun (txout, i) member => ?_)
    dsimp only
    rw [entry.named]
    have found := List.mem_zipIdx_iff_getElem?.mp member
    exact if_congr (and_congr_right fun mine => not_congr (known i txout found mine).symm) rfl rfl

/-- A coin that is spent is marked, if it is an own one of the wallet. -/
theorem updateSpentBy_books (arrivals : Arrivals cfg.prim isMine txs) (books : Booked cfg.prim isMine seen spent w)
    (part : seen ⊆ txs) {txin : Input}
    (indices : ∀ prev ∈ txs, cfg.prim.txnHash prev = txin.prevout.hash → txin.prevout.index < prev.outputs.length) :
    ∃ w', TxWallet.updateSpentBy cfg s w txin = .ok w' ∧ Booked cfg.prim isMine seen (spent ++ [txin.prevout]) w' := by
  have others {other : Uint256} (different : other ≠ txin.prevout.hash) {stored : CWalletTx}
      (found : w.mapWallet[other]? = some stored) :
      BookedTx cfg.prim isMine seen (spent ++ [txin.prevout]) other stored :=
    (books.entries other stored found).skip fun i txout _ _ same => absurd (congrArg Coin.hash same).symm different
  unfold TxWallet.updateSpentBy
  cases found : w.mapWallet[txin.prevout.hash]? with
  | none =>
    refine ⟨w, rfl, books.keys, fun other stored known => others ?_ known, books.own⟩
    rintro rfl
    rw [found] at known
    cases known
  | some wtx =>
    have entry := books.entries _ wtx found
    have inside := indices _ (part entry.member) entry.named
    have range := arrivals.values _ (part entry.member)
    dsimp only
    unfold CWalletTx.checkedIsSpent
    rw [if_neg (not_le.mpr inside), ok_bind]
    split
    · rename_i marks
      obtain ⟨unspent, own⟩ := Bool.and_eq_true_iff.mp marks
      obtain ⟨credit, cache, looked⟩ := exists_getCredit cfg s range (arrivals.plain _ (part entry.member)) w
      obtain ⟨marked, ran, same, dirty, flags⟩ :=
        @exists_markSpent { wtx with creditCached := cache } _ inside ((Bool.not_eq_true' _).mp unspent)
      rw [looked, ok_bind]
      dsimp only
      rw [ran, ok_bind]
      refine ⟨_, rfl, books_insert books.keys ⟨same ▸ entry.member, same ▸ entry.named, ?_, ?_⟩
        (fun other different stored known => others different known)
        fun tx member mine => .inr (books.own tx member mine)⟩
      · intro i txout at_ mine
        have at_ : wtx.outputs[i]? = some txout := same ▸ at_
        rw [flags i (List.getElem?_eq_some_iff.mp at_).1, List.mem_append, List.mem_singleton, or_comm]
        exact or_congr (entry.flags i txout at_ mine) ⟨fun here => here ▸ rfl, fun here => congrArg Coin.index here⟩
      · rw [dirty]
        exact nofun
    · rename_i kept
      refine ⟨w, rfl, books.keys, fun other stored known => ?_, books.own⟩
      by_cases here : other = txin.prevout.hash
      · subst here
        obtain rfl := Option.some.inj (found.symm.trans known)
        refine entry.skip fun i txout at_ mine same => ?_
        by_contra unspent
        obtain rfl := congrArg Coin.index same
        rw [at_, Bool.eq_false_of_not_eq_true unspent, Option.any_some, books.keys, mine] at kept
        exact kept rfl
      · exact others here known

/-- The coins that a transaction spends are marked. -/
theorem walletUpdateSpent_books (arrivals : Arrivals cfg.prim isMine txs) (books : Booked cfg.prim isMine seen spent w)
    (part : seen ⊆ txs) {tx : Transaction} (member : tx ∈ txs) :
    ∃ w', TxWallet.walletUpdateSpent cfg s w tx = .ok w' ∧
      Booked cfg.prim isMine seen (spent ++ tx.inputs.map Input.prevout) w' := by
  have indices := arrivals.indices tx member
  unfold TxWallet.walletUpdateSpent
  generalize tx.inputs = inputs at indices
  induction inputs generalizing w spent with
  | nil =>
    refine ⟨w, rfl, ?_⟩
    rwa [List.map_nil, List.append_nil]
  | cons txin inputs ih =>
    obtain ⟨mid, ran, marked⟩ := updateSpentBy_books (s := s) arrivals books part (indices txin List.mem_cons_self)
    obtain ⟨w', rest, done⟩ := ih marked fun other inside => indices other (List.mem_cons_of_mem _ inside)
    refine ⟨w', ?_, ?_⟩
    · rw [List.foldlM_cons, ran, ok_bind, rest]
    · rwa [List.map_cons, List.append_cons]

/-! ### Arrivals -/

theorem Arrivals.valueSpent_nonneg (arrivals : Arrivals cfg.prim isMine txs) (txin : Input) :
    0 ≤ valueSpent cfg.prim txs txin := by
  unfold valueSpent
  cases found : (txs.find? fun prev => cfg.prim.txnHash prev = txin.prevout.hash).bind fun prev =>
      prev.outputs[txin.prevout.index]? with
  | none => exact le_rfl
  | some txout =>
    obtain ⟨prev, known, at_⟩ := Option.bind_eq_some_iff.mp found
    exact (arrivals.values prev (List.mem_of_find?_eq_some known)).1 txout (List.mem_of_getElem? at_)

/-- The debit of an input is at most the value that it spends. -/
theorem Booked.getDebitIn (books : Booked cfg.prim isMine seen spent w) (arrivals : Arrivals cfg.prim isMine txs)
    (part : seen ⊆ txs) (txin : Input) :
    0 ≤ w.getDebitIn txin ∧ w.getDebitIn txin ≤ valueSpent cfg.prim txs txin := by
  have positive := arrivals.valueSpent_nonneg txin
  unfold TxWallet.getDebitIn
  cases found : w.mapWallet[txin.prevout.hash]? with
  | none => exact ⟨le_rfl, positive⟩
  | some prev =>
    have entry := books.entries _ prev found
    dsimp only
    cases at_ : prev.outputs[txin.prevout.index]? with
    | none => exact ⟨le_rfl, positive⟩
    | some txout =>
      have same : valueSpent cfg.prim txs txin = txout.value := by
        unfold valueSpent
        cases first : txs.find? fun prev => cfg.prim.txnHash prev = txin.prevout.hash with
        | none =>
          have missed := List.find?_eq_none.mp first _ (part entry.member)
          exact absurd (decide_eq_true entry.named) missed
        | some other =>
          have named := List.find?_some first
          have named : cfg.prim.txnHash other = txin.prevout.hash := of_decide_eq_true named
          have known := List.mem_of_find?_eq_some first
          obtain rfl := arrivals.apart other known _ (part entry.member) (named.trans entry.named.symm)
          rw [Option.bind_some, at_]
          rfl
      rw [same] at positive ⊢
      dsimp only
      split
      · exact ⟨positive, le_rfl⟩
      · exact ⟨le_rfl, positive⟩

/-- Whether a transaction is from me is known. -/
theorem Booked.isFromMe (books : Booked cfg.prim isMine seen spent w) (arrivals : Arrivals cfg.prim isMine txs)
    (part : seen ⊆ txs) {tx : Transaction} (member : tx ∈ txs) : ∃ mine, w.isFromMe tx = .ok mine := by
  have each (txin : Input) := books.getDebitIn arrivals part txin
  have range : moneyRange (0 + (tx.inputs.map w.getDebitIn).sum) = true := by
    have most := List.sum_le_sum fun (txin : Input) (_ : txin ∈ tx.inputs) => (each txin).2
    have low : 0 ≤ (tx.inputs.map w.getDebitIn).sum := by
      refine List.sum_nonneg fun value inside => ?_
      obtain ⟨txin, -, rfl⟩ := List.mem_map.mp inside
      exact (each txin).1
    have high := moneyRange_iff.mp (arrivals.debits tx member)
    exact moneyRange_iff.mpr ⟨by omega, by omega⟩
  have debit : w.getDebit tx = .ok _ :=
    foldlM_inRange (fun txin _ => ⟨(each txin).1, fun sum _ inside => addInRange_ok _ inside⟩) rfl range
  unfold TxWallet.isFromMe
  rw [debit]
  exact ⟨_, rfl⟩

/-- A transaction that is not in a block and has no flags merges into one that is known without any effect. -/
theorem merge_ofTransaction (wtx : CWalletTx) (tx : Transaction) : wtx.merge (.ofTransaction tx) = (false, wtx) := by
  have kept : CWalletTx.mergeSpent wtx.vfSpent [] = wtx.vfSpent := by
    cases wtx.vfSpent <;> rfl
  unfold CWalletTx.merge CWalletTx.ofTransaction CWalletTx.updateSpent
  simp [kept]

theorem append_subset {tx : Transaction} (part : seen ⊆ txs) (member : tx ∈ txs) : seen ++ [tx] ⊆ txs :=
  List.append_subset.mpr ⟨part, List.cons_subset.mpr ⟨member, List.nil_subset _⟩⟩

/-- A transaction that was looked at, and that the wallet has unless none of its outputs is mine. -/
theorem Booked.widen (books : Booked cfg.prim isMine seen spent w) {tx : Transaction}
    (own : w.isMineTx tx = true → w.mapWallet[cfg.prim.txnHash tx]?.isSome = true) :
    Booked cfg.prim isMine (seen ++ [tx]) spent w := by
  refine ⟨books.keys, fun hash wtx found => ?_, fun other member mine => ?_⟩
  · have entry := books.entries hash wtx found
    exact ⟨List.mem_append_left _ entry.member, entry.named, entry.flags, entry.cached⟩
  · rcases List.mem_append.mp member with known | new
    · exact books.own other known mine
    · obtain rfl := List.mem_singleton.mp new
      exact own mine

/-- A transaction that is added to the wallet. -/
theorem addToWallet_books (arrivals : Arrivals cfg.prim isMine txs) {writeToDisk : CWalletTx → Bool}
    (durable : ∀ wtx, writeToDisk wtx = true) (books : Booked cfg.prim isMine seen spent w) (part : seen ⊆ txs)
    {tx : Transaction} (member : tx ∈ txs)
    (first : ∀ coin ∈ spent, cfg.prim.txnHash tx = coin.hash → tx ∈ seen) :
    ∃ w', TxWallet.addToWallet cfg s writeToDisk w (.ofTransaction tx) = .ok (true, w') ∧
      Booked cfg.prim isMine (seen ++ [tx]) (spent ++ tx.inputs.map Input.prevout) w' := by
  have part' := append_subset part member
  have hashed : cfg.prim.txnHash (CWalletTx.ofTransaction tx).toTransaction = cfg.prim.txnHash tx := rfl
  unfold TxWallet.addToWallet
  dsimp only
  rw [hashed]
  cases found : w.mapWallet[cfg.prim.txnHash tx]? with
  | none =>
    have entry : BookedTx cfg.prim isMine (seen ++ [tx]) spent (cfg.prim.txnHash tx) (.ofTransaction tx) := by
      refine ⟨List.mem_append_right _ List.mem_cons_self, rfl, fun i txout at_ mine => iff_of_false ?_ fun gone => ?_,
        nofun⟩
      · exact Bool.false_ne_true
      · -- what spends it would have come after it, and it would be stored
        have own : w.isMineTx tx = true := by
          rw [← books.keys] at mine
          exact List.any_eq_true.mpr ⟨txout, List.mem_of_getElem? at_, mine⟩
        have there := books.own tx (first _ gone rfl) own
        rw [found] at there
        cases there
    have stored : Booked cfg.prim isMine (seen ++ [tx]) spent
        { w with mapWallet := w.mapWallet.insert (cfg.prim.txnHash tx) (.ofTransaction tx) } := by
      refine books_insert books.keys entry (fun other _ kept known => ?_) fun other known mine => ?_
      · have entry := books.entries other kept known
        exact ⟨List.mem_append_left _ entry.member, entry.named, entry.flags, entry.cached⟩
      · rcases List.mem_append.mp known with known | new
        · exact .inr (books.own other known mine)
        · exact .inl (congrArg _ (List.mem_singleton.mp new))
    obtain ⟨w', ran, done⟩ := walletUpdateSpent_books (s := s) arrivals stored part' member
    refine ⟨w', ?_, done⟩
    have ran : TxWallet.walletUpdateSpent cfg s _ (CWalletTx.ofTransaction tx).toTransaction = .ok w' := ran
    dsimp only
    rw [durable, Bool.not_true, Bool.and_false, if_neg Bool.false_ne_true, ran]
    rfl
  | some wtx =>
    have entry := books.entries _ wtx found
    have same : wtx.toTransaction = tx := arrivals.apart _ (part entry.member) tx member entry.named
    have wide := (books.widen fun _ => by rw [found]; rfl : Booked cfg.prim isMine (seen ++ [tx]) spent w)
    have stored := wide.insert (wide.entries _ wtx found)
    obtain ⟨w', ran, done⟩ := walletUpdateSpent_books (s := s) arrivals stored part' member
    refine ⟨w', ?_, done⟩
    simp only [merge_ofTransaction]
    rw [Bool.false_and, if_neg Bool.false_ne_true, same, ran]
    rfl

/-- A transaction that is accepted. -/
theorem accepted_books (arrivals : Arrivals cfg.prim isMine txs) {writeToDisk : CWalletTx → Bool}
    (durable : ∀ wtx, writeToDisk wtx = true) (books : Booked cfg.prim isMine seen spent w) (part : seen ⊆ txs)
    {tx : Transaction} (member : tx ∈ txs)
    (first : ∀ coin ∈ spent, cfg.prim.txnHash tx = coin.hash → tx ∈ seen) :
    ∃ result w', TxWallet.addToWalletIfInvolvingMe cfg s writeToDisk w tx true = .ok (result, w') ∧
      Booked cfg.prim isMine (seen ++ [tx]) (spent ++ tx.inputs.map Input.prevout) w' := by
  obtain ⟨involved, asked, own⟩ : ∃ involved, TxWallet.involvesMe cfg w tx = .ok involved ∧
      (involved = false → w.isMineTx tx = false) := by
    unfold TxWallet.involvesMe
    split
    · exact ⟨true, rfl, nofun⟩
    · rename_i foreign
      obtain ⟨mine, found⟩ := books.isFromMe arrivals part member
      exact ⟨mine, found, fun _ => (Bool.or_eq_false_iff.mp (Bool.eq_false_of_not_eq_true foreign)).2⟩
  unfold TxWallet.addToWalletIfInvolvingMe
  rw [Bool.not_true, Bool.and_false, if_neg Bool.false_ne_true, asked, ok_bind]
  cases involved with
  | true =>
    obtain ⟨w', ran, done⟩ := addToWallet_books (s := s) arrivals durable books part member first
    exact ⟨true, w', ran, done⟩
  | false =>
    have wide := books.widen fun mine => absurd ((own rfl).symm.trans mine) Bool.false_ne_true
    obtain ⟨w', ran, done⟩ := walletUpdateSpent_books (s := s) arrivals wide (append_subset part member) member
    refine ⟨false, w', ?_, done⟩
    rw [if_neg Bool.false_ne_true, ran]
    rfl

/-! ### Credits that are asked for -/

/-- The credit that is available, whether it comes from the cache or not. -/
theorem BookedTx.getAvailableCredit (entry : BookedTx cfg.prim isMine seen spent hash wtx)
    (arrivals : Arrivals cfg.prim isMine txs) (part : seen ⊆ txs) (keys : w.isMine = isMine) (s : BlockChain)
    (fUseCache : Bool) :
    wtx.getAvailableCredit cfg s w fUseCache = .ok (unspentValue cfg.prim isMine spent wtx.toTransaction,
      { wtx with availableCreditCached := some (unspentValue cfg.prim isMine spent wtx.toTransaction) }) := by
  have fresh := entry.sumAvailable (arrivals.values _ (part entry.member)) keys
  unfold CWalletTx.getAvailableCredit
  rw [isImmature_plain (arrivals.plain _ (part entry.member)), ok_bind, if_neg Bool.false_ne_true]
  cases fUseCache with
  | false =>
    rw [if_neg Bool.false_ne_true]
    dsimp only
    rw [fresh]
    rfl
  | true =>
    rw [if_pos rfl]
    cases cache : wtx.availableCreditCached with
    | none =>
      dsimp only
      rw [fresh]
      rfl
    | some credit =>
      have same : { wtx with availableCreditCached := some credit } = wtx := by rw [← cache]
      rw [← entry.cached credit cache, same]
      rfl

/-- An entry after its credit was looked up. -/
theorem BookedTx.looked (entry : BookedTx cfg.prim isMine seen spent hash wtx) :
    BookedTx cfg.prim isMine seen spent hash
      { wtx with availableCreditCached := some (unspentValue cfg.prim isMine spent wtx.toTransaction) } :=
  entry.recache rfl rfl fun _ cached => (Option.some.inj cached).symm

/-- The loop of the balance over some transactions of the wallet. -/
theorem balance_loop (arrivals : Arrivals cfg.prim isMine txs) (part : seen ⊆ txs) (clock : Clock) (s : BlockChain)
    {entries : List WalletEntry} (each : ∀ entry ∈ entries, BookedTx cfg.prim isMine seen spent entry.1 entry.2)
    (books : Booked cfg.prim isMine seen spent w) {n : Int} (fits : wrap64 n = n) :
    ∃ w', entries.foldlM (fun ((nTotal, w) : Int × TxWallet) entry => do
        let (nTotal, wtx) ← TxWallet.addBalance cfg clock s w false nTotal entry
        return (nTotal, { w with mapWallet := w.mapWallet.insert entry.1 wtx })) (n, w) =
          Except.ok (wrap64 (n + (entries.map fun entry =>
            unspentValue cfg.prim isMine spent entry.2.toTransaction).sum), w') ∧
      Booked cfg.prim isMine seen spent w' := by
  induction entries generalizing n w with
  | nil =>
    refine ⟨w, ?_, books⟩
    rw [List.map_nil, List.sum_nil, Int.add_zero, fits]
    rfl
  | cons entry entries ih =>
    have own := each entry List.mem_cons_self
    have credit : TxWallet.addBalance cfg clock s w false n entry = .ok
        (wrap64 (n + unspentValue cfg.prim isMine spent entry.2.toTransaction), { entry.2 with
          availableCreditCached := some (unspentValue cfg.prim isMine spent entry.2.toTransaction) }) := by
      unfold TxWallet.addBalance
      rw [if_neg Bool.false_ne_true, own.getAvailableCredit arrivals part books.keys s false]
      rfl
    obtain ⟨w', ran, done⟩ := ih (fun other member => each other (List.mem_cons_of_mem _ member))
      (books.insert own.looked) (wrap64_wrap64 (n + unspentValue cfg.prim isMine spent entry.2.toTransaction))
    refine ⟨w', ?_, done⟩
    rw [List.foldlM_cons]
    dsimp only
    rw [wrap64_add] at ran
    rw [credit, ok_bind, List.map_cons, List.sum_cons, ← Int.add_assoc]
    exact ran

/-- What is not spent of the transactions of the wallet is not spent of all that arrived. -/
theorem Booked.total (books : Booked cfg.prim isMine seen spent w) (arrivals : Arrivals cfg.prim isMine txs)
    (part : seen ⊆ txs) :
    (w.mapWallet.toList.map fun entry => unspentValue cfg.prim isMine spent entry.2.toTransaction).sum =
      ∑ tx ∈ seen.toFinset, unspentValue cfg.prim isMine spent tx := by
  have entry {e : WalletEntry} (member : e ∈ w.mapWallet.toList) := books.entries e.1 e.2 (mem_toList.mp member)
  have nodup : (w.mapWallet.toList.map fun entry => entry.2.toTransaction).Nodup := by
    refine List.Nodup.map_on (fun e member e' member' same => ?_) (toList_nodup _)
    have hashes : e.1 = e'.1 := by rw [← (entry member).named, ← (entry member').named, same]
    have found := mem_toList.mp member
    have found' := mem_toList.mp member'
    rw [hashes, found'] at found
    exact Prod.ext hashes (Option.some.inj found).symm
  have listed := List.sum_toFinset (unspentValue cfg.prim isMine spent) nodup
  rw [List.map_map] at listed
  refine Eq.trans listed.symm (Finset.sum_subset (fun tx member => ?_) fun tx member missing => ?_)
  · obtain ⟨e, inside, rfl⟩ := List.mem_map.mp (List.mem_toFinset.mp member)
    exact List.mem_toFinset.mpr (entry inside).member
  · have known := List.mem_toFinset.mp member
    have foreign : w.isMineTx tx = false := by
      by_contra mine
      obtain ⟨wtx, found⟩ := Option.isSome_iff_exists.mp (books.own tx known (Bool.eq_true_of_not_eq_false mine))
      have stored := books.entries _ wtx found
      obtain rfl := arrivals.apart _ (part stored.member) tx (part known) stored.named
      exact missing (List.mem_toFinset.mpr (List.mem_map.mpr ⟨_, mem_toList.mpr found, rfl⟩))
    unfold unspentValue
    refine List.sum_eq_zero fun value inside => ?_
    obtain ⟨⟨txout, i⟩, at_, rfl⟩ := List.mem_map.mp inside
    refine if_neg fun both => ?_
    have other := List.any_eq_false.mp foreign txout (List.mem_of_getElem? (List.mem_zipIdx_iff_getElem?.mp at_))
    rw [books.keys] at other
    exact other both.1

/-- The balance, as a number of 64 bits. -/
theorem Booked.getBalance (books : Booked cfg.prim isMine seen spent w) (arrivals : Arrivals cfg.prim isMine txs)
    (part : seen ⊆ txs) (clock : Clock) (s : BlockChain) :
    ∃ w', w.getBalance cfg clock s false =
        .ok (wrap64 (∑ tx ∈ seen.toFinset, unspentValue cfg.prim isMine spent tx), w') ∧
      Booked cfg.prim isMine seen spent w' := by
  have each : ∀ entry ∈ w.mapWallet.toList, BookedTx cfg.prim isMine seen spent entry.1 entry.2 :=
    fun entry member => books.entries _ _ (mem_toList.mp member)
  obtain ⟨w', ran, done⟩ := balance_loop arrivals part clock s each books (n := 0) rfl
  rw [Int.zero_add, books.total arrivals part] at ran
  exact ⟨w', ran, done⟩

/-- What a transaction that was seen spends came before it. -/
theorem seen_of_spent (arrivals : Arrivals cfg.prim isMine txs) {tx : Transaction} {later : List Transaction}
    (split : txs = seen ++ tx :: later) {coin : Coin} (spent : coin ∈ spentCoins seen)
    (named : cfg.prim.txnHash tx = coin.hash) : tx ∈ seen := by
  obtain ⟨spender, known, inside⟩ := List.mem_flatMap.mp spent
  obtain ⟨txin, listed, rfl⟩ := List.mem_map.mp inside
  obtain ⟨j, lt, rfl⟩ := List.mem_iff_getElem.mp known
  have member : tx ∈ txs := split ▸ List.mem_append_right _ List.mem_cons_self
  have high : j < txs.length := by
    rw [split, List.length_append]
    omega
  have same : txs[j] = seen[j] := by
    simp only [split]
    exact List.getElem_append_left lt
  have before := arrivals.ordered j high txin (same ▸ listed) tx member named
  rw [split, List.take_append_of_le_length lt.le] at before
  exact List.mem_of_mem_take before

/-- The books are kept by an event. -/
theorem apply_books (arrivals : Arrivals cfg.prim isMine txs) {writeToDisk : CWalletTx → Bool}
    (durable : ∀ wtx, writeToDisk wtx = true) (clock : Clock) (s : BlockChain) {event : WalletEvent}
    (split : txs = seen ++ WalletEvent.arrived (event :: events))
    (books : Booked cfg.prim isMine seen (spentCoins seen) w) :
    ∃ w', WalletEvent.apply cfg clock s writeToDisk w event = .ok w' ∧
      Booked cfg.prim isMine (seen ++ WalletEvent.arrived [event]) (spentCoins (seen ++ WalletEvent.arrived [event]))
        w' := by
  have part : seen ⊆ txs := split ▸ List.subset_append_left _ _
  unfold WalletEvent.apply
  cases event with
  | transactionAccepted tx =>
    have split : txs = seen ++ tx :: WalletEvent.arrived events := split
    have member : tx ∈ txs := split ▸ List.mem_append_right _ List.mem_cons_self
    obtain ⟨result, w', ran, done⟩ := accepted_books (s := s) arrivals durable books part member
      fun _ spent named => seen_of_spent arrivals split spent named
    have coins : spentCoins (seen ++ [tx]) = spentCoins seen ++ tx.inputs.map Input.prevout := by
      unfold spentCoins
      rw [List.flatMap_append, List.flatMap_singleton]
    refine ⟨w', ?_, coins ▸ done⟩
    dsimp only
    rw [ran]
    rfl
  | getBalance =>
    obtain ⟨w', ran, done⟩ := books.getBalance arrivals part clock s
    refine ⟨w', ?_, (List.append_nil seen).symm ▸ done⟩
    dsimp only
    rw [ran]
    rfl
  | getAvailableCredit hash fUseCache =>
    rw [show WalletEvent.arrived [.getAvailableCredit hash fUseCache] = [] from rfl, List.append_nil]
    dsimp only
    cases found : w.mapWallet[hash]? with
    | none => exact ⟨w, rfl, books⟩
    | some wtx =>
      have entry := books.entries hash wtx found
      dsimp only
      rw [entry.getAvailableCredit arrivals part books.keys s fUseCache]
      exact ⟨_, rfl, books.insert entry.looked⟩

/-- The books are kept by every list of events. -/
theorem after_books (arrivals : Arrivals cfg.prim isMine txs) {writeToDisk : CWalletTx → Bool}
    (durable : ∀ wtx, writeToDisk wtx = true) (clock : Clock) (s : BlockChain)
    (split : txs = seen ++ WalletEvent.arrived events) (books : Booked cfg.prim isMine seen (spentCoins seen) w) :
    ∃ w', w.after cfg clock s writeToDisk events = .ok w' ∧ Booked cfg.prim isMine txs (spentCoins txs) w' := by
  unfold TxWallet.after
  induction events generalizing seen w with
  | nil =>
    have all : txs = seen := split.trans (List.append_nil seen)
    exact ⟨w, rfl, all ▸ books⟩
  | cons event events ih =>
    obtain ⟨w', ran, done⟩ := apply_books arrivals durable clock s split books
    have onward : WalletEvent.arrived (event :: events) = WalletEvent.arrived [event] ++ WalletEvent.arrived events :=
      List.filterMap_append (l := [event])
    rw [onward, ← List.append_assoc] at split
    obtain ⟨w'', rest, all⟩ := ih split done
    refine ⟨w'', ?_, all⟩
    rw [List.foldlM_cons, ran]
    exact rest

/-- **The balance of a wallet is the sum of the distinct own outputs that nothing spends, and its caches are right**,
after every list of transactions that are accepted, with any credits asked for in between. -/
theorem accounts_run (arrivals : Arrivals cfg.prim isMine (WalletEvent.arrived events))
    {writeToDisk : CWalletTx → Bool} (durable : ∀ wtx, writeToDisk wtx = true) (clock : Clock) (s : BlockChain) :
    ∃ w, (TxWallet.empty isMine).after cfg clock s writeToDisk events = .ok w ∧
      (∀ tx ∈ WalletEvent.arrived events, w.isMineTx tx = true →
        ∃ wtx, w.mapWallet[cfg.prim.txnHash tx]? = some wtx ∧ wtx.toTransaction = tx) ∧
      (∃ w', w.getBalance cfg clock s false = .ok (balanceOf cfg.prim isMine (WalletEvent.arrived events), w')) ∧
      ∀ (hash : Uint256) (wtx : CWalletTx), w.mapWallet[hash]? = some wtx → ∃ credit cached fresh,
        wtx.getAvailableCredit cfg s w true = .ok (credit, cached) ∧
          wtx.getAvailableCredit cfg s w false = .ok (credit, fresh) := by
  have start : Booked cfg.prim isMine [] (spentCoins []) (TxWallet.empty isMine) := by
    refine ⟨rfl, fun hash wtx found => ?_, nofun⟩
    rw [show (TxWallet.empty isMine).mapWallet[hash]? = none from lookup_empty hash] at found
    cases found
  obtain ⟨w, ran, books⟩ := after_books arrivals durable clock s rfl start
  refine ⟨w, ran, fun tx member mine => ?_, ?_, fun hash wtx found => ?_⟩
  · obtain ⟨wtx, found⟩ := Option.isSome_iff_exists.mp (books.own tx member mine)
    have entry := books.entries _ wtx found
    exact ⟨wtx, found, arrivals.apart _ entry.member tx member entry.named⟩
  · obtain ⟨w', found, -⟩ := books.getBalance arrivals (List.Subset.refl _) clock s
    have low : 0 ≤ balanceOf cfg.prim isMine (WalletEvent.arrived events) := by
      refine Finset.sum_nonneg fun tx member => List.sum_nonneg fun value inside => ?_
      obtain ⟨⟨txout, i⟩, at_, rfl⟩ := List.mem_map.mp inside
      have known := List.mem_of_getElem? (List.mem_zipIdx_iff_getElem?.mp at_)
      exact ((arrivals.values tx (List.mem_toFinset.mp member)).counted_le known _).1
    have high := arrivals.total
    rw [← balanceOf, wrap64_of_range (by omega) high] at found
    exact ⟨w', found⟩
  · have entry := books.entries hash wtx found
    exact ⟨_, _, _, entry.getAvailableCredit arrivals (List.Subset.refl _) books.keys s true,
      entry.getAvailableCredit arrivals (List.Subset.refl _) books.keys s false⟩

end Wallets

namespace Small

/-- A payment to me, what spends the first output of it, the same again, and what conflicts with that, with a balance
and a credit in between. -/
def conflicting : List WalletEvent :=
  [.transactionAccepted (spend 5 [(3, 0)] [10, 20]), .getBalance, .transactionAccepted (spend 6 [(5, 0)] [7]),
    .transactionAccepted (spend 6 [(5, 0)] [7]), .getAvailableCredit 5 true,
    .transactionAccepted (spend 8 [(5, 0)] [4])]

end Small

open Libcoin.Small in
/-- The second output of the payment and the outputs of both spends are what is left. -/
theorem accounts_run_conflicting : ∃ s w, created 1 0 = .ok s ∧
    (TxWallet.empty fun _ => true).after (config 1 0) clock s (fun _ => true) conflicting = .ok w ∧
      (∀ tx ∈ WalletEvent.arrived conflicting, w.isMineTx tx = true →
        ∃ wtx, w.mapWallet[prim.txnHash tx]? = some wtx ∧ wtx.toTransaction = tx) ∧
      (∃ w', w.getBalance (config 1 0) clock s false = .ok (31, w')) ∧
      ∀ (hash : Uint256) (wtx : CWalletTx), w.mapWallet[hash]? = some wtx → ∃ credit cached fresh,
        wtx.getAvailableCredit (config 1 0) s w true = .ok (credit, cached) ∧
          wtx.getAvailableCredit (config 1 0) s w false = .ok (credit, fresh) := by
  obtain ⟨s, made, -⟩ := created_payments
  have arrivals : Arrivals prim (fun _ => true) (WalletEvent.arrived conflicting) :=
    ⟨by decide +kernel, by decide +kernel, by decide +kernel, by decide +kernel, by decide +kernel, by decide +kernel,
      by decide +kernel⟩
  obtain ⟨w, ran, own, balance, caches⟩ := @accounts_run (config 1 0) (fun _ => true) conflicting arrivals _
    (fun _ => rfl) clock s
  have sum : balanceOf prim (fun _ => true) (WalletEvent.arrived conflicting) = 31 := by decide +kernel
  exact ⟨s, w, made, ran, own, sum ▸ balance, caches⟩

end Libcoin
