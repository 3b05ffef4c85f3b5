/-
The coins that a payment is made with: `SelectCoinsMinConf` and `SelectCoins`.

* `eligible` are the tests of a transaction, `ownCoins` the outputs of it that can be spent, and `gather` the loop over
  the transactions, which ends early with a coin of the value that is looked for.
* `approximate` is the search for a subset of the smaller coins, and `finish` what comes after the loop.
* `Chance` are the order of the transactions, the random bits, and the addresses that coins of one value are sorted by.

The depth of a transaction is asked for with its own hash, not with the hash of its block.

Sums of values are those of `int64_t`, which wrap.
-/

import Libcoin.Wallet.WalletTx
import Mathlib.Data.List.Sort

namespace Libcoin

open Exec
open BlockTree (Represents Reached)

/-- `CENT`. -/
def cent : Int := 1000000

/-- A transaction of the wallet, with the hash that it is stored under. -/
abbrev WalletEntry := Uint256 × CWalletTx

/-- A value, and the transaction and the index of the output that has it. -/
abbrev OwnCoin := Int × (Uint256 × Nat)

/-- What a call of `SelectCoinsMinConf` gets from outside: the result of `random_shuffle`, the results of `rand`, and
the addresses of the transactions in memory. -/
structure Chance where
  shuffle : List WalletEntry → List WalletEntry
  shuffle_perm : ∀ entries, (shuffle entries).Perm entries
  rand : Nat → Nat
  address : Uint256 → Nat

/-- The coins below the value that is looked for, their sum, and the smallest coin above. -/
structure Gathered where
  values : List OwnCoin
  totalLower : Int
  lowestLarger : Option OwnCoin

def Gathered.none : Gathered := { values := [], totalLower := 0, lowestLarger := .none }

namespace TxWallet

section Source

variable (cfg : Config) (clock : Clock) (s : BlockChain) (w : TxWallet)

/-- The transaction is a coinbase that has to wait for more blocks. -/
def isImmature (pcoin : CWalletTx) : Except Fault Bool :=
  if !pcoin.isCoinBase then .ok false
  else do
    let blocks ← s.getBlocksToMaturity cfg pcoin.toTransaction
    return decide (0 < blocks)

/-- The tests of `SelectCoinsMinConf` of a transaction. -/
def eligible (nConfMine nConfTheirs : Int) (pcoin : CWalletTx) : Except Fault Bool :=
  if !isFinal cfg clock s pcoin.toTransaction then .ok false
  else do
    let confirmed ← isConfirmed cfg clock s w pcoin
    if !confirmed then return false
    else do
      let immature ← isImmature cfg s pcoin
      if immature then return false
      else do
        let depth ← s.getDepthInMainChain (cfg.prim.txnHash pcoin.toTransaction)
        let mine ← pcoin.isFromMe w
        return !decide (depth < if mine then nConfMine else nConfTheirs)

/-- The outputs of a transaction that are not spent, mine, and positive. -/
def ownCoins (entry : WalletEntry) : List OwnCoin :=
  entry.2.outputs.zipIdx.filterMap fun (output, i) =>
    if entry.2.isSpent i || !w.isMine output.script || decide (output.value ≤ 0) then none
    else some (output.value, (entry.1, i))

/-- The loop over coins: one of them has the value that is looked for, or all of them are gathered. -/
def takeCoins (nTargetValue : Int) : List OwnCoin → Gathered → OwnCoin ⊕ Gathered
  | [], found => .inr found
  | coin :: coins, found =>
    if coin.1 = nTargetValue then .inl coin
    else if coin.1 < wrap64 (nTargetValue + cent) then
      takeCoins nTargetValue coins
        { found with values := found.values ++ [coin], totalLower := wrap64 (found.totalLower + coin.1) }
    else if coin.1 < found.lowestLarger.elim (2 ^ 63 - 1) Prod.fst then
      takeCoins nTargetValue coins { found with lowestLarger := some coin }
    else takeCoins nTargetValue coins found

/-- The loop over the transactions. -/
def gather (nTargetValue nConfMine nConfTheirs : Int) :
    List WalletEntry → Gathered → Except Fault (OwnCoin ⊕ Gathered)
  | [], found => .ok (.inr found)
  | entry :: entries, found => do
    let considered ← eligible cfg clock s w nConfMine nConfTheirs entry.2
    if !considered then gather nTargetValue nConfMine nConfTheirs entries found
    else
      match takeCoins nTargetValue (w.ownCoins entry) found with
      | .inl coin => return .inl coin
      | .inr found => gather nTargetValue nConfMine nConfTheirs entries found

end Source

/-! ### The subset -/

/-- The state of one repetition: the sum of what is included, whether the target was reached, and the best subset so
far with its sum. -/
structure Trial where
  total : Int
  included : List Bool
  reached : Bool
  best : Int
  bestIncluded : List Bool

/-- A coin is included, and taken out again if the target is reached with it. -/
def Trial.add (nTargetValue : Int) (i : Nat) (value : Int) (trial : Trial) : Trial :=
  let total := wrap64 (trial.total + value)
  let included := trial.included.set i true
  if nTargetValue ≤ total then
    { total := wrap64 (total - value)
      included := included.set i false
      reached := true
      best := if total < trial.best then total else trial.best
      bestIncluded := if total < trial.best then included else trial.bestIncluded }
  else { trial with total := total, included := included }

/-- The first pass, with a random bit for each coin, from the number of bits that were used before. -/
def passRandom (rand : Nat → Nat) (nTargetValue : Int) : List Int → Nat → Nat → Trial → Trial
  | [], _, _, trial => trial
  | value :: values, i, used, trial =>
    passRandom rand nTargetValue values (i + 1) (used + 1)
      (if rand used % 2 = 1 then trial.add nTargetValue i value else trial)

/-- The second pass, over the coins that are not included. -/
def passRest (nTargetValue : Int) : List Int → Nat → Trial → Trial
  | [], _, trial => trial
  | value :: values, i, trial =>
    passRest nTargetValue values (i + 1)
      (if trial.included.getD i false then trial else trial.add nTargetValue i value)

/-- One repetition. -/
def repetition (rand : Nat → Nat) (nTargetValue : Int) (values : List Int) (used : Nat) (trial : Trial) : Trial :=
  let trial := passRandom rand nTargetValue values 0 used
    { trial with total := 0, included := List.replicate values.length false, reached := false }
  if trial.reached then trial else passRest nTargetValue values 0 trial

/-- The repetitions, until one of them meets the target. -/
def approximate (rand : Nat → Nat) (nTargetValue : Int) (values : List Int) : Nat → Nat → Trial → Trial
  | 0, _, trial => trial
  | turns + 1, used, trial =>
    if trial.best = nTargetValue then trial
    else
      approximate rand nTargetValue values turns (used + values.length)
        (repetition rand nTargetValue values used trial)

/-- `sort(vValue.rbegin(), vValue.rend())`: by values, and by addresses and indices where they are the same, in
descending order. -/
def sortCoins (address : Uint256 → Nat) (coins : List OwnCoin) : List OwnCoin :=
  coins.mergeSort fun a b =>
    decide (toLex (b.1, toLex (address b.2.1, b.2.2)) ≤ toLex (a.1, toLex (address a.2.1, a.2.2)))

/-- The coins of a call that succeeds, and their sum. -/
def chosen (coins : List OwnCoin) : List (Uint256 × Nat) × Int :=
  (coins.map Prod.snd, coins.foldl (fun nValueRet coin => wrap64 (nValueRet + coin.1)) 0)

/-- What comes after the loops. -/
def finish (chance : Chance) (nTargetValue : Int) (found : Gathered) : Option (List (Uint256 × Nat) × Int) :=
  if found.totalLower = nTargetValue ∨ found.totalLower = wrap64 (nTargetValue + cent) then some (chosen found.values)
  else if found.totalLower < wrap64 (nTargetValue + found.lowestLarger.elim 0 fun _ => cent) then
    found.lowestLarger.map fun coin => chosen [coin]
  else
    let nTargetValue :=
      if wrap64 (nTargetValue + cent) ≤ found.totalLower then wrap64 (nTargetValue + cent) else nTargetValue
    let coins := sortCoins chance.address found.values
    let trial := approximate chance.rand nTargetValue (coins.map Prod.fst) 1000 0
      { total := 0, included := [], reached := false, best := found.totalLower
        bestIncluded := List.replicate coins.length true }
    let subset := (coins.zip trial.bestIncluded).filterMap fun (coin, included) => if included then some coin else none
    match found.lowestLarger with
    | some coin =>
      if wrap64 (coin.1 - nTargetValue) ≤ wrap64 (trial.best - nTargetValue) then some (chosen [coin])
      else some (chosen subset)
    | none => some (chosen subset)

section Calls

variable (cfg : Config) (clock : Clock) (s : BlockChain) (w : TxWallet)

/-- `SelectCoinsMinConf`. -/
def selectCoinsMinConf (chance : Chance) (nTargetValue nConfMine nConfTheirs : Int) :
    Except Fault (Option (List (Uint256 × Nat) × Int)) := do
  let found ← gather cfg clock s w nTargetValue nConfMine nConfTheirs (chance.shuffle w.mapWallet.toList) .none
  match found with
  | .inl coin => return some (chosen [coin])
  | .inr found => return finish chance nTargetValue found

/-- The confirmations that `SelectCoins` asks for: of the transactions from me and of those from others. -/
def passes : List (Int × Int) := [(1, 6), (1, 1), (0, 1)]

/-- The calls of `SelectCoins` one after the other. -/
def selectIn (nTargetValue : Int) :
    List (Chance × (Int × Int)) → Except Fault (Option (List (Uint256 × Nat) × Int))
  | [] => .ok none
  | (chance, nConfMine, nConfTheirs) :: calls => do
    let result ← selectCoinsMinConf cfg clock s w chance nTargetValue nConfMine nConfTheirs
    match result with
    | some result => return some result
    | none => selectIn nTargetValue calls

/-- `SelectCoins`. -/
def selectCoins (first second third : Chance) (nTargetValue : Int) :
    Except Fault (Option (List (Uint256 × Nat) × Int)) :=
  selectIn cfg clock s w nTargetValue ([first, second, third].zip passes)

end Calls

/-! ### The coins that are considered -/

section Considered

variable {cfg : Config} {clock : Clock} {s : BlockChain} {w : TxWallet} {nTargetValue nConfMine nConfTheirs : Int}

theorem takeCoins_append (first second : List OwnCoin) (found : Gathered) :
    takeCoins nTargetValue (first ++ second) found =
      (takeCoins nTargetValue first found).elim .inl (takeCoins nTargetValue second) := by
  induction first generalizing found with
  | nil => rfl
  | cons coin first ih =>
    rw [List.cons_append]
    unfold takeCoins
    split
    · rfl
    split
    · exact ih _
    split
    · exact ih _
    · exact ih found

/-- The loop over the transactions is the loop over the coins of those that pass the tests. -/
theorem gather_eq (considered : WalletEntry → Bool) {entries : List WalletEntry}
    (tested : ∀ entry ∈ entries, eligible cfg clock s w nConfMine nConfTheirs entry.2 = .ok (considered entry))
    (found : Gathered) :
    gather cfg clock s w nTargetValue nConfMine nConfTheirs entries found =
      .ok (takeCoins nTargetValue ((entries.filter considered).flatMap w.ownCoins) found) := by
  induction entries generalizing found with
  | nil => rfl
  | cons entry entries ih =>
    obtain ⟨here, others⟩ := List.forall_mem_cons.mp tested
    unfold gather
    rw [here, ok_bind]
    cases passed : considered entry with
    | false =>
      rw [List.filter_cons_of_neg (by simp [passed])]
      exact ih others found
    | true =>
      rw [List.filter_cons_of_pos passed, List.flatMap_cons, takeCoins_append]
      cases takeCoins nTargetValue (w.ownCoins entry) found with
      | inl coin => rfl
      | inr found => exact ih others found

/-- What is selected of the coins that are considered. -/
def select (chance : Chance) (nTargetValue : Int) (coins : List OwnCoin) : Option (List (Uint256 × Nat) × Int) :=
  match takeCoins nTargetValue coins .none with
  | .inl coin => some (chosen [coin])
  | .inr found => finish chance nTargetValue found

theorem selectCoinsMinConf_eq (chance : Chance) (considered : WalletEntry → Bool)
    (tested : ∀ entry ∈ w.mapWallet.toList,
      eligible cfg clock s w nConfMine nConfTheirs entry.2 = .ok (considered entry)) :
    selectCoinsMinConf cfg clock s w chance nTargetValue nConfMine nConfTheirs =
      .ok (select chance nTargetValue
        (((chance.shuffle w.mapWallet.toList).filter considered).flatMap w.ownCoins)) := by
  have shuffled : ∀ entry ∈ chance.shuffle w.mapWallet.toList,
      eligible cfg clock s w nConfMine nConfTheirs entry.2 = .ok (considered entry) := fun entry member =>
    tested entry ((chance.shuffle_perm _).mem_iff.mp member)
  unfold selectCoinsMinConf select
  rw [gather_eq considered shuffled, ok_bind]
  cases takeCoins nTargetValue _ Gathered.none with
  | inl coin => rfl
  | inr found => rfl

/-- No positive value is selected of no coins. -/
theorem select_nil (chance : Chance) (positive : 0 < nTargetValue) (small : nTargetValue < 2 ^ 63) :
    select chance nTargetValue [] = none := by
  have apart : ¬(0 = nTargetValue ∨ 0 = wrap64 (nTargetValue + cent)) := by
    have spec := wrap64_spec (nTargetValue + cent)
    unfold cent at spec ⊢
    omega
  have exact : wrap64 nTargetValue = nTargetValue := wrap64_of_range (by omega) small
  show finish chance nTargetValue Gathered.none = none
  unfold finish
  simp [Gathered.none, apart, positive, exact]

theorem selectCoins_none (positive : 0 < nTargetValue) (small : nTargetValue < 2 ^ 63)
    (tested : ∀ pass ∈ passes, ∀ entry ∈ w.mapWallet.toList, eligible cfg clock s w pass.1 pass.2 entry.2 = .ok false)
    (first second third : Chance) : selectCoins cfg clock s w first second third nTargetValue = .ok none := by
  have each : ∀ calls : List (Chance × (Int × Int)), (∀ call ∈ calls, call.2 ∈ passes) →
      selectIn cfg clock s w nTargetValue calls = .ok none := by
    intro calls within
    induction calls with
    | nil => rfl
    | cons call calls ih =>
      obtain ⟨here, others⟩ := List.forall_mem_cons.mp within
      obtain ⟨chance, nConfMine, nConfTheirs⟩ := call
      unfold selectIn
      have refused : ∀ entry ∈ w.mapWallet.toList,
          eligible cfg clock s w nConfMine nConfTheirs entry.2 = .ok false := tested (nConfMine, nConfTheirs) here
      rw [selectCoinsMinConf_eq chance (fun _ => false) refused, ok_bind]
      simp only [List.filter_false, List.flatMap_nil, select_nil chance positive small]
      exact ih others
  exact each _ fun call member => (List.of_mem_zip member).2

end Considered

/-! ### The age of a coin -/

section Ages

variable (cfg : Config) (clock : Clock) (s : BlockChain) (w : TxWallet)

/-- A coinbase is deep enough with a depth. -/
def Mature (tx : CWalletTx) (depth : Int) : Prop :=
  tx.isCoinBase = true → cfg.chain.maturity s.tree.height + 20 ≤ depth

/-- A transaction has as many confirmations as are asked for of one from me or of one from others. -/
def Confirms (nConfMine nConfTheirs : Int) (fromMe : Bool) (depth : Int) : Prop :=
  (if fromMe then nConfMine else nConfTheirs) ≤ depth

/-- What is asked of a transaction whose coins are considered, with its depth. -/
structure Due (nConfMine nConfTheirs : Int) (tx : CWalletTx) (depth : Int) : Prop where
  final : isFinal cfg clock s tx.toTransaction = true
  confirmed : isConfirmed cfg clock s w tx = .ok true
  mature : Mature cfg s tx depth
  deep : ∃ fromMe, tx.isFromMe w = .ok fromMe ∧ Confirms nConfMine nConfTheirs fromMe depth

/-- The coins of the transaction are considered in one of the calls of `SelectCoins`. -/
def Spendable (tx : CWalletTx) : Prop := ∃ pass ∈ passes, eligible cfg clock s w pass.1 pass.2 tx = .ok true

variable {cfg : Config} {clock : Clock} {s : BlockChain} {w : TxWallet} {tx : CWalletTx} {own : Int}

instance (depth : Int) : Decidable (Mature cfg s tx depth) := inferInstanceAs (Decidable (_ → _))

/-- `getBlocksToMaturity` asks for the depth of the hash of the transaction. -/
theorem getBlocksToMaturity_eq (asked : s.getDepthInMainChain (cfg.prim.txnHash tx.toTransaction) = .ok own) :
    s.getBlocksToMaturity cfg tx.toTransaction =
      .ok (if tx.isCoinBase then max 0 (cfg.chain.maturity s.tree.height + 20 - own) else 0) := by
  unfold BlockChain.getBlocksToMaturity
  rw [asked]
  cases tx.isCoinBase <;> rfl

theorem isImmature_eq (asked : s.getDepthInMainChain (cfg.prim.txnHash tx.toTransaction) = .ok own) :
    isImmature cfg s tx = .ok (!decide (Mature cfg s tx own)) := by
  unfold isImmature
  rw [getBlocksToMaturity_eq asked]
  by_cases coinbase : tx.isCoinBase = true
  · simp [coinbase, Mature, bind, Except.bind, pure, Except.pure, ← decide_not]
  · simp [coinbase, Mature]

/-- And so do the tests. -/
theorem eligible_iff (asked : s.getDepthInMainChain (cfg.prim.txnHash tx.toTransaction) = .ok own)
    (nConfMine nConfTheirs : Int) :
    eligible cfg clock s w nConfMine nConfTheirs tx = .ok true ↔ Due cfg clock s w nConfMine nConfTheirs tx own := by
  unfold eligible
  by_cases final : isFinal cfg clock s tx.toTransaction = true
  case neg =>
    rw [if_pos (by simp [final])]
    exact iff_of_false nofun fun due => final due.final
  rw [if_neg (by simp [final])]
  by_cases sure : isConfirmed cfg clock s w tx = .ok true
  case neg =>
    refine iff_of_false (fun passed => ?_) fun due => sure due.confirmed
    obtain ⟨confirmed, is, passed⟩ := bind_eq_ok.mp passed
    cases confirmed with
    | false => cases passed
    | true => exact sure is
  rw [sure, ok_bind, isImmature_eq asked]
  by_cases mature : Mature cfg s tx own
  case neg =>
    refine iff_of_false ?_ fun due => mature due.mature
    simp [mature, bind, Except.bind, pure, Except.pure]
  simp only [mature, decide_true, Bool.not_true, Bool.false_eq_true, if_false, ok_bind, asked]
  cases mine : tx.isFromMe w with
  | error fault =>
    refine iff_of_false nofun fun due => ?_
    obtain ⟨fromMe, is, -⟩ := due.deep
    cases mine.symm.trans is
  | ok fromMe =>
    have deep_iff : Confirms nConfMine nConfTheirs fromMe own ↔ Due cfg clock s w nConfMine nConfTheirs tx own := by
      refine ⟨fun deep => ⟨final, sure, mature, fromMe, mine, deep⟩, fun due => ?_⟩
      obtain ⟨same, is, deep⟩ := due.deep
      obtain rfl := Except.ok.inj (mine.symm.trans is)
      exact deep
    rw [← deep_iff, ok_bind]
    simp [Confirms, pure, Except.pure]

theorem due_iff {nConfMine nConfTheirs depth : Int}
    (confirmed : isFinal cfg clock s tx.toTransaction = true → isConfirmed cfg clock s w tx = .ok true) :
    Due cfg clock s w nConfMine nConfTheirs tx depth ↔ isFinal cfg clock s tx.toTransaction = true ∧
      ∃ fromMe, tx.isFromMe w = .ok fromMe ∧ Mature cfg s tx depth ∧ Confirms nConfMine nConfTheirs fromMe depth := by
  constructor
  · intro due
    obtain ⟨fromMe, is, deep⟩ := due.deep
    exact ⟨due.final, fromMe, is, due.mature, deep⟩
  · rintro ⟨final, fromMe, is, mature, deep⟩
    exact ⟨final, confirmed final, mature, fromMe, is, deep⟩

/-- With two depths the same is due, unless they differ in what is asked of a final transaction. -/
theorem due_iff_due {nConfMine nConfTheirs depth : Int}
    (confirmed : isFinal cfg clock s tx.toTransaction = true → isConfirmed cfg clock s w tx = .ok true) :
    (Due cfg clock s w nConfMine nConfTheirs tx own ↔ Due cfg clock s w nConfMine nConfTheirs tx depth) ↔
      (isFinal cfg clock s tx.toTransaction = true → ∀ fromMe, tx.isFromMe w = .ok fromMe →
        (Mature cfg s tx own ∧ Confirms nConfMine nConfTheirs fromMe own ↔
          Mature cfg s tx depth ∧ Confirms nConfMine nConfTheirs fromMe depth)) := by
  rw [due_iff confirmed, due_iff confirmed, and_congr_right_iff]
  refine imp_congr_right fun _ => ?_
  cases tx.isFromMe w with
  | error fault => simp
  | ok fromMe => simp

/-- One of the calls of `SelectCoins` asks for no confirmation of what is from me, and one for a single confirmation of
what is not. -/
theorem spendable_iff (asked : s.getDepthInMainChain (cfg.prim.txnHash tx.toTransaction) = .ok own)
    (confirmed : isFinal cfg clock s tx.toTransaction = true → isConfirmed cfg clock s w tx = .ok true) :
    Spendable cfg clock s w tx ↔ isFinal cfg clock s tx.toTransaction = true ∧
      ∃ fromMe, tx.isFromMe w = .ok fromMe ∧ Mature cfg s tx own ∧ Confirms 0 1 fromMe own := by
  have some_pass (fromMe : Bool) :
      (∃ pass ∈ passes, Confirms pass.1 pass.2 fromMe own) ↔ Confirms 0 1 fromMe own := by
    cases fromMe
    · simp [passes, Confirms]
      omega
    · simp [passes, Confirms]
      omega
  constructor
  · rintro ⟨pass, member, passed⟩
    obtain ⟨final, fromMe, is, mature, deep⟩ := (due_iff confirmed).mp ((eligible_iff asked pass.1 pass.2).mp passed)
    exact ⟨final, fromMe, is, mature, (some_pass fromMe).mp ⟨pass, member, deep⟩⟩
  · rintro ⟨final, fromMe, is, mature, deep⟩
    obtain ⟨pass, member, deep⟩ := (some_pass fromMe).mpr deep
    exact ⟨pass, member, (eligible_iff asked _ _).mpr ((due_iff confirmed).mpr ⟨final, fromMe, is, mature, deep⟩)⟩

/-- **When the coins of a transaction in a block of the trunk age with the chain.** The depth `own` that is asked for
is that of the known block with the hash of the transaction, and 0 if no block has this hash. The blocks to
maturity are right exactly if it gives the same number, the tests exactly if it passes where the depth of the block does,
and the coins of a mature transaction can be spent exactly if it passes as one. -/
theorem coins_age_iff {known : List (BlockRef Uint256)} (reached : Reached known s.tree) {h : Nat}
    {b : BlockRef Uint256} (on : s.tree.trunk[h]? = some b) (inBlock : tx.blockHash = b.hash) :
    let depth := s.tree.height - h + 1
    ∃ own, s.getDepthInMainChain (cfg.prim.txnHash tx.toTransaction) = .ok own ∧
      (cfg.prim.txnHash tx.toTransaction ∉ hashes known → own = 0) ∧
      (∀ named ∈ known, named.hash = cfg.prim.txnHash tx.toTransaction →
        own = s.tree.height - Libcoin.depth known named.hash + 1) ∧
      (s.getBlocksToMaturity cfg tx.toTransaction =
          .ok (if tx.isCoinBase then max 0 (cfg.chain.maturity s.tree.height + 20 - depth) else 0) ↔
        (tx.isCoinBase = true → max 0 (cfg.chain.maturity s.tree.height + 20 - own) =
          max 0 (cfg.chain.maturity s.tree.height + 20 - depth))) ∧
      (∀ nConfMine nConfTheirs : Int,
        (eligible cfg clock s w nConfMine nConfTheirs tx = .ok true ↔
            Due cfg clock s w nConfMine nConfTheirs tx depth) ↔
          (isFinal cfg clock s tx.toTransaction = true → ∀ fromMe, tx.isFromMe w = .ok fromMe →
            (Mature cfg s tx own ∧ Confirms nConfMine nConfTheirs fromMe own ↔
              Mature cfg s tx depth ∧ Confirms nConfMine nConfTheirs fromMe depth))) ∧
      ((isFinal cfg clock s tx.toTransaction = true → ∀ fromMe, tx.isFromMe w = .ok fromMe →
          Mature cfg s tx depth → Spendable cfg clock s w tx) ↔
        (isFinal cfg clock s tx.toTransaction = true → ∀ fromMe, tx.isFromMe w = .ok fromMe →
          Mature cfg s tx depth → Mature cfg s tx own ∧ Confirms 0 1 fromMe own)) := by
  intro depth
  obtain ⟨grown, rep, -⟩ := reached.kept
  obtain ⟨own, asked⟩ := BlockChain.exists_getDepth rep grown (cfg.prim.txnHash tx.toTransaction)
  have anchored : s.getDepthInMainChain tx.blockHash = .ok depth := inBlock ▸ BlockChain.getDepth_trunk rep grown on
  have positive : 1 ≤ depth := by
    have inside := (List.getElem?_eq_some_iff.mp on).1
    have height : s.tree.height = s.tree.trunk.length - 1 := rfl
    omega
  have confirmed (final : isFinal cfg clock s tx.toTransaction = true) : isConfirmed cfg clock s w tx = .ok true := by
    rw [isConfirmed_of_depth final anchored, if_pos positive]
  refine ⟨own, asked, fun unknown => ?_, fun named member same => ?_, ?_, fun nConfMine nConfTheirs => ?_, ?_⟩
  · exact Except.ok.inj (asked.symm.trans (BlockChain.getDepth_unknown rep unknown))
  · exact Except.ok.inj (asked.symm.trans (same ▸ BlockChain.getDepth_known rep grown member))
  · rw [getBlocksToMaturity_eq asked, Except.ok.injEq]
    cases tx.isCoinBase <;> simp
  · rw [eligible_iff asked]
    exact due_iff_due confirmed
  · rw [spendable_iff asked confirmed]
    refine forall_congr' fun final => forall_congr' fun fromMe => forall_congr' fun is => imp_congr_right fun _ => ?_
    simp [final, is]

end Ages

end TxWallet

namespace Small

/-- A payment of 50 in a block, of a coin that is not in the wallet. -/
def payment (blockHash : Uint256) : CWalletTx :=
  { version := 20, inputs := [⟨⟨30, 0⟩, [], 0⟩], outputs := [⟨50, [1]⟩], lockTime := 0, blockHash := blockHash
    vtxPrev := [], vfSpent := [], debitCached := none }

def purse (blockHash : Uint256) : TxWallet :=
  { mapWallet := (∅ : Map Uint256 CWalletTx).insert 20 (payment blockHash), isMine := fun _ => true }

/-- Six blocks on the genesis block. -/
def sixBlocks : List (Clock × Block) :=
  (List.range 6).map fun n => (clock, mined (n + 2) (n + 1) [coinbase (n + 2) [50]])

end Small

namespace TxWallet

open Libcoin.Small

open BlockTree in
/-- The payment in block 6 of the fork, which is the last but one. -/
theorem coins_age_iff_fork : ∃ s : BlockChain, Reached [topRef, rightRef, leftRef, genesisRef] s.tree ∧
    ∃ own, s.getDepthInMainChain ((config 1 0).prim.txnHash (payment rightRef.hash).toTransaction) = .ok own ∧
      ((eligible (config 1 0) clock s (purse rightRef.hash) 1 1 (payment rightRef.hash) = .ok true ↔
          Due (config 1 0) clock s (purse rightRef.hash) 1 1 (payment rightRef.hash) (s.tree.height - (1 : Nat) + 1)) ↔
        (isFinal (config 1 0) clock s (payment rightRef.hash).toTransaction = true → ∀ fromMe,
          (payment rightRef.hash).isFromMe (purse rightRef.hash) = .ok fromMe →
            (Mature (config 1 0) s (payment rightRef.hash) own ∧ Confirms 1 1 fromMe own ↔
              Mature (config 1 0) s (payment rightRef.hash) (s.tree.height - (1 : Nat) + 1) ∧
                Confirms 1 1 fromMe (s.tree.height - (1 : Nat) + 1)))) := by
  obtain ⟨t, reached, trunk⟩ := reached_fork
  obtain ⟨s, -⟩ : ∃ s, (created 1 0).toOption = some s := Option.isSome_iff_exists.mp (by decide +kernel)
  obtain ⟨own, asked, -, -, -, tests, -⟩ := @coins_age_iff (config 1 0) clock { s with tree := t } (purse rightRef.hash)
    (payment rightRef.hash) _ reached 1 rightRef (congrArg (·[1]?) trunk) rfl
  exact ⟨{ s with tree := t }, reached, own, asked, tests 1 1⟩

/-- The payment is six blocks deep, and `SelectCoins` finds nothing. -/
theorem coins_not_aging : ∃ s, Run.final (BlockChain.offer (config 1 0)) (created 1 0).toOption sixBlocks = some s ∧
    s.tree.trunk[1]?.map BlockRef.hash = some (payment 2).blockHash ∧ s.tree.height - (1 : Nat) + 1 = 6 ∧
    Due (config 1 0) clock s (purse 2) 1 6 (payment 2) 6 ∧
    eligible (config 1 0) clock s (purse 2) 1 6 (payment 2) = .ok false ∧
    ∀ first second third : Chance, selectCoins (config 1 0) clock s (purse 2) first second third 50 = .ok none := by
  have run : (Run.final (BlockChain.offer (config 1 0)) (created 1 0).toOption sixBlocks).map (fun s =>
      (s.tree.trunk[1]?.map BlockRef.hash, s.tree.height, isFinal (config 1 0) clock s (payment 2).toTransaction,
        (isConfirmed (config 1 0) clock s (purse 2) (payment 2)).toOption,
        passes.all fun pass =>
          decide ((eligible (config 1 0) clock s (purse 2) pass.1 pass.2 (payment 2)).toOption = some false))) =
      some (some 2, 6, true, some true, true) := by decide +kernel
  obtain ⟨s, ran, run⟩ := Option.map_eq_some_iff.mp run
  obtain ⟨block, run⟩ := Prod.mk.inj run
  obtain ⟨height, run⟩ := Prod.mk.inj run
  obtain ⟨final, run⟩ := Prod.mk.inj run
  obtain ⟨confirmed, refused⟩ := Prod.mk.inj run
  have stored : (purse 2).mapWallet.toList = [(20, payment 2)] := by decide +kernel
  have tested : ∀ pass ∈ passes, eligible (config 1 0) clock s (purse 2) pass.1 pass.2 (payment 2) = .ok false :=
    fun pass member => toOption_eq_some.mp (of_decide_eq_true (List.all_eq_true.mp refused pass member))
  refine ⟨s, ran, block, by rw [height]; rfl,
    ⟨final, toOption_eq_some.mp confirmed, nofun, false, by decide +kernel, ?_⟩, tested (1, 6) (by simp [passes]),
    selectCoins_none (by decide) (by decide) fun pass member entry inside => ?_⟩
  · show (6 : Int) ≤ 6
    exact le_rfl
  · rw [stored, List.mem_singleton] at inside
    rw [inside]
    exact tested pass member

end TxWallet

end Libcoin
