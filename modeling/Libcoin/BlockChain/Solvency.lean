/-
What the transactions that are received make of the pool.

* `Solvent`: coins that are not spent, of the chain or of the pool, are together worth no more than a bound. A
  claim takes what it spends out of them and puts no more back (`Solvent.claimed`).
* `Presentable` is what nothing on the way into the pool asks: `try_claim` never calls `Chain::check`.
-/

import Libcoin.BlockChain.TransactionFilter
import Libcoin.BlockChain.Mempool
import Libcoin.Ledger.Supply
import Libcoin.Ledger.Wire

namespace Libcoin

open Exec
open Run (AlongStates)

namespace BlockChain

variable {cfg : Config} {clock : Clock} {s : BlockChain}

/-! ### The coins that can be claimed -/

/-- The value of the coin that an input with this key would spend. -/
def worth (cfg : Config) (s : BlockChain) (coin : Coin) : Int :=
  inputValue cfg s { prevout := coin, signature := [], sequence := 0 }

/-- No coin is worth less than nothing or has the null key, and coins that are not spent are together worth no
more than the bound. -/
structure Solvent (cfg : Config) (bound : Int) (s : BlockChain) : Prop where
  positive : ∀ coin, 0 ≤ worth cfg s coin
  funds : ∀ coins : List Coin, coins.Nodup → (∀ coin ∈ coins, coin ∉ s.claims.spents) →
    (coins.map (worth cfg s)).sum ≤ bound
  named : ∀ (input : Input) coin, claimedCoin cfg s input = .ok coin → input.prevout.isNull = false

/-- What a transaction is asked in `Chain::check` and not in `try_claim`. The number of its outputs is that of a
vector that was read. -/
structure Presentable (cfg : Config) (txn : Transaction) : Prop where
  inputs : txn.inputs ≠ []
  outputs : txn.outputs ≠ []
  size : cfg.prim.txnSize txn ≤ cfg.chain.maxBlockSize
  values : cfg.chain.checkOutputs txn.outputs 0 = .ok ()
  number : txn.outputs.length ≤ 0x02000000

theorem Presentable.positive {txn : Transaction} (presentable : Presentable cfg txn) :
    (∀ output ∈ txn.outputs, 0 ≤ output.value) ∧ 0 ≤ txn.valueOut ∧ txn.valueOut ≤ 10 ^ 18 := by
  obtain ⟨positive, -, bound⟩ := checkOutputs_exact ⟨le_refl 0, cfg.chain.maxMoney_nonneg⟩ presentable.values
  refine ⟨positive, List.sum_nonneg fun value member => ?_, ?_⟩
  · obtain ⟨output, inside, rfl⟩ := List.mem_map.mp member
    exact positive output inside
  · have most := cfg.chain.maxMoney_le
    unfold Transaction.valueOut
    omega

/-- The fee that `try_claim` computes is exact: were it not, it would be negative. -/
theorem Claimable.fee_exact {bound : Int} (solvent : Solvent cfg bound s) (small : bound < 2 ^ 64)
    {txn : Transaction} (presentable : Presentable cfg txn) {spents : Finset Coin} {fee : Int}
    (claimable : Claimable cfg s txn spents fee) : fee = ownFee cfg s txn ∧ fee < 2 ^ 63 := by
  obtain ⟨-, low, high⟩ := presentable.positive
  have spent : 0 ≤ (txn.inputs.map (inputValue cfg s)).sum ∧ (txn.inputs.map (inputValue cfg s)).sum ≤ bound := by
    constructor
    · refine List.sum_nonneg fun value member => ?_
      obtain ⟨input, -, rfl⟩ := List.mem_map.mp member
      exact solvent.positive input.prevout
    · have funds := solvent.funds (txn.inputs.map Input.prevout) claimable.distinct fun coin member => by
        obtain ⟨input, inside, rfl⟩ := List.mem_map.mp member
        exact claimable.unspent input inside
      rwa [List.map_map] at funds
  obtain ⟨⟨turns, wrapped⟩, -, above⟩ := wrap64_spec (ownFee cfg s txn)
  have same := claimable.fee_eq
  have nonneg := claimable.fee_nonneg
  have own : ownFee cfg s txn = (txn.inputs.map (inputValue cfg s)).sum - txn.valueOut := rfl
  -- the difference is above `-2 ^ 63` and below `2 ^ 64`, so that it wraps to a negative fee or not at all
  have no_turns : turns = 0 := by omega
  rw [no_turns] at wrapped
  omega

/-- A transaction that is claimed passes the checks. -/
theorem Claimable.checked {bound : Int} (solvent : Solvent cfg bound s) {txn : Transaction}
    (presentable : Presentable cfg txn) {spents : Finset Coin} {fee : Int}
    (claimable : Claimable cfg s txn spents fee) : cfg.chain.checkTransaction cfg.prim txn = .ok () := by
  have inputs : Chain.checkInputs txn = .ok () := by
    unfold Chain.checkInputs
    have named : (txn.inputs.any fun input => input.prevout.isNull) = false := by
      rw [List.any_eq_false]
      intro input member
      obtain ⟨coin, found⟩ := claimable.found input member
      simp [solvent.named input coin found]
    simp [claimable.distinct, claimable.not_coinbase, named]
  unfold Chain.checkTransaction Chain.checkTransactionBody
  have someInput : txn.inputs.isEmpty = false := by
    rw [List.isEmpty_eq_false_iff]
    exact presentable.inputs
  have someOutput : txn.outputs.isEmpty = false := by
    rw [List.isEmpty_eq_false_iff]
    exact presentable.outputs
  rw [someInput, someOutput, if_neg (not_lt.mpr presentable.size), presentable.values, inputs]
  rfl

/-! ### A claim that is accepted -/

section Claimed

variable {txn : Transaction} {spents : Finset Coin} {fee : Int}

/-- The outputs of a claim take the place of the coins with their keys. -/
theorem prev_claimed (fresh : s.claims.haveHash (cfg.prim.txnHash txn) = false) (coin : Coin) :
    (claimed cfg clock s txn spents fee).claims.prev coin =
      if coin.hash = cfg.prim.txnHash txn then (txn.outputs[coin.index]?).getD { value := -1, script := [] }
      else s.claims.prev coin := by
  unfold Claims.prev
  by_cases own : coin.hash = cfg.prim.txnHash txn
  · rw [if_pos own, own, lookup_claimed_own fresh]
    dsimp only
    rw [Claims.newClaim_txn]
  · have same : (claimed cfg clock s txn spents fee).claims.confirmations[coin.hash]? =
        s.claims.confirmations[coin.hash]? := by
      show (s.claims.insert cfg.prim clock.now txn spents fee 0).confirmations[coin.hash]? = _
      rw [Claims.lookup_insert, if_neg (Ne.symm own)]
    rw [if_neg own, same]

/-- The output of the transaction with a key, if it has one. -/
def ownOutput (cfg : Config) (txn : Transaction) (coin : Coin) : Option Output :=
  if coin.hash = cfg.prim.txnHash txn then txn.outputs[coin.index]? else none

theorem claimedCoin_claimed (fresh : s.claims.haveHash (cfg.prim.txnHash txn) = false)
    (positive : ∀ output ∈ txn.outputs, 0 ≤ output.value) (input : Input) :
    claimedCoin cfg (claimed cfg clock s txn spents fee) input =
      match ownOutput cfg txn input.prevout with
      | some output => .ok { key := input.prevout, output := output, coin := 0, count := 0, cnf := 0 }
      | none => claimedCoin cfg s input := by
  have missing : input.prevout.hash = cfg.prim.txnHash txn → s.claims.prev input.prevout =
    { value := -1, script := [] } := by
    intro own
    unfold Claims.prev
    rw [own, Claims.lookup_of_not_have fresh]
  unfold claimedCoin ownOutput
  rw [prev_claimed fresh]
  by_cases own : input.prevout.hash = cfg.prim.txnHash txn
  · rw [if_pos own, if_pos own, missing own]
    cases found : txn.outputs[input.prevout.index]? with
    | none => rfl
    | some output =>
      have some : output.isNull = false := by
        have least := positive output (List.mem_of_getElem? found)
        refine decide_eq_false fun null => ?_
        omega
      simp [some]
  · rw [if_neg own, if_neg own]
    rfl

theorem worth_claimed (fresh : s.claims.haveHash (cfg.prim.txnHash txn) = false)
    (positive : ∀ output ∈ txn.outputs, 0 ≤ output.value) (coin : Coin) :
    worth cfg (claimed cfg clock s txn spents fee) coin =
      (ownOutput cfg txn coin).elim (worth cfg s coin) Output.value := by
  unfold worth inputValue
  rw [claimedCoin_claimed fresh positive]
  cases ownOutput cfg txn coin <;> rfl

/-- Distinct outputs of a transaction are worth no more than all of them. -/
theorem ownOutputs_le (positive : ∀ output ∈ txn.outputs, 0 ≤ output.value) {coins : List Coin}
    (distinct : coins.Nodup)
    (own : ∀ coin ∈ coins, coin.hash = cfg.prim.txnHash txn ∧ coin.index < txn.outputs.length) :
    (coins.map fun coin => (ownOutput cfg txn coin).elim 0 Output.value).sum ≤ txn.valueOut := by
  have indices : coins.map (fun coin => (ownOutput cfg txn coin).elim 0 Output.value) =
      (coins.map Coin.index).map fun idx => (txn.outputs[idx]?).elim 0 Output.value := by
    rw [List.map_map]
    refine List.map_congr_left fun coin member => ?_
    unfold ownOutput
    rw [if_pos (own coin member).1]
    rfl
  have nodup : (coins.map Coin.index).Nodup := by
    refine distinct.map_on fun first inside second inside' same => ?_
    have hash : first.hash = second.hash := (own first inside).1.trans (own second inside').1.symm
    cases first
    cases second
    exact (Coin.mk.injEq _ _ _ _).mpr ⟨hash, same⟩
  have all : txn.outputs.map Output.value =
      (List.range txn.outputs.length).map fun idx => (txn.outputs[idx]?).elim 0 Output.value := by
    refine List.ext_getElem (by simp) fun idx inside _ => ?_
    have bound : idx < txn.outputs.length := by simpa using inside
    simp [List.getElem?_eq_getElem bound]
  have inside : (coins.map Coin.index).Subperm (List.range txn.outputs.length) := by
    refine List.subperm_of_subset nodup fun idx member => ?_
    obtain ⟨coin, here, rfl⟩ := List.mem_map.mp member
    exact List.mem_range.mpr (own coin here).2
  obtain ⟨sorted, perm, sublist⟩ := inside
  unfold Transaction.valueOut
  rw [indices, all, ← (perm.map _).sum_eq]
  refine List.Sublist.sum_le_sum (sublist.map _) fun value member => ?_
  obtain ⟨idx, -, rfl⟩ := List.mem_map.mp member
  cases found : txn.outputs[idx]? with
  | none => exact le_rfl
  | some output => exact positive output (List.mem_of_getElem? found)

/-- **A claim keeps the pool solvent.** -/
theorem Solvent.claimed {bound : Int} (solvent : Solvent cfg bound s) (small : bound < 2 ^ 64)
    (presentable : Presentable cfg txn) (claimable : Claimable cfg s txn spents fee) :
    Solvent cfg bound (claimed cfg clock s txn spents fee) := by
  obtain ⟨positive, -, -⟩ := presentable.positive
  have worths := @worth_claimed cfg clock s txn spents fee claimable.fresh positive
  refine ⟨fun coin => ?_, fun coins distinct unspent => ?_, fun input coin found => ?_⟩
  · rw [worths]
    unfold ownOutput
    split
    · cases found : txn.outputs[coin.index]? with
      | none => exact solvent.positive coin
      | some output => exact positive output (List.mem_of_getElem? found)
    · exact solvent.positive coin
  · have mine : ∀ coin ∈ coins.filter fun coin => decide (ownOutput cfg txn coin ≠ none),
        coin.hash = cfg.prim.txnHash txn ∧ coin.index < txn.outputs.length := by
      intro coin member
      have some := of_decide_eq_true (List.mem_filter.mp member).2
      unfold ownOutput at some
      split at some
      · rename_i own
        exact ⟨own, not_le.mp fun outside => some (List.getElem?_eq_none outside)⟩
      · exact absurd rfl some
    have issued := ownOutputs_le positive (distinct.filter _) mine
    -- the coins that were there before, and those that the claim spends
    have before := solvent.funds
      ((coins.filter fun coin => !decide (ownOutput cfg txn coin ≠ none)) ++ txn.inputs.map Input.prevout) ?_ ?_
    · rw [List.map_append, List.sum_append, List.map_map] at before
      have fee_eq := (claimable.fee_exact solvent small presentable).1
      have nonneg := claimable.fee_nonneg
      have own : ownFee cfg s txn = (txn.inputs.map (worth cfg s ∘ Input.prevout)).sum - txn.valueOut := rfl
      rw [← ((List.filter_append_perm (fun coin => decide (ownOutput cfg txn coin ≠ none)) coins).map _).sum_eq,
        List.map_append, List.sum_append]
      have first : (coins.filter fun coin => decide (ownOutput cfg txn coin ≠ none)).map
          (worth cfg (BlockChain.claimed cfg clock s txn spents fee)) =
            (coins.filter fun coin => decide (ownOutput cfg txn coin ≠ none)).map
              fun coin => (ownOutput cfg txn coin).elim 0 Output.value := by
        refine List.map_congr_left fun coin member => ?_
        obtain ⟨output, found⟩ := Option.ne_none_iff_exists'.mp (of_decide_eq_true (List.mem_filter.mp member).2)
        rw [worths, found]
        rfl
      have second : (coins.filter fun coin => !decide (ownOutput cfg txn coin ≠ none)).map
          (worth cfg (BlockChain.claimed cfg clock s txn spents fee)) =
            (coins.filter fun coin => !decide (ownOutput cfg txn coin ≠ none)).map (worth cfg s) := by
        refine List.map_congr_left fun coin member => ?_
        have none := (List.mem_filter.mp member).2
        rw [worths]
        cases found : ownOutput cfg txn coin with
        | none => rfl
        | some output => simp [found] at none
      rw [first, second]
      omega
    · refine List.nodup_append.mpr ⟨distinct.filter _, claimable.distinct, fun coin here coin' there same => ?_⟩
      refine unspent coin (List.mem_filter.mp here).1 (Finset.mem_union_right _ ?_)
      rw [claimable.spents_eq, List.mem_toFinset, same]
      exact there
    · intro coin member
      rcases List.mem_append.mp member with here | there
      · exact fun already => unspent coin (List.mem_filter.mp here).1 (Finset.mem_union_left _ already)
      · obtain ⟨input, inside, rfl⟩ := List.mem_map.mp there
        exact claimable.unspent input inside
  · rw [claimedCoin_claimed claimable.fresh positive] at found
    cases own : ownOutput cfg txn input.prevout with
    | none =>
      rw [own] at found
      exact solvent.named input coin found
    | some output =>
      -- a vector that was read has no element with the number of the null key
      refine decide_eq_false fun null => ?_
      have number := presentable.number
      have inside : (0xffffffff : Nat) < txn.outputs.length := by
        rw [null] at own
        unfold ownOutput at own
        split at own
        · exact (List.getElem?_eq_some_iff.mp own).1
        · cases own
      omega

end Claimed

/-! ### The coins of a chain -/

/-- The rows of the coins are not negative and none has the null key, the spendable coins have their rows, and all
of them are together worth less than two to the power of 64. -/
structure Funded (cfg : Config) (s : BlockChain) : Prop where
  backed : s.ledger.coins.Backed cfg.validationDepth
  value : s.ledger.coins.value < 2 ^ 64
  named : ∀ (id : Int) row, s.ledger.coins.unspents.rows[id]? = some row → row.key.isNull = false

/-- Without claims a coin is that of a row. -/
theorem claimedCoin_row (backed : s.ledger.coins.Backed cfg.validationDepth) (unclaimed : s.claims = Claims.empty)
    {input : Input} {coin : Unspent} (found : claimedCoin cfg s input = .ok coin) :
    s.ledger.coins.unspents.rows[coin.coin]? = some coin.row ∧ coin.key = input.prevout := by
  have none : s.claims.prev input.prevout = { value := -1, script := [] } := by
    rw [unclaimed]
    unfold Claims.prev Claims.empty
    rw [Map.lookup_empty]
  unfold claimedCoin at found
  rw [none, if_neg (by decide)] at found
  split at found
  · split at found
    · cases found
    · rename_i id row first
      obtain ⟨stored, key⟩ := Table.first_eq_some first
      split at found
      · cases found
      · split at found
        · cases found
        · obtain rfl := Except.ok.inj found
          exact ⟨stored, of_decide_eq_true key⟩
  · rename_i trie
    split at found
    · rename_i unspent spendable
      obtain rfl := Except.ok.inj found
      obtain ⟨key, stored⟩ := backed.stored trie _ _ spendable
      exact ⟨stored, key⟩
    · cases found

/-- A chain without claims is solvent. -/
theorem Funded.solvent (funded : Funded cfg s) (unclaimed : s.claims = Claims.empty) :
    Solvent cfg s.ledger.coins.value s := by
  have worth_row : ∀ coin, worth cfg s coin = 0 ∨ ∃ (id : Int) (row : UnspentRow),
      s.ledger.coins.unspents.rows[id]? = some row ∧ row.key = coin ∧ worth cfg s coin = row.output.value := by
    intro coin
    unfold worth inputValue
    cases found : claimedCoin cfg s { prevout := coin, signature := [], sequence := 0 } with
    | error fault => exact .inl rfl
    | ok unspent =>
      obtain ⟨stored, key⟩ := claimedCoin_row funded.backed unclaimed found
      exact .inr ⟨unspent.coin, unspent.row, stored, key, rfl⟩
  refine ⟨fun coin => ?_, fun coins distinct unspent => ?_, fun input coin found => ?_⟩
  · rcases worth_row coin with zero | ⟨id, row, stored, -, same⟩
    · rw [zero]
    · rw [same]
      exact funded.backed.positive id row stored
  · -- the rows of distinct coins are distinct
    have rows : ∃ ids : List Int, ids.Nodup ∧
        (∀ id ∈ ids, ∃ row : UnspentRow, s.ledger.coins.unspents.rows[id]? = some row ∧ row.key ∈ coins) ∧
        (coins.map (worth cfg s)).sum = (ids.map fun id : Int =>
          (s.ledger.coins.unspents.rows[id]?).elim 0 fun row => row.output.value).sum := by
      clear unspent
      induction coins with
      | nil => exact ⟨[], List.nodup_nil, nofun, rfl⟩
      | cons coin coins ih =>
        obtain ⟨fresh, distinct⟩ := List.nodup_cons.mp distinct
        obtain ⟨ids, nodup, keys, sum⟩ := ih distinct
        rcases worth_row coin with zero | ⟨id, row, stored, key, same⟩
        · refine ⟨ids, nodup, fun id member => ?_, ?_⟩
          · obtain ⟨row, stored, inside⟩ := keys id member
            exact ⟨row, stored, List.mem_cons_of_mem _ inside⟩
          · rw [List.map_cons, List.sum_cons, zero, zero_add, sum]
        · refine ⟨id :: ids, List.nodup_cons.mpr ⟨fun again => ?_, nodup⟩, fun other member => ?_, ?_⟩
          · obtain ⟨row', stored', inside⟩ := keys id again
            rw [stored] at stored'
            rw [← Option.some.inj stored', key] at inside
            exact fresh inside
          · rcases List.mem_cons.mp member with rfl | later
            · exact ⟨row, stored, key ▸ List.mem_cons_self⟩
            · obtain ⟨row', stored', inside⟩ := keys other later
              exact ⟨row', stored', List.mem_cons_of_mem _ inside⟩
          · rw [List.map_cons, List.sum_cons, List.map_cons, List.sum_cons, sum, same, stored]
            rfl
    obtain ⟨ids, nodup, -, sum⟩ := rows
    rw [sum]
    exact Map.sum_le_total (fun id row stored => funded.backed.positive id row stored) nodup
  · obtain ⟨stored, key⟩ := claimedCoin_row funded.backed unclaimed found
    rw [← key]
    exact funded.named coin.coin coin.row stored

theorem attachAll_backed {chain : Chain} {prim : Primitives} {validationDepth : Int} {offers : List Offer}
    {ledger ledger' : Ledger} {done : Unit} (backed : ledger.coins.Backed validationDepth)
    (checked : ∀ offer ∈ offers, ∀ txn ∈ offer.block.transactions, chain.checkTransaction prim txn = .ok ())
    (run : attachAll chain prim validationDepth offers ledger = .ok done ledger') :
    ledger'.coins.Backed validationDepth := by
  induction offers generalizing ledger with
  | nil =>
    obtain ⟨-, rfl⟩ := pure_ok.mp run
    exact backed
  | cons offer offers ih =>
    unfold attachAll at run
    obtain ⟨_, one, attached, run⟩ := bind_ok.mp run
    have attached : attach (offer.setting chain prim validationDepth) offer.blk offer.block
      offer.unconfirmed offer.confirmed ledger = .ok _ one := attached
    obtain ⟨backed', -, -⟩ := attach_flow backed (checked offer List.mem_cons_self) attached
    exact ih backed' (fun other later => checked other (List.mem_cons_of_mem _ later)) run

theorem mem_issuedCoins {hash : Uint256} {outputs : List Output} {idx : Nat} {coin : Coin}
    (member : coin ∈ issuedCoins hash outputs idx) : coin.index < idx + outputs.length := by
  induction outputs generalizing idx with
  | nil => cases member
  | cons output outputs ih =>
    rw [List.length_cons]
    rcases List.mem_cons.mp member with rfl | later
    · exact Nat.lt_add_of_pos_right (Nat.succ_pos _)
    · have bound := ih later
      omega

/-- No transaction issues a coin with the null key. -/
theorem block_events_named {prim : Primitives} {block : Block}
    (number : ∀ txn ∈ block.transactions, txn.outputs.length ≤ 0x02000000) :
    Event.issued Coin.null ∉ block.events prim := by
  intro member
  have issues : ∀ txn ∈ block.transactions, Event.issued Coin.null ∉ txn.issues prim := by
    intro txn inside member
    obtain ⟨coin, issued, same⟩ := List.mem_map.mp member
    have bound := mem_issuedCoins issued
    have few := number txn inside
    rw [Event.issued.inj same] at bound
    have null : Coin.null.index = 0xffffffff := rfl
    omega
  rcases List.mem_append.mp member with rest | first
  · obtain ⟨txn, inside, member⟩ := List.mem_flatMap.mp rest
    rcases List.mem_append.mp member with redeemed | issued
    · obtain ⟨input, -, same⟩ := List.mem_map.mp redeemed
      cases same
    · exact issues txn (List.mem_of_mem_tail inside) issued
  · cases head : block.transactions.head? with
    | none =>
      rw [head] at first
      cases first
    | some txn =>
      rw [head] at first
      exact issues txn (List.mem_of_head? head) first

theorem Ledger.empty_weight {unspentIndex : Bool} (measure : UnspentRow → Int) :
    (Ledger.empty unspentIndex).coins.weight measure = 0 := Map.total_empty measure

/-- The coins of a ledger that was filled without issuing the null key. -/
theorem funded_of_flow {unspentIndex : Bool} {events : List Event}
    (backed : s.ledger.coins.Backed cfg.validationDepth)
    (flow : Flow (Ledger.empty unspentIndex).coins s.ledger.coins events)
    (named : Event.issued Coin.null ∉ events)
    (value : s.ledger.coins.value < 2 ^ 64) : Funded cfg s := by
  refine ⟨backed, value, fun id row stored => decide_eq_false fun null => ?_⟩
  have rows := flow.rows Coin.null
  have none : (Ledger.empty unspentIndex).coins.rowsOf Coin.null = 0 := Ledger.empty_weight _
  have issued : events.count (.issued Coin.null) = 0 := List.count_eq_zero_of_not_mem named
  have least : 1 ≤ s.ledger.coins.rowsOf Coin.null := by
    have sum : ([id].map fun id : Int => (s.ledger.coins.unspents.rows[id]?).elim 0 (keyIs Coin.null)).sum ≤
        s.ledger.coins.rowsOf Coin.null :=
      Map.sum_le_total (fun id row stored => keyIs_fair Coin.null row (backed.positive id row stored))
        (List.nodup_singleton id)
    have one : keyIs Coin.null row = 1 := if_pos null
    rw [List.map_singleton, List.sum_singleton, stored] at sum
    exact one ▸ sum
  omega

/-- The coins of every chain of checked blocks, if the subsidies are together less than two to the power of 64. -/
theorem attachAll_funded {offers : List Offer} {unspentIndex : Bool}
    (trie : cfg.validationDepth ≠ 0 → unspentIndex = false)
    (checked : ∀ offer ∈ offers, ∀ txn ∈ offer.block.transactions,
      cfg.chain.checkTransaction cfg.prim txn = .ok ())
    (number : ∀ offer ∈ offers, ∀ txn ∈ offer.block.transactions, txn.outputs.length ≤ 0x02000000)
    (small : subsidies cfg.chain offers < 2 ^ 64)
    (run : attachAll cfg.chain cfg.prim cfg.validationDepth offers (Ledger.empty unspentIndex) =
      .ok () s.ledger) :
    Funded cfg s := by
  have start := backed_empty unspentIndex trie
  obtain ⟨flow, value⟩ := attachAll_flow start checked run
  have none : (Ledger.empty unspentIndex).coins.value = 0 := Ledger.empty_weight _
  refine funded_of_flow (attachAll_backed start checked run) flow ?_ (by omega)
  intro member
  obtain ⟨offer, here, member⟩ := List.mem_flatMap.mp member
  exact block_events_named (number offer here) member

/-- The coin of the genesis block of a new chain. -/
theorem create_funded {genesis : Block} {unspentIndex : Bool} {purgeDepth : Int}
    (trie : cfg.validationDepth ≠ 0 → unspentIndex = false)
    (checked : ∀ txn ∈ genesis.transactions, cfg.chain.checkTransaction cfg.prim txn = .ok ())
    (number : ∀ txn ∈ genesis.transactions, txn.outputs.length ≤ 0x02000000)
    (small : ∀ height prev, cfg.chain.subsidy height prev < 2 ^ 64)
    (run : create cfg clock genesis unspentIndex purgeDepth = .ok s) : Funded cfg s := by
  obtain ⟨tree, start, blk, ledger, locator, result, -, -, -, -, branches, -, attached, rfl⟩ := create_ok run
  have inside : ∀ txn ∈ (start.branches.getD blk.hash Block.null).transactions, txn ∈ genesis.transactions := by
    intro txn member
    rw [branches, Map.getD_lookup, Map.lookup_insert] at member
    split at member
    · exact member
    · rw [Map.lookup_empty] at member
      cases member
  obtain ⟨backed, flow, value⟩ := attach_flow (backed_empty unspentIndex trie)
    (fun txn member => checked txn (inside txn member)) attached
  have none : (Ledger.empty unspentIndex).coins.value = 0 := Ledger.empty_weight _
  refine funded_of_flow backed flow (block_events_named fun txn member => number txn (inside txn member)) ?_
  refine lt_of_le_of_lt value ?_
  rw [none, zero_add]
  exact small _ _

/-! ### The pool -/

/-- What is recorded of a claim: when it was claimed, with some of the present claims in the pool, each of its
inputs had its coin, the difference of the values that it spends and creates was not negative and fits in 64 bits,
and the fee is this difference with the fees of the claims that it spends, one for each input. -/
def Recorded (cfg : Config) (s : BlockChain) (claim : Claim) : Prop :=
  ∃ before : Claims,
    (∀ (hash : Uint256) other, before.confirmations[hash]? = some other →
      s.claims.confirmations[hash]? = some other) ∧
    (∀ input ∈ claim.txn.inputs, ∃ coin, claimedCoin cfg { s with claims := before } input = .ok coin) ∧
    0 ≤ ownFee cfg { s with claims := before } claim.txn ∧
    ownFee cfg { s with claims := before } claim.txn < 2 ^ 63 ∧
    claim.fee = wrap64 (ownFee cfg { s with claims := before } claim.txn +
      ((Claims.parentsOf before.confirmations claim.txn.inputs).map
        (Claims.fieldOf Claim.fee before.confirmations)).sum)

/-- What every claim keeps. -/
structure Vetted (cfg : Config) (bound : Int) (s : BlockChain) : Prop where
  solvent : Solvent cfg bound s
  vetted : ∀ (hash : Uint256) claim, s.claims.confirmations[hash]? = some claim →
    cfg.chain.checkTransaction cfg.prim claim.txn = .ok () ∧ Recorded cfg s claim

theorem Vetted.claimed {bound : Int} (known : Vetted cfg bound s) (small : bound < 2 ^ 64) {txn : Transaction}
    (presentable : Presentable cfg txn) {verify : Bool} {spents : Finset Coin} {fee : Int}
    (tried : tryClaim cfg clock s txn verify = .ok (spents, fee)) :
    Vetted cfg bound (claimed cfg clock s txn spents fee) := by
  have claimable := tryClaim_ok tried
  refine ⟨known.solvent.claimed small presentable claimable, fun hash claim found => ?_⟩
  rcases Claims.lookup_of_insert claimable.fresh found with ⟨rfl, rfl⟩ | ⟨-, old⟩
  · obtain ⟨exact_fee, below⟩ := claimable.fee_exact known.solvent small presentable
    have nonneg := claimable.fee_nonneg
    have range : wrap64 fee = fee := wrap64_of_range (by omega) below
    rw [exact_fee] at below nonneg
    refine ⟨?_, s.claims, fun hash other pooled => lookup_claimed pooled, ?_, ?_, ?_, ?_⟩
    · rw [Claims.newClaim_txn]
      exact claimable.checked known.solvent presentable
    · rw [Claims.newClaim_txn]
      exact claimable.found
    · rw [Claims.newClaim_txn]
      exact nonneg
    · rw [Claims.newClaim_txn]
      exact below
    · rw [Claims.newClaim_fee range, Claims.newClaim_txn, exact_fee]
      rfl
  · obtain ⟨checked, before, inside, recorded⟩ := known.vetted hash claim old
    exact ⟨checked, before, fun other pooled stored => lookup_claimed (inside other pooled stored), recorded⟩

/-- **The transactions in the pool are well formed**, in every state of a run in which the transactions that are
received are presentable, and their fees are what they spend without what they create, with the fees of the claims
they spend. -/
theorem received_checked {listeners : List Nat} (funded : Funded cfg s) (unclaimed : s.claims = Claims.empty)
    {received : List Received} (presentable : ∀ r ∈ received, Presentable cfg r.txn) :
    AlongStates (TransactionFilter.receive cfg listeners)
      (fun now => ∀ f ∈ now, ∀ (hash : Uint256) claim, f.chain.claims.confirmations[hash]? = some claim →
        cfg.chain.checkTransaction cfg.prim claim.txn = .ok () ∧ Recorded cfg f.chain claim)
      (some (TransactionFilter.new s)) received := by
  have start : Vetted cfg s.ledger.coins.value s := by
    refine ⟨funded.solvent unclaimed, fun hash claim found => ?_⟩
    rw [unclaimed] at found
    simp [Claims.empty] at found
  have kept : ∀ clock s' txn spents fee, Vetted cfg s.ledger.coins.value s' → Presentable cfg txn →
      tryClaim cfg clock s' txn true = .ok (spents, fee) →
        Vetted cfg s.ledger.coins.value (BlockChain.claimed cfg clock s' txn spents fee) :=
    fun _ _ _ _ _ known met tried => known.claimed funded.value met tried
  have weaker : ∀ s', Vetted cfg s.ledger.coins.value s' →
      ∀ (hash : Uint256) claim, s'.claims.confirmations[hash]? = some claim →
        cfg.chain.checkTransaction cfg.prim claim.txn = .ok () ∧ Recorded cfg s' claim :=
    fun s' known => known.vetted
  have first : Vetted cfg s.ledger.coins.value (TransactionFilter.new s).chain := start
  exact TransactionFilter.receive_run kept weaker first rfl presentable

open Libcoin.Small

/-- Three blocks, the last one with a spend of a coin that has matured. -/
def maturedRun : List Offer :=
  [Small.offer 1 0 [coinbase 10 [25, 25]], Small.offer 2 1 [coinbase 15 [25, 25]],
    Small.offer 3 2 [coinbase 20 [52], spend 21 [(15, 0)] [24], spend 22 [(21, 0)] [23]]]

/-- The coins of the two blocks of `spentRun`, and in trie mode those of `maturedRun`. -/
theorem attachAll_funded_spent :
    (∃ ledger, attachAll (config 1 0).chain (config 1 0).prim 0 spentRun (Ledger.empty true) = .ok () ledger ∧
      ∀ s : BlockChain, s.ledger = ledger → Funded (config 1 0) s) ∧
    ∃ ledger, attachAll (config 1 1).chain (config 1 1).prim 1 maturedRun (Ledger.empty false) = .ok () ledger ∧
      2 < ledger.spendables.toList.length ∧ ∀ s : BlockChain, s.ledger = ledger → Funded (config 1 1) s := by
  have run : succeeds (attachAll (config 1 0).chain (config 1 0).prim 0 spentRun (Ledger.empty true))
      (fun _ _ => true) = true := by decide +kernel
  have mature : succeeds (attachAll (config 1 1).chain (config 1 1).prim 1 maturedRun (Ledger.empty false))
      (fun _ s => decide (2 < s.spendables.toList.length)) = true := by decide +kernel
  obtain ⟨_, ledger, attached, -⟩ := of_succeeds run
  obtain ⟨_, ledger', attached', some⟩ := of_succeeds mature
  refine ⟨⟨ledger, attached, fun s same => ?_⟩, ledger', attached', of_decide_eq_true some, fun s same => ?_⟩
  · subst same
    exact attachAll_funded (fun trie => absurd rfl trie) (by decide +kernel) (by decide +kernel) (by decide +kernel)
      attached
  · subst same
    exact attachAll_funded (fun _ => rfl) (by decide +kernel) (by decide +kernel) (by decide +kernel) attached'

/-- A transaction that spends a claim with a fee is recorded with both fees, and a transaction without inputs and
outputs is claimed. -/
theorem received_fees : ∃ s, created 1 0 = .ok s ∧
    (∃ f ∈ Run.final (TransactionFilter.receive (config 1 0) []) (some (TransactionFilter.new s))
        [⟨Small.clock, [], spend 10 [(1, 0)] [45]⟩, ⟨Small.clock, [], spend 11 [(10, 0)] [44]⟩],
      ∃ claim, f.chain.claims.confirmations[(11 : Uint256)]? = some claim ∧
        ∀ before : Claims, (∀ (hash : Uint256) other, before.confirmations[hash]? = some other →
            f.chain.claims.confirmations[hash]? = some other) →
          (∀ input ∈ claim.txn.inputs, ∃ coin,
            claimedCoin (config 1 0) { f.chain with claims := before } input = .ok coin) →
          claim.fee ≠ ownFee (config 1 0) { f.chain with claims := before } claim.txn) ∧
    ∃ f ∈ Run.final (TransactionFilter.receive (config 1 0) []) (some (TransactionFilter.new s))
        [⟨Small.clock, [], spend 12 [] []⟩],
      ∃ claim, f.chain.claims.confirmations[(12 : Uint256)]? = some claim ∧
        (config 1 0).chain.checkTransaction (config 1 0).prim claim.txn ≠ .ok () := by
  have run : (do
      let s ← (created 1 0).toOption
      let f ← Run.final (TransactionFilter.receive (config 1 0) []) (some (TransactionFilter.new s))
        [⟨Small.clock, [], spend 10 [(1, 0)] [45]⟩, ⟨Small.clock, [], spend 11 [(10, 0)] [44]⟩]
      let g ← Run.final (TransactionFilter.receive (config 1 0) []) (some (TransactionFilter.new s))
        [⟨Small.clock, [], spend 12 [] []⟩]
      return (f.chain.claims.confirmations.toList.map fun entry => (entry.1, entry.2.txn, entry.2.fee),
        f.chain.ledger.db.unspents.rows.toList.map fun entry => entry.2.key,
        g.chain.claims.confirmations.toList.map fun entry => (entry.1, entry.2.txn))) =
        some ([(10, spend 10 [(1, 0)] [45], 5), (11, spend 11 [(10, 0)] [44], 6)], [{ hash := 1, index := 0 }],
          [(12, spend 12 [] [])]) := by
    decide +kernel
  obtain ⟨s, done, run⟩ := Option.bind_eq_some_iff.mp run
  obtain ⟨f, first, run⟩ := Option.bind_eq_some_iff.mp run
  obtain ⟨g, second, run⟩ := Option.bind_eq_some_iff.mp run
  obtain ⟨fees, rest⟩ := Prod.mk.inj (Option.some.inj run)
  obtain ⟨rows, checks⟩ := Prod.mk.inj rest
  refine ⟨s, toOption_eq_some.mp done, ⟨f, first, ?_⟩, g, second, ?_⟩
  · have pooled : ((11 : Uint256), spend 11 [(10, 0)] [44], (6 : Int)) ∈
        f.chain.claims.confirmations.toList.map fun entry => (entry.1, entry.2.txn, entry.2.fee) := by
      rw [fees]
      decide
    obtain ⟨⟨hash, claim⟩, inside, same⟩ := List.mem_map.mp pooled
    obtain ⟨rfl, same⟩ := Prod.mk.inj same
    obtain ⟨txn, fee⟩ := Prod.mk.inj same
    refine ⟨claim, Map.mem_toList.mp inside, fun before kept found => ?_⟩
    have input : (⟨{ hash := 10, index := 0 }, [], 0xffffffff⟩ : Input) ∈ claim.txn.inputs := by
      rw [show claim.txn = _ from txn]
      decide
    obtain ⟨coin, here⟩ := found _ input
    -- the input is that of the first claim, as the chain has no such coin
    cases parent : before.confirmations[(10 : Uint256)]? with
    | none =>
      have missing : f.chain.ledger.db.findUnspent { hash := 10, index := 0 } = none := by
        refine Table.first_eq_none.mpr fun id row stored => decide_eq_false fun key => ?_
        have listed : row.key ∈ f.chain.ledger.db.unspents.rows.toList.map fun entry => entry.2.key :=
          List.mem_map.mpr ⟨_, Map.mem_toList.mpr stored, rfl⟩
        rw [rows, key] at listed
        exact absurd listed (by decide)
      unfold claimedCoin Claims.prev at here
      dsimp only at here
      rw [parent, if_neg (by decide), if_pos (show (config 1 0).validationDepth = 0 from rfl), missing] at here
      cases here
    | some other =>
      have listed : ((10 : Uint256), other.txn, other.fee) ∈
          f.chain.claims.confirmations.toList.map fun entry => (entry.1, entry.2.txn, entry.2.fee) :=
        List.mem_map.mpr ⟨_, Map.mem_toList.mpr (kept 10 other parent), rfl⟩
      rw [fees] at listed
      have same : other.txn = spend 10 [(1, 0)] [45] := by
        rcases List.mem_cons.mp listed with same | later
        · exact (Prod.mk.inj (Prod.mk.inj same).2).1
        · exact absurd (Prod.mk.inj (List.mem_singleton.mp later)).1 (by decide)
      have value : inputValue (config 1 0) { f.chain with claims := before } ⟨{ hash := 10, index := 0 },
        [], 0xffffffff⟩ =
          45 := by
        have output : before.prev { hash := 10, index := 0 } = { value := 45, script := [] } := by
          unfold Claims.prev
          rw [parent]
          dsimp only
          rw [same]
          rfl
        unfold inputValue claimedCoin
        dsimp only
        rw [output]
        rfl
      have own : ownFee (config 1 0) { f.chain with claims := before } claim.txn = 45 - 44 := by
        unfold ownFee
        rw [show claim.txn = _ from txn]
        have input : (spend 11 [(10, 0)] [44]).inputs =
          [⟨{ hash := 10, index := 0 }, [], 0xffffffff⟩] := by decide
        rw [input, List.map_singleton, value]
        decide
      rw [own, show claim.fee = 6 from fee]
      decide
  · have pooled : ((12 : Uint256), spend 12 [] []) ∈
        g.chain.claims.confirmations.toList.map fun entry => (entry.1, entry.2.txn) := by
      rw [checks]
      decide
    obtain ⟨⟨hash, claim⟩, inside, same⟩ := List.mem_map.mp pooled
    obtain ⟨rfl, txn⟩ := Prod.mk.inj same
    refine ⟨claim, Map.mem_toList.mp inside, ?_⟩
    rw [show claim.txn = _ from txn]
    decide

/-- Two transactions are received, the second one before the one it spends. -/
theorem received_checked_orphan : ∃ s, created 1 0 = .ok s ∧
    AlongStates (TransactionFilter.receive (config 1 0) [])
      (fun now => ∀ f ∈ now, ∀ (hash : Uint256) claim, f.chain.claims.confirmations[hash]? = some claim →
        (config 1 0).chain.checkTransaction (config 1 0).prim claim.txn = .ok () ∧
          Recorded (config 1 0) f.chain claim)
      (some (TransactionFilter.new s))
      [⟨Small.clock, [], spend 11 [(10, 0)] [44]⟩, ⟨Small.clock, [], spend 10 [(1, 0)] [45]⟩] := by
  have run : (created 1 0).toOption.isSome = true := by
    decide +kernel
  obtain ⟨s, done⟩ := Option.isSome_iff_exists.mp run
  have made := toOption_eq_some.mp done
  have funded : Funded (config 1 0) s :=
    create_funded (fun trie => absurd rfl trie) (by decide) (by decide) (fun _ _ =>
      (by decide : (50 : Int) < 2 ^ 64)) made
  refine ⟨s, made, received_checked funded (create_opened (fun trie => absurd rfl trie) made).unclaimed ?_⟩
  intro r member
  rcases List.mem_cons.mp member with rfl | member
  · exact ⟨by decide, by decide, by decide, by decide, by decide⟩
  · obtain rfl := List.mem_singleton.mp member
    exact ⟨by decide, by decide, by decide, by decide, by decide⟩

end BlockChain

end Libcoin
