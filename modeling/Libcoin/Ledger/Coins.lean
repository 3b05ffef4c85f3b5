/-
The coins of a ledger: the table of unspents and the two tries.

`redeem`, `issue` and `maturate` are the only functions that change them, and they do so whatever the
rest of the ledger is: `redeem_coins_database`, `redeem_coins_trie`, `issue_coins_database`,
`issue_coins_trie`, `maturate_coins`. Statements on the other tables keep them.
-/

import Libcoin.Ledger.Frame

namespace Libcoin

open Exec

/-- The unspent outputs, in the table and in the tries. -/
structure Coins where
  unspents : Table UnspentRow
  unspentIndex : Bool
  spendables : Map Coin Unspent
  immatureCoinbases : Map Coin Unspent

def Ledger.coins (s : Ledger) : Coins :=
  { unspents := s.db.unspents, unspentIndex := s.db.unspentIndex, spendables := s.spendables,
    immatureCoinbases := s.immatureCoinbases }

theorem coins_blocks : KeepsBlocks Ledger.coins where
  block _ _ := insertUnless_keeps fun _ _ => rfl
  auxProofOfWork _ := insert_keeps fun _ _ => rfl

theorem coins_confirmations : KeepsConfirmations Ledger.coins where
  next _ := insert_keeps fun _ _ => rfl
  at_ _ _ := insertUnless_keeps fun _ _ => rfl

theorem coins_spendings : KeepsSpendings Ledger.coins := fun _ _ => insertUnless_keeps fun _ _ => rfl

theorem coins_names : KeepsNames Ledger.coins := fun _ => insertUnless_keeps fun _ _ => rfl

variable {env : Setting} {s s' : Ledger}

theorem recorded_coins (coin : Unspent) (input : Input) (iidx : Int) (iconf : Confirmation)
    (s : Ledger) : (s.recorded env coin input iidx iconf).coins = s.coins := by
  unfold Ledger.recorded
  by_cases deep : env.purgeDepth ≤ iconf.count
  · rw [if_pos deep]
    exact coins_spendings coin.coin _ s
  · rw [if_neg deep]

theorem spend_coins (coin : Unspent) (input : Input) (iidx : Int) (iconf : Confirmation) (s : Ledger) :
    (s.spend env coin input iidx iconf).coins =
      { s.coins with unspents := s.coins.unspents.delete coin.coin } := by
  have same : (s.recorded env coin input iidx iconf).coins = s.coins := recorded_coins _ _ _ _ s
  unfold Ledger.spend
  rw [← same]
  rfl

/-- The coin that `redeem` finds in database mode: the first row with its key. -/
theorem redeem_coins_database (database : env.validationDepth = 0) {input : Input} {iidx : Int}
    {iconf : Confirmation} {coin : Unspent} (run : redeem env input iidx iconf s = .ok coin s') :
    ∃ id row, s.db.findUnspent input.prevout = some (id, row) ∧ row.unspent id = coin ∧
      env.chain.range coin.output.value = true ∧
      s'.coins = { s.coins with unspents := s.coins.unspents.delete coin.coin } := by
  obtain ⟨id, row, found, -, -, inRange, rfl, rfl⟩ := (redeem_database_ok database).mp run
  exact ⟨id, row, found, rfl, inRange, spend_coins _ _ _ _ s⟩

/-- The coin that `redeem` finds in trie mode. -/
theorem redeem_coins_trie (trie : env.validationDepth ≠ 0) {input : Input} {iidx : Int}
    {iconf : Confirmation} {coin : Unspent} (run : redeem env input iidx iconf s = .ok coin s') :
    s.coins.spendables[input.prevout]? = some coin ∧ env.chain.range coin.output.value = true ∧
      s'.coins =
        { s.coins with
          unspents := s.coins.unspents.delete coin.coin
          spendables := s.coins.spendables.erase input.prevout } := by
  obtain ⟨found, inRange, rfl⟩ := (redeem_trie_ok trie).mp run
  exact ⟨found, inRange, spend_coins _ _ _ _ _⟩

/-- The tables that a statement to issue a coin can leave: the old one where the index forbids the
row, one with a new row, and one with a new row from which others were dropped. -/
inductive Issued (t : Table UnspentRow) (row : UnspentRow) : Table UnspentRow → Prop
  | forbidden : Issued t row t
  | inserted : Issued t row (t.insertAuto row)
  | replaced (drop : Int → UnspentRow → Bool) : Issued t row ((t.insertAuto row).deleteWhere drop)

theorem insertUnspent_coins (row : UnspentRow) (s : Ledger) :
    ∃ t, Issued s.coins.unspents row t ∧
      (s.afterQuery (Database.insertUnspent row)).2.coins = { s.coins with unspents := t } := by
  unfold Ledger.afterQuery Database.insertUnspent
  by_cases forbidden : (s.db.unspentIndex && (s.db.findUnspent row.key).isSome) = true
  · rw [if_pos forbidden]
    exact ⟨_, .forbidden, rfl⟩
  · rw [if_neg forbidden]
    exact ⟨_, .inserted, rfl⟩

theorem replaceUnspent_coins (row : UnspentRow) (s : Ledger) :
    ∃ t, Issued s.coins.unspents row t ∧
      (s.afterQuery (Database.replaceUnspent row)).2.coins = { s.coins with unspents := t } := by
  refine ⟨if s.db.unspentIndex then _ else _, ?_, rfl⟩
  by_cases index : s.db.unspentIndex = true
  · rw [if_pos index]
    exact .replaced _
  · rw [if_neg index]
    exact .inserted

/-- `issue` in database mode. -/
theorem issue_coins_database (database : env.validationDepth = 0) {output : Output} {hash : Uint256}
    {outIdx : Nat} {conf : Confirmation} {unique : Bool} {coin : Int}
    (run : issue env output hash outIdx conf unique s = .ok coin s') :
    ∃ t, Issued s.coins.unspents (issueRow output hash outIdx conf) t ∧
      s'.coins = { s.coins with unspents := t } := by
  have inserted := congrArg Prod.snd ((issue_database_ok database).mp run)
  simp only at inserted
  rw [← inserted]
  cases unique with
  | true => exact insertUnspent_coins _ s
  | false => exact replaceUnspent_coins _ s

namespace Coins

/-- A new row, and its coin in the trie it belongs to. -/
def issue (row : UnspentRow) (coinbase : Bool) (c : Coins) : Coins :=
  let unspent := row.unspent c.unspents.nextId
  let c := { c with unspents := c.unspents.insertAuto row }
  if coinbase then
    { c with immatureCoinbases := c.immatureCoinbases.insertNew unspent.key unspent }
  else { c with spendables := c.spendables.insertNew unspent.key unspent }

/-- A coinbase becomes spendable. -/
def promote (c : Coins) (unspent : Unspent) : Coins :=
  { c with
    spendables := c.spendables.insertNew unspent.key unspent
    immatureCoinbases := c.immatureCoinbases.erase unspent.key }

/-- The unspents of the coinbase with a count. -/
def coinbaseOf (c : Coins) (count : Int) : List Unspent :=
  (c.unspents.select fun _ row => decide (row.count = -count)).map fun entry => entry.2.unspent entry.1

end Coins

/-- `issue` in trie mode, where nothing forbids a row. -/
theorem issue_coins_trie (trie : env.validationDepth ≠ 0) (unindexed : s.coins.unspentIndex = false)
    {output : Output} {hash : Uint256} {outIdx : Nat} {conf : Confirmation} {unique : Bool} {coin : Int}
    (run : issue env output hash outIdx conf unique s = .ok coin s') :
    s'.coins = s.coins.issue (issueRow output hash outIdx conf) conf.isCoinbase ∧
      coin = s.coins.unspents.nextId := by
  obtain ⟨rfl, added⟩ := issue_trie_unindexed trie unindexed run
  refine ⟨?_, rfl⟩
  unfold addUnspent at added
  unfold Coins.issue
  cases coinbase : conf.isCoinbase with
  | true =>
    rw [coinbase, if_pos rfl] at added
    obtain ⟨-, rfl⟩ := addCoinbase_ok.mp added
    rfl
  | false =>
    rw [coinbase, if_neg (by decide)] at added
    obtain rfl := addSpendable_ok.mp added
    rfl

theorem foldl_promote_coins (unspents : List Unspent) (s : Ledger) :
    (unspents.foldl promote s).coins = unspents.foldl Coins.promote s.coins := by
  induction unspents generalizing s with
  | nil => rfl
  | cons unspent unspents ih => exact ih _

theorem maturate_coins (trie : env.validationDepth ≠ 0) {count : Int} {done : Unit}
    (run : maturate env count s = .ok done s') :
    s'.coins = (s.coins.coinbaseOf count).foldl Coins.promote s.coins := by
  unfold maturate at run
  rw [if_neg trie] at run
  obtain rfl := modify_ok.mp run
  exact foldl_promote_coins _ s

end Libcoin
