/-
What each part of `attach` does when it does not throw.

* `redeem_ok`, `issue_ok`, `postTransaction_ok`, `postSubsidy_ok` and `attach_ok` take a successful
  run apart; `redeemAll` and `issueAll` are taken apart one turn at a time.
* `Ledger.spend` is the ledger after a coin was spent: what `redeem` leaves, given the coin.
-/

import Libcoin.Ledger.Attach

namespace Libcoin

open Exec

variable {env : Setting} {s s' : Ledger}

theorem query_ok {statement : Database → Option (Int × Database)} {rowid : Int} :
    query statement s = .ok rowid s' ↔ s.afterQuery statement = (rowid, s') := modifyGet_ok

theorem execute_ok {statement : Database → Database} {done : Unit} :
    execute statement s = .ok done s' ↔ { s with db := statement s.db } = s' := modify_ok

theorem throwIf_ok {bad : Bool} {fault : Fault} {done : Unit} :
    throwIf bad fault s = .ok done s' ↔ bad = false ∧ s = s' := guard_ok

theorem throwIf_not_ok {good : Bool} {fault : Fault} {done : Unit} :
    throwIf (!good) fault s = .ok done s' ↔ good = true ∧ s = s' := by
  rw [throwIf_ok, Bool.not_eq_false']

theorem throwIf_decide_ok {bad : Prop} [Decidable bad] {fault : Fault} {done : Unit} :
    throwIf (decide bad) fault s = .ok done s' ↔ ¬ bad ∧ s = s' := by
  rw [throwIf_ok, decide_eq_false_iff_not]

theorem liftExcept_ok {A : Type} {x : Except Fault A} {a : A} :
    liftExcept x s = .ok a s' ↔ x = .ok a ∧ s = s' := by
  cases x with
  | error fault => simp [liftExcept, throw_ok]
  | ok b => simp [liftExcept, pure_ok]

/-! ### Coins -/

theorem lookupUnspent_ok {input : Input} {iconf : Confirmation} {coin : Unspent} :
    lookupUnspent env input iconf s = .ok coin s' ↔
      ∃ id row, s.db.findUnspent input.prevout = some (id, row) ∧ (row.unspent id).isValid = true ∧
        ¬(row.count < 0 ∧ iconf.count + row.count < env.chain.maturity (-row.count)) ∧
        row.unspent id = coin ∧ s = s' := by
  unfold lookupUnspent
  rw [bind_ok]
  simp only [get_ok, ↓existsAndEq, and_true, true_and]
  cases s.db.findUnspent input.prevout with
  | none => simp [throw_ok]
  | some entry =>
    obtain ⟨id, row⟩ := entry
    simp only [bind_ok, throwIf_not_ok, throwIf_decide_ok, pure_ok]
    constructor
    · rintro ⟨_, _, ⟨valid, rfl⟩, _, _, ⟨mature, rfl⟩, rfl, rfl⟩
      exact ⟨id, row, rfl, valid, mature, rfl, rfl⟩
    · rintro ⟨id', row', same, valid, mature, rfl, rfl⟩
      obtain ⟨rfl, rfl⟩ := Prod.mk.inj (Option.some.inj same)
      exact ⟨(), s, ⟨valid, rfl⟩, (), s, ⟨mature, rfl⟩, rfl, rfl⟩

theorem takeSpendable_ok {input : Input} {coin : Unspent} :
    takeSpendable input s = .ok coin s' ↔
      s.spendables[input.prevout]? = some coin ∧
        { s with spendables := s.spendables.erase input.prevout } = s' := by
  unfold takeSpendable
  rw [bind_ok]
  simp only [get_ok, ↓existsAndEq, and_true, true_and]
  cases s.spendables[input.prevout]? with
  | none => simp [throw_ok]
  | some found =>
    simp only [bind_ok, modify_ok, pure_ok, Option.some.injEq]
    constructor
    · rintro ⟨_, _, rfl, rfl, rfl⟩
      exact ⟨rfl, rfl⟩
    · rintro ⟨rfl, rfl⟩
      exact ⟨(), _, rfl, rfl, rfl⟩

namespace Ledger

/-- The ledger after `recordSpending`. -/
def recorded (env : Setting) (coin : Unspent) (input : Input) (iidx : Int) (iconf : Confirmation)
    (s : Ledger) : Ledger :=
  if env.purgeDepth ≤ iconf.count then
    (s.afterQuery (Database.insertSpending coin.coin
      { ocnf := coin.cnf, key := input.prevout, output := coin.output, signature := input.signature,
        sequence := input.sequence, iidx := iidx, icnf := iconf.cnf })).2
  else s

/-- The ledger after a coin was spent: its row of `Unspents` is gone, and stored in `Spendings`. -/
def spend (env : Setting) (coin : Unspent) (input : Input) (iidx : Int) (iconf : Confirmation)
    (s : Ledger) : Ledger :=
  let s := s.recorded env coin input iidx iconf
  { s with db := s.db.deleteUnspent coin.coin }

end Ledger

theorem recordSpending_ok {coin : Unspent} {input : Input} {iidx : Int} {iconf : Confirmation}
    {done : Unit} :
    recordSpending env coin input iidx iconf s = .ok done s' ↔
      s.recorded env coin input iidx iconf = s' := by
  unfold recordSpending Ledger.recorded
  by_cases deep : env.purgeDepth ≤ iconf.count
  · rw [if_pos deep, if_pos deep, bind_ok]
    constructor
    · rintro ⟨_, _, inserted, last⟩
      rw [query_ok] at inserted
      rw [← (pure_ok.mp last).2, inserted]
    · rintro rfl
      exact ⟨_, _, query_ok.mpr rfl, pure_ok.mpr ⟨rfl, rfl⟩⟩
  · rw [if_neg deep, if_neg deep, pure_ok]
    simp

/-- `redeem` in database mode. -/
theorem redeem_database_ok (database : env.validationDepth = 0) {input : Input} {iidx : Int}
    {iconf : Confirmation} {coin : Unspent} :
    redeem env input iidx iconf s = .ok coin s' ↔
      ∃ id row, s.db.findUnspent input.prevout = some (id, row) ∧ (row.unspent id).isValid = true ∧
        ¬(row.count < 0 ∧ iconf.count + row.count < env.chain.maturity (-row.count)) ∧
        env.chain.range row.output.value = true ∧ row.unspent id = coin ∧
        s.spend env coin input iidx iconf = s' := by
  unfold redeem findCoin
  rw [if_pos database, bind_ok]
  simp only [bind_ok, lookupUnspent_ok, throwIf_not_ok, recordSpending_ok, execute_ok, pure_ok]
  constructor
  · rintro ⟨_, _, ⟨id, row, found, valid, mature, rfl, rfl⟩, _, _, ⟨inRange, rfl⟩, _, _, rfl, _, _, rfl,
      rfl, rfl⟩
    exact ⟨id, row, found, valid, mature, inRange, rfl, rfl⟩
  · rintro ⟨id, row, found, valid, mature, inRange, rfl, rfl⟩
    exact ⟨_, _, ⟨id, row, found, valid, mature, rfl, rfl⟩, (), _, ⟨inRange, rfl⟩, (), _,
      rfl, (), _, rfl, rfl, rfl⟩

/-- `redeem` in trie mode. -/
theorem redeem_trie_ok (trie : env.validationDepth ≠ 0) {input : Input} {iidx : Int}
    {iconf : Confirmation} {coin : Unspent} :
    redeem env input iidx iconf s = .ok coin s' ↔
      s.spendables[input.prevout]? = some coin ∧ env.chain.range coin.output.value = true ∧
        ({ s with spendables := s.spendables.erase input.prevout } : Ledger).spend env coin input iidx
          iconf = s' := by
  unfold redeem findCoin
  rw [if_neg trie, bind_ok]
  simp only [bind_ok, takeSpendable_ok, throwIf_not_ok, recordSpending_ok, execute_ok, pure_ok]
  constructor
  · rintro ⟨_, _, ⟨found, rfl⟩, _, _, ⟨inRange, rfl⟩, _, _, rfl, _, _, rfl, rfl, rfl⟩
    exact ⟨found, inRange, rfl⟩
  · rintro ⟨found, inRange, rfl⟩
    exact ⟨_, _, ⟨found, rfl⟩, (), _, ⟨inRange, rfl⟩, (), _, rfl, (), _, rfl, rfl, rfl⟩

/-- The row that `issue` inserts. -/
def issueRow (output : Output) (hash : Uint256) (outIdx : Nat) (conf : Confirmation) : UnspentRow :=
  { key := { hash := hash, index := outIdx }, output := output,
    count := if conf.isCoinbase then -conf.count else conf.count, cnf := conf.cnf }

/-- `issue` in database mode. -/
theorem issue_database_ok (database : env.validationDepth = 0) {output : Output} {hash : Uint256}
    {outIdx : Nat} {conf : Confirmation} {unique : Bool} {coin : Int} :
    issue env output hash outIdx conf unique s = .ok coin s' ↔
      s.afterQuery (if unique then Database.insertUnspent (issueRow output hash outIdx conf)
        else Database.replaceUnspent (issueRow output hash outIdx conf)) = (coin, s') := by
  unfold issue
  show (if env.validationDepth = 0 then _ else _ : LedgerM Int) s = _ ↔ _
  rw [if_pos database]
  cases unique with
  | true => exact query_ok
  | false => exact query_ok

theorem addSpendable_ok {unspent : Unspent} {done : Unit} :
    addSpendable unspent s = .ok done s' ↔
      { s with spendables := s.spendables.insertNew unspent.key unspent } = s' := modify_ok

theorem addCoinbase_ok {unspent : Unspent} {unique : Bool} {done : Unit} :
    addCoinbase unspent unique s = .ok done s' ↔
      (unique = true → s.immatureCoinbases.contains unspent.key = false ∧
        s.spendables.contains unspent.key = false) ∧
      { s with immatureCoinbases := s.immatureCoinbases.insertNew unspent.key unspent } = s' := by
  unfold addCoinbase
  rw [bind_ok]
  simp only [get_ok, ↓existsAndEq, and_true, true_and, bind_ok]
  constructor
  · rintro ⟨_, _, one, _, _, two, last⟩
    obtain ⟨immature, rfl⟩ := throwIf_ok.mp one
    obtain ⟨spendable, rfl⟩ := throwIf_ok.mp two
    rw [Bool.and_eq_false_imp] at immature spendable
    exact ⟨fun only => ⟨immature only, spendable only⟩, modify_ok.mp last⟩
  · rintro ⟨fresh, same⟩
    refine ⟨(), s, throwIf_ok.mpr ⟨?_, rfl⟩, (), s, throwIf_ok.mpr ⟨?_, rfl⟩, modify_ok.mpr same⟩
    · exact Bool.and_eq_false_imp.mpr fun only => (fresh only).1
    · exact Bool.and_eq_false_imp.mpr fun only => (fresh only).2

/-- `issue` in trie mode. -/
theorem issue_trie_ok (trie : env.validationDepth ≠ 0) {output : Output} {hash : Uint256}
    {outIdx : Nat} {conf : Confirmation} {unique : Bool} {coin : Int} :
    issue env output hash outIdx conf unique s = .ok coin s' ↔
      ∃ mid, s.afterQuery (Database.insertUnspent (issueRow output hash outIdx conf)) = (coin, mid) ∧
        addUnspent ((issueRow output hash outIdx conf).unspent coin) conf.isCoinbase unique mid =
          .ok () s' := by
  unfold issue
  show (if env.validationDepth = 0 then _ else _ : LedgerM Int) s = _ ↔ _
  rw [if_neg trie]
  simp only [bind_ok, query_ok, pure_ok]
  constructor
  · rintro ⟨_, mid, inserted, _, _, added, rfl, rfl⟩
    exact ⟨mid, inserted, added⟩
  · rintro ⟨mid, inserted, added⟩
    exact ⟨coin, mid, inserted, (), s', added, rfl, rfl⟩

/-- Nothing forbids the row where there is no index. -/
theorem issue_trie_unindexed (trie : env.validationDepth ≠ 0) (unindexed : s.db.unspentIndex = false) {output : Output}
    {hash : Uint256} {outIdx : Nat} {conf : Confirmation} {unique : Bool} {coin : Int}
    (run : issue env output hash outIdx conf unique s = .ok coin s') :
    coin = s.db.unspents.nextId ∧
      addUnspent ((issueRow output hash outIdx conf).unspent coin) conf.isCoinbase unique
        { s with
          db := { s.db with unspents := s.db.unspents.insertAuto (issueRow output hash outIdx conf) }
          lastRowid := s.db.unspents.nextId } = .ok () s' := by
  obtain ⟨mid, inserted, added⟩ := (issue_trie_ok trie).mp run
  have allowed : ¬(s.db.unspentIndex &&
      (s.db.findUnspent (issueRow output hash outIdx conf).key).isSome) = true := by
    rw [unindexed, Bool.false_and]
    decide
  unfold Ledger.afterQuery Database.insertUnspent at inserted
  rw [if_neg allowed] at inserted
  obtain ⟨rfl, rfl⟩ := Prod.mk.inj inserted
  exact ⟨rfl, added⟩

/-! ### Transactions -/

/-- The fee of a transaction, and the fees after it. -/
theorem addFee_ok {txn : Transaction} {valueIn fees minFee fees' : Int} :
    addFee env txn valueIn fees minFee s = .ok fees' s' ↔
      0 ≤ wrap64 (valueIn - txn.getValueOut) ∧ minFee ≤ wrap64 (valueIn - txn.getValueOut) ∧
        env.chain.range fees' = true ∧ wrap64 (fees + wrap64 (valueIn - txn.getValueOut)) = fees' ∧
        s = s' := by
  unfold addFee
  simp only [bind_ok, throwIf_not_ok, throwIf_decide_ok, pure_ok, not_lt]
  constructor
  · rintro ⟨_, _, ⟨positive, rfl⟩, _, _, ⟨enough, rfl⟩, _, _, ⟨inRange, rfl⟩, rfl, rfl⟩
    exact ⟨positive, enough, inRange, rfl, rfl⟩
  · rintro ⟨positive, enough, inRange, rfl, rfl⟩
    exact ⟨(), s, ⟨positive, rfl⟩, (), s, ⟨enough, rfl⟩, (), s, ⟨inRange, rfl⟩, rfl, rfl⟩

namespace Ledger

/-- The ledger after `pushVerification`. -/
def pushed (verify : Bool) (verification : Verification) (s : Ledger) : Ledger :=
  if verify then { s with pending := s.pending ++ [verification] } else s

end Ledger

theorem pushVerification_ok {verify : Bool} {verification : Verification} {done : Unit} :
    pushVerification verify verification s = .ok done s' ↔ s.pushed verify verification = s' := by
  unfold pushVerification Ledger.pushed
  cases verify with
  | true => exact modify_ok
  | false => simp [pure_ok]

/-- The confirmation, the inputs, the verification, the fee and the outputs of a transaction. -/
theorem postTransaction_ok {txn : Transaction} {fees minFee fees' : Int} {blk : Blk} {idx : Int}
    {verify : Bool} (run : postTransaction env txn fees minFee blk idx verify s = .ok fees' s') :
    ∃ cnf one ignoreRules valueIn op scripts two op',
      confirm env txn blk.count idx s = .ok cnf one ∧
      redeemAll env { cnf := cnf, count := blk.count } txn.inputs 0 0
        (NameOperation.new env.prim ignoreRules) [] one = .ok (valueIn, op, scripts) two ∧
      0 ≤ wrap64 (valueIn - txn.getValueOut) ∧ env.chain.range fees' = true ∧
      wrap64 (fees + wrap64 (valueIn - txn.getValueOut)) = fees' ∧
      issueAll env txn.version (env.prim.txnHash txn) { cnf := cnf, count := blk.count } txn.outputs 0
        op (two.pushed verify
          { scripts := scripts, txn := txn,
            strictPayToScriptHash := decide (env.chain.timeStamp16 < blk.time) }) = .ok op' s' := by
  unfold postTransaction at run
  rw [adaptExcept_ok] at run
  unfold postTransactionBody at run
  obtain ⟨cnf, one, confirmed, run⟩ := bind_ok.mp run
  obtain ⟨⟨valueIn, op, scripts⟩, two, redeemed, run⟩ := bind_ok.mp run
  obtain ⟨_, three, pushed, run⟩ := bind_ok.mp run
  obtain ⟨fees'', four, fee, run⟩ := bind_ok.mp run
  obtain ⟨op', five, issued, run⟩ := bind_ok.mp run
  obtain ⟨_, six, checked, run⟩ := bind_ok.mp run
  obtain ⟨rfl, rfl⟩ := pure_ok.mp run
  obtain rfl := pushVerification_ok.mp pushed
  obtain ⟨positive, -, inRange, total, rfl⟩ := addFee_ok.mp fee
  have same : five = six := by
    unfold checkNameFees at checked
    cases names : env.chain.adhereNames with
    | true =>
      rw [names] at checked
      exact (liftExcept_ok.mp checked).2
    | false =>
      rw [names] at checked
      exact (pure_ok.mp checked).2
  subst same
  exact ⟨cnf, one, _, valueIn, op, scripts, two, op', confirmed, redeemed, positive, inRange, total,
    issued⟩

/-- The checks, the rows and the outputs of a coinbase. -/
theorem postSubsidy_ok {txn : Transaction} {blk : Blk} {fees : Int} {done : Unit}
    (run : postSubsidy env txn blk fees s = .ok done s') :
    ∃ cnf input one two three,
      txn.isCoinBase = true ∧ txn.inputs = [input] ∧ input.prevout.isNull = true ∧
      confirmCoinbase env txn blk.count s = .ok cnf one ∧
      txn.getValueOut ≤
        wrap64 (env.chain.subsidy blk.height (if blk.count = 1 then 0 else blk.prevHash) + fees) ∧
      recordCoinbase env blk.count
        (wrap64 (env.chain.subsidy blk.height (if blk.count = 1 then 0 else blk.prevHash) + fees)) input
        one = .ok () two ∧
      issueCoinbase env (env.prim.txnHash txn) { cnf := cnf, count := blk.count }
        (decide (env.chain.timeStamp30 < blk.time)) txn.outputs 0 two = .ok () three ∧
      maturateNext env blk three = .ok () s' := by
  unfold postSubsidy at run
  obtain ⟨_, _, first, run⟩ := bind_ok.mp run
  obtain ⟨coinbase, rfl⟩ := throwIf_not_ok.mp first
  obtain ⟨cnf, one, confirmed, run⟩ := bind_ok.mp run
  obtain ⟨_, _, paid, run⟩ := bind_ok.mp run
  obtain ⟨enough, rfl⟩ := throwIf_decide_ok.mp paid
  have single : ∃ input, txn.inputs = [input] ∧ input.prevout.isNull = true := by
    unfold Transaction.isCoinBase at coinbase
    split at coinbase
    · exact ⟨_, ‹_›, coinbase⟩
    · cases coinbase
  obtain ⟨input, inputs, null⟩ := single
  rw [inputs] at run
  obtain ⟨_, two, recorded, run⟩ := bind_ok.mp run
  obtain ⟨_, three, issued, run⟩ := bind_ok.mp run
  exact ⟨cnf, input, one, two, three, coinbase, inputs, null, confirmed, not_lt.mp enough, recorded,
    issued, run⟩

/-- A block that is attached: the header, the transactions, the coinbase, and the signatures. -/
theorem attach_ok {blk : Blk} {block : Block} {unconfirmed unconfirmed' : Txns}
    {confirmed confirmed' : Hashes}
    (run : attach env blk block unconfirmed confirmed s = .ok (unconfirmed', confirmed') s') :
    ∃ coinbase txns one fees two,
      block.transactions = coinbase :: txns ∧
      env.chain.checkPoints blk.height blk.hash = true ∧
      (block.transactions.all fun txn => env.isFinal txn blk.height blk.time) = true ∧
      insertBlockHeader env blk.count block { s with pending := [] } = .ok () one ∧
      postAll env blk txns 1 0
        (decide (env.verificationDepth ≠ 0 ∧ env.verificationDepth < blk.height)) unconfirmed confirmed
        one = .ok (fees, unconfirmed', confirmed') two ∧
      postSubsidy env coinbase blk fees two = .ok () s' ∧
      env.yieldSuccess s'.pending = true := by
  unfold attach at run
  obtain ⟨_, _, first, run⟩ := bind_ok.mp run
  obtain ⟨checked, rfl⟩ := throwIf_not_ok.mp first
  obtain ⟨_, _, second, run⟩ := bind_ok.mp run
  obtain ⟨final, rfl⟩ := throwIf_not_ok.mp second
  obtain ⟨_, _, cleared, run⟩ := bind_ok.mp run
  obtain rfl := modify_ok.mp cleared
  obtain ⟨_, one, header, run⟩ := bind_ok.mp run
  obtain ⟨⟨fees, later, known⟩, two, posted, run⟩ := bind_ok.mp run
  cases transactions : block.transactions with
  | nil =>
    rw [transactions] at run
    obtain ⟨_, _, failed, -⟩ := bind_ok.mp run
    exact (throw_ok.mp failed).elim
  | cons coinbase txns =>
    rw [transactions] at run posted final
    obtain ⟨_, three, subsidy, run⟩ := bind_ok.mp run
    obtain ⟨_, _, now, run⟩ := bind_ok.mp run
    obtain ⟨rfl, rfl⟩ := get_ok.mp now
    obtain ⟨_, _, verified, run⟩ := bind_ok.mp run
    obtain ⟨success, rfl⟩ := throwIf_not_ok.mp verified
    obtain ⟨same, rfl⟩ := pure_ok.mp run
    obtain ⟨rfl, rfl⟩ := Prod.mk.inj same
    exact ⟨coinbase, txns, one, fees, two, rfl, checked, final, header, posted, subsidy, success⟩

end Libcoin
