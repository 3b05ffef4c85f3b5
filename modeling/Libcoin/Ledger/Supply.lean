/-
No coins out of nothing.

* `Backed` is the invariant of a run: rows are not negative, and in trie mode every spendable coin has
  its row.
* A measure of the rows (the value of a row, or whether it has a certain key) falls by the measure of
  the coin that `redeem` returns, and grows by at most that of the row that `issue` inserts
  (`redeem_weight`, `issue_weight`).
-/

import Libcoin.Ledger.Coins

namespace Libcoin

open Exec

/-! ### What a transaction that passes the checks pays out -/

def Transaction.valueOut (txn : Transaction) : Int := (txn.outputs.map Output.value).sum

theorem checkOutputs_exact {chain : Chain} {outputs : List Output} {start : Int}
    (small : 0 ≤ start ∧ start ≤ chain.maxMoney) (checked : chain.checkOutputs outputs start = .ok ()) :
    (∀ output ∈ outputs, 0 ≤ output.value) ∧
      outputs.foldl (fun valueOut output => wrap64 (valueOut + output.value)) start =
        start + (outputs.map Output.value).sum ∧
      start + (outputs.map Output.value).sum ≤ chain.maxMoney := by
  induction outputs generalizing start with
  | nil => simpa using small.2
  | cons output outputs ih =>
    unfold Chain.checkOutputs at checked
    by_cases negative : output.value < 0
    · rw [if_pos negative] at checked
      cases checked
    · by_cases high : chain.maxMoney < output.value
      · rw [if_neg negative, if_pos high] at checked
        cases checked
      · rw [if_neg negative, if_neg high] at checked
        have below := chain.maxMoney_le
        have exact_sum : wrap64 (start + output.value) = start + output.value :=
          wrap64_of_range (by omega) (by omega)
        simp only [exact_sum] at checked
        by_cases inRange : chain.range (start + output.value) = true
        · rw [inRange] at checked
          obtain ⟨positive, sum, bound⟩ := ih (of_decide_eq_true inRange) checked
          rw [List.foldl_cons, List.map_cons, List.sum_cons, exact_sum, sum]
          refine ⟨?_, by omega, by omega⟩
          intro other member
          rcases List.mem_cons.mp member with rfl | later
          · exact not_lt.mp negative
          · exact positive other later
        · rw [Bool.not_eq_true] at inRange
          rw [inRange] at checked
          cases checked

/-- What a transaction that passes the checks is known to be. -/
theorem checkTransaction_ok {chain : Chain} {prim : Primitives} {txn : Transaction}
    (checked : chain.checkTransaction prim txn = .ok ()) :
    txn.inputs ≠ [] ∧ txn.outputs ≠ [] ∧ chain.checkOutputs txn.outputs 0 = .ok () ∧
      Chain.checkInputs txn = .ok () := by
  unfold Chain.checkTransaction at checked
  rw [mapError_eq_ok] at checked
  unfold Chain.checkTransactionBody at checked
  split at checked
  · cases checked
  · split at checked
    · cases checked
    · split at checked
      · cases checked
      · rename_i someInput someOutput _
        obtain ⟨_, outputs, inputs⟩ := bind_eq_ok.mp checked
        exact ⟨by simpa using someInput, by simpa using someOutput, outputs, inputs⟩

/-- The 64 bit sum of the outputs is their sum. -/
theorem checkTransaction_valueOut {chain : Chain} {prim : Primitives} {txn : Transaction}
    (checked : chain.checkTransaction prim txn = .ok ()) :
    (∀ output ∈ txn.outputs, 0 ≤ output.value) ∧ txn.getValueOut = txn.valueOut ∧
      txn.valueOut ≤ chain.maxMoney := by
  obtain ⟨-, -, outputs, -⟩ := checkTransaction_ok checked
  obtain ⟨positive, sum, bound⟩ := checkOutputs_exact ⟨le_refl 0, chain.maxMoney_nonneg⟩ outputs
  rw [zero_add] at sum bound
  exact ⟨positive, sum, bound⟩

/-! ### One coin -/

namespace Coins

/-- The sum of a measure of the rows. -/
def weight (measure : UnspentRow → Int) (c : Coins) : Int := c.unspents.rows.total measure

/-- Rows are not negative. Where `validationDepth` is not zero, the table has no index, and each
spendable coin is stored under its key and has its row. -/
structure Backed (validationDepth : Int) (c : Coins) : Prop where
  positive : ∀ (coin : Int) row, c.unspents.rows[coin]? = some row → 0 ≤ row.output.value
  unindexed : validationDepth ≠ 0 → c.unspentIndex = false
  stored : validationDepth ≠ 0 → ∀ (key : Coin) unspent, c.spendables[key]? = some unspent →
    unspent.key = key ∧ c.unspents.rows[unspent.coin]? = some unspent.row

end Coins

/-- A measure that is not negative on the rows of a run. -/
def Fair (measure : UnspentRow → Int) : Prop := ∀ row, 0 ≤ row.output.value → 0 ≤ measure row

open Coins

variable {env : Setting} {s s' : Ledger}

/-- `redeem` takes away the row of the coin that it returns. -/
theorem redeem_weight (backed : Backed env.validationDepth s.coins) {input : Input} {iidx : Int}
    {iconf : Confirmation} {coin : Unspent} (run : redeem env input iidx iconf s = .ok coin s') :
    coin.key = input.prevout ∧ env.chain.range coin.output.value = true ∧
      Backed env.validationDepth s'.coins ∧
      ∀ measure, s'.coins.weight measure = s.coins.weight measure - measure coin.row := by
  by_cases database : env.validationDepth = 0
  · obtain ⟨id, row, found, rfl, inRange, after⟩ := redeem_coins_database database run
    obtain ⟨stored, key⟩ := Table.first_eq_some found
    refine ⟨of_decide_eq_true key, inRange, ?_, fun measure => ?_⟩
    · rw [after]
      refine ⟨fun other row' stored' => ?_, fun trie => absurd database trie,
        fun trie => absurd database trie⟩
      have kept : (s.coins.unspents.rows.erase id)[other]? = some row' := stored'
      rw [Map.lookup_erase] at kept
      split at kept
      · cases kept
      · exact backed.positive other row' kept
    · rw [after]
      exact Map.total_erase stored measure
  · obtain ⟨found, inRange, after⟩ := redeem_coins_trie database run
    obtain ⟨key, stored⟩ := backed.stored database _ _ found
    refine ⟨key, inRange, ?_, fun measure => ?_⟩
    · rw [after]
      refine ⟨fun other row' stored' => ?_, backed.unindexed, fun _ other unspent found' => ?_⟩
      · have kept : (s.coins.unspents.rows.erase coin.coin)[other]? = some row' := stored'
        rw [Map.lookup_erase] at kept
        split at kept
        · cases kept
        · exact backed.positive other row' kept
      · have kept : (s.coins.spendables.erase input.prevout)[other]? = some unspent := found'
        rw [Map.lookup_erase] at kept
        split at kept
        · cases kept
        · rename_i different
          obtain ⟨key', stored'⟩ := backed.stored database _ _ kept
          refine ⟨key', ?_⟩
          show (s.coins.unspents.rows.erase coin.coin)[unspent.coin]? = some unspent.row
          rw [Map.lookup_erase_of_ne, stored']
          intro same
          rw [same, stored'] at stored
          have rows : unspent.row.key = coin.row.key := congrArg UnspentRow.key (Option.some.inj stored)
          exact different (key.symm.trans (rows.symm.trans key'))
    · rw [after]
      exact Map.total_erase stored measure

/-- A table into which a row was issued. -/
theorem Issued.weight {t t' : Table UnspentRow} {row : UnspentRow} (issued : Issued t row t')
    (positive : ∀ (coin : Int) row, t.rows[coin]? = some row → 0 ≤ row.output.value)
    (new : 0 ≤ row.output.value) :
    (∀ (coin : Int) row, t'.rows[coin]? = some row → 0 ≤ row.output.value) ∧
      ∀ measure, Fair measure → t'.rows.total measure ≤ t.rows.total measure + measure row := by
  have inserted : ∀ (coin : Int) row', (t.insertAuto row).rows[coin]? = some row' →
      0 ≤ row'.output.value := by
    intro coin row' stored
    have found : (t.rows.insert t.nextId row)[coin]? = some row' := stored
    rw [Map.lookup_insert] at found
    split at found
    · rw [← Option.some.inj found]
      exact new
    · exact positive coin row' found
  have sum : ∀ measure, (t.insertAuto row).rows.total measure = measure row + t.rows.total measure :=
    fun measure => Map.total_insert t.nextId_fresh measure row
  cases issued with
  | forbidden =>
    refine ⟨positive, fun measure fair => ?_⟩
    have gain := fair row new
    omega
  | inserted =>
    refine ⟨inserted, fun measure fair => ?_⟩
    rw [sum, add_comm]
  | replaced drop =>
    constructor
    · intro coin row' stored
      exact inserted coin row' ((Map.lookup_filter_eq_some _ _ _ _).mp stored).1
    · intro measure fair
      have less := Map.total_filter_le measure (t.insertAuto row).rows (fun coin row => !drop coin row)
        fun coin row' stored => fair row' (inserted coin row' stored)
      rw [sum] at less
      show Map.total measure ((t.insertAuto row).rows.filter fun coin row => !drop coin row) ≤ _
      omega

/-- In trie mode a new coin is stored under its key and has its row. -/
theorem Coins.issue_backed {validationDepth : Int} {c : Coins} (trie : validationDepth ≠ 0)
    (backed : Backed validationDepth c) {row : UnspentRow} (new : 0 ≤ row.output.value)
    (coinbase : Bool) : Backed validationDepth (c.issue row coinbase) := by
  have table : (c.issue row coinbase).unspents = c.unspents.insertAuto row := by
    cases coinbase <;> rfl
  have index : (c.issue row coinbase).unspentIndex = c.unspentIndex := by
    cases coinbase <;> rfl
  refine ⟨?_, fun _ => index.trans (backed.unindexed trie), fun _ key unspent found => ?_⟩
  · rw [table]
    exact (Issued.inserted.weight backed.positive new).1
  · rw [table]
    have old : ∀ unspent : Unspent, c.unspents.rows[unspent.coin]? = some unspent.row →
        (c.unspents.insertAuto row).rows[unspent.coin]? = some unspent.row :=
      fun _ stored => Table.lookup_insertAuto row stored
    cases coinbase with
    | true =>
      obtain ⟨key', stored⟩ := backed.stored trie key unspent found
      exact ⟨key', old unspent stored⟩
    | false =>
      have found' : (c.spendables.insertNew row.key (row.unspent c.unspents.nextId))[key]? =
        some unspent := found
      rw [Map.lookup_insertNew] at found'
      split at found'
      · rename_i same
        subst same
        cases present : c.spendables[row.key]? with
        | none =>
          rw [present, Option.getD_none] at found'
          obtain rfl := Option.some.inj found'
          exact ⟨rfl, Map.lookup_insert_self _ _ _⟩
        | some other =>
          rw [present, Option.getD_some] at found'
          obtain rfl := Option.some.inj found'
          obtain ⟨key', stored⟩ := backed.stored trie _ _ present
          exact ⟨key', old _ stored⟩
      · obtain ⟨key', stored⟩ := backed.stored trie key unspent found'
        exact ⟨key', old unspent stored⟩

/-- `issue` adds at most the row that it inserts. -/
theorem issue_weight (backed : Backed env.validationDepth s.coins) {output : Output} {hash : Uint256}
    {outIdx : Nat} {conf : Confirmation} {unique : Bool} {coin : Int} (new : 0 ≤ output.value)
    (run : issue env output hash outIdx conf unique s = .ok coin s') :
    Backed env.validationDepth s'.coins ∧
      ∀ measure, Fair measure → s'.coins.weight measure ≤
        s.coins.weight measure + measure (issueRow output hash outIdx conf) := by
  have value : 0 ≤ (issueRow output hash outIdx conf).output.value := new
  by_cases database : env.validationDepth = 0
  · obtain ⟨t, issued, after⟩ := issue_coins_database database run
    obtain ⟨positive, weight⟩ := issued.weight backed.positive value
    rw [after]
    exact ⟨⟨positive, fun trie => absurd database trie, fun trie => absurd database trie⟩, weight⟩
  · obtain ⟨after, -⟩ := issue_coins_trie database (backed.unindexed database) run
    rw [after]
    refine ⟨Coins.issue_backed database backed new _, fun measure fair => ?_⟩
    have table : (s.coins.issue (issueRow output hash outIdx conf) conf.isCoinbase).unspents =
        s.coins.unspents.insertAuto (issueRow output hash outIdx conf) := by
      cases conf.isCoinbase <;> rfl
    unfold weight
    rw [table]
    exact (Issued.inserted.weight backed.positive value).2 measure fair

theorem foldl_promote_backed {validationDepth : Int} (unspents : List Unspent) {c : Coins}
    (backed : Backed validationDepth c)
    (rows : ∀ unspent ∈ unspents, c.unspents.rows[unspent.coin]? = some unspent.row) :
    Backed validationDepth (unspents.foldl Coins.promote c) ∧
      (unspents.foldl Coins.promote c).unspents = c.unspents := by
  induction unspents generalizing c with
  | nil => exact ⟨backed, rfl⟩
  | cons unspent unspents ih =>
    have next : Backed validationDepth (c.promote unspent) := by
      refine ⟨backed.positive, backed.unindexed, fun trie key other found => ?_⟩
      have found' : (c.spendables.insertNew unspent.key unspent)[key]? = some other := found
      rw [Map.lookup_insertNew] at found'
      split at found'
      · rename_i same
        subst same
        cases present : c.spendables[unspent.key]? with
        | none =>
          rw [present, Option.getD_none] at found'
          obtain rfl := Option.some.inj found'
          exact ⟨rfl, rows unspent List.mem_cons_self⟩
        | some old =>
          rw [present, Option.getD_some] at found'
          obtain rfl := Option.some.inj found'
          exact backed.stored trie _ _ present
      · exact backed.stored trie key other found'
    exact ih next fun other member => rows other (List.mem_cons_of_mem _ member)

theorem coinbaseOf_rows (c : Coins) (count : Int) :
    ∀ unspent ∈ c.coinbaseOf count, c.unspents.rows[unspent.coin]? = some unspent.row := by
  intro unspent member
  obtain ⟨⟨coin, row⟩, selected, rfl⟩ := List.mem_map.mp member
  exact (Table.mem_select.mp selected).1

/-- `maturate` leaves the table alone. -/
theorem maturateNext_weight (backed : Backed env.validationDepth s.coins) {blk : Blk} {done : Unit}
    (run : maturateNext env blk s = .ok done s') :
    Backed env.validationDepth s'.coins ∧ s'.coins.unspents = s.coins.unspents := by
  unfold maturateNext at run
  split at run
  · rename_i due
    rw [maturate_coins (by omega) run]
    exact foldl_promote_backed _ backed (coinbaseOf_rows _ _)
  · obtain ⟨-, rfl⟩ := pure_ok.mp run
    exact ⟨backed, rfl⟩

/-! ### The coins that come and go -/

/-- What happens to a coin: an input calls `redeem`, or an output calls `issue`. -/
inductive Event
  | redeemed (coin : Coin)
  | issued (coin : Coin)
  deriving DecidableEq

/-- Whether a row has a key. -/
def keyIs (coin : Coin) (row : UnspentRow) : Int := if row.key = coin then 1 else 0

theorem keyIs_fair (coin : Coin) : Fair (keyIs coin) := by
  intro row _
  unfold keyIs
  split <;> decide

/-- The number of rows with a key. -/
def Coins.rowsOf (c : Coins) (coin : Coin) : Int := c.weight (keyIs coin)

theorem Coins.rowsOf_nonneg (c : Coins) (coin : Coin) : 0 ≤ c.rowsOf coin := by
  refine List.sum_nonneg fun amount member => ?_
  obtain ⟨⟨_, row⟩, _, rfl⟩ := List.mem_map.mp member
  unfold keyIs
  split <;> decide

/-- The events lead from one state to another: at every moment a coin was redeemed at most as often as
it had rows at the start and was issued since, and the rows that are left are not more than that. -/
structure Flow (c c' : Coins) (events : List Event) : Prop where
  covered : ∀ n coin, ((events.take n).count (.redeemed coin) : Int) ≤
    c.rowsOf coin + (events.take n).count (.issued coin)
  rows : ∀ coin, c'.rowsOf coin ≤
    c.rowsOf coin - events.count (.redeemed coin) + events.count (.issued coin)

theorem Flow.refl (c : Coins) : Flow c c [] := by
  refine ⟨fun n coin => ?_, fun coin => ?_⟩
  · simpa using c.rowsOf_nonneg coin
  · simp

theorem Flow.trans {c d e : Coins} {first second : List Event} (one : Flow c d first)
    (two : Flow d e second) : Flow c e (first ++ second) := by
  refine ⟨fun n coin => ?_, fun coin => ?_⟩
  · rw [List.take_append, List.count_append, List.count_append]
    by_cases within : n ≤ first.length
    · rw [Nat.sub_eq_zero_of_le within, List.take_zero]
      simpa using one.covered n coin
    · rw [List.take_of_length_le (by omega)]
      have rows := one.rows coin
      have later := two.covered (n - first.length) coin
      push_cast
      omega
  · rw [List.count_append, List.count_append]
    have rows := one.rows coin
    have later := two.rows coin
    push_cast
    omega

theorem Flow.of_redeem {c c' : Coins} {coin : Unspent}
    (weight : ∀ measure, c'.weight measure = c.weight measure - measure coin.row) :
    Flow c c' [.redeemed coin.key] := by
  have step : ∀ key, c'.rowsOf key = c.rowsOf key - if coin.key = key then 1 else 0 :=
    fun key => weight (keyIs key)
  have single : ∀ key, ([Event.redeemed coin.key].count (.redeemed key) : Int) =
      if coin.key = key then 1 else 0 := by
    intro key
    rw [List.count_singleton]
    by_cases same : coin.key = key
    · rw [same, if_pos rfl]
      simp
    · rw [if_neg same]
      simpa using same
  refine ⟨fun n key => ?_, fun key => ?_⟩
  · have left := c'.rowsOf_nonneg key
    have change := step key
    have one := single key
    cases n with
    | zero => simpa using c.rowsOf_nonneg key
    | succ n =>
      rw [List.take_succ_cons, List.take_nil, one]
      omega
  · have change := step key
    have one := single key
    omega

theorem Flow.of_issue {c c' : Coins} {row : UnspentRow}
    (weight : ∀ measure, Fair measure → c'.weight measure ≤ c.weight measure + measure row) :
    Flow c c' [.issued row.key] := by
  refine ⟨fun n key => ?_, fun key => ?_⟩
  · have none : ([Event.issued row.key].take n).count (.redeemed key) = 0 := by
      refine List.count_eq_zero_of_not_mem fun member => ?_
      have inside := List.mem_of_mem_take member
      simp at inside
    have start := c.rowsOf_nonneg key
    omega
  · have step : c'.rowsOf key ≤ c.rowsOf key + if row.key = key then 1 else 0 :=
      weight (keyIs key) (keyIs_fair key)
    have single : ([Event.issued row.key].count (.issued key) : Int) =
        if row.key = key then 1 else 0 := by
      rw [List.count_singleton]
      by_cases same : row.key = key
      · rw [same, if_pos rfl]
        simp
      · rw [if_neg same]
        simpa using same
    have none : ([Event.issued row.key].count (.redeemed key) : Int) = 0 := by simp
    omega

/-! ### One transaction -/

/-- The value of all rows. -/
def Coins.value (c : Coins) : Int := c.weight fun row => row.output.value

/-- The coins of a transaction's outputs, from number `idx` on. -/
def issuedCoins (hash : Uint256) : List Output → Nat → List Coin
  | [], _ => []
  | _ :: outputs, idx => { hash := hash, index := idx } :: issuedCoins hash outputs (idx + 1)

def Transaction.redeems (txn : Transaction) : List Event :=
  txn.inputs.map fun input => .redeemed input.prevout

def Transaction.issues (prim : Primitives) (txn : Transaction) : List Event :=
  (issuedCoins (prim.txnHash txn) txn.outputs 0).map .issued

theorem redeemAll_flow {conf : Confirmation} {inputs : List Input} {idx : Nat}
    {valueIn valueIn' : Int} {op op' : NameOperation} {scripts scripts' : List Script}
    (backed : Backed env.validationDepth s.coins)
    (run : redeemAll env conf inputs idx valueIn op scripts s = .ok (valueIn', op', scripts') s') :
    Backed env.validationDepth s'.coins ∧
      Flow s.coins s'.coins (inputs.map fun input => .redeemed input.prevout) ∧
      s'.coins.value ≤ s.coins.value ∧
      ∃ turns, valueIn' = valueIn + (s.coins.value - s'.coins.value) - turns * 2 ^ 64 := by
  induction inputs generalizing s idx valueIn op scripts with
  | nil =>
    obtain ⟨same, rfl⟩ := pure_ok.mp run
    obtain ⟨rfl, -⟩ := Prod.mk.inj same
    exact ⟨backed, Flow.refl _, le_refl _, 0, by omega⟩
  | cons input inputs ih =>
    unfold redeemAll at run
    obtain ⟨coin, one, redeemed, run⟩ := bind_ok.mp run
    obtain ⟨op, two, named, run⟩ := bind_ok.mp run
    obtain ⟨key, inRange, backed, weight⟩ := redeem_weight backed redeemed
    have same : two.coins = one.coins := (nameInput_keeps _ _).ok named
    rw [← same] at backed weight
    obtain ⟨backed', flow, less, turns, sum⟩ := ih backed run
    have first : Flow s.coins two.coins [.redeemed input.prevout] := key ▸ Flow.of_redeem weight
    have value : two.coins.value = s.coins.value - coin.output.value := weight _
    have positive : 0 ≤ coin.output.value := (of_decide_eq_true inRange).1
    obtain ⟨⟨wraps, wrapped⟩, -, -⟩ := wrap64_spec (valueIn + coin.output.value)
    refine ⟨backed', first.trans flow, by omega, turns + wraps, ?_⟩
    rw [sum, wrapped, value]
    ring

theorem issueAll_flow {version : Int} {hash : Uint256} {conf : Confirmation} {outputs : List Output}
    {idx : Nat} {op op' : NameOperation} (backed : Backed env.validationDepth s.coins)
    (positive : ∀ output ∈ outputs, 0 ≤ output.value)
    (run : issueAll env version hash conf outputs idx op s = .ok op' s') :
    Backed env.validationDepth s'.coins ∧
      Flow s.coins s'.coins ((issuedCoins hash outputs idx).map .issued) ∧
      s'.coins.value ≤ s.coins.value + (outputs.map Output.value).sum := by
  induction outputs generalizing s idx op with
  | nil =>
    obtain ⟨-, rfl⟩ := pure_ok.mp run
    exact ⟨backed, Flow.refl _, by simp⟩
  | cons output outputs ih =>
    unfold issueAll at run
    obtain ⟨coin, one, issued, run⟩ := bind_ok.mp run
    obtain ⟨op, two, named, run⟩ := bind_ok.mp run
    obtain ⟨backed, weight⟩ := issue_weight backed (positive output List.mem_cons_self) issued
    have same : two.coins = one.coins := (nameOutput_keeps coins_names _ _ _ _ _).ok named
    rw [← same] at backed weight
    obtain ⟨backed', flow, value⟩ :=
      ih backed (fun other later => positive other (List.mem_cons_of_mem _ later)) run
    have first : two.coins.value ≤ s.coins.value + output.value := weight _ fun _ => id
    refine ⟨backed', (Flow.of_issue weight).trans flow, ?_⟩
    rw [List.map_cons, List.sum_cons]
    omega

theorem issueCoinbase_flow {hash : Uint256} {conf : Confirmation} {unique : Bool}
    {outputs : List Output} {idx : Nat} {done : Unit} (backed : Backed env.validationDepth s.coins)
    (positive : ∀ output ∈ outputs, 0 ≤ output.value)
    (run : issueCoinbase env hash conf unique outputs idx s = .ok done s') :
    Backed env.validationDepth s'.coins ∧
      Flow s.coins s'.coins ((issuedCoins hash outputs idx).map .issued) ∧
      s'.coins.value ≤ s.coins.value + (outputs.map Output.value).sum := by
  induction outputs generalizing s idx with
  | nil =>
    obtain ⟨-, rfl⟩ := pure_ok.mp run
    exact ⟨backed, Flow.refl _, by simp⟩
  | cons output outputs ih =>
    unfold issueCoinbase at run
    obtain ⟨coin, one, issued, run⟩ := bind_ok.mp run
    obtain ⟨backed, weight⟩ := issue_weight backed (positive output List.mem_cons_self) issued
    obtain ⟨backed', flow, value⟩ :=
      ih backed (fun other later => positive other (List.mem_cons_of_mem _ later)) run
    have first : one.coins.value ≤ s.coins.value + output.value := weight _ fun _ => id
    refine ⟨backed', (Flow.of_issue weight).trans flow, ?_⟩
    rw [List.map_cons, List.sum_cons]
    omega

theorem pushed_coins (verify : Bool) (verification : Verification) (s : Ledger) :
    (s.pushed verify verification).coins = s.coins := by
  cases verify <;> rfl

/-- A transaction lowers the value of the rows by its fee. -/
theorem postTransaction_flow {txn : Transaction} {fees minFee fees' : Int} {blk : Blk} {idx : Int}
    {verify : Bool} (backed : Backed env.validationDepth s.coins)
    (checked : env.chain.checkTransaction env.prim txn = .ok ()) (paid : 0 ≤ fees)
    (run : postTransaction env txn fees minFee blk idx verify s = .ok fees' s') :
    Backed env.validationDepth s'.coins ∧
      Flow s.coins s'.coins (txn.redeems ++ txn.issues env.prim) ∧
      0 ≤ fees' ∧ s'.coins.value + fees' ≤ s.coins.value + fees := by
  obtain ⟨cnf, one, _, valueIn, op, scripts, two, _, confirmed, redeemed, positive, inRange, total,
    issued⟩ := postTransaction_ok run
  have same : one.coins = s.coins := (confirm_keeps coins_confirmations _ _ _).ok confirmed
  rw [← same] at backed ⊢
  obtain ⟨backed, flow, less, turns, sum⟩ := redeemAll_flow backed redeemed
  obtain ⟨outputs, exactOut, bound⟩ := checkTransaction_valueOut checked
  have pushed := pushed_coins verify
    { scripts := scripts, txn := txn
      strictPayToScriptHash := decide (env.chain.timeStamp16 < blk.time) } two
  rw [← pushed] at backed flow less sum
  obtain ⟨backed, flow', more⟩ := issueAll_flow backed outputs issued
  have low : 0 ≤ txn.valueOut := List.sum_nonneg fun value member => by
    obtain ⟨output, inside, rfl⟩ := List.mem_map.mp member
    exact outputs output inside
  have most := env.chain.maxMoney_le
  have range := of_decide_eq_true inRange
  obtain ⟨⟨wraps, fee⟩, -, feeBound⟩ := wrap64_spec (valueIn - txn.getValueOut)
  obtain ⟨⟨wraps', feesSum⟩, -, -⟩ := wrap64_spec (fees + wrap64 (valueIn - txn.getValueOut))
  have out : (txn.outputs.map Output.value).sum = txn.valueOut := rfl
  refine ⟨backed, flow.trans flow', range.1, ?_⟩
  rw [exactOut] at fee feeBound positive feesSum total
  omega

/-- The coinbase raises the value of the rows by at most the subsidy and the fees. -/
theorem postSubsidy_flow {txn : Transaction} {blk : Blk} {fees : Int} {done : Unit}
    (backed : Backed env.validationDepth s.coins)
    (checked : env.chain.checkTransaction env.prim txn = .ok ()) (paid : 0 ≤ fees)
    (run : postSubsidy env txn blk fees s = .ok done s') :
    Backed env.validationDepth s'.coins ∧ Flow s.coins s'.coins (txn.issues env.prim) ∧
      s'.coins.value ≤ s.coins.value + fees +
        env.chain.subsidy blk.height (if blk.count = 1 then 0 else blk.prevHash) := by
  obtain ⟨cnf, input, one, two, three, -, -, -, confirmed, enough, recorded, issued, matured⟩ :=
    postSubsidy_ok run
  have first : one.coins = s.coins := (confirmCoinbase_keeps coins_confirmations _ _).ok confirmed
  have second : two.coins = one.coins := (recordCoinbase_keeps coins_spendings _ _ _).ok recorded
  rw [← first, ← second] at backed ⊢
  obtain ⟨outputs, exactOut, -⟩ := checkTransaction_valueOut checked
  obtain ⟨backed, flow, more⟩ := issueCoinbase_flow backed outputs issued
  obtain ⟨backed, table⟩ := maturateNext_weight backed matured
  have weight : ∀ measure, s'.coins.weight measure = three.coins.weight measure := by
    intro measure
    unfold Coins.weight
    rw [table]
  have value : s'.coins.value = three.coins.value := weight _
  have minted := env.chain.subsidy_nonneg blk.height (if blk.count = 1 then 0 else blk.prevHash)
  have paid : 0 ≤ env.chain.subsidy blk.height (if blk.count = 1 then 0 else blk.prevHash) + fees := by
    omega
  have capped := wrap64_le paid
  have out : (txn.outputs.map Output.value).sum = txn.valueOut := rfl
  refine ⟨backed, ⟨flow.covered, fun coin => ?_⟩, by omega⟩
  have rows : s'.coins.rowsOf coin = three.coins.rowsOf coin := weight _
  rw [rows]
  exact flow.rows coin

/-! ### Blocks -/

/-- What happens to the coins when a block is attached: the coinbase comes last. -/
def Block.events (prim : Primitives) (block : Block) : List Event :=
  block.transactions.tail.flatMap (fun txn => txn.redeems ++ txn.issues prim) ++
    block.transactions.head?.elim [] (Transaction.issues prim)

theorem postAll_flow {blk : Blk} {txns : List Transaction} {idx fees fees' : Int} {verify : Bool}
    {unconfirmed unconfirmed' : Txns} {confirmed confirmed' : Hashes}
    (backed : Backed env.validationDepth s.coins)
    (checked : ∀ txn ∈ txns, env.chain.checkTransaction env.prim txn = .ok ()) (paid : 0 ≤ fees)
    (run : postAll env blk txns idx fees verify unconfirmed confirmed s =
      .ok (fees', unconfirmed', confirmed') s') :
    Backed env.validationDepth s'.coins ∧
      Flow s.coins s'.coins (txns.flatMap fun txn => txn.redeems ++ txn.issues env.prim) ∧
      0 ≤ fees' ∧ s'.coins.value + fees' ≤ s.coins.value + fees := by
  induction txns generalizing s idx fees verify unconfirmed confirmed with
  | nil =>
    obtain ⟨same, rfl⟩ := pure_ok.mp run
    obtain ⟨rfl, -⟩ := Prod.mk.inj same
    exact ⟨backed, Flow.refl _, paid, le_refl _⟩
  | cons txn txns ih =>
    unfold postAll at run
    obtain ⟨fees'', one, posted, run⟩ := bind_ok.mp run
    obtain ⟨backed, flow, paid, value⟩ :=
      postTransaction_flow backed (checked txn List.mem_cons_self) paid posted
    obtain ⟨backed', flow', paid', value'⟩ :=
      ih backed (fun other later => checked other (List.mem_cons_of_mem _ later)) paid run
    rw [List.flatMap_cons]
    exact ⟨backed', flow.trans flow', paid', by omega⟩

/-- A block raises the value of the rows by at most its subsidy. -/
theorem attach_flow {blk : Blk} {block : Block} {unconfirmed : Txns} {confirmed : Hashes}
    {result : Txns × Hashes} (backed : Backed env.validationDepth s.coins)
    (checked : ∀ txn ∈ block.transactions, env.chain.checkTransaction env.prim txn = .ok ())
    (run : attach env blk block unconfirmed confirmed s = .ok result s') :
    Backed env.validationDepth s'.coins ∧ Flow s.coins s'.coins (block.events env.prim) ∧
      s'.coins.value ≤ s.coins.value +
        env.chain.subsidy blk.height (if blk.count = 1 then 0 else blk.prevHash) := by
  obtain ⟨coinbase, txns, one, fees, two, transactions, -, -, header, posted, subsidy, -⟩ :=
    attach_ok run
  have same : one.coins = s.coins :=
    (insertBlockHeader_keeps coins_blocks _ _).ok (s := { s with pending := [] }) header
  rw [transactions] at checked
  rw [← same] at backed ⊢
  obtain ⟨backed, flow, paid, value⟩ :=
    postAll_flow backed (fun txn later => checked txn (List.mem_cons_of_mem _ later)) (le_refl 0) posted
  obtain ⟨backed', flow', value'⟩ :=
    postSubsidy_flow backed (checked coinbase List.mem_cons_self) paid subsidy
  unfold Block.events
  rw [transactions]
  exact ⟨backed', flow.trans flow', by omega⟩

/-! ### Runs -/

section Runs

variable {chain : Chain} {prim : Primitives} {validationDepth : Int}

/-- The subsidies of the blocks of a run. -/
def subsidies (chain : Chain) (offers : List Offer) : Int :=
  (offers.map fun offer =>
    chain.subsidy offer.blk.height (if offer.blk.count = 1 then 0 else offer.blk.prevHash)).sum

/-- What happens to the coins in a run. -/
def runEvents (prim : Primitives) (offers : List Offer) : List Event :=
  offers.flatMap fun offer => offer.block.events prim

theorem attachAll_flow {offers : List Offer} {done : Unit} (backed : Backed validationDepth s.coins)
    (checked : ∀ offer ∈ offers, ∀ txn ∈ offer.block.transactions,
      chain.checkTransaction prim txn = .ok ())
    (run : attachAll chain prim validationDepth offers s = .ok done s') :
    Flow s.coins s'.coins (runEvents prim offers) ∧
      s'.coins.value ≤ s.coins.value + subsidies chain offers := by
  induction offers generalizing s with
  | nil =>
    obtain ⟨-, rfl⟩ := pure_ok.mp run
    exact ⟨Flow.refl _, by simp [subsidies]⟩
  | cons offer offers ih =>
    unfold attachAll at run
    obtain ⟨_, one, attached, run⟩ := bind_ok.mp run
    have attached : attach (offer.setting chain prim validationDepth) offer.blk offer.block
      offer.unconfirmed offer.confirmed s = .ok _ one := attached
    obtain ⟨backed', flow, value⟩ := attach_flow backed (checked offer List.mem_cons_self) attached
    obtain ⟨flow', value'⟩ :=
      ih backed' (fun other later => checked other (List.mem_cons_of_mem _ later)) run
    refine ⟨flow.trans flow', ?_⟩
    unfold subsidies at value' ⊢
    rw [List.map_cons, List.sum_cons]
    have first : s'.coins.value ≤ s.coins.value + _ + _ := value'.trans (Int.add_le_add_right value _)
    rw [← add_assoc]
    exact first

theorem backed_empty (unspentIndex : Bool) (trie : validationDepth ≠ 0 → unspentIndex = false) :
    Backed validationDepth (Ledger.empty unspentIndex).coins := by
  refine ⟨fun coin row stored => ?_, trie, fun _ key unspent found => ?_⟩
  · have none : (∅ : Map Int UnspentRow)[coin]? = some row := stored
    rw [Map.lookup_empty] at none
    cases none
  · have none : (∅ : Map Coin Unspent)[key]? = some unspent := found
    rw [Map.lookup_empty] at none
    cases none

/-- No inflation, in either mode: after every run of attached blocks the rows are worth at most the
subsidies, and at every moment of it every coin was redeemed at most as often as it was issued. -/
theorem attachAll_supply {offers : List Offer} {unspentIndex : Bool}
    (trie : validationDepth ≠ 0 → unspentIndex = false)
    (checked : ∀ offer ∈ offers, ∀ txn ∈ offer.block.transactions,
      chain.checkTransaction prim txn = .ok ())
    (run : attachAll chain prim validationDepth offers (Ledger.empty unspentIndex) = .ok () s) :
    s.coins.value ≤ subsidies chain offers ∧
      ∀ n coin, ((runEvents prim offers).take n).count (.redeemed coin) ≤
        ((runEvents prim offers).take n).count (.issued coin) := by
  obtain ⟨flow, value⟩ := attachAll_flow (backed_empty unspentIndex trie) checked run
  have nothing : ∀ measure, (Ledger.empty unspentIndex).coins.weight measure = 0 :=
    fun measure => Map.total_empty measure
  constructor
  · have start : (Ledger.empty unspentIndex).coins.value = 0 := nothing _
    omega
  · intro n coin
    have covered := flow.covered n coin
    have start : (Ledger.empty unspentIndex).coins.rowsOf coin = 0 := nothing _
    omega

end Runs

namespace Small

/-- The genesis, and a block with a spend of one of its coins and a spend of what that issued. -/
def spentRun : List Offer :=
  [offer 1 0 [coinbase 10 [25, 25]],
    offer 2 1 [coinbase 20 [52], spend 21 [(10, 0)] [24], spend 22 [(21, 0)] [23]]]

end Small

open Libcoin.Small

theorem attachAll_supply_spent : ∃ s,
    attachAll (chain 1) prim 0 spentRun (Ledger.empty true) = .ok () s ∧
    s.coins.value ≤ subsidies (chain 1) spentRun := by
  have run : succeeds (attachAll (chain 1) prim 0 spentRun (Ledger.empty true))
      (fun _ _ => true) = true := by decide +kernel
  obtain ⟨_, s, attached, -⟩ := of_succeeds run
  exact ⟨s, attached, (attachAll_supply (fun trie => absurd rfl trie) (by decide +kernel) attached).1⟩

end Libcoin
