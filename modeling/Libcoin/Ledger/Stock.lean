/-
The rows of the coins that a block does not spend.

* `Stock` is what `redeem`, `issue`, `maturate` and the rollback of a confirmation look at: the numbered
  rows, and the trie of spendables.
* `Sound` is the invariant: the numbers of rows are used once, in `Unspents` or in `Spendings`, and where
  the trie is used each spendable coin has its row.
* `Leaves` says that a part of `attach` keeps the invariant and the rows of all coins but those it spends:
  `attach_leaves`. `rollbackBlock_leaves` is its companion for `detach`.
-/

import Libcoin.Ledger.Coins
import Libcoin.Ledger.Detach

namespace Libcoin

open Exec

/-- The tables of coins and confirmations, and the trie of spendables. -/
structure Stock where
  unspents : Table UnspentRow
  unspentIndex : Bool
  spendings : Map Int Spending
  confirmations : Table ConfirmationRow
  spendables : Map Coin Unspent

def Ledger.stock (s : Ledger) : Stock :=
  { unspents := s.db.unspents, unspentIndex := s.db.unspentIndex, spendings := s.db.spendings,
    confirmations := s.db.confirmations, spendables := s.spendables }

namespace Stock

/-- A row of `Unspents` has the key. -/
def HasRow (c : Stock) (key : Coin) : Prop :=
  ∃ (coin : Int) (row : UnspentRow), c.unspents.rows[coin]? = some row ∧ row.key = key

/-- The numbers of the rows, and the rows of the spendable coins where `validationDepth` is not zero. -/
structure Sound (validationDepth : Int) (c : Stock) : Prop where
  numbered : ∀ (coin : Int) row, c.unspents.rows[coin]? = some row → 0 < coin ∧ coin ≤ c.unspents.seq
  spent : ∀ (coin : Int) row, c.spendings[coin]? = some row →
    c.unspents.rows[coin]? = none ∧ coin ≤ c.unspents.seq ∧ (0 ≤ row.icnf → 0 < coin)
  confirmed : ∀ (cnf : Int) row, c.confirmations.rows[cnf]? = some row → cnf ≠ 0
  start : 0 ≤ c.unspents.seq ∧ 0 ≤ c.confirmations.seq
  unindexed : validationDepth ≠ 0 → c.unspentIndex = false
  stored : validationDepth ≠ 0 → ∀ (key : Coin) unspent, c.spendables[key]? = some unspent →
    ∃ row, c.unspents.rows[unspent.coin]? = some row ∧ row.key = key

/-- What a part of `attach` leaves: the invariant, and the rows of all coins but the spent ones. -/
structure Leaves (validationDepth : Int) (spent : List Coin) (c c' : Stock) : Prop where
  sound : Sound validationDepth c'
  rows : ∀ key, key ∉ spent → c.HasRow key → c'.HasRow key

variable {validationDepth : Int} {c d e : Stock}

theorem Sound.leaves (sound : Sound validationDepth c) : Leaves validationDepth [] c c :=
  ⟨sound, fun _ _ there => there⟩

theorem Leaves.trans {xs ys : List Coin} (first : Leaves validationDepth xs c d)
    (second : Leaves validationDepth ys d e) : Leaves validationDepth (xs ++ ys) c e := by
  refine ⟨second.sound, fun key unspent there => ?_⟩
  rw [List.mem_append, not_or] at unspent
  exact second.rows key unspent.2 (first.rows key unspent.1 there)

theorem Leaves.kept {xs : List Coin} (first : Leaves validationDepth [] c d)
    (second : Leaves validationDepth xs d e) : Leaves validationDepth xs c e := first.trans second

/-! ### The changes of a stock -/

/-- A coin is spent. Its spending is recorded, or is not. -/
theorem Sound.take (sound : Sound validationDepth c) {coin : Int} {row : UnspentRow} {key : Coin}
    (there : c.unspents.rows[coin]? = some row) (named : row.key = key) {spendings : Map Int Spending}
    (recorded : ∀ (other : Int) spending, spendings[other]? = some spending →
      other = coin ∨ c.spendings[other]? = some spending)
    {spendables : Map Coin Unspent}
    (taken : validationDepth ≠ 0 → spendables = c.spendables.erase key) :
    Leaves validationDepth [key] c
      { c with unspents := c.unspents.delete coin, spendings := spendings, spendables := spendables } := by
  have kept : ∀ (other : Int) row', (c.unspents.rows.erase coin)[other]? = some row' →
      c.unspents.rows[other]? = some row' := by
    intro other row' found
    rw [Map.lookup_erase] at found
    split at found
    · cases found
    · exact found
  refine ⟨⟨fun other row' found => sound.numbered other row' (kept other row' found), ?_, sound.confirmed,
    sound.start, sound.unindexed, ?_⟩, ?_⟩
  · intro other spending found
    show (c.unspents.rows.erase coin)[other]? = none ∧ _
    rw [Map.lookup_erase]
    rcases recorded other spending found with rfl | old
    · rw [if_pos rfl]
      exact ⟨rfl, (sound.numbered other row there).2, fun _ => (sound.numbered other row there).1⟩
    · obtain ⟨gone, low, positive⟩ := sound.spent other spending old
      rw [gone]
      exact ⟨by split <;> rfl, low, positive⟩
  · intro trie other unspent found
    have found : spendables[other]? = some unspent := found
    rw [taken trie, Map.lookup_erase] at found
    split at found
    · cases found
    · rename_i different
      obtain ⟨row', stored, named'⟩ := sound.stored trie other unspent found
      refine ⟨row', ?_, named'⟩
      show (c.unspents.rows.erase coin)[unspent.coin]? = _
      rw [Map.lookup_erase_of_ne, stored]
      intro same
      rw [← same, there] at stored
      obtain rfl := Option.some.inj stored
      exact different (named.symm.trans named')
  · rintro other unspent ⟨id, row', stored, named'⟩
    rw [List.mem_singleton] at unspent
    refine ⟨id, row', ?_, named'⟩
    show (c.unspents.rows.erase coin)[id]? = _
    rw [Map.lookup_erase_of_ne, stored]
    intro same
    rw [← same, there] at stored
    obtain rfl := Option.some.inj stored
    exact unspent (named'.symm.trans named)

/-- A row is inserted with the next number, others with its key are dropped or not, and the trie has the
coins it had, or the new one. -/
theorem Sound.put (sound : Sound validationDepth c) (row : UnspentRow) (drop : Int → UnspentRow → Bool)
    (others : ∀ (coin : Int) row', drop coin row' = true → coin ≠ c.unspents.nextId ∧ row'.key = row.key ∧
      validationDepth = 0)
    {spendables : Map Coin Unspent}
    (added : validationDepth ≠ 0 → ∀ (key : Coin) unspent, spendables[key]? = some unspent →
      key = row.key ∧ unspent.coin = c.unspents.nextId ∨ c.spendables[key]? = some unspent) :
    Leaves validationDepth [] c
        { c with
          unspents := (c.unspents.insertAuto row).deleteWhere drop
          spendables := spendables } ∧
      Stock.HasRow
        { c with
          unspents := (c.unspents.insertAuto row).deleteWhere drop
          spendables := spendables } row.key := by
  have lookup : ∀ (coin : Int) row', ((c.unspents.insertAuto row).deleteWhere drop).rows[coin]? = some row' ↔
      (if c.unspents.nextId = coin then some row else c.unspents.rows[coin]?) = some row' ∧
        drop coin row' = false := by
    intro coin row'
    show ((c.unspents.rows.insert c.unspents.nextId row).filter fun key row => !drop key row)[coin]? = _ ↔ _
    rw [Map.lookup_filter_eq_some, Map.lookup_insert, Bool.not_eq_true']
  have own : ((c.unspents.insertAuto row).deleteWhere drop).rows[c.unspents.nextId]? = some row := by
    refine (lookup _ _).mpr ⟨if_pos rfl, Bool.eq_false_of_not_eq_true fun dropped => ?_⟩
    exact (others _ _ dropped).1 rfl
  have high : c.unspents.seq < c.unspents.nextId := c.unspents.seq_lt_nextId
  refine ⟨⟨⟨?_, ?_, sound.confirmed, ⟨?_, sound.start.2⟩, sound.unindexed, ?_⟩, ?_⟩, _, row, own, rfl⟩
  · intro coin row' found
    show 0 < coin ∧ coin ≤ c.unspents.nextId
    have found := ((lookup coin row').mp found).1
    split_ifs at found with here
    · subst here
      have first := sound.start.1
      omega
    · have low := sound.numbered coin row' found
      omega
  · intro coin spending found
    obtain ⟨gone, low, positive⟩ := sound.spent coin spending found
    refine ⟨Option.eq_none_iff_forall_ne_some.mpr fun row' still => ?_, ?_, positive⟩
    · have still := ((lookup coin row').mp still).1
      rw [if_neg (by omega), gone] at still
      cases still
    · show coin ≤ c.unspents.nextId
      omega
  · show 0 ≤ c.unspents.nextId
    have first := sound.start.1
    omega
  · intro trie key unspent found
    rcases added trie key unspent found with ⟨rfl, new⟩ | old
    · refine ⟨row, ?_, rfl⟩
      rw [new]
      exact own
    · obtain ⟨row', stored, named⟩ := sound.stored trie key unspent old
      refine ⟨row', (lookup _ _).mpr ⟨?_, Bool.eq_false_of_not_eq_true fun dropped => ?_⟩, named⟩
      · rw [if_neg, stored]
        intro same
        rw [← same, Table.nextId_fresh] at stored
        cases stored
      · exact trie (others _ _ dropped).2.2
  · rintro key - ⟨coin, row', stored, named⟩
    by_cases dropped : drop coin row' = true
    · refine ⟨_, row, own, ?_⟩
      rw [← named, (others _ _ dropped).2.1]
    · refine ⟨coin, row', (lookup _ _).mpr ⟨?_, Bool.eq_false_of_not_eq_true dropped⟩, named⟩
      rw [if_neg, stored]
      intro same
      rw [← same, Table.nextId_fresh] at stored
      cases stored

end Stock

open Stock

variable {env : Setting} {s s' : Ledger}

/-! ### One coin -/

theorem deleteWhere_never {Row : Type} (t : Table Row) : t.deleteWhere (fun _ _ => false) = t := by
  unfold Table.deleteWhere
  congr 1
  ext key
  rw [Map.lookup_filter]
  simp

/-- A spending is recorded under the number of its coin, or not at all. -/
theorem recorded_stock (env : Setting) (coin : Unspent) (input : Input) (iidx : Int) (iconf : Confirmation)
    (s : Ledger) :
    ∃ spendings : Map Int Spending, (s.recorded env coin input iidx iconf).stock =
      { s.stock with spendings := spendings } ∧
      ∀ (other : Int) spending, spendings[other]? = some spending →
        other = coin.coin ∨ s.db.spendings[other]? = some spending := by
  unfold Ledger.recorded
  by_cases deep : env.purgeDepth ≤ iconf.count
  · rw [if_pos deep]
    unfold Ledger.afterQuery Database.insertSpending
    by_cases there : s.db.spendings.contains coin.coin = true
    · rw [if_pos there]
      exact ⟨_, rfl, fun other spending found => .inr found⟩
    · rw [if_neg there]
      refine ⟨_, rfl, fun other spending found => ?_⟩
      rcases Map.lookup_of_insert found with ⟨rfl, -⟩ | old
      · exact .inl rfl
      · exact .inr old
  · rw [if_neg deep]
    exact ⟨_, rfl, fun other spending found => .inr found⟩

theorem redeem_leaves (sound : Sound env.validationDepth s.stock) {input : Input} {iidx : Int}
    {iconf : Confirmation} {coin : Unspent} (run : redeem env input iidx iconf s = .ok coin s') :
    Leaves env.validationDepth [input.prevout] s.stock s'.stock := by
  by_cases database : env.validationDepth = 0
  · obtain ⟨id, row, found, -, -, -, rfl, rfl⟩ := (redeem_database_ok database).mp run
    obtain ⟨there, named⟩ := Table.first_eq_some found
    obtain ⟨spendings, same, recorded⟩ := recorded_stock env (row.unspent id) input iidx iconf s
    have after : (s.spend env (row.unspent id) input iidx iconf).stock =
        { s.stock with unspents := s.stock.unspents.delete id, spendings := spendings
                       spendables := s.stock.spendables } := by
      show { (s.recorded env (row.unspent id) input iidx iconf).stock with
        unspents := (s.recorded env (row.unspent id) input iidx iconf).stock.unspents.delete id } = _
      rw [same]
    rw [after]
    exact sound.take there (of_decide_eq_true named) recorded fun trie => absurd database trie
  · obtain ⟨found, -, rfl⟩ := (redeem_trie_ok database).mp run
    obtain ⟨row, there, named⟩ := sound.stored database _ _ found
    obtain ⟨spendings, same, recorded⟩ := recorded_stock env coin input iidx iconf
      { s with spendables := s.spendables.erase input.prevout }
    have after : (Ledger.spend env coin input iidx iconf
          { s with spendables := s.spendables.erase input.prevout }).stock =
        { s.stock with unspents := s.stock.unspents.delete coin.coin, spendings := spendings
                       spendables := s.stock.spendables.erase input.prevout } := by
      show { (Ledger.recorded env coin input iidx iconf
          { s with spendables := s.spendables.erase input.prevout }).stock with
        unspents := (Ledger.recorded env coin input iidx iconf
          { s with spendables := s.spendables.erase input.prevout }).stock.unspents.delete coin.coin } = _
      rw [same]
      rfl
    rw [after]
    exact sound.take there named recorded fun _ => rfl

/-- A row that the index forbids is there already. -/
theorem insertUnspent_stock (row : UnspentRow) (s : Ledger) :
    (s.afterQuery (Database.insertUnspent row)).2.stock = s.stock ∧ s.stock.HasRow row.key ∨
      (s.afterQuery (Database.insertUnspent row)).2.stock =
        { s.stock with unspents := s.stock.unspents.insertAuto row } := by
  unfold Ledger.afterQuery Database.insertUnspent
  by_cases forbidden : (s.db.unspentIndex && (s.db.findUnspent row.key).isSome) = true
  · rw [if_pos forbidden]
    obtain ⟨⟨id, other⟩, first⟩ := Option.isSome_iff_exists.mp (Bool.and_eq_true_iff.mp forbidden).2
    obtain ⟨there, named⟩ := Table.first_eq_some first
    exact .inl ⟨rfl, id, other, there, of_decide_eq_true named⟩
  · rw [if_neg forbidden]
    exact .inr rfl

theorem replaceUnspent_stock (row : UnspentRow) (s : Ledger) :
    ∃ drop : Int → UnspentRow → Bool,
      (∀ (coin : Int) row', drop coin row' = true → coin ≠ s.stock.unspents.nextId ∧ row'.key = row.key) ∧
      (s.afterQuery (Database.replaceUnspent row)).2.stock =
        { s.stock with unspents := (s.stock.unspents.insertAuto row).deleteWhere drop } := by
  unfold Ledger.afterQuery Database.replaceUnspent
  dsimp only
  by_cases index : s.db.unspentIndex = true
  · refine ⟨fun coin other => decide (coin ≠ s.db.unspents.nextId) && decide (other.key = row.key),
      fun coin row' dropped => ?_, ?_⟩
    · obtain ⟨other, same⟩ := Bool.and_eq_true_iff.mp dropped
      exact ⟨of_decide_eq_true other, of_decide_eq_true same⟩
    · rw [if_pos index]
      rfl
  · refine ⟨fun _ _ => false, nofun, ?_⟩
    rw [if_neg index, deleteWhere_never]
    rfl

/-- In trie mode the row is inserted, and its coin enters a trie. -/
theorem issue_stock_trie (trie : env.validationDepth ≠ 0) (unindexed : s.stock.unspentIndex = false)
    {output : Output} {hash : Uint256} {outIdx : Nat} {conf : Confirmation} {unique : Bool} {coin : Int}
    (run : issue env output hash outIdx conf unique s = .ok coin s') :
    ∃ spendables : Map Coin Unspent,
      s'.stock = { s.stock with
        unspents := s.stock.unspents.insertAuto (issueRow output hash outIdx conf)
        spendables := spendables } ∧
      ∀ (key : Coin) unspent, spendables[key]? = some unspent →
        key = (issueRow output hash outIdx conf).key ∧
            unspent = (issueRow output hash outIdx conf).unspent s.stock.unspents.nextId ∨
          s.stock.spendables[key]? = some unspent := by
  obtain ⟨rfl, added⟩ := issue_trie_unindexed trie unindexed run
  unfold addUnspent at added
  split at added
  · obtain ⟨-, rfl⟩ := addCoinbase_ok.mp added
    exact ⟨_, rfl, fun key unspent found => .inr found⟩
  · obtain rfl := addSpendable_ok.mp added
    refine ⟨_, rfl, fun key unspent found => ?_⟩
    rcases Map.lookup_of_insertNew found with ⟨rfl, rfl⟩ | old
    · exact .inl ⟨rfl, rfl⟩
    · exact .inr old

theorem issue_leaves (sound : Sound env.validationDepth s.stock) {output : Output} {hash : Uint256}
    {outIdx : Nat} {conf : Confirmation} {unique : Bool} {coin : Int}
    (run : issue env output hash outIdx conf unique s = .ok coin s') :
    Leaves env.validationDepth [] s.stock s'.stock ∧ s'.stock.HasRow { hash := hash, index := outIdx } := by
  let row := issueRow output hash outIdx conf
  have put := @Sound.put _ _ sound row (fun _ _ => false) nofun
  rw [deleteWhere_never] at put
  by_cases database : env.validationDepth = 0
  · have inserted := congrArg Prod.snd ((issue_database_ok database).mp run)
    rw [show s' = _ from inserted.symm]
    cases unique with
    | true =>
      rcases insertUnspent_stock row s with ⟨same, there⟩ | same
      · rw [if_pos rfl, same]
        exact ⟨sound.leaves, there⟩
      · rw [if_pos rfl, same]
        exact put fun trie => absurd database trie
    | false =>
      obtain ⟨drop, others, same⟩ := replaceUnspent_stock row s
      rw [if_neg (by decide), same]
      refine sound.put row drop (fun coin row' dropped => ?_) fun trie => absurd database trie
      exact ⟨(others coin row' dropped).1, (others coin row' dropped).2, database⟩
  · obtain ⟨spendables, after, added⟩ := issue_stock_trie database (sound.unindexed database) run
    rw [after]
    refine put fun _ key unspent found => ?_
    rcases added key unspent found with ⟨named, rfl⟩ | old
    · exact .inl ⟨named, rfl⟩
    · exact .inr old

/-! ### Transactions -/

theorem stock_blocks : KeepsBlocks Ledger.stock where
  block _ _ := insertUnless_keeps fun _ _ => rfl
  auxProofOfWork _ := insert_keeps fun _ _ => rfl

theorem stock_names : KeepsNames Ledger.stock := fun _ => insertUnless_keeps fun _ _ => rfl

theorem redeemAll_leaves {conf : Confirmation} {inputs : List Input} {idx : Nat} {valueIn : Int}
    {op : NameOperation} {scripts : List Script} {result : Int × NameOperation × List Script}
    (sound : Sound env.validationDepth s.stock)
    (run : redeemAll env conf inputs idx valueIn op scripts s = .ok result s') :
    Leaves env.validationDepth (inputs.map Input.prevout) s.stock s'.stock := by
  induction inputs generalizing s idx valueIn op scripts with
  | nil =>
    obtain ⟨-, rfl⟩ := pure_ok.mp run
    exact sound.leaves
  | cons input inputs ih =>
    unfold redeemAll at run
    obtain ⟨coin, one, redeemed, run⟩ := bind_ok.mp run
    obtain ⟨op', two, named, run⟩ := bind_ok.mp run
    have first := redeem_leaves sound redeemed
    have same : two.stock = one.stock := (nameInput_keeps op coin).ok named
    rw [← same] at first
    exact first.trans (ih first.sound run)

theorem issueAll_leaves {version : Int} {hash : Uint256} {conf : Confirmation} {outputs : List Output}
    {idx : Nat} {op op' : NameOperation} (sound : Sound env.validationDepth s.stock)
    (run : issueAll env version hash conf outputs idx op s = .ok op' s') :
    Leaves env.validationDepth [] s.stock s'.stock ∧
      ∀ i < outputs.length, s'.stock.HasRow { hash := hash, index := idx + i } := by
  induction outputs generalizing s idx op with
  | nil =>
    obtain ⟨-, rfl⟩ := pure_ok.mp run
    exact ⟨sound.leaves, nofun⟩
  | cons output outputs ih =>
    unfold issueAll at run
    obtain ⟨coin, one, issued, run⟩ := bind_ok.mp run
    obtain ⟨op', two, named, run⟩ := bind_ok.mp run
    obtain ⟨first, own⟩ := issue_leaves sound issued
    have same : two.stock = one.stock := (nameOutput_keeps stock_names _ op output coin _).ok named
    rw [← same] at first own
    obtain ⟨rest, others⟩ := ih first.sound run
    refine ⟨first.trans rest, fun i inside => ?_⟩
    cases i with
    | zero => exact rest.rows _ List.not_mem_nil own
    | succ i =>
      rw [List.length_cons, Nat.succ_lt_succ_iff] at inside
      have there := others i inside
      rwa [Nat.add_right_comm] at there

theorem issueCoinbase_leaves {hash : Uint256} {conf : Confirmation} {unique : Bool} {outputs : List Output}
    {idx : Nat} {done : Unit} (sound : Sound env.validationDepth s.stock)
    (run : issueCoinbase env hash conf unique outputs idx s = .ok done s') :
    Leaves env.validationDepth [] s.stock s'.stock := by
  induction outputs generalizing s idx with
  | nil =>
    obtain ⟨-, rfl⟩ := pure_ok.mp run
    exact sound.leaves
  | cons output outputs ih =>
    unfold issueCoinbase at run
    obtain ⟨coin, one, issued, run⟩ := bind_ok.mp run
    obtain ⟨first, -⟩ := issue_leaves sound issued
    exact first.trans (ih first.sound run)

/-- The stock with other confirmations, none of which has the number 0. -/
theorem Stock.Sound.confirm {c : Stock} {validationDepth : Int} (sound : Sound validationDepth c)
    {confirmations : Table ConfirmationRow} (start : 0 ≤ confirmations.seq)
    (named : ∀ (cnf : Int) row, confirmations.rows[cnf]? = some row →
      cnf ≠ 0 ∨ c.confirmations.rows[cnf]? = some row) :
    Leaves validationDepth [] c { c with confirmations := confirmations } := by
  refine ⟨{ sound with confirmed := fun cnf row found => ?_, start := ⟨sound.start.1, start⟩ },
    fun _ _ there => there⟩
  rcases named cnf row found with other | old
  · exact other
  · exact sound.confirmed cnf row old

theorem confirm_leaves {txn : Transaction} {count idx cnf : Int}
    (sound : Sound env.validationDepth s.stock) (run : confirm env txn count idx s = .ok cnf s') :
    Leaves env.validationDepth [] s.stock s'.stock := by
  unfold confirm at run
  split at run
  · obtain ⟨-, rfl⟩ := Prod.mk.inj (query_ok.mp run)
    have above := s.db.confirmations.seq_lt_nextId
    have start : 0 ≤ s.db.confirmations.seq := sound.start.2
    refine sound.confirm (show 0 ≤ s.db.confirmations.nextId by omega) fun cnf row found => ?_
    rcases Map.lookup_of_insert found with ⟨rfl, -⟩ | old
    · exact .inl (by omega)
    · exact .inr old
  · obtain ⟨-, rfl⟩ := pure_ok.mp run
    exact sound.leaves

theorem pushed_stock (verify : Bool) (verification : Verification) (s : Ledger) :
    (s.pushed verify verification).stock = s.stock := by
  unfold Ledger.pushed
  cases verify <;> rfl

theorem postTransaction_leaves {txn : Transaction} {fees minFee fees' : Int} {blk : Blk} {idx : Int}
    {verify : Bool} (sound : Sound env.validationDepth s.stock)
    (run : postTransaction env txn fees minFee blk idx verify s = .ok fees' s') :
    Leaves env.validationDepth (txn.inputs.map Input.prevout) s.stock s'.stock ∧
      ∀ i < txn.outputs.length, s'.stock.HasRow { hash := env.prim.txnHash txn, index := i } := by
  obtain ⟨cnf, one, ignoreRules, valueIn, op, scripts, two, op', confirmed, redeemed, -, -, -, issued⟩ :=
    postTransaction_ok run
  have first := confirm_leaves sound confirmed
  have second := redeemAll_leaves first.sound redeemed
  have between := second.sound
  rw [← pushed_stock verify _ two] at between
  obtain ⟨third, rows⟩ := issueAll_leaves between issued
  rw [pushed_stock] at third
  have whole := (first.kept second).trans third
  rw [List.append_nil] at whole
  refine ⟨whole, fun i inside => ?_⟩
  have there := rows i inside
  rwa [Nat.zero_add] at there

/-! ### The coinbase -/

theorem foldl_promote_stock (unspents : List Unspent) (s : Ledger) :
    ∃ spendables : Map Coin Unspent, (unspents.foldl promote s).stock =
      { s.stock with spendables := spendables } ∧
      ∀ (key : Coin) unspent, spendables[key]? = some unspent →
        unspent ∈ unspents ∧ unspent.key = key ∨ s.spendables[key]? = some unspent := by
  induction unspents generalizing s with
  | nil => exact ⟨_, rfl, fun key unspent found => .inr found⟩
  | cons unspent unspents ih =>
    obtain ⟨spendables, after, added⟩ := ih (promote s unspent)
    refine ⟨spendables, after, fun key other found => ?_⟩
    rcases added key other found with ⟨later, named⟩ | first
    · exact .inl ⟨List.mem_cons_of_mem _ later, named⟩
    · rcases Map.lookup_of_insertNew first with ⟨rfl, rfl⟩ | old
      · exact .inl ⟨List.mem_cons_self, rfl⟩
      · exact .inr old

/-- What matures is stored in the table, and only the trie of the spendables changes. -/
theorem maturateNext_stock {blk : Blk} {done : Unit} (run : maturateNext env blk s = .ok done s') :
    ∃ spendables : Map Coin Unspent, s'.stock = { s.stock with spendables := spendables } ∧
      ∀ (key : Coin) unspent, spendables[key]? = some unspent →
        unspent.key = key ∧ s.stock.unspents.rows[unspent.coin]? = some unspent.row ∨
          s.stock.spendables[key]? = some unspent := by
  unfold maturateNext at run
  split at run
  · rename_i due
    unfold maturate at run
    rw [if_neg (show ¬env.validationDepth = 0 by omega)] at run
    obtain rfl := modify_ok.mp run
    obtain ⟨spendables, after, added⟩ := foldl_promote_stock
      ((s.db.unspents.select fun _ row =>
        decide (row.count = -(blk.count - env.chain.maturity blk.height + 1))).map
          fun entry => entry.2.unspent entry.1) s
    refine ⟨spendables, after, fun key unspent found => (added key unspent found).imp_left ?_⟩
    rintro ⟨selected, named⟩
    obtain ⟨⟨coin, row⟩, member, rfl⟩ := List.mem_map.mp selected
    exact ⟨named, (Table.mem_select.mp member).1⟩
  · obtain ⟨-, rfl⟩ := pure_ok.mp run
    exact ⟨_, rfl, fun key unspent found => .inr found⟩

theorem maturateNext_leaves {blk : Blk} {done : Unit} (sound : Sound env.validationDepth s.stock)
    (run : maturateNext env blk s = .ok done s') : Leaves env.validationDepth [] s.stock s'.stock := by
  obtain ⟨spendables, after, added⟩ := maturateNext_stock run
  rw [after]
  refine ⟨{ sound with stored := fun trie key unspent found => ?_ }, fun _ _ there => there⟩
  rcases added key unspent found with ⟨named, there⟩ | old
  · exact ⟨unspent.row, there, named⟩
  · exact sound.stored trie key unspent old

/-- The input of a coinbase is recorded unless a row has its number. -/
theorem recordCoinbase_stock {count valueIn : Int} {input : Input} {done : Unit}
    (run : recordCoinbase env count valueIn input s = .ok done s') :
    s'.stock =
      if env.purgeDepth ≤ count ∧ s.stock.spendings[-count]? = none then
        { s.stock with
          spendings := s.stock.spendings.insert (-count)
            { ocnf := 0, key := Coin.null, output := { value := valueIn, script := [] }, signature := input.signature
              sequence := input.sequence, iidx := 0, icnf := -count } }
      else s.stock := by
  unfold recordCoinbase at run
  split at run
  · rename_i stored
    obtain ⟨rowid, mid, inserted, run⟩ := bind_ok.mp run
    obtain ⟨-, rfl⟩ := pure_ok.mp run
    have inserted := query_ok.mp inserted
    unfold Ledger.afterQuery Database.insertSpending at inserted
    cases there : s.stock.spendings[-count]? with
    | none =>
      rw [show s.db.spendings.contains (-count) = false from Map.contains_of_absent there] at inserted
      obtain ⟨-, rfl⟩ := Prod.mk.inj inserted
      rw [if_pos ⟨stored, rfl⟩]
      rfl
    | some spending =>
      rw [show s.db.spendings.contains (-count) = true from Map.contains_of_stored there] at inserted
      obtain ⟨-, rfl⟩ := Prod.mk.inj inserted
      rw [if_neg fun free => Option.some_ne_none _ free.2]
  · rename_i purged
    obtain ⟨-, rfl⟩ := pure_ok.mp run
    rw [if_neg fun free => purged free.1]

theorem recordCoinbase_leaves {count valueIn : Int} {input : Input} {done : Unit} (positive : 0 < count)
    (sound : Sound env.validationDepth s.stock) (run : recordCoinbase env count valueIn input s = .ok done s') :
    Leaves env.validationDepth [] s.stock s'.stock := by
  rw [recordCoinbase_stock run]
  split
  · refine ⟨{ sound with spent := fun coin spending found => ?_ }, fun _ _ there => there⟩
    rcases Map.lookup_of_insert found with ⟨rfl, rfl⟩ | old
    · have first : 0 ≤ s.stock.unspents.seq := sound.start.1
      refine ⟨Option.eq_none_iff_forall_ne_some.mpr fun row there => ?_, ?_, fun low => ?_⟩
      · have high := (sound.numbered _ row there).1
        omega
      · show -count ≤ s.stock.unspents.seq
        omega
      · have low : 0 ≤ -count := low
        omega
    · exact sound.spent coin spending old
  · exact sound.leaves

/-- The coinbase is confirmed unless a row has its number. -/
theorem confirmCoinbase_stock {txn : Transaction} {count cnf : Int}
    (run : confirmCoinbase env txn count s = .ok cnf s') :
    s'.stock =
      if env.purgeDepth ≤ count ∧ s.stock.confirmations.rows[-count]? = none then
        { s.stock with
          confirmations := s.stock.confirmations.insertAt (-count)
            { version := txn.version, lockTime := txn.lockTime, count := count, idx := 0 } }
      else s.stock := by
  unfold confirmCoinbase at run
  split at run
  · rename_i stored
    have inserted := query_ok.mp run
    unfold Ledger.afterQuery Database.insertConfirmationAt at inserted
    cases there : s.stock.confirmations.rows[-count]? with
    | none =>
      rw [show s.db.confirmations.rows.contains (-count) = false from Map.contains_of_absent there] at inserted
      obtain ⟨-, rfl⟩ := Prod.mk.inj inserted
      rw [if_pos ⟨stored, rfl⟩]
      rfl
    | some row =>
      rw [show s.db.confirmations.rows.contains (-count) = true from Map.contains_of_stored there] at inserted
      obtain ⟨-, rfl⟩ := Prod.mk.inj inserted
      rw [if_neg fun free => Option.some_ne_none _ free.2]
  · rename_i purged
    obtain ⟨-, rfl⟩ := pure_ok.mp run
    rw [if_neg fun free => purged free.1]

theorem confirmCoinbase_leaves {txn : Transaction} {count cnf : Int} (positive : 0 < count)
    (sound : Sound env.validationDepth s.stock) (run : confirmCoinbase env txn count s = .ok cnf s') :
    Leaves env.validationDepth [] s.stock s'.stock := by
  rw [confirmCoinbase_stock run]
  split
  · have start : 0 ≤ s.stock.confirmations.seq := sound.start.2
    refine sound.confirm (show 0 ≤ max s.stock.confirmations.seq (-count) by omega) fun cnf row found => ?_
    rcases Map.lookup_of_insert found with ⟨rfl, -⟩ | old
    · exact .inl (by omega)
    · exact .inr old
  · exact sound.leaves

theorem Blk.count_pos (blk : Blk) : 0 < blk.count := by
  unfold Blk.count
  omega

theorem postSubsidy_leaves {txn : Transaction} {blk : Blk} {fees : Int} {done : Unit}
    (sound : Sound env.validationDepth s.stock) (run : postSubsidy env txn blk fees s = .ok done s') :
    Leaves env.validationDepth [] s.stock s'.stock := by
  obtain ⟨cnf, input, one, two, three, -, -, -, confirmed, -, recorded, issued, matured⟩ := postSubsidy_ok run
  have first := confirmCoinbase_leaves blk.count_pos sound confirmed
  have second := recordCoinbase_leaves blk.count_pos first.sound recorded
  have third := issueCoinbase_leaves second.sound issued
  exact first.kept (second.kept (third.kept (maturateNext_leaves third.sound matured)))

/-! ### Blocks -/

/-- The coins that transactions spend. -/
def spentBy (txns : List Transaction) : List Coin := txns.flatMap fun txn => txn.inputs.map Input.prevout

/-- The outputs of the transactions have their rows unless they are spent, and their hashes are among those that
are confirmed. -/
theorem postAll_leaves {blk : Blk} {txns : List Transaction} {idx fees fees' : Int} {verify : Bool}
    {unconfirmed unconfirmed' : Txns} {confirmed confirmed' : Hashes}
    (sound : Sound env.validationDepth s.stock)
    (run : postAll env blk txns idx fees verify unconfirmed confirmed s =
      .ok (fees', unconfirmed', confirmed') s') :
    Leaves env.validationDepth (spentBy txns) s.stock s'.stock ∧
      (∀ txn ∈ txns, ∀ i < txn.outputs.length, { hash := env.prim.txnHash txn, index := i } ∉ spentBy txns →
        s'.stock.HasRow { hash := env.prim.txnHash txn, index := i }) ∧
      ∀ hash, confirmed'[hash]?.isSome = true ↔
        (∃ txn ∈ txns, env.prim.txnHash txn = hash) ∨ confirmed[hash]?.isSome = true := by
  induction txns generalizing s idx fees verify unconfirmed confirmed with
  | nil =>
    obtain ⟨same, rfl⟩ := pure_ok.mp run
    obtain ⟨-, -, rfl⟩ : fees = fees' ∧ unconfirmed = unconfirmed' ∧ confirmed = confirmed' := by simpa using same
    exact ⟨sound.leaves, nofun, fun hash => by simp⟩
  | cons txn txns ih =>
    unfold postAll at run
    obtain ⟨fees'', one, posted, run⟩ := bind_ok.mp run
    obtain ⟨first, own⟩ := postTransaction_leaves sound posted
    obtain ⟨rest, others, hashes⟩ := ih first.sound run
    refine ⟨first.trans rest, ?_, fun hash => ?_⟩
    · intro other member i inside unspent
      have later : { hash := env.prim.txnHash other, index := i } ∉ spentBy txns :=
        fun spent => unspent (List.mem_append_right _ spent)
      rcases List.mem_cons.mp member with rfl | member
      · exact rest.rows _ later (own i inside)
      · exact others other member i inside later
    · rw [hashes hash, Map.lookup_insert]
      by_cases same : env.prim.txnHash txn = hash
      · simp [same]
      · simp [same]

/-- What a block leaves: the rows of all coins but those that its transactions spend, and the rows of what they
issue. -/
theorem attach_leaves {blk : Blk} {block : Block} {unconfirmed unconfirmed' : Txns}
    {confirmed confirmed' : Hashes} (sound : Sound env.validationDepth s.stock)
    (run : attach env blk block unconfirmed confirmed s = .ok (unconfirmed', confirmed') s') :
    Leaves env.validationDepth (spentBy block.transactions.tail) s.stock s'.stock ∧
      (∀ txn ∈ block.transactions.tail, ∀ i < txn.outputs.length,
        { hash := env.prim.txnHash txn, index := i } ∉ spentBy block.transactions.tail →
          s'.stock.HasRow { hash := env.prim.txnHash txn, index := i }) ∧
      ∀ hash, confirmed'[hash]?.isSome = true ↔
        (∃ txn ∈ block.transactions.tail, env.prim.txnHash txn = hash) ∨ confirmed[hash]?.isSome = true := by
  obtain ⟨coinbase, txns, one, fees, two, transactions, -, -, header, posted, subsidy, -⟩ := attach_ok run
  have same : one.stock = s.stock := by
    rw [(insertBlockHeader_keeps stock_blocks _ _).ok header]
    rfl
  rw [transactions, List.tail_cons]
  rw [← same] at sound ⊢
  obtain ⟨first, issued, hashes⟩ := postAll_leaves sound posted
  have last := postSubsidy_leaves first.sound subsidy
  have whole := first.trans last
  rw [List.append_nil] at whole
  exact ⟨whole, fun txn member i inside unspent =>
    last.rows _ List.not_mem_nil (issued txn member i inside unspent),
    hashes⟩

/-! ### Blocks that are detached -/

namespace Stock

/-- Confirmations can be rolled back: no spending has the confirmation of its coin and, where the trie is used,
no coin of a coinbase among them is in the trie, or was spent. -/
structure Undoable (validationDepth : Int) (old : Int → Prop) (c : Stock) : Prop where
  depth : 0 ≤ validationDepth
  own : 0 < validationDepth → ∀ (coin : Int) row, c.spendings[coin]? = some row → row.ocnf ≠ row.icnf
  unripe : 0 < validationDepth → ∀ cnf < 0, old cnf →
    (∀ (key : Coin) unspent, c.spendables[key]? = some unspent →
      ∀ row, c.unspents.rows[unspent.coin]? = some row → row.cnf ≠ cnf) ∧
    ∀ (coin : Int) row, c.spendings[coin]? = some row → row.ocnf ≠ cnf

/-- What a rollback of confirmations leaves: the invariants, and the rows of all other confirmations. -/
structure Undone (validationDepth : Int) (old : Int → Prop) (c c' : Stock) : Prop where
  sound : Sound validationDepth c'
  undoable : Undoable validationDepth old c'
  rows : ∀ (coin : Int) row, c.unspents.rows[coin]? = some row → ¬old row.cnf →
    c'.unspents.rows[coin]? = some row
  confirmations : ∀ (cnf : Int) row, c'.confirmations.rows[cnf]? = some row →
    c.confirmations.rows[cnf]? = some row

variable {validationDepth : Int} {old : Int → Prop} {c d e : Stock}

theorem Undone.refl (sound : Sound validationDepth c) (undoable : Undoable validationDepth old c) :
    Undone validationDepth old c c := ⟨sound, undoable, fun _ _ there _ => there, fun _ _ there => there⟩

theorem Undone.trans (first : Undone validationDepth old c d) (second : Undone validationDepth old d e) :
    Undone validationDepth old c e :=
  ⟨second.sound, second.undoable,
    fun coin row there apart => second.rows coin row (first.rows coin row there apart) apart,
    fun cnf row there => first.confirmations cnf row (second.confirmations cnf row there)⟩

end Stock

section Rollback

variable {cnf : Int}

/-- The rows that are restored come from the spendings of the confirmation. -/
theorem mem_restoredRows {count coin : Int} {row : UnspentRow} {db : Database}
    (member : (coin, row) ∈ db.restoredRows count cnf) :
    ∃ spending, db.spendings[coin]? = some spending ∧ spending.icnf = cnf ∧
      row = Database.restoredRow count spending := by
  unfold Database.restoredRows at member
  dsimp only at member
  split at member
  · cases member
  · obtain ⟨⟨other, spending⟩, inside, same⟩ := List.mem_map.mp member
    obtain ⟨rfl, rfl⟩ := Prod.mk.inj same
    obtain ⟨stored, named⟩ := List.mem_filter.mp inside
    exact ⟨spending, Map.mem_toList.mp stored, of_decide_eq_true named, rfl⟩

theorem restoredRows_nodup (count cnf : Int) (db : Database) :
    ((db.restoredRows count cnf).map Prod.fst).Nodup := by
  unfold Database.restoredRows
  dsimp only
  split
  · exact List.nodup_nil
  · rw [List.map_map]
    have sorted := (Map.toList_sorted db.spendings).filter fun entry => decide (entry.2.icnf = cnf)
    exact List.pairwise_map.mpr (sorted.imp fun below => ne_of_lt below)

/-- Where the numbers are sound and no index is in the way, all spendings of a confirmation are restored. -/
theorem restoredRows_complete {validationDepth count coin : Int} {spending : Spending}
    (sound : Sound validationDepth s.stock) (trie : validationDepth ≠ 0)
    (stored : s.db.spendings[coin]? = some spending) (named : spending.icnf = cnf) :
    (coin, Database.restoredRow count spending) ∈ s.db.restoredRows count cnf := by
  have index : s.db.unspentIndex = false := sound.unindexed trie
  have listed : (coin, spending) ∈ s.db.spendingsOf cnf :=
    List.mem_filter.mpr ⟨Map.mem_toList.mpr stored, decide_eq_true named⟩
  have free : (((s.db.spendingsOf cnf).map fun entry => (entry.1, Database.restoredRow count entry.2)).any
      fun entry => s.db.unspents.rows.contains entry.1) = false := by
    refine List.any_eq_false.mpr fun entry member => ?_
    obtain ⟨⟨other, row⟩, inside, rfl⟩ := List.mem_map.mp member
    obtain ⟨there, -⟩ := List.mem_filter.mp inside
    have gone := (sound.spent other row (Map.mem_toList.mp there)).1
    rw [show s.db.unspents.rows.contains other = false from Map.contains_of_absent gone]
    decide
  unfold Database.restoredRows
  dsimp only
  simp only [index, Bool.false_and, Bool.or_false]
  rw [free, if_neg (by decide)]
  exact List.mem_map.mpr ⟨_, listed, rfl⟩

/-- The rows after the spendings of a confirmation were restored: those there were, and the restored ones. -/
theorem lookup_restoreUnspents {db : Database} {count : Int}
    (spent : ∀ (coin : Int) spending, db.spendings[coin]? = some spending → db.unspents.rows[coin]? = none)
    (coin : Int) (row : UnspentRow) :
    (db.restoreUnspents count cnf).unspents.rows[coin]? = some row ↔
      db.unspents.rows[coin]? = some row ∨ (coin, row) ∈ db.restoredRows count cnf := by
  show (Map.insertAll (db.restoredRows count cnf) db.unspents.rows)[coin]? = _ ↔ _
  by_cases restored : coin ∈ (db.restoredRows count cnf).map Prod.fst
  · obtain ⟨⟨other, row'⟩, member, rfl⟩ := List.mem_map.mp restored
    obtain ⟨spending, stored, -, -⟩ := mem_restoredRows member
    have gone : db.unspents.rows[other]? = none := spent other spending stored
    have nodup := restoredRows_nodup count cnf db
    rw [Map.lookup_insertAll_of_mem _ _ nodup member, gone]
    constructor
    · intro same
      obtain rfl := Option.some.inj same
      exact .inr member
    · rintro (absent | again)
      · cases absent
      · have found := Map.lookup_insertAll_of_mem _ db.unspents.rows nodup again
        rw [Map.lookup_insertAll_of_mem _ _ nodup member] at found
        exact found
  · rw [Map.lookup_insertAll_of_notMem _ _ restored]
    exact ⟨.inl, fun either => either.resolve_right fun member => restored (List.mem_map.mpr ⟨_, member, rfl⟩)⟩

/-- The rows that are left are those of the other confirmations. -/
theorem lookup_withoutConfirmation (t : Table UnspentRow) (cnf coin : Int) (row : UnspentRow) :
    (t.deleteWhere fun _ row => decide (row.cnf = cnf)).rows[coin]? = some row ↔
      t.rows[coin]? = some row ∧ row.cnf ≠ cnf := by
  show (t.rows.filter fun _ row => !decide (row.cnf = cnf))[coin]? = _ ↔ _
  rw [Map.lookup_filter_eq_some, Bool.not_eq_true', decide_eq_false_iff_not]

section

variable {validationDepth : Int} {old : Int → Prop} {c : Stock} (sound : Sound validationDepth c)
  (undoable : Undoable validationDepth old c)

include sound undoable

/-- The confirmation of a coinbase is rolled back: its rows go, and the row of its input. -/
theorem Stock.Undoable.coinbase (coinbase : cnf < 0) (rolled : old cnf) (coin : Int) :
    Undone validationDepth old c
      { c with
        unspents := c.unspents.deleteWhere fun _ row => decide (row.cnf = cnf)
        spendings := c.spendings.erase coin
        confirmations := c.confirmations.delete cnf } := by
  have kept := lookup_withoutConfirmation c.unspents cnf
  refine ⟨⟨?_, ?_, ?_, sound.start, sound.unindexed, ?_⟩, ⟨undoable.depth, ?_, ?_⟩, ?_, ?_⟩
  · exact fun other row found => sound.numbered other row ((kept other row).mp found).1
  · intro other row found
    obtain ⟨gone, rest⟩ := sound.spent other row (Map.lookup_of_erase found).2
    refine ⟨Option.eq_none_iff_forall_ne_some.mpr fun row' still => ?_, rest⟩
    rw [((kept other row').mp still).1] at gone
    cases gone
  · exact fun other row found => sound.confirmed other row (Map.lookup_of_erase found).2
  · intro trie key unspent found
    have deep := undoable.depth
    obtain ⟨row, stored, named⟩ := sound.stored trie key unspent found
    refine ⟨row, (kept _ row).mpr ⟨stored, ?_⟩, named⟩
    exact (undoable.unripe (by omega) cnf coinbase rolled).1 key unspent found row stored
  · exact fun trie other row found => undoable.own trie other row (Map.lookup_of_erase found).2
  · intro trie other negative olden
    obtain ⟨first, second⟩ := undoable.unripe trie other negative olden
    exact ⟨fun key unspent found row stored => first key unspent found row ((kept _ row).mp stored).1,
      fun other row found => second other row (Map.lookup_of_erase found).2⟩
  · intro other row stored apart
    refine (kept other row).mpr ⟨stored, fun same => apart ?_⟩
    rwa [same]
  · exact fun other row found => (Map.lookup_of_erase found).2

/-- The confirmation of another transaction is rolled back: its rows go, and what it has spent is restored. -/
theorem Stock.Undoable.transaction (ordinary : 0 ≤ cnf) (rolled : old cnf)
    {restored : List (Int × UnspentRow)} {unspents : Table UnspentRow} {spendables : Map Coin Unspent}
    (rows : ∀ (coin : Int) row, unspents.rows[coin]? = some row ↔
      c.unspents.rows[coin]? = some row ∨ (coin, row) ∈ restored)
    (above : c.unspents.seq ≤ unspents.seq)
    (spent : ∀ (coin : Int) row, (coin, row) ∈ restored →
      ∃ spending, c.spendings[coin]? = some spending ∧ spending.icnf = cnf ∧ row.cnf = spending.ocnf)
    (trie : 0 < validationDepth → ∀ (key : Coin) unspent, spendables[key]? = some unspent →
      (∃ row, (unspent.coin, row) ∈ restored ∧ row.key = key) ∨
        c.spendables[key]? = some unspent ∧
          ∀ row, c.unspents.rows[unspent.coin]? = some row → row.key = key → row.cnf ≠ cnf) :
    Undone validationDepth old c
      { c with
        unspents := unspents.deleteWhere fun _ row => decide (row.cnf = cnf)
        spendings := c.spendings.filter fun _ row => !decide (row.icnf = cnf)
        confirmations := c.confirmations.delete cnf
        spendables := spendables } := by
  have kept := lookup_withoutConfirmation unspents cnf
  have spendings : ∀ (coin : Int) row,
      (c.spendings.filter fun _ row => !decide (row.icnf = cnf))[coin]? = some row ↔
        c.spendings[coin]? = some row ∧ row.icnf ≠ cnf := by
    intro coin row
    rw [Map.lookup_filter_eq_some, Bool.not_eq_true', decide_eq_false_iff_not]
  have deep := undoable.depth
  refine ⟨⟨?_, ?_, ?_, ?_, sound.unindexed, ?_⟩, ⟨deep, ?_, ?_⟩, ?_, ?_⟩
  · intro coin row found
    show 0 < coin ∧ coin ≤ unspents.seq
    rcases (rows coin row).mp ((kept coin row).mp found).1 with old | new
    · have low := sound.numbered coin row old
      omega
    · obtain ⟨spending, stored, named, -⟩ := spent coin row new
      obtain ⟨-, low, positive⟩ := sound.spent coin spending stored
      exact ⟨positive (by omega), by omega⟩
  · intro coin row found
    obtain ⟨stored, other⟩ := (spendings coin row).mp found
    obtain ⟨gone, low, positive⟩ := sound.spent coin row stored
    refine ⟨Option.eq_none_iff_forall_ne_some.mpr fun row' still => ?_, ?_, positive⟩
    · rcases (rows coin row').mp ((kept coin row').mp still).1 with old | new
      · rw [old] at gone
        cases gone
      · obtain ⟨spending, again, named, -⟩ := spent coin row' new
        rw [again] at stored
        exact other (by rw [← Option.some.inj stored, named])
    · show coin ≤ unspents.seq
      omega
  · exact fun other row found => sound.confirmed other row (Map.lookup_of_erase found).2
  · exact ⟨show 0 ≤ unspents.seq by have first := sound.start.1; omega, sound.start.2⟩
  · intro used key unspent found
    rcases trie (by omega) key unspent found with ⟨row, new, named⟩ | ⟨old, other⟩
    · refine ⟨row, (kept _ row).mpr ⟨(rows _ row).mpr (.inr new), ?_⟩, named⟩
      obtain ⟨spending, stored, same, origin⟩ := spent _ row new
      rw [origin, ← same]
      exact undoable.own (by omega) _ spending stored
    · obtain ⟨row, stored, named⟩ := sound.stored used key unspent old
      exact ⟨row, (kept _ row).mpr ⟨(rows _ row).mpr (.inl stored), other row stored named⟩, named⟩
  · exact fun used other row found => undoable.own used other row ((spendings other row).mp found).1
  · intro used other negative olden
    obtain ⟨first, second⟩ := undoable.unripe used other negative olden
    refine ⟨fun key unspent found row stored => ?_, fun coin row found =>
      second coin row ((spendings coin row).mp found).1⟩
    have there := (rows _ row).mp ((kept _ row).mp stored).1
    rcases trie used key unspent found with ⟨row', new, -⟩ | ⟨old, -⟩
    · obtain ⟨spending, recorded, -, origin⟩ := spent _ row' new
      rcases there with before | again
      · rw [(sound.spent _ spending recorded).1] at before
        cases before
      · obtain ⟨spending', recorded', -, origin'⟩ := spent _ row again
        rw [recorded'] at recorded
        obtain rfl := Option.some.inj recorded
        rw [origin']
        exact second _ spending' recorded'
    · rcases there with before | again
      · exact first key unspent old row before
      · obtain ⟨spending, recorded, -, origin⟩ := spent _ row again
        rw [origin]
        exact second _ spending recorded
  · intro other row stored different
    refine (kept other row).mpr ⟨(rows other row).mpr (.inl stored), fun same => different ?_⟩
    rwa [same]
  · exact fun other row found => (Map.lookup_of_erase found).2

end

theorem rollbackConfirmation_undone {old : Int → Prop} (sound : Sound env.validationDepth s.stock)
    (undoable : Undoable env.validationDepth old s.stock) (rolled : old cnf) (apart : cnf ≠ 0) :
    Undone env.validationDepth old s.stock (rollbackConfirmation env cnf s).stock := by
  by_cases coinbase : cnf < 0
  · have after : (rollbackConfirmation env cnf s).stock =
        { s.stock with
          unspents := s.stock.unspents.deleteWhere fun _ row => decide (row.cnf = cnf)
          spendings := s.stock.spendings.erase (-s.db.countOf cnf)
          confirmations := s.stock.confirmations.delete cnf } := by
      unfold rollbackConfirmation Database.rollbackConfirmation Ledger.stock
      dsimp only
      rw [if_pos coinbase, if_neg (show ¬(env.validationDepth > 0 ∧ cnf > 0) by omega)]
      split <;> rfl
    rw [after]
    exact undoable.coinbase sound coinbase rolled _
  · have after : (rollbackConfirmation env cnf s).stock =
        { s.stock with
          unspents := (s.db.restoreUnspents (s.db.originCount cnf) cnf).unspents.deleteWhere
            fun _ row => decide (row.cnf = cnf)
          spendings := s.stock.spendings.filter fun _ row => !decide (row.icnf = cnf)
          confirmations := s.stock.confirmations.delete cnf
          spendables := if env.validationDepth > 0 ∧ cnf > 0 then restoreSpendables s.db cnf s.spendables
            else s.spendables } := by
      unfold rollbackConfirmation Database.rollbackConfirmation Ledger.stock
      dsimp only
      rw [if_neg coinbase]
      split <;> rfl
    rw [after]
    refine undoable.transaction sound (not_lt.mp coinbase) rolled
      (lookup_restoreUnspents fun coin spending stored =>
        (sound.spent coin spending stored).1) (Table.foldl_max_ge _ _).1 ?_ ?_
    · intro coin row member
      obtain ⟨spending, stored, named, rfl⟩ := mem_restoredRows member
      exact ⟨spending, stored, named, rfl⟩
    · intro used key unspent found
      rw [if_pos ⟨used, by omega⟩] at found
      unfold restoreSpendables at found
      rw [Map.lookup_eraseAll] at found
      split at found
      · cases found
      · rename_i unissued
        rcases Map.lookup_of_insertNewAll found with new | old
        · obtain ⟨⟨coin, spending⟩, listed, same⟩ := List.mem_map.mp new
          obtain ⟨rfl, rfl⟩ := Prod.mk.inj same
          obtain ⟨stored, named⟩ := List.mem_filter.mp listed
          exact .inl ⟨_, restoredRows_complete sound (by omega) (Map.mem_toList.mp stored)
            (of_decide_eq_true named), rfl⟩
        · refine .inr ⟨old, fun row stored named same => unissued ?_⟩
          refine List.mem_map.mpr ⟨(unspent.coin, row), Table.mem_select.mpr ⟨stored, decide_eq_true same⟩, named⟩

/-- The loop over the confirmations of a block. -/
theorem foldl_rollback_undone {old : Int → Prop} {cnfs : List Int} (sound : Sound env.validationDepth s.stock)
    (undoable : Undoable env.validationDepth old s.stock) (rolled : ∀ cnf ∈ cnfs, old cnf ∧ cnf ≠ 0) :
    Undone env.validationDepth old s.stock
      (cnfs.foldl (fun s cnf => rollbackConfirmation env cnf s) s).stock := by
  induction cnfs generalizing s with
  | nil => exact .refl sound undoable
  | cons cnf cnfs ih =>
    obtain ⟨first, apart⟩ := rolled cnf List.mem_cons_self
    have one := rollbackConfirmation_undone sound undoable first apart
    exact one.trans (ih one.sound one.undoable fun other later => rolled other (List.mem_cons_of_mem _ later))

/-- What a block that is detached leaves: the rows of the other confirmations. -/
theorem rollbackBlock_undone {old : Int → Prop} {count : Int} (sound : Sound env.validationDepth s.stock)
    (undoable : Undoable env.validationDepth old s.stock)
    (counted : ∀ (cnf : Int) row, s.db.confirmations.rows[cnf]? = some row → row.count = count → old cnf) :
    Undone env.validationDepth old s.stock (rollbackBlock env count s).stock := by
  refine foldl_rollback_undone sound undoable fun cnf member => ?_
  obtain ⟨⟨_, row⟩, listed, rfl⟩ := List.mem_map.mp (List.mem_reverse.mp member)
  obtain ⟨stored, named⟩ := Table.mem_select.mp ((List.mem_insertionSort _).mp listed)
  exact ⟨counted _ row stored (of_decide_eq_true named), sound.confirmed _ row stored⟩

end Rollback

/-! ### The ends of a run -/

theorem sound_empty {validationDepth : Int} {unspentIndex : Bool}
    (trie : validationDepth ≠ 0 → unspentIndex = false) :
    Sound validationDepth (Ledger.empty unspentIndex).stock where
  numbered coin row found := by
    have found : (∅ : Map Int UnspentRow)[coin]? = some row := found
    simp at found
  spent coin row found := by
    have found : (∅ : Map Int Spending)[coin]? = some row := found
    simp at found
  confirmed cnf row found := by
    have found : (∅ : Map Int ConfirmationRow)[cnf]? = some row := found
    simp at found
  start := ⟨le_rfl, le_rfl⟩
  unindexed := trie
  stored _ key unspent found := by
    have found : (∅ : Map Coin Unspent)[key]? = some unspent := found
    simp at found

/-- Spendings and confirmations that are deleted leave the invariant. -/
theorem Stock.Sound.filter {validationDepth : Int} {c : Stock} (sound : Sound validationDepth c)
    (spendings : Int → Spending → Bool) (confirmations : Int → ConfirmationRow → Bool) :
    Sound validationDepth
      { c with
        spendings := c.spendings.filter spendings
        confirmations := c.confirmations.deleteWhere confirmations } :=
  { sound with
    spent := fun coin row found => sound.spent coin row ((Map.lookup_filter_eq_some _ _ _ _).mp found).1
    confirmed := fun cnf row found => sound.confirmed cnf row ((Map.lookup_filter_eq_some _ _ _ _).mp found).1 }

end Libcoin
