/-
What becomes of the coins of a moment while further blocks are attached.

* `Since low high gone c c'`: the blocks with counts above `low` and up to `high` lead from the stock `c` to `c'`. Coins
  of `c` are there, are recorded as spent with a confirmation of these blocks, or have a key that is `gone`. All other
  rows are of these blocks.
* `Since.redeem`, `Since.issue` and their companions are the steps, `attach_since` and `attachAll_since` the runs.
* Only a coin with the key of a new coinbase can be lost (`Offer.Overwrites`).
-/

import Libcoin.Ledger.Archive

namespace Libcoin

open Exec Map

namespace Stock

/-- The number is that of a confirmation in one of the blocks. -/
def Dated (low high : Int) (c : Stock) (cnf : Int) : Prop :=
  ∃ row, c.confirmations.rows[cnf]? = some row ∧ low < row.count ∧ row.count ≤ high

structure Since (validationDepth low high : Int) (gone : Coin → Prop) (c c' : Stock) : Prop where
  sound : Sound validationDepth c'
  held : Held validationDepth c'
  seq : c.unspents.seq ≤ c'.unspents.seq
  kept : ∀ (cnf : Int) row, c.confirmations.rows[cnf]? = some row → c'.confirmations.rows[cnf]? = some row
  confirmed : ∀ (cnf : Int) row, c'.confirmations.rows[cnf]? = some row → c.confirmations.rows[cnf]? = some row ∨
    low < row.count ∧ row.count ≤ high ∧ (0 < cnf ∨ cnf = -row.count)
  unspent : ∀ (coin : Int) row, c'.unspents.rows[coin]? = some row → c.unspents.rows[coin]? = some row ∨
    c.unspents.seq < coin ∧ low < |row.count| ∧ |row.count| ≤ high ∧ Dated low high c' row.cnf
  recorded : ∀ (coin : Int) row, c.spendings[coin]? = some row → c'.spendings[coin]? = some row
  /-- The last two cases are the spendings of the coinbases, and those of the other transactions. -/
  spent : ∀ (coin : Int) row, c'.spendings[coin]? = some row → c.spendings[coin]? = some row ∨
    coin < 0 ∧ row.output.script = [] ∨ Dated low high c' row.icnf ∧
      ((∃ old, c.unspents.rows[coin]? = some old ∧ row.output = old.output ∧ row.ocnf = old.cnf) ∨
        c.unspents.seq < coin ∧ Dated low high c' row.ocnf)
  left : ∀ (coin : Int) row, c.unspents.rows[coin]? = some row →
    c'.unspents.rows[coin]? = some row ∨ c'.spendings[coin]?.isSome = true ∨ gone row.key

variable {validationDepth low high : Int} {gone : Coin → Prop} {c d : Stock}

theorem Since.refl (sound : Sound validationDepth c) (held : Held validationDepth c) :
    Since validationDepth low high gone c c where
  sound := sound
  held := held
  seq := le_rfl
  kept _ _ there := there
  confirmed _ _ there := .inl there
  unspent _ _ there := .inl there
  recorded _ _ there := there
  spent _ _ there := .inl there
  left _ _ there := .inl there

theorem Dated.mono {e : Stock} {low' high' cnf : Int} (below : low' ≤ low) (above : high ≤ high')
    (kept : ∀ row, d.confirmations.rows[cnf]? = some row → e.confirmations.rows[cnf]? = some row)
    (dated : Dated low high d cnf) : Dated low' high' e cnf := by
  obtain ⟨row, there, after, before⟩ := dated
  exact ⟨row, kept row there, by omega, by omega⟩

/-- More blocks, and more keys that are gone. -/
theorem Since.mono {high' : Int} {gone' : Coin → Prop} (since : Since validationDepth low high gone c d)
    (above : high ≤ high') (more : ∀ key, gone key → gone' key) : Since validationDepth low high' gone' c d where
  sound := since.sound
  held := since.held
  seq := since.seq
  kept := since.kept
  confirmed cnf row there := (since.confirmed cnf row there).imp_right fun new => ⟨new.1, by omega, new.2.2⟩
  unspent coin row there := (since.unspent coin row there).imp_right fun new =>
    ⟨new.1, new.2.1, by omega, new.2.2.2.mono le_rfl above fun _ known => known⟩
  recorded := since.recorded
  spent coin row there := (since.spent coin row there).imp_right fun new => new.imp_right fun new =>
    ⟨new.1.mono le_rfl above fun _ known => known, new.2.imp_right fun new =>
      ⟨new.1, new.2.mono le_rfl above fun _ known => known⟩⟩
  left coin row there := (since.left coin row there).imp_right fun lost => lost.imp_right (more row.key)

/-- The trie is not looked at. -/
theorem Since.spendables {spendables : Map Coin Unspent} (since : Since validationDepth low high gone c d)
    (sound : Sound validationDepth { d with spendables := spendables })
    (held : Held validationDepth { d with spendables := spendables }) :
    Since validationDepth low high gone c { d with spendables := spendables } where
  sound := sound
  held := held
  seq := since.seq
  kept := since.kept
  confirmed := since.confirmed
  unspent := since.unspent
  recorded := since.recorded
  spent := since.spent
  left := since.left

/-- A confirmation is added. -/
theorem Since.confirming {confirmations : Table ConfirmationRow} {cnf : Int} {row : ConfirmationRow}
    (since : Since validationDepth low high gone c d)
    (sound : Sound validationDepth { d with confirmations := confirmations })
    (fresh : d.confirmations.rows[cnf]? = none) (added : confirmations.rows = d.confirmations.rows.insert cnf row)
    (after : low < row.count) (before : row.count ≤ high) (number : 0 < cnf ∨ cnf = -row.count) :
    Since validationDepth low high gone c { d with confirmations := confirmations } ∧
      Dated low high { d with confirmations := confirmations } cnf := by
  have kept : ∀ (other : Int) row', d.confirmations.rows[other]? = some row' →
      confirmations.rows[other]? = some row' := by
    intro other row' there
    rw [added]
    exact lookup_insert_of_absent _ fresh there
  have dated {other : Int} (known : Dated low high d other) :
      Dated low high { d with confirmations := confirmations } other :=
    known.mono le_rfl le_rfl (kept other)
  refine ⟨?_, row, ?_, after, before⟩
  · exact
      { sound := sound
        held := since.held
        seq := since.seq
        kept := fun other row' there => kept other row' (since.kept other row' there)
        confirmed := fun other row' there => by
          rw [added] at there
          rcases lookup_of_insert there with ⟨rfl, rfl⟩ | old
          · exact .inr ⟨after, before, number⟩
          · exact since.confirmed other row' old
        unspent := fun coin row' there => (since.unspent coin row' there).imp_right fun new =>
          ⟨new.1, new.2.1, new.2.2.1, dated new.2.2.2⟩
        recorded := since.recorded
        spent := fun coin row' there => (since.spent coin row' there).imp_right fun new => new.imp_right fun new =>
          ⟨dated new.1, new.2.imp_right fun new => ⟨new.1, dated new.2⟩⟩
        left := since.left }
  · show confirmations.rows[cnf]? = some row
    rw [added, lookup_insert_self]

end Stock

open Stock

variable {env : Setting} {s s' : Ledger} {low high : Int} {gone : Coin → Prop} {c : Stock}

/-! ### One coin -/

/-- A coin moves from one table to the other. -/
theorem Stock.Since.redeem (since : Since env.validationDepth low high gone c s.stock) {input : Input} {iidx : Int}
    {iconf : Confirmation} {coin : Unspent} (stored : env.purgeDepth ≤ iconf.count)
    (dated : Dated low high s.stock iconf.cnf) (run : Libcoin.redeem env input iidx iconf s = .ok coin s') :
    Since env.validationDepth low high gone c s'.stock ∧ Dated low high s'.stock iconf.cnf := by
  have files := (redeem_files since.sound since.held run).1
  obtain ⟨there, -, after⟩ := redeem_stock since.sound since.held run
  rw [if_pos stored] at after
  have fresh : s.stock.spendings[coin.coin]? = none := by
    cases spent : s.stock.spendings[coin.coin]? with
    | none => rfl
    | some spending =>
      rw [(since.sound.spent _ spending spent).1] at there
      cases there
  have sound := files.sound
  have held := files.held
  rw [after] at sound held ⊢
  refine ⟨?_, dated⟩
  exact
    { sound := sound
      held := held
      seq := since.seq
      kept := since.kept
      confirmed := since.confirmed
      unspent := fun other row found => since.unspent other row (lookup_of_erase found).2
      recorded := fun other row known => lookup_insert_of_absent _ fresh (since.recorded other row known)
      spent := fun other row found => by
        rcases lookup_of_insert found with ⟨rfl, rfl⟩ | old
        · refine .inr (.inr ⟨dated, ?_⟩)
          exact (since.unspent _ _ there).imp (fun old => ⟨coin.row, old, rfl, rfl⟩) fun new => ⟨new.1, new.2.2.2⟩
        · exact since.spent other row old
      left := fun other row known => by
        by_cases same : coin.coin = other
        · refine .inr (.inl ?_)
          show (s.stock.spendings.insert coin.coin _)[other]?.isSome = true
          rw [← same, lookup_insert_self]
          rfl
        · rcases since.left other row known with unspent | spent | lost
          · refine .inl ?_
            show (s.stock.unspents.rows.erase coin.coin)[other]? = some row
            rw [lookup_erase_of_ne _ same, unspent]
          · refine .inr (.inl ?_)
            show (s.stock.spendings.insert coin.coin _)[other]?.isSome = true
            rw [lookup_insert_of_ne _ _ same, spent]
          · exact .inr (.inr lost) }

/-- A row is added, and rows with its key may be replaced. -/
theorem Stock.Since.put {validationDepth : Int} {d : Stock} (since : Since validationDepth low high gone c d)
    {row : UnspentRow} {drop : Int → UnspentRow → Bool} {spendables : Map Coin Unspent}
    (sound : Sound validationDepth
      { d with unspents := (d.unspents.insertAuto row).deleteWhere drop, spendables := spendables })
    (held : Held validationDepth
      { d with unspents := (d.unspents.insertAuto row).deleteWhere drop, spendables := spendables })
    (dropped : ∀ (coin : Int) row', drop coin row' = true → row'.key = row.key ∧ gone row.key)
    (after : low < |row.count|) (before : |row.count| ≤ high) (dated : Dated low high d row.cnf) :
    Since validationDepth low high gone c
      { d with unspents := (d.unspents.insertAuto row).deleteWhere drop, spendables := spendables } where
  sound := sound
  held := held
  seq := since.seq.trans d.unspents.seq_lt_nextId.le
  kept := since.kept
  confirmed := since.confirmed
  unspent coin row' found := by
    rcases lookup_of_insert ((lookup_filter_eq_some _ _ coin row').mp found).1 with ⟨rfl, rfl⟩ | old
    · exact .inr ⟨since.seq.trans_lt d.unspents.seq_lt_nextId, after, before, dated⟩
    · exact since.unspent coin row' old
  recorded := since.recorded
  spent := since.spent
  left coin row' known := by
    rcases since.left coin row' known with unspent | spent | lost
    · by_cases replaced : drop coin row' = true
      · obtain ⟨same, lost⟩ := dropped coin row' replaced
        exact .inr (.inr (same ▸ lost))
      · have kept := Table.lookup_insertAuto row unspent
        exact .inl ((lookup_filter_eq_some _ _ coin row').mpr ⟨kept, by simpa using replaced⟩)
    · exact .inr (.inl spent)
    · exact .inr (.inr lost)

/-- In trie mode the coins of the trie keep their rows. -/
theorem Stock.Held.put {validationDepth : Int} {d : Stock} (held : Held validationDepth d) {row : UnspentRow}
    {spendables : Map Coin Unspent}
    (added : ∀ (key : Coin) unspent, spendables[key]? = some unspent →
      key = row.key ∧ unspent = row.unspent d.unspents.nextId ∨ d.spendables[key]? = some unspent) :
    Held validationDepth { d with unspents := d.unspents.insertAuto row, spendables := spendables } := by
  intro trie key unspent found
  show _ ∧ (d.unspents.rows.insert d.unspents.nextId row)[unspent.coin]? = _
  rcases added key unspent found with ⟨rfl, rfl⟩ | old
  · exact ⟨rfl, lookup_insert_self _ _ _⟩
  · obtain ⟨named, there⟩ := held trie key unspent old
    exact ⟨named, Table.lookup_insertAuto row there⟩

/-- A coin is issued. Only where the tables are searched, and the coin need not be unique, a row is replaced. -/
theorem Stock.Since.issue (since : Since env.validationDepth low high gone c s.stock) {output : Output}
    {hash : Uint256} {outIdx : Nat} {conf : Confirmation} {unique : Bool} {coin : Int} (after : low < conf.count)
    (before : conf.count ≤ high) (positive : 0 < conf.count) (dated : Dated low high s.stock conf.cnf)
    (replaces : env.validationDepth = 0 → unique = false → gone { hash := hash, index := outIdx })
    (run : Libcoin.issue env output hash outIdx conf unique s = .ok coin s') :
    Since env.validationDepth low high gone c s'.stock ∧ Dated low high s'.stock conf.cnf := by
  have sound := (issue_leaves since.sound run).1.sound
  have count : |(issueRow output hash outIdx conf).count| = conf.count := by
    unfold issueRow
    dsimp only
    split
    · rw [abs_neg, abs_of_pos positive]
    · exact abs_of_pos positive
  rw [← count] at after before
  by_cases database : env.validationDepth = 0
  · have anyHeld (d : Stock) : Held env.validationDepth d := fun trie => absurd database trie
    have inserted := congrArg Prod.snd ((issue_database_ok database).mp run)
    rw [show s' = _ from inserted.symm] at sound ⊢
    cases unique with
    | true =>
      rcases insertUnspent_stock (issueRow output hash outIdx conf) s with ⟨same, -⟩ | same
      · rw [if_pos rfl, same]
        exact ⟨since, dated⟩
      · rw [if_pos rfl, same] at sound ⊢
        rw [← deleteWhere_never (s.stock.unspents.insertAuto _)] at sound ⊢
        exact ⟨since.put sound (anyHeld _) nofun after before dated, dated⟩
    | false =>
      obtain ⟨drop, others, same⟩ := replaceUnspent_stock (issueRow output hash outIdx conf) s
      rw [if_neg (by decide), same] at sound ⊢
      exact ⟨since.put sound (anyHeld _) (fun other row' dropped =>
        ⟨(others other row' dropped).2, replaces database rfl⟩) after before dated, dated⟩
  · obtain ⟨spendables, same, added⟩ := issue_stock_trie database (since.sound.unindexed database) run
    have held := since.held.put added
    rw [same] at sound ⊢
    rw [← deleteWhere_never (s.stock.unspents.insertAuto _)] at sound held ⊢
    exact ⟨since.put sound held nofun after before dated, dated⟩

/-! ### Transactions -/

theorem Stock.Since.redeemAll (since : Since env.validationDepth low high gone c s.stock) {conf : Confirmation}
    {inputs : List Input} {idx : Nat} {valueIn : Int} {op : NameOperation} {scripts : List Script}
    {result : Int × NameOperation × List Script} (stored : env.purgeDepth ≤ conf.count)
    (dated : Dated low high s.stock conf.cnf)
    (run : Libcoin.redeemAll env conf inputs idx valueIn op scripts s = .ok result s') :
    Since env.validationDepth low high gone c s'.stock ∧ Dated low high s'.stock conf.cnf := by
  induction inputs generalizing idx valueIn op scripts s with
  | nil =>
    obtain ⟨-, rfl⟩ := pure_ok.mp run
    exact ⟨since, dated⟩
  | cons input inputs ih =>
    unfold Libcoin.redeemAll at run
    obtain ⟨coin, one, redeemed, run⟩ := bind_ok.mp run
    obtain ⟨op', two, named, run⟩ := bind_ok.mp run
    obtain ⟨first, known⟩ := since.redeem stored dated redeemed
    have same : two.stock = one.stock := (nameInput_keeps _ _).ok named
    rw [← same] at first known
    exact ih first known run

theorem Stock.Since.issueAll (since : Since env.validationDepth low high gone c s.stock) {version : Int}
    {hash : Uint256} {conf : Confirmation} {outputs : List Output} {idx : Nat} {op op' : NameOperation}
    (after : low < conf.count) (before : conf.count ≤ high) (positive : 0 < conf.count)
    (dated : Dated low high s.stock conf.cnf)
    (run : Libcoin.issueAll env version hash conf outputs idx op s = .ok op' s') :
    Since env.validationDepth low high gone c s'.stock := by
  induction outputs generalizing idx op s with
  | nil =>
    obtain ⟨-, rfl⟩ := pure_ok.mp run
    exact since
  | cons output outputs ih =>
    unfold Libcoin.issueAll at run
    obtain ⟨coin, one, issued, run⟩ := bind_ok.mp run
    obtain ⟨op'', two, named, run⟩ := bind_ok.mp run
    have unique : env.validationDepth = 0 → true = false → gone { hash := hash, index := idx } :=
      fun _ verified => absurd verified (by decide)
    obtain ⟨first, known⟩ := since.issue after before positive dated unique issued
    have same : two.stock = one.stock := (nameOutput_keeps stock_names _ _ _ _ _).ok named
    rw [← same] at first known
    exact ih first known run

theorem Stock.Since.confirm (since : Since env.validationDepth low high gone c s.stock) {txn : Transaction}
    {count idx cnf : Int} (stored : env.purgeDepth ≤ count) (after : low < count) (before : count ≤ high)
    (run : Libcoin.confirm env txn count idx s = .ok cnf s') :
    Since env.validationDepth low high gone c s'.stock ∧ Dated low high s'.stock cnf := by
  have sound := (confirm_leaves since.sound run).sound
  have start : 0 ≤ s.stock.confirmations.seq := since.sound.start.2
  have above := s.stock.confirmations.seq_lt_nextId
  unfold Libcoin.confirm at run
  rw [if_pos stored] at run
  obtain ⟨rfl, rfl⟩ := Prod.mk.inj (query_ok.mp run)
  exact since.confirming sound s.stock.confirmations.nextId_fresh rfl after before (.inl (start.trans_lt above))

theorem Stock.Since.postTransaction (since : Since env.validationDepth low high gone c s.stock) {txn : Transaction}
    {fees minFee fees' : Int} {blk : Blk} {idx : Int} {verify : Bool} (stored : env.purgeDepth ≤ blk.count)
    (after : low < blk.count) (before : blk.count ≤ high)
    (run : Libcoin.postTransaction env txn fees minFee blk idx verify s = .ok fees' s') :
    Since env.validationDepth low high gone c s'.stock := by
  obtain ⟨cnf, one, ignoreRules, valueIn, op, scripts, two, op', confirmed, redeemed, -, -, -, issued⟩ :=
    postTransaction_ok run
  obtain ⟨first, known⟩ := since.confirm stored after before confirmed
  obtain ⟨second, known⟩ := first.redeemAll stored known redeemed
  rw [← pushed_stock verify _ two] at second known
  exact second.issueAll after before blk.count_pos known issued

theorem Stock.Since.postAll (since : Since env.validationDepth low high gone c s.stock) {blk : Blk}
    {txns : List Transaction} {idx fees : Int} {verify : Bool} {unconfirmed : Txns} {confirmed : Hashes}
    {result : Int × Txns × Hashes} (stored : env.purgeDepth ≤ blk.count) (after : low < blk.count)
    (before : blk.count ≤ high)
    (run : Libcoin.postAll env blk txns idx fees verify unconfirmed confirmed s = .ok result s') :
    Since env.validationDepth low high gone c s'.stock := by
  induction txns generalizing idx fees verify unconfirmed confirmed s with
  | nil =>
    obtain ⟨-, rfl⟩ := pure_ok.mp run
    exact since
  | cons txn txns ih =>
    unfold Libcoin.postAll at run
    obtain ⟨fees', mid, posted, run⟩ := bind_ok.mp run
    exact ih (since.postTransaction stored after before posted) run

/-! ### The coinbase -/

theorem Stock.Since.confirmCoinbase (since : Since env.validationDepth low high gone c s.stock) {txn : Transaction}
    {count cnf : Int} (stored : env.purgeDepth ≤ count) (after : low < count) (before : count ≤ high)
    (positive : 0 < count) (free : s.stock.confirmations.rows[-count]? = none)
    (run : Libcoin.confirmCoinbase env txn count s = .ok cnf s') :
    Since env.validationDepth low high gone c s'.stock ∧ Dated low high s'.stock cnf := by
  have sound := (confirmCoinbase_leaves positive since.sound run).sound
  obtain ⟨rfl, -⟩ := confirmCoinbase_confirmations free run
  have same := confirmCoinbase_stock run
  rw [if_pos ⟨stored, free⟩] at same
  rw [same] at sound ⊢
  exact since.confirming sound free rfl after before (.inr rfl)

/-- The script of what is recorded is empty. -/
theorem Stock.Since.recordCoinbase (since : Since env.validationDepth low high gone c s.stock) {count valueIn : Int}
    {input : Input} {done : Unit} (positive : 0 < count) {cnf : Int} (dated : Dated low high s.stock cnf)
    (run : Libcoin.recordCoinbase env count valueIn input s = .ok done s') :
    Since env.validationDepth low high gone c s'.stock ∧ Dated low high s'.stock cnf := by
  have sound := (recordCoinbase_leaves positive since.sound run).sound
  have same := recordCoinbase_stock run
  split at same
  · rename_i free
    rw [same] at sound ⊢
    refine ⟨?_, dated⟩
    exact
      { sound := sound
        held := since.held
        seq := since.seq
        kept := since.kept
        confirmed := since.confirmed
        unspent := since.unspent
        recorded := fun coin row known => lookup_insert_of_absent _ free.2 (since.recorded coin row known)
        spent := fun coin row found => by
          rcases lookup_of_insert found with ⟨rfl, rfl⟩ | old
          · exact .inr (.inl ⟨by omega, rfl⟩)
          · exact since.spent coin row old
        left := fun coin row known => (since.left coin row known).imp_right fun lost => lost.imp_left fun spent => by
          obtain ⟨recorded, there⟩ := Option.isSome_iff_exists.mp spent
          exact Option.isSome_iff_exists.mpr ⟨recorded, lookup_insert_of_absent _ free.2 there⟩ }
  · rw [same]
    exact ⟨since, dated⟩

theorem Stock.Since.issueCoinbase (since : Since env.validationDepth low high gone c s.stock) {hash : Uint256}
    {conf : Confirmation} {unique : Bool} {outputs : List Output} {idx : Nat} {done : Unit} (after : low < conf.count)
    (before : conf.count ≤ high) (positive : 0 < conf.count) (dated : Dated low high s.stock conf.cnf)
    (replaces : env.validationDepth = 0 → unique = false →
      ∀ i, idx ≤ i → i < idx + outputs.length → gone { hash := hash, index := i })
    (run : Libcoin.issueCoinbase env hash conf unique outputs idx s = .ok done s') :
    Since env.validationDepth low high gone c s'.stock ∧ Dated low high s'.stock conf.cnf := by
  induction outputs generalizing idx s with
  | nil =>
    obtain ⟨-, rfl⟩ := pure_ok.mp run
    exact ⟨since, dated⟩
  | cons output outputs ih =>
    unfold Libcoin.issueCoinbase at run
    obtain ⟨coin, one, issued, run⟩ := bind_ok.mp run
    rw [List.length_cons] at replaces
    obtain ⟨first, known⟩ := since.issue after before positive dated
      (fun database repeated => replaces database repeated idx le_rfl (by omega)) issued
    exact ih first known (fun database repeated i low high => replaces database repeated i (by omega) (by omega)) run

theorem Stock.Since.postSubsidy (since : Since env.validationDepth low high gone c s.stock) {txn : Transaction}
    {blk : Blk} {fees : Int} {done : Unit} (stored : env.purgeDepth ≤ blk.count) (after : low < blk.count)
    (before : blk.count ≤ high) (free : s.stock.confirmations.rows[-blk.count]? = none)
    (replaces : env.validationDepth = 0 → ¬env.chain.timeStamp30 < blk.time →
      ∀ i < txn.outputs.length, gone { hash := env.prim.txnHash txn, index := i })
    (run : Libcoin.postSubsidy env txn blk fees s = .ok done s') :
    Since env.validationDepth low high gone c s'.stock ∧ ∃ cnf, Dated low high s'.stock cnf := by
  obtain ⟨cnf, input, one, two, three, -, -, -, confirmed, -, recorded, issued, matured⟩ := postSubsidy_ok run
  obtain ⟨first, known⟩ := since.confirmCoinbase stored after before blk.count_pos free confirmed
  obtain ⟨second, known⟩ := first.recordCoinbase blk.count_pos known recorded
  obtain ⟨third, known⟩ := second.issueCoinbase after before blk.count_pos known
    (fun database repeated i _ inside => replaces database (of_decide_eq_false repeated) i (by omega)) issued
  have files := maturateNext_files True third.sound third.held matured
  obtain ⟨spendables, same, -⟩ := maturateNext_stock matured
  have sound := files.sound
  have held := files.held
  rw [same] at sound held ⊢
  exact ⟨third.spendables sound held, cnf, known⟩

/-! ### Blocks -/

/-- A coinbase with a key, in a block where its coins need not be unique, replaces a row with the key. -/
def Offer.Overwrites (chain : Chain) (prim : Primitives) (validationDepth : Int) (offer : Offer) (key : Coin) : Prop :=
  validationDepth = 0 ∧ ¬chain.timeStamp30 < offer.blk.time ∧
    ∃ coinbase ∈ offer.block.transactions.head?, key.hash = prim.txnHash coinbase ∧ key.index < coinbase.outputs.length

section Runs

variable {chain : Chain} {prim : Primitives} {validationDepth : Int}

theorem Stock.Since.attach {offer : Offer} {result : Txns × Hashes}
    (since : Since validationDepth low high gone c s.stock) (stored : offer.purgeDepth ≤ offer.blk.count)
    (after : low < offer.blk.count) (before : offer.blk.count ≤ high)
    (free : s.stock.confirmations.rows[-offer.blk.count]? = none)
    (replaces : ∀ key, offer.Overwrites chain prim validationDepth key → gone key)
    (run : offer.attach chain prim validationDepth s = .ok result s') :
    Since validationDepth low high gone c s'.stock ∧ ∃ cnf, Dated low high s'.stock cnf := by
  obtain ⟨unconfirmed, confirmed⟩ := result
  obtain ⟨coinbase, txns, one, fees, two, transactions, -, -, header, posted, subsidy, -⟩ := attach_ok run
  have same : one.stock = s.stock := by
    rw [(insertBlockHeader_keeps stock_blocks _ _).ok header]
    rfl
  rw [← same] at since free
  have start : 0 ≤ one.confirmations.seq := since.sound.start.2
  have first : Since validationDepth low high gone c two.stock :=
    Stock.Since.postAll since stored after before posted
  refine first.postSubsidy stored after before (postAll_free start free posted) (fun database repeated i inside => ?_) subsidy
  refine replaces _ ⟨database, repeated, coinbase, ?_, rfl, inside⟩
  rw [transactions]
  rfl

/-- The blocks of a chain from a count on. All of them are stored. -/
def Consecutive (count : Int) : List Offer → Prop
  | [] => True
  | offer :: offers =>
    offer.blk.count = count + 1 ∧ offer.purgeDepth ≤ offer.blk.count ∧ Consecutive (count + 1) offers

/-- The number of the next coinbase is free. -/
theorem Stock.Since.free {unspentIndex : Bool}
    (since : Since validationDepth 0 high gone (Ledger.empty unspentIndex).stock s.stock) (positive : 0 ≤ high) :
    s.stock.confirmations.rows[-(high + 1)]? = none := by
  cases found : s.stock.confirmations.rows[-(high + 1)]? with
  | none => rfl
  | some row =>
    rcases since.confirmed _ row found with old | ⟨-, before, number⟩
    · have old : (∅ : Map Int ConfirmationRow)[-(high + 1)]? = some row := old
      simp at old
    · omega

theorem since_empty {unspentIndex : Bool} (trie : validationDepth ≠ 0 → unspentIndex = false) :
    Since validationDepth low high gone (Ledger.empty unspentIndex).stock (Ledger.empty unspentIndex).stock := by
  refine Since.refl (sound_empty trie) fun _ key unspent found => ?_
  have found : (∅ : Map Coin Unspent)[key]? = some unspent := found
  simp at found

end Runs

end Libcoin
