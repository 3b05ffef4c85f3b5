/-
What the tables have of the outputs of one transaction, while blocks are attached.

* `Placed` is what they have of a hash once some outputs were issued under it, and some coins were spent: a coin that is
  not spent has one row of `Unspents`, and one that is spent has a row of `Spendings`.
* `Placed.redeem`, `Placed.issue` and their companions are the steps.
* `Posted` is a transaction with the block it is in. `Tracks` says of a hash that one transaction has what its outputs
  have become; `attachAll_tracks` is the run.
-/

import Libcoin.Ledger.Since

namespace Libcoin

open Exec Map Stock

/-! ### Rows of one key -/

section Rows

variable {env : Setting} {s s' : Ledger}

/-- In trie mode a coin that is issued keeps the trie in line with the rows. -/
theorem issue_held (sound : Stock.Sound env.validationDepth s.stock) (held : Held env.validationDepth s.stock)
    {output : Output} {hash : Uint256} {outIdx : Nat} {conf : Confirmation} {unique : Bool} {coin : Int}
    (run : issue env output hash outIdx conf unique s = .ok coin s') : Held env.validationDepth s'.stock := by
  by_cases database : env.validationDepth = 0
  · exact fun trie => absurd database trie
  · obtain ⟨spendables, after, added⟩ := issue_stock_trie database (sound.unindexed database) run
    rw [after]
    exact held.put added

/-- The elements of the trie stay when a coin is issued. One that is not of a coinbase is among them. -/
theorem issue_spendables (trie : env.validationDepth ≠ 0) (unindexed : s.stock.unspentIndex = false)
    {output : Output} {hash : Uint256} {outIdx : Nat} {conf : Confirmation} {unique : Bool} {coin : Int}
    (run : issue env output hash outIdx conf unique s = .ok coin s') :
    (∀ key : Coin, s.stock.spendables[key]?.isSome = true → s'.stock.spendables[key]?.isSome = true) ∧
      (conf.isCoinbase = false → s'.stock.spendables[({ hash := hash, index := outIdx } : Coin)]?.isSome = true) := by
  have after : s'.stock.spendables = (s.coins.issue (issueRow output hash outIdx conf) conf.isCoinbase).spendables :=
    congrArg Coins.spendables (issue_coins_trie trie unindexed run).1
  rw [after]
  unfold Coins.issue
  cases conf.isCoinbase with
  | true => exact ⟨fun key there => there, nofun⟩
  | false =>
    refine ⟨fun key there => ?_, fun _ => ?_⟩
    · exact isSome_insertNew _ _ there
    · exact isSome_insertNew_self _ _ _

/-- What is issued changes the rows of its own key alone. -/
theorem issue_rows (sound : Stock.Sound env.validationDepth s.stock) {output : Output} {hash : Uint256} {outIdx : Nat}
    {conf : Confirmation} {unique : Bool} {coin : Int}
    (run : issue env output hash outIdx conf unique s = .ok coin s') :
    ∃ (unspents : Table UnspentRow) (spendables : Map Coin Unspent),
      s'.stock = { s.stock with unspents := unspents, spendables := spendables } ∧
      (∀ (id : Int) row, unspents.rows[id]? = some row →
        s.stock.unspents.rows[id]? = some row ∨ row = issueRow output hash outIdx conf) ∧
      ∀ (id : Int) row, s.stock.unspents.rows[id]? = some row → row.key ≠ { hash := hash, index := outIdx } →
        unspents.rows[id]? = some row := by
  have inserted (id : Int) (row : UnspentRow)
      (found : (s.stock.unspents.insertAuto (issueRow output hash outIdx conf)).rows[id]? = some row) :
      s.stock.unspents.rows[id]? = some row ∨ row = issueRow output hash outIdx conf :=
    (lookup_of_insert found).symm.imp_right And.right
  have kept (id : Int) (row : UnspentRow) (known : s.stock.unspents.rows[id]? = some row) :
      (s.stock.unspents.insertAuto (issueRow output hash outIdx conf)).rows[id]? = some row :=
    Table.lookup_insertAuto _ known
  by_cases database : env.validationDepth = 0
  · have ran := congrArg Prod.snd ((issue_database_ok database).mp run)
    rw [show s' = _ from ran.symm]
    cases unique with
    | true =>
      rcases insertUnspent_stock (issueRow output hash outIdx conf) s with ⟨same, -⟩ | same
      · exact ⟨_, _, same, fun _ _ found => .inl found, fun _ _ known _ => known⟩
      · exact ⟨_, _, same, inserted, fun id row known _ => kept id row known⟩
    | false =>
      obtain ⟨drop, others, same⟩ := replaceUnspent_stock (issueRow output hash outIdx conf) s
      refine ⟨_, _, same, fun id row found => inserted id row ((lookup_filter_eq_some _ _ _ _).mp found).1,
        fun id row known other => (lookup_filter_eq_some _ _ _ _).mpr ⟨kept id row known, ?_⟩⟩
      by_contra dropped
      rw [Bool.not_eq_true, Bool.not_eq_false'] at dropped
      exact other (others id row dropped).2
  · obtain ⟨spendables, after, -⟩ := issue_stock_trie database (sound.unindexed database) run
    exact ⟨_, spendables, after, inserted, fun id row known _ => kept id row known⟩

/-- The elements of the trie stay when coinbases mature. -/
theorem maturateNext_spendables {blk : Blk} {done : Unit} (run : maturateNext env blk s = .ok done s') {key : Coin}
    (there : s.stock.spendables[key]?.isSome = true) : s'.stock.spendables[key]?.isSome = true := by
  have kept (unspents : List Unspent) (s : Ledger) (there : s.spendables[key]?.isSome = true) :
      (unspents.foldl promote s).spendables[key]?.isSome = true := by
    induction unspents generalizing s with
    | nil => exact there
    | cons unspent unspents ih => exact ih _ (isSome_insertNew _ _ there)
  unfold maturateNext at run
  split at run
  · rename_i due
    unfold maturate at run
    rw [if_neg (show ¬env.validationDepth = 0 by omega)] at run
    obtain rfl := modify_ok.mp run
    exact kept _ s there
  · obtain ⟨-, rfl⟩ := pure_ok.mp run
    exact there

/-- The input of a coinbase is recorded with the null coin, and no row is lost. -/
theorem recordCoinbase_rows {count valueIn : Int} {input : Input} {done : Unit}
    (run : recordCoinbase env count valueIn input s = .ok done s') :
    ∃ spendings : Map Int Spending, s'.stock = { s.stock with spendings := spendings } ∧
      (∀ (id : Int) row, spendings[id]? = some row → s.stock.spendings[id]? = some row ∨ row.key = Coin.null) ∧
      ∀ (id : Int) row, s.stock.spendings[id]? = some row → spendings[id]? = some row := by
  have same := recordCoinbase_stock run
  split at same
  · rename_i free
    refine ⟨_, same, fun id row found => ?_, fun id row known => lookup_insert_of_absent _ free.2 known⟩
    rcases lookup_of_insert found with ⟨-, rfl⟩ | old
    · exact .inr rfl
    · exact .inl old
  · exact ⟨_, same, fun _ _ found => .inl found, fun _ _ known => known⟩

end Rows

/-! ### The outputs under one hash -/

/-- What the tables have of a hash, under which `outputs` were issued with a count and a confirmation, where the coins
in `spent` were spent. -/
structure Stock.Placed (validationDepth : Int) (hash : Uint256) (count cnf : Int) (outputs : List Output)
    (spent : List Coin) (c : Stock) : Prop where
  sound : Stock.Sound validationDepth c
  held : Held validationDepth c
  row : ∀ (id : Int) row, c.unspents.rows[id]? = some row → row.key.hash = hash →
    outputs[row.key.index]? = some row.output ∧ row.count = count ∧ row.cnf = cnf ∧ row.key ∉ spent
  unique : ∀ (id id' : Int) row row', c.unspents.rows[id]? = some row → c.unspents.rows[id']? = some row' →
    row.key.hash = hash → row'.key = row.key → id = id'
  unspent : ∀ i < outputs.length, { hash := hash, index := i } ∉ spent → c.HasRow { hash := hash, index := i }
  spending : hash ≠ 0 → ∀ (id : Int) row, c.spendings[id]? = some row → row.key.hash = hash →
    row.key.index < outputs.length ∧ row.ocnf = cnf
  recorded : ∀ i < outputs.length, { hash := hash, index := i } ∈ spent →
    ∃ (id : Int) (row : Spending), c.spendings[id]? = some row ∧ row.key = { hash := hash, index := i }
  early : ∀ i, { hash := hash, index := i } ∈ spent → i < outputs.length
  spendable : validationDepth ≠ 0 → 0 < count → ∀ i < outputs.length, { hash := hash, index := i } ∉ spent →
    c.spendables[({ hash := hash, index := i } : Coin)]?.isSome = true

section Steps

variable {env : Setting} {s s' : Ledger} {hash : Uint256} {count cnf : Int} {outputs : List Output} {spent : List Coin}

/-- A coin is spent. -/
theorem Stock.Placed.redeem (placed : Placed env.validationDepth hash count cnf outputs spent s.stock) {input : Input}
    {iidx : Int} {iconf : Confirmation} {coin : Unspent} (stored : env.purgeDepth ≤ iconf.count)
    (run : Libcoin.redeem env input iidx iconf s = .ok coin s') :
    Placed env.validationDepth hash count cnf outputs (spent ++ [input.prevout]) s'.stock := by
  have files := (redeem_files placed.sound placed.held run).1
  obtain ⟨there, named, after⟩ := redeem_stock placed.sound placed.held run
  rw [if_pos stored] at after
  have fresh : s.stock.spendings[coin.coin]? = none := by
    cases recorded : s.stock.spendings[coin.coin]? with
    | none => rfl
    | some spending =>
      rw [(placed.sound.spent _ spending recorded).1] at there
      cases there
  have kept (id : Int) (row : Spending) (known : s.stock.spendings[id]? = some row) :
      s'.stock.spendings[id]? = some row := by
    rw [after]
    exact lookup_insert_of_absent _ fresh known
  have old (id : Int) (row : UnspentRow) (found : s'.stock.unspents.rows[id]? = some row) :
      id ≠ coin.coin ∧ s.stock.unspents.rows[id]? = some row := by
    rw [after] at found
    exact lookup_of_erase found
  -- the coin itself, if it has the hash
  have own (same : input.prevout.hash = hash) : outputs[input.prevout.index]? = some coin.output ∧ coin.cnf = cnf := by
    obtain ⟨output, -, number, -⟩ := placed.row coin.coin coin.row there ((congrArg Coin.hash named).trans same)
    rw [← named]
    exact ⟨output, number⟩
  refine
    { sound := files.sound
      held := files.held
      row := fun id row found same => ?_
      unique := fun id id' row row' found found' =>
        placed.unique id id' row row' (old id row found).2 (old id' row' found').2
      unspent := fun i inside kept => ?_
      spending := fun nonnull id row found same => ?_
      recorded := fun i inside gone => ?_
      early := fun i gone => ?_
      spendable := fun trie positive i inside kept => ?_ }
  · obtain ⟨other, known⟩ := old id row found
    obtain ⟨output, dated, number, kept⟩ := placed.row id row known same
    refine ⟨output, dated, number, fun gone => ?_⟩
    rcases List.mem_append.mp gone with gone | now
    · exact kept gone
    · refine other (placed.unique id coin.coin row coin.row known there same ?_)
      rw [List.mem_singleton.mp now]
      exact named
  · rw [List.mem_append, not_or, List.mem_singleton] at kept
    obtain ⟨id, row, known, same⟩ := placed.unspent i inside kept.1
    refine ⟨id, row, ?_, same⟩
    rw [after]
    refine (lookup_erase_of_ne _ ?_).trans known
    rintro rfl
    obtain rfl := Option.some.inj (there.symm.trans known)
    exact kept.2 (same.symm.trans named)
  · rw [after] at found
    rcases lookup_of_insert found with ⟨-, rfl⟩ | known
    · obtain ⟨output, number⟩ := own same
      exact ⟨(List.getElem?_eq_some_iff.mp output).1, number⟩
    · exact placed.spending nonnull id row known same
  · rcases List.mem_append.mp gone with gone | now
    · obtain ⟨id, row, known, same⟩ := placed.recorded i inside gone
      exact ⟨id, row, kept id row known, same⟩
    · refine ⟨coin.coin, spendingRow coin input iidx iconf, ?_, (List.mem_singleton.mp now).symm⟩
      rw [after]
      exact lookup_insert_self _ _ _
  · rcases List.mem_append.mp gone with gone | now
    · exact placed.early i gone
    · have same := List.mem_singleton.mp now
      have output := (own (by rw [← same])).1
      rw [← same] at output
      exact (List.getElem?_eq_some_iff.mp output).1
  · rw [List.mem_append, not_or, List.mem_singleton] at kept
    rw [after]
    show (if env.validationDepth = 0 then _ else s.stock.spendables.erase input.prevout)[_]?.isSome = true
    rw [if_neg trie, lookup_erase_of_ne _ (Ne.symm kept.2)]
    exact placed.spendable trie positive i inside kept.1

/-- A coin is issued under another hash. -/
theorem Stock.Placed.issue_other (placed : Placed env.validationDepth hash count cnf outputs spent s.stock)
    {output : Output} {hash' : Uint256} {outIdx : Nat} {conf : Confirmation} {unique : Bool} {coin : Int}
    (other : hash' ≠ hash) (run : issue env output hash' outIdx conf unique s = .ok coin s') :
    Placed env.validationDepth hash count cnf outputs spent s'.stock := by
  have sound := (issue_leaves placed.sound run).1.sound
  have held := issue_held placed.sound placed.held run
  obtain ⟨unspents, spendables, after, rows, kept⟩ := issue_rows placed.sound run
  have stays (trie : env.validationDepth ≠ 0) := (issue_spendables trie (placed.sound.unindexed trie) run).1
  rw [after] at sound held stays ⊢
  have old (id : Int) (row : UnspentRow) (found : unspents.rows[id]? = some row) (same : row.key.hash = hash) :
      s.stock.unspents.rows[id]? = some row := by
    rcases rows id row found with known | rfl
    · exact known
    · exact absurd same other
  exact
    { sound := sound
      held := held
      row := fun id row found same => placed.row id row (old id row found same) same
      unique := fun id id' row row' found found' same keys => placed.unique id id' row row' (old id row found same)
        (old id' row' found' (keys ▸ same)) same keys
      unspent := fun i inside unspent => by
        obtain ⟨id, row, known, same⟩ := placed.unspent i inside unspent
        refine ⟨id, row, kept id row known fun keys => other ?_, same⟩
        exact congrArg Coin.hash (keys.symm.trans same)
      spending := placed.spending
      recorded := placed.recorded
      early := placed.early
      spendable := fun trie positive i inside unspent =>
        stays trie _ (placed.spendable trie positive i inside unspent) }

/-- The next coin is issued. -/
theorem Stock.Placed.issue (placed : Placed env.validationDepth hash count cnf outputs spent s.stock) {output : Output}
    {conf : Confirmation} {unique : Bool} {coin : Int} (number : conf.cnf = cnf)
    (dated : (if conf.isCoinbase then -conf.count else conf.count) = count)
    (kind : 0 < count → conf.isCoinbase = false)
    (run : Libcoin.issue env output hash outputs.length conf unique s = .ok coin s') :
    Placed env.validationDepth hash count cnf (outputs ++ [output]) spent s'.stock := by
  have sound := (issue_leaves placed.sound run).1.sound
  have held := issue_held placed.sound placed.held run
  have fresh : ¬s.stock.HasRow { hash := hash, index := outputs.length } := by
    rintro ⟨id, row, known, same⟩
    have inside := (placed.row id row known (congrArg Coin.hash same)).1
    rw [same, List.getElem?_eq_none le_rfl] at inside
    cases inside
  have unspendable : { hash := hash, index := outputs.length } ∉ spent :=
    fun gone => absurd (placed.early _ gone) (lt_irrefl _)
  have enters (trie : env.validationDepth ≠ 0) := issue_spendables trie (placed.sound.unindexed trie) run
  obtain ⟨spendables, after, -⟩ := issue_stock placed.sound fresh run
  rw [after] at sound held enters ⊢
  have kept (id : Int) (row : UnspentRow) (known : s.stock.unspents.rows[id]? = some row) :
      (s.stock.unspents.insertAuto (issueRow output hash outputs.length conf)).rows[id]? = some row :=
    Table.lookup_insertAuto _ known
  have new : (s.stock.unspents.insertAuto (issueRow output hash outputs.length conf)).rows[s.stock.unspents.nextId]? =
      some (issueRow output hash outputs.length conf) := lookup_insert_self _ _ _
  -- the index of an output is below the new one, or is the new one
  have split (i : Nat) (inside : i < (outputs ++ [output]).length) : i < outputs.length ∨ i = outputs.length := by
    rw [List.length_append, List.length_singleton] at inside
    omega
  refine
    { sound := sound
      held := held
      row := fun id row found same => ?_
      unique := fun id id' row row' found found' same keys => ?_
      unspent := fun i inside unspent => ?_
      spending := fun nonnull id row found same => ?_
      recorded := fun i inside gone => ?_
      early := fun i gone => ?_
      spendable := fun trie positive i inside unspent => ?_ }
  · rcases lookup_of_insert found with ⟨-, rfl⟩ | known
    · exact ⟨List.getElem?_concat_length, dated, number, unspendable⟩
    · obtain ⟨there, rest⟩ := placed.row id row known same
      exact ⟨(List.getElem?_append_left (List.getElem?_eq_some_iff.mp there).1).trans there, rest⟩
  · rcases lookup_of_insert found with ⟨rfl, rfl⟩ | known
    · rcases lookup_of_insert found' with ⟨rfl, -⟩ | known'
      · rfl
      · exact absurd ⟨id', row', known', keys⟩ fresh
    · rcases lookup_of_insert found' with ⟨rfl, rfl⟩ | known'
      · exact absurd ⟨id, row, known, keys.symm⟩ fresh
      · exact placed.unique id id' row row' known known' same keys
  · rcases split i inside with before | rfl
    · obtain ⟨id, row, known, same⟩ := placed.unspent i before unspent
      exact ⟨id, row, kept id row known, same⟩
    · exact ⟨_, _, new, rfl⟩
  · obtain ⟨inside, same⟩ := placed.spending nonnull id row found same
    rw [List.length_append]
    exact ⟨by omega, same⟩
  · exact placed.recorded i (placed.early i gone) gone
  · have inside := placed.early i gone
    rw [List.length_append]
    omega
  · obtain ⟨stays, own⟩ := enters trie
    rcases split i inside with before | rfl
    · exact stays _ (placed.spendable trie positive i before unspent)
    · exact own (kind positive)

/-- A confirmation is not looked at. -/
theorem Stock.Placed.confirming {c : Stock} {validationDepth : Int} {confirmations : Table ConfirmationRow}
    (placed : Placed validationDepth hash count cnf outputs spent c)
    (sound : Stock.Sound validationDepth { c with confirmations := confirmations }) :
    Placed validationDepth hash count cnf outputs spent { c with confirmations := confirmations } where
  sound := sound
  held := placed.held
  row := placed.row
  unique := placed.unique
  unspent := placed.unspent
  spending := placed.spending
  recorded := placed.recorded
  early := placed.early
  spendable := placed.spendable

theorem Stock.Placed.confirm (placed : Placed env.validationDepth hash count cnf outputs spent s.stock)
    {txn : Transaction} {count' idx cnf' : Int} (run : Libcoin.confirm env txn count' idx s = .ok cnf' s') :
    Placed env.validationDepth hash count cnf outputs spent s'.stock := by
  have sound := (confirm_leaves placed.sound run).sound
  unfold Libcoin.confirm at run
  split at run
  · obtain ⟨-, rfl⟩ := Prod.mk.inj (query_ok.mp run)
    exact placed.confirming sound
  · obtain ⟨-, rfl⟩ := pure_ok.mp run
    exact placed

theorem Stock.Placed.redeemAll (placed : Placed env.validationDepth hash count cnf outputs spent s.stock)
    {conf : Confirmation} {inputs : List Input} {idx : Nat} {valueIn : Int} {op : NameOperation}
    {scripts : List Script} {result : Int × NameOperation × List Script} (stored : env.purgeDepth ≤ conf.count)
    (run : Libcoin.redeemAll env conf inputs idx valueIn op scripts s = .ok result s') :
    Placed env.validationDepth hash count cnf outputs (spent ++ inputs.map Input.prevout) s'.stock := by
  induction inputs generalizing idx valueIn op scripts spent s with
  | nil =>
    obtain ⟨-, rfl⟩ := pure_ok.mp run
    rw [List.map_nil, List.append_nil]
    exact placed
  | cons input inputs ih =>
    unfold Libcoin.redeemAll at run
    obtain ⟨coin, one, redeemed, run⟩ := bind_ok.mp run
    obtain ⟨op', two, named, run⟩ := bind_ok.mp run
    have first := placed.redeem stored redeemed
    have same : two.stock = one.stock := (nameInput_keeps _ _).ok named
    rw [← same] at first
    have rest := ih first run
    rwa [List.append_assoc] at rest

theorem Stock.Placed.issueAll_other (placed : Placed env.validationDepth hash count cnf outputs spent s.stock)
    {version : Int} {hash' : Uint256} {conf : Confirmation} {outs : List Output} {idx : Nat} {op op' : NameOperation}
    (other : hash' ≠ hash) (run : issueAll env version hash' conf outs idx op s = .ok op' s') :
    Placed env.validationDepth hash count cnf outputs spent s'.stock := by
  induction outs generalizing idx op s with
  | nil =>
    obtain ⟨-, rfl⟩ := pure_ok.mp run
    exact placed
  | cons output outs ih =>
    unfold Libcoin.issueAll at run
    obtain ⟨coin, one, issued, run⟩ := bind_ok.mp run
    obtain ⟨op'', two, named, run⟩ := bind_ok.mp run
    have first := placed.issue_other other issued
    have same : two.stock = one.stock := (nameOutput_keeps stock_names _ _ _ _ _).ok named
    rw [← same] at first
    exact ih first run

theorem Stock.Placed.issueAll (placed : Placed env.validationDepth hash count cnf outputs spent s.stock)
    {version : Int} {conf : Confirmation} {outs : List Output} {op op' : NameOperation} (number : conf.cnf = cnf)
    (dated : (if conf.isCoinbase then -conf.count else conf.count) = count) (kind : 0 < count → conf.isCoinbase = false)
    (run : Libcoin.issueAll env version hash conf outs outputs.length op s = .ok op' s') :
    Placed env.validationDepth hash count cnf (outputs ++ outs) spent s'.stock := by
  induction outs generalizing outputs op s with
  | nil =>
    obtain ⟨-, rfl⟩ := pure_ok.mp run
    rw [List.append_nil]
    exact placed
  | cons output outs ih =>
    unfold Libcoin.issueAll at run
    obtain ⟨coin, one, issued, run⟩ := bind_ok.mp run
    obtain ⟨op'', two, named, run⟩ := bind_ok.mp run
    have first := placed.issue number dated kind issued
    have same : two.stock = one.stock := (nameOutput_keeps stock_names _ _ _ _ _).ok named
    rw [← same] at first
    rw [show outputs.length + 1 = (outputs ++ [output]).length by rw [List.length_append, List.length_singleton]] at run
    have rest := ih first run
    rwa [List.append_assoc] at rest

/-! ### The coinbase -/

theorem Stock.Placed.confirmCoinbase (placed : Placed env.validationDepth hash count cnf outputs spent s.stock)
    {txn : Transaction} {count' cnf' : Int} (positive : 0 < count')
    (run : Libcoin.confirmCoinbase env txn count' s = .ok cnf' s') :
    Placed env.validationDepth hash count cnf outputs spent s'.stock := by
  have sound := (confirmCoinbase_leaves positive placed.sound run).sound
  have same := confirmCoinbase_stock run
  split at same
  · rw [same] at sound ⊢
    exact placed.confirming sound
  · rw [same]
    exact placed

/-- The null coin, which a coinbase spends, has the hash 0. -/
theorem Stock.Placed.recordCoinbase (placed : Placed env.validationDepth hash count cnf outputs spent s.stock)
    {count' valueIn : Int} {input : Input} {done : Unit} (positive : 0 < count')
    (run : Libcoin.recordCoinbase env count' valueIn input s = .ok done s') :
    Placed env.validationDepth hash count cnf outputs spent s'.stock := by
  have sound := (recordCoinbase_leaves positive placed.sound run).sound
  obtain ⟨spendings, after, rows, kept⟩ := recordCoinbase_rows run
  rw [after] at sound ⊢
  exact
    { sound := sound
      held := placed.held
      row := placed.row
      unique := placed.unique
      unspent := placed.unspent
      spending := fun nonnull id row found same => by
        rcases rows id row found with known | null
        · exact placed.spending nonnull id row known same
        · rw [null] at same
          exact absurd same.symm nonnull
      recorded := fun i inside gone => by
        obtain ⟨id, row, known, same⟩ := placed.recorded i inside gone
        exact ⟨id, row, kept id row known, same⟩
      early := placed.early
      spendable := placed.spendable }

theorem Stock.Placed.issueCoinbase_other (placed : Placed env.validationDepth hash count cnf outputs spent s.stock)
    {hash' : Uint256} {conf : Confirmation} {unique : Bool} {outs : List Output} {idx : Nat} {done : Unit}
    (other : hash' ≠ hash) (run : issueCoinbase env hash' conf unique outs idx s = .ok done s') :
    Placed env.validationDepth hash count cnf outputs spent s'.stock := by
  induction outs generalizing idx s with
  | nil =>
    obtain ⟨-, rfl⟩ := pure_ok.mp run
    exact placed
  | cons output outs ih =>
    unfold Libcoin.issueCoinbase at run
    obtain ⟨coin, one, issued, run⟩ := bind_ok.mp run
    exact ih (placed.issue_other other issued) run

theorem Stock.Placed.issueCoinbase (placed : Placed env.validationDepth hash count cnf outputs spent s.stock)
    {conf : Confirmation} {unique : Bool} {outs : List Output} {done : Unit} (number : conf.cnf = cnf)
    (dated : (if conf.isCoinbase then -conf.count else conf.count) = count) (kind : 0 < count → conf.isCoinbase = false)
    (run : Libcoin.issueCoinbase env hash conf unique outs outputs.length s = .ok done s') :
    Placed env.validationDepth hash count cnf (outputs ++ outs) spent s'.stock := by
  induction outs generalizing outputs s with
  | nil =>
    obtain ⟨-, rfl⟩ := pure_ok.mp run
    rw [List.append_nil]
    exact placed
  | cons output outs ih =>
    unfold Libcoin.issueCoinbase at run
    obtain ⟨coin, one, issued, run⟩ := bind_ok.mp run
    have first := placed.issue number dated kind issued
    rw [show outputs.length + 1 = (outputs ++ [output]).length by rw [List.length_append, List.length_singleton]] at run
    have rest := ih first run
    rwa [List.append_assoc] at rest

theorem Stock.Placed.maturateNext (placed : Placed env.validationDepth hash count cnf outputs spent s.stock) {blk : Blk}
    {done : Unit} (run : Libcoin.maturateNext env blk s = .ok done s') :
    Placed env.validationDepth hash count cnf outputs spent s'.stock := by
  have files := maturateNext_files True placed.sound placed.held run
  have stays {key : Coin} := @maturateNext_spendables env s s' blk done run key
  obtain ⟨spendables, after, -⟩ := maturateNext_stock run
  have sound := files.sound
  have held := files.held
  rw [after] at sound held stays ⊢
  exact
    { sound := sound
      held := held
      row := placed.row
      unique := placed.unique
      unspent := placed.unspent
      spending := placed.spending
      recorded := placed.recorded
      early := placed.early
      spendable := fun trie positive i inside unspent => stays (placed.spendable trie positive i inside unspent) }

end Steps

/-! ### All rows -/

/-- All rows of `Unspents` are of a kind. -/
structure Stock.Sourced (validationDepth : Int) (kind : UnspentRow → Prop) (c : Stock) : Prop where
  sound : Stock.Sound validationDepth c
  held : Held validationDepth c
  rows : ∀ (id : Int) row, c.unspents.rows[id]? = some row → kind row

section Sources

variable {env : Setting} {s s' : Ledger} {kind : UnspentRow → Prop}

theorem Stock.Sourced.redeemAll (sourced : Sourced env.validationDepth kind s.stock) {conf : Confirmation}
    {inputs : List Input} {idx : Nat} {valueIn : Int} {op : NameOperation} {scripts : List Script}
    {result : Int × NameOperation × List Script}
    (run : Libcoin.redeemAll env conf inputs idx valueIn op scripts s = .ok result s') :
    Sourced env.validationDepth kind s'.stock := by
  induction inputs generalizing idx valueIn op scripts s with
  | nil =>
    obtain ⟨-, rfl⟩ := pure_ok.mp run
    exact sourced
  | cons input inputs ih =>
    unfold Libcoin.redeemAll at run
    obtain ⟨coin, one, redeemed, run⟩ := bind_ok.mp run
    obtain ⟨op', two, named, run⟩ := bind_ok.mp run
    have files := (redeem_files sourced.sound sourced.held redeemed).1
    obtain ⟨-, -, after⟩ := redeem_stock sourced.sound sourced.held redeemed
    have same : two.stock = one.stock := (nameInput_keeps _ _).ok named
    refine ih ⟨same ▸ files.sound, same ▸ files.held, fun id row found => ?_⟩ run
    rw [same, after] at found
    exact sourced.rows id row (lookup_of_erase found).2

theorem Stock.Sourced.issue (sourced : Sourced env.validationDepth kind s.stock) {output : Output} {hash : Uint256}
    {outIdx : Nat} {conf : Confirmation} {unique : Bool} {coin : Int} (new : kind (issueRow output hash outIdx conf))
    (run : Libcoin.issue env output hash outIdx conf unique s = .ok coin s') :
    Sourced env.validationDepth kind s'.stock := by
  have sound := (issue_leaves sourced.sound run).1.sound
  have held := issue_held sourced.sound sourced.held run
  obtain ⟨unspents, spendables, after, rows, -⟩ := issue_rows sourced.sound run
  rw [after] at sound held ⊢
  refine ⟨sound, held, fun id row found => ?_⟩
  rcases rows id row found with known | rfl
  · exact sourced.rows id row known
  · exact new

theorem Stock.Sourced.issueAll (sourced : Sourced env.validationDepth kind s.stock) {version : Int} {hash : Uint256}
    {conf : Confirmation} {outs : List Output} {idx : Nat} {op op' : NameOperation}
    (new : ∀ i output, outs[i]? = some output → kind (issueRow output hash (idx + i) conf))
    (run : Libcoin.issueAll env version hash conf outs idx op s = .ok op' s') :
    Sourced env.validationDepth kind s'.stock := by
  induction outs generalizing idx op s with
  | nil =>
    obtain ⟨-, rfl⟩ := pure_ok.mp run
    exact sourced
  | cons output outs ih =>
    unfold Libcoin.issueAll at run
    obtain ⟨coin, one, issued, run⟩ := bind_ok.mp run
    obtain ⟨op'', two, named, run⟩ := bind_ok.mp run
    have first := sourced.issue (new 0 output rfl) issued
    have same : two.stock = one.stock := (nameOutput_keeps stock_names _ _ _ _ _).ok named
    rw [← same] at first
    refine ih first (fun i output found => ?_) run
    rw [show idx + 1 + i = idx + (i + 1) by omega]
    exact new (i + 1) output found

theorem Stock.Sourced.issueCoinbase (sourced : Sourced env.validationDepth kind s.stock) {hash : Uint256}
    {conf : Confirmation} {unique : Bool} {outs : List Output} {idx : Nat} {done : Unit}
    (new : ∀ i output, outs[i]? = some output → kind (issueRow output hash (idx + i) conf))
    (run : Libcoin.issueCoinbase env hash conf unique outs idx s = .ok done s') :
    Sourced env.validationDepth kind s'.stock := by
  induction outs generalizing idx s with
  | nil =>
    obtain ⟨-, rfl⟩ := pure_ok.mp run
    exact sourced
  | cons output outs ih =>
    unfold Libcoin.issueCoinbase at run
    obtain ⟨coin, one, issued, run⟩ := bind_ok.mp run
    refine ih (sourced.issue (new 0 output rfl) issued) (fun i output found => ?_) run
    rw [show idx + 1 + i = idx + (i + 1) by omega]
    exact new (i + 1) output found

/-- A part that keeps the table keeps the kind of its rows, which may be wider. -/
theorem Stock.Sourced.congr {validationDepth : Int} {kind' : UnspentRow → Prop} {c c' : Stock}
    (sourced : Sourced validationDepth kind c) (sound : Stock.Sound validationDepth c') (held : Held validationDepth c')
    (same : c'.unspents.rows = c.unspents.rows) (wider : ∀ row, kind row → kind' row) :
    Sourced validationDepth kind' c' :=
  ⟨sound, held, fun id row found => wider row (sourced.rows id row (same ▸ found))⟩

end Sources

/-! ### The transactions of a chain -/

/-- A transaction with the count of its block. -/
structure Posted where
  count : Int
  coinbase : Bool
  txn : Transaction
  deriving DecidableEq, Repr

/-- The count in its rows of `Unspents`. -/
def Posted.signed (posted : Posted) : Int := if posted.coinbase then -posted.count else posted.count

/-- The transactions of a block, in the order in which they are posted. -/
def Offer.posted (offer : Offer) : List Posted :=
  offer.block.transactions.tail.map (fun txn => { count := offer.blk.count, coinbase := false, txn := txn }) ++
    offer.block.transactions.head?.toList.map fun txn => { count := offer.blk.count, coinbase := true, txn := txn }

/-- The transactions of a chain. -/
def postedIn (offers : List Offer) : List Posted := offers.flatMap Offer.posted

/-- The coins that are spent in a chain. -/
def spentIn (offers : List Offer) : List Coin := offers.flatMap fun offer => spentBy offer.block.transactions.tail

/-- The transactions with a hash. -/
def namedBy (prim : Primitives) (hash : Uint256) (posted : List Posted) : List Posted :=
  posted.filter fun p => decide (prim.txnHash p.txn = hash)

theorem namedBy_append (prim : Primitives) (hash : Uint256) (posted : List Posted) (p : Posted) :
    namedBy prim hash (posted ++ [p]) =
      if prim.txnHash p.txn = hash then namedBy prim hash posted ++ [p] else namedBy prim hash posted := by
  unfold namedBy
  rw [List.filter_append, List.filter_singleton]
  by_cases same : prim.txnHash p.txn = hash
  · rw [if_pos same, decide_eq_true same, cond_true]
  · rw [if_neg same, decide_eq_false same, cond_false, List.append_nil]

/-- The row is of an output of one of the transactions. -/
def OutputOf (prim : Primitives) (posted : List Posted) (row : UnspentRow) : Prop :=
  ∃ p ∈ posted, row.key.hash = prim.txnHash p.txn ∧ p.txn.outputs[row.key.index]? = some row.output

/-- What the tables have after some transactions were posted, and some coins spent: their outputs, and what has become
of a hash that one of them has. -/
structure Stock.Tracks (prim : Primitives) (validationDepth : Int) (hash : Uint256) (posted : List Posted)
    (spent : List Coin) (c : Stock) : Prop where
  sourced : Sourced validationDepth (OutputOf prim posted) c
  before : namedBy prim hash posted = [] → ∀ count cnf, Placed validationDepth hash count cnf [] spent c
  after : ∀ p, namedBy prim hash posted = [p] → ∃ (cnf : Int) (row : ConfirmationRow), cnf ≠ 0 ∧
    c.confirmations.rows[cnf]? = some row ∧ row.count = p.count ∧
    Placed validationDepth hash p.signed cnf p.txn.outputs spent c

/-- A transaction is posted. -/
theorem Stock.Tracks.post {prim : Primitives} {validationDepth : Int} {hash : Uint256} {posted : List Posted}
    {spent spent' : List Coin} {c c' : Stock} {p : Posted} (tracks : Tracks prim validationDepth hash posted spent c)
    (sourced : Sourced validationDepth (OutputOf prim (posted ++ [p])) c')
    (kept : ∀ (cnf : Int) row, c.confirmations.rows[cnf]? = some row → c'.confirmations.rows[cnf]? = some row)
    (other : prim.txnHash p.txn ≠ hash → ∀ count cnf outputs, Placed validationDepth hash count cnf outputs spent c →
      Placed validationDepth hash count cnf outputs spent' c')
    (own : prim.txnHash p.txn = hash → (∀ count cnf, Placed validationDepth hash count cnf [] spent c) →
      ∃ (cnf : Int) (row : ConfirmationRow), cnf ≠ 0 ∧ c'.confirmations.rows[cnf]? = some row ∧ row.count = p.count ∧
        Placed validationDepth hash p.signed cnf p.txn.outputs spent' c') :
    Tracks prim validationDepth hash (posted ++ [p]) spent' c' := by
  by_cases same : prim.txnHash p.txn = hash
  · refine ⟨sourced, fun none => ?_, fun q single => ?_⟩
    · rw [namedBy_append, if_pos same] at none
      cases List.append_ne_nil_of_right_ne_nil _ (List.cons_ne_nil _ _) none
    · rw [namedBy_append, if_pos same] at single
      obtain ⟨none, rfl⟩ : namedBy prim hash posted = [] ∧ p = q := by
        rw [List.append_eq_singleton_iff] at single
        simpa using single
      exact own same (tracks.before none)
  · refine ⟨sourced, fun none count cnf => ?_, fun q single => ?_⟩
    · rw [namedBy_append, if_neg same] at none
      exact other same _ _ _ (tracks.before none count cnf)
    · rw [namedBy_append, if_neg same] at single
      obtain ⟨cnf, row, number, found, dated, placed⟩ := tracks.after q single
      exact ⟨cnf, row, number, kept cnf row found, dated, other same _ _ _ placed⟩

section Blocks

variable {env : Setting} {s s' : Ledger} {hash : Uint256} {posted : List Posted} {spent : List Coin}

theorem OutputOf.wider {prim : Primitives} {p : Posted} {row : UnspentRow} (known : OutputOf prim posted row) :
    OutputOf prim (posted ++ [p]) row := by
  obtain ⟨q, member, rest⟩ := known
  exact ⟨q, List.mem_append_left _ member, rest⟩

theorem Stock.Tracks.postTransaction (tracks : Tracks env.prim env.validationDepth hash posted spent s.stock)
    {txn : Transaction} {fees minFee fees' : Int} {blk : Blk} {idx : Int} {verify : Bool}
    (stored : env.purgeDepth ≤ blk.count)
    (run : Libcoin.postTransaction env txn fees minFee blk idx verify s = .ok fees' s') :
    Tracks env.prim env.validationDepth hash (posted ++ [{ count := blk.count, coinbase := false, txn := txn }])
      (spent ++ txn.inputs.map Input.prevout) s'.stock := by
  have rows := postTransaction_confirmations run
  obtain ⟨cnf, one, ignoreRules, valueIn, op, scripts, two, op', confirmed, redeemed, -, -, -, issued⟩ :=
    postTransaction_ok run
  have number := confirm_confirmations confirmed
  rw [if_pos stored] at rows number
  have positive : 0 < cnf := by
    have start := tracks.sourced.sound.start.2
    have above : s.stock.confirmations.seq < s.confirmations.nextId := s.stock.confirmations.seq_lt_nextId
    rw [number.1]
    omega
  obtain ⟨ordinary, signed⟩ := @Confirmation.signed_ordinary { cnf := cnf, count := blk.count } positive.le
  refine tracks.post ?_ (fun other row known => ?_) (fun apart count number outputs placed => ?_) fun same placed => ?_
  · have files :=
      (@confirm_files env s one txn blk.count idx cnf True tracks.sourced.sound tracks.sourced.held confirmed).2
    have table : one.stock.unspents.rows = s.stock.unspents.rows :=
      congrArg (fun coins => coins.unspents.rows) ((confirm_keeps coins_confirmations _ _ _).ok confirmed)
    have first := tracks.sourced.congr files.sound files.held table fun row known =>
      @OutputOf.wider posted env.prim { count := blk.count, coinbase := false, txn := txn } row known
    have second := first.redeemAll redeemed
    rw [← pushed_stock verify _ two] at second
    refine second.issueAll (fun i output found => ?_) issued
    refine ⟨_, List.mem_append_right _ List.mem_cons_self, rfl, ?_⟩
    show txn.outputs[0 + i]? = some output
    rw [Nat.zero_add, found]
  · show s'.confirmations.rows[other]? = some row
    rw [rows]
    exact Table.lookup_insertAuto _ known
  · have second := (placed.confirm confirmed).redeemAll stored redeemed
    rw [← pushed_stock verify _ two] at second
    exact second.issueAll_other apart issued
  · obtain rfl : env.prim.txnHash txn = hash := same
    refine ⟨cnf, confirmationRow txn blk.count idx, by omega, ?_, rfl, ?_⟩
    · show s'.confirmations.rows[cnf]? = _
      rw [rows, number.1]
      exact lookup_insert_self _ _ _
    · have second := ((placed blk.count cnf).confirm confirmed).redeemAll stored redeemed
      rw [← pushed_stock verify _ two] at second
      exact second.issueAll rfl signed (fun _ => ordinary) issued

theorem Stock.Tracks.postAll (tracks : Tracks env.prim env.validationDepth hash posted spent s.stock) {blk : Blk}
    {txns : List Transaction} {idx fees : Int} {verify : Bool} {unconfirmed : Txns} {confirmed : Hashes}
    {result : Int × Txns × Hashes} (stored : env.purgeDepth ≤ blk.count)
    (run : Libcoin.postAll env blk txns idx fees verify unconfirmed confirmed s = .ok result s') :
    Tracks env.prim env.validationDepth hash
      (posted ++ txns.map fun txn => { count := blk.count, coinbase := false, txn := txn }) (spent ++ spentBy txns)
      s'.stock := by
  induction txns generalizing idx fees verify unconfirmed confirmed posted spent s with
  | nil =>
    obtain ⟨-, rfl⟩ := pure_ok.mp run
    rw [List.map_nil, List.append_nil, show spentBy [] = [] from rfl, List.append_nil]
    exact tracks
  | cons txn txns ih =>
    unfold Libcoin.postAll at run
    obtain ⟨fees', mid, posted', run⟩ := bind_ok.mp run
    have rest := ih (tracks.postTransaction stored posted') run
    rwa [List.append_assoc, List.append_assoc] at rest

theorem Stock.Tracks.postSubsidy (tracks : Tracks env.prim env.validationDepth hash posted spent s.stock)
    {txn : Transaction} {blk : Blk} {fees : Int} {done : Unit} (stored : env.purgeDepth ≤ blk.count)
    (free : s.stock.confirmations.rows[-blk.count]? = none)
    (run : Libcoin.postSubsidy env txn blk fees s = .ok done s') :
    Tracks env.prim env.validationDepth hash (posted ++ [{ count := blk.count, coinbase := true, txn := txn }]) spent
      s'.stock := by
  have positive := blk.count_pos
  have rows := postSubsidy_confirmations free run
  rw [if_pos stored] at rows
  obtain ⟨cnf, input, one, two, three, -, -, -, confirmed, -, recorded, issued, matured⟩ := postSubsidy_ok run
  obtain ⟨rfl, files⟩ := @confirmCoinbase_files env s one txn blk.count cnf True positive tracks.sourced.sound
    tracks.sourced.held free confirmed
  have signed := (@Confirmation.signed_coinbase { cnf := -blk.count, count := blk.count }
    (show -blk.count < 0 by omega)).2
  refine tracks.post ?_ (fun other row known => ?_) (fun apart count number outputs placed => ?_) fun same placed => ?_
  · have table : one.stock.unspents.rows = s.stock.unspents.rows :=
      congrArg (fun coins => coins.unspents.rows) ((confirmCoinbase_keeps coins_confirmations _ _).ok confirmed)
    have first := tracks.sourced.congr files.sound files.held table fun row known =>
      @OutputOf.wider posted env.prim { count := blk.count, coinbase := true, txn := txn } row known
    have sound := (recordCoinbase_leaves positive first.sound recorded).sound
    obtain ⟨spendings, after, -⟩ := recordCoinbase_rows recorded
    have second : Sourced env.validationDepth
        (OutputOf env.prim (posted ++ [{ count := blk.count, coinbase := true, txn := txn }])) two.stock := by
      rw [after] at sound ⊢
      exact first.congr sound first.held rfl fun _ known => known
    have third : Sourced env.validationDepth
        (OutputOf env.prim (posted ++ [{ count := blk.count, coinbase := true, txn := txn }])) three.stock := by
      refine second.issueCoinbase (fun i output found => ?_) issued
      refine ⟨_, List.mem_append_right _ List.mem_cons_self, rfl, ?_⟩
      show txn.outputs[0 + i]? = some output
      rw [Nat.zero_add, found]
    have files := maturateNext_files True third.sound third.held matured
    obtain ⟨spendables, after, -⟩ := maturateNext_stock matured
    exact third.congr files.sound files.held (by rw [after]) fun _ known => known
  · show s'.confirmations.rows[other]? = some row
    rw [rows]
    exact lookup_insert_of_absent _ free known
  · exact (((placed.confirmCoinbase positive confirmed).recordCoinbase positive recorded).issueCoinbase_other apart
      issued).maturateNext matured
  · obtain rfl : env.prim.txnHash txn = hash := same
    refine ⟨-blk.count, confirmationRow txn blk.count 0, by omega, ?_, rfl, ?_⟩
    · show s'.confirmations.rows[-blk.count]? = _
      rw [rows]
      exact lookup_insert_self _ _ _
    · refine (((placed (-blk.count) (-blk.count)).confirmCoinbase positive confirmed).recordCoinbase positive
        recorded).issueCoinbase rfl signed (fun above => ?_) issued |>.maturateNext matured
      omega

variable {chain : Chain} {prim : Primitives} {validationDepth : Int}

theorem Stock.Tracks.attach {offer : Offer} {result : Txns × Hashes}
    (tracks : Tracks prim validationDepth hash posted spent s.stock) (stored : offer.purgeDepth ≤ offer.blk.count)
    (free : s.stock.confirmations.rows[-offer.blk.count]? = none)
    (run : offer.attach chain prim validationDepth s = .ok result s') :
    Tracks prim validationDepth hash (posted ++ offer.posted) (spent ++ spentBy offer.block.transactions.tail)
      s'.stock := by
  obtain ⟨unconfirmed, confirmed⟩ := result
  obtain ⟨coinbase, txns, one, fees, two, transactions, -, -, header, post, subsidy, -⟩ := attach_ok run
  have same : one.stock = s.stock := by
    rw [(insertBlockHeader_keeps stock_blocks _ _).ok header]
    rfl
  rw [← same] at tracks free
  have start : 0 ≤ one.confirmations.seq := tracks.sourced.sound.start.2
  have first : Tracks prim validationDepth hash
      (posted ++ txns.map fun txn => { count := offer.blk.count, coinbase := false, txn := txn })
      (spent ++ spentBy txns) two.stock := Stock.Tracks.postAll tracks stored post
  have second := Stock.Tracks.postSubsidy first stored (postAll_free start free post) subsidy
  rw [List.append_assoc] at second
  unfold Offer.posted
  rw [transactions]
  exact second

/-- What a run leaves of the empty tables. -/
theorem attachAll_tracks {offers : List Offer} {unspentIndex : Bool} {high : Int}
    (start : Since validationDepth 0 high (fun _ => True) (Ledger.empty unspentIndex).stock s.stock)
    (tracks : Tracks prim validationDepth hash posted spent s.stock) (positive : 0 ≤ high)
    (consecutive : Consecutive high offers)
    (run : attachAll chain prim validationDepth offers s = .ok () s') :
    Tracks prim validationDepth hash (posted ++ postedIn offers) (spent ++ spentIn offers) s'.stock := by
  induction offers generalizing high posted spent s with
  | nil =>
    obtain ⟨-, rfl⟩ := pure_ok.mp run
    rw [show postedIn [] = [] from rfl, show spentIn [] = [] from rfl, List.append_nil, List.append_nil]
    exact tracks
  | cons offer offers ih =>
    unfold attachAll at run
    obtain ⟨result, mid, attached, run⟩ := bind_ok.mp run
    obtain ⟨count, stored, consecutive⟩ := consecutive
    have free := start.free positive
    rw [← count] at free
    have next := ((start.mono (show high ≤ high + 1 by omega) fun _ lost => lost).attach stored (by omega)
      (by omega) free (fun _ _ => trivial) attached).1
    have rest := ih next (tracks.attach stored free attached) (by omega) consecutive run
    rwa [List.append_assoc, List.append_assoc] at rest

theorem tracks_empty {unspentIndex : Bool} (trie : validationDepth ≠ 0 → unspentIndex = false) :
    Tracks prim validationDepth hash [] [] (Ledger.empty unspentIndex).stock := by
  have empty : Since validationDepth 0 0 (fun _ => True) (Ledger.empty unspentIndex).stock
    (Ledger.empty unspentIndex).stock := since_empty trie
  have none (id : Int) (row : UnspentRow) (found : (Ledger.empty unspentIndex).stock.unspents.rows[id]? = some row) :
      False := by
    have found : (∅ : Map Int UnspentRow)[id]? = some row := found
    simp at found
  have unspent (id : Int) (row : Spending) (found : (Ledger.empty unspentIndex).stock.spendings[id]? = some row) :
      False := by
    have found : (∅ : Map Int Spending)[id]? = some row := found
    simp at found
  refine ⟨⟨empty.sound, empty.held, fun id row found => (none id row found).elim⟩, fun _ count cnf => ?_, nofun⟩
  exact
    { sound := empty.sound
      held := empty.held
      row := fun id row found => (none id row found).elim
      unique := fun id _ row _ found => (none id row found).elim
      unspent := nofun
      spending := fun _ id row found => (unspent id row found).elim
      recorded := nofun
      early := nofun
      spendable := nofun }

end Blocks

end Libcoin
