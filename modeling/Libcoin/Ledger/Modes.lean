/-
The two modes of validation side by side.

* `Same s t`: the ledger `s` of database mode has the tables of the ledger `t` of trie mode.
* Each function of `attach` has a lemma that its runs in the two modes agree (`Agree`) from ledgers that
  are the same, as long as the accounts of trie mode are in order. The lemmas about the accounts carry
  that from one step to the next.
* `offerAll` is a run of blocks of which some are rejected, and `CleanRun` the condition under which the
  modes agree: no coin is issued again, and the coinbase of the genesis is not spent.
-/

import Libcoin.Ledger.Tries

namespace Libcoin

open Exec

/-- The setting in database mode. -/
def Setting.database (env : Setting) : Setting := { env with validationDepth := 0 }

/-- A ledger in database mode and one in trie mode with the same tables and the same verifications. -/
structure Same (s t : Ledger) : Prop where
  db : s.db = { t.db with unspentIndex := true }
  pending : s.pending = t.pending

variable {env : Setting} {s t : Ledger}

/-! ### Statements -/

/-- The index does not change what a statement does. -/
def Blind (statement : Database → Option (Int × Database)) : Prop :=
  ∀ db, statement { db with unspentIndex := true } =
    (statement db).map fun result => (result.1, { result.2 with unspentIndex := true })

theorem blind_insert {rowid : Database → Int} {change : Database → Database}
    (number : ∀ db, rowid { db with unspentIndex := true } = rowid db)
    (commutes : ∀ db, change { db with unspentIndex := true } =
      { change db with unspentIndex := true }) :
    Blind fun db => some (rowid db, change db) := by
  intro db
  show some (rowid { db with unspentIndex := true }, change { db with unspentIndex := true }) =
    some (rowid db, { change db with unspentIndex := true })
  rw [number, commutes]

theorem blind_insertUnless {conflict : Database → Bool} {rowid : Database → Int}
    {change : Database → Database}
    (conflicts : ∀ db, conflict { db with unspentIndex := true } = conflict db)
    (number : ∀ db, rowid { db with unspentIndex := true } = rowid db)
    (commutes : ∀ db, change { db with unspentIndex := true } =
      { change db with unspentIndex := true }) :
    Blind fun db => if conflict db then none else some (rowid db, change db) := by
  intro db
  show (if conflict { db with unspentIndex := true } then none
    else some (rowid { db with unspentIndex := true }, change { db with unspentIndex := true })) =
    (if conflict db then none else some (rowid db, change db)).map _
  rw [conflicts, number, commutes]
  cases conflict db with
  | true => rfl
  | false => rfl

theorem blind_insertBlock (count : Int) (row : BlockRow) : Blind (Database.insertBlock count row) :=
  blind_insertUnless (fun _ => rfl) (fun _ => rfl) fun _ => rfl

theorem blind_insertAuxProofOfWork (row : AuxRow) : Blind (Database.insertAuxProofOfWork row) :=
  blind_insert (fun _ => rfl) fun _ => rfl

theorem blind_insertConfirmation (row : ConfirmationRow) : Blind (Database.insertConfirmation row) :=
  blind_insert (fun _ => rfl) fun _ => rfl

theorem blind_insertConfirmationAt (cnf : Int) (row : ConfirmationRow) :
    Blind (Database.insertConfirmationAt cnf row) :=
  blind_insertUnless (fun _ => rfl) (fun _ => rfl) fun _ => rfl

theorem blind_insertSpending (coin : Int) (row : Spending) : Blind (Database.insertSpending coin row) :=
  blind_insertUnless (fun _ => rfl) (fun _ => rfl) fun _ => rfl

theorem blind_insertName (row : NameRow) : Blind (Database.insertName row) :=
  blind_insertUnless (fun _ => rfl) (fun _ => rfl) fun _ => rfl

/-- The row number is the same where a row is inserted. -/
theorem query_agree {statement : Database → Option (Int × Database)} (blind : Blind statement)
    (same : Same s t) :
    Agree (fun rowid s' rowid' t' => Same s' t' ∧ ((statement t.db).isSome = true → rowid = rowid'))
      (query statement s) (query statement t) := by
  show Same (s.afterQuery statement).2 (t.afterQuery statement).2 ∧
    (_ → (s.afterQuery statement).1 = (t.afterQuery statement).1)
  unfold Ledger.afterQuery
  rw [same.db, blind]
  cases statement t.db with
  | none => exact ⟨same, fun inserted => by cases inserted⟩
  | some result => exact ⟨⟨rfl, same.pending⟩, fun _ => rfl⟩

/-- A statement whose row number is not asked for. -/
theorem insert_agree {statement : Database → Option (Int × Database)} (blind : Blind statement)
    (same : Same s t) :
    Agree (alike Same) ((do let _ ← query statement : LedgerM Unit) s)
      ((do let _ ← query statement : LedgerM Unit) t) :=
  agree_bind (query_agree blind same) fun _ _ _ _ _ _ holds => ⟨rfl, holds.1⟩

theorem pure_agree {A : Type} (a : A) (same : Same s t) :
    Agree (alike Same) ((pure a : LedgerM A) s) ((pure a : LedgerM A) t) := ⟨rfl, same⟩

theorem throwIf_agree {R : Ledger → Ledger → Prop} (bad : Bool) (fault : Fault) (same : R s t) :
    Agree (alike R) (throwIf bad fault s) (throwIf bad fault t) := by
  cases bad with
  | true => exact trivial
  | false => exact ⟨rfl, same⟩

theorem liftExcept_agree {A : Type} (x : Except Fault A) (same : Same s t) :
    Agree (alike Same) (liftExcept x s) (liftExcept x t) := by
  cases x with
  | error fault => exact trivial
  | ok a => exact ⟨rfl, same⟩

theorem get_agree {A : Type} {next next' : Ledger → LedgerM A}
    (rest : Agree (alike Same) (next s s) (next' t t)) :
    Agree (alike Same) ((get >>= next) s) ((get >>= next') t) := rest

/-! ### Coins -/

theorem spend_same (same : Same s t) (tree : Map Coin Unspent) (coin : Unspent) (input : Input)
    (iidx : Int) (iconf : Confirmation) :
    Same (s.spend env.database coin input iidx iconf)
      (({ t with spendables := tree } : Ledger).spend env coin input iidx iconf) := by
  have recorded : Same (s.recorded env.database coin input iidx iconf)
      (({ t with spendables := tree } : Ledger).recorded env coin input iidx iconf) := by
    unfold Ledger.recorded
    show Same (if env.purgeDepth ≤ iconf.count then _ else s) (if env.purgeDepth ≤ iconf.count then _ else _)
    by_cases deep : env.purgeDepth ≤ iconf.count
    · rw [if_pos deep, if_pos deep]
      have trees : Same s { t with spendables := tree } := ⟨same.db, same.pending⟩
      exact (show Same _ _ ∧ _ from query_agree (blind_insertSpending _ _) trees).1
    · rw [if_neg deep, if_neg deep]
      exact ⟨same.db, same.pending⟩
  refine ⟨?_, recorded.pending⟩
  show Database.deleteUnspent coin.coin (s.recorded env.database coin input iidx iconf).db = _
  rw [recorded.db]
  rfl

theorem findUnspent_iff {mature : Unspent → Bool} (spends : t.coins.Spends mature) {key : Coin}
    {id : Int} {row : UnspentRow} :
    t.db.findUnspent key = some (id, row) ↔ row.key = key ∧ t.coins.Holds (row.unspent id) := by
  constructor
  · intro found
    obtain ⟨stored, same⟩ := Table.first_eq_some found
    exact ⟨of_decide_eq_true same, stored⟩
  · rintro ⟨same, held⟩
    refine Table.first_eq_of_unique held (decide_eq_true same) fun other row' stored same' => ?_
    have equal := spends.distinct (row'.unspent other) (row.unspent id) stored held
      ((of_decide_eq_true same').trans same.symm)
    exact congrArg Unspent.coin equal

/-- The row is valid, and the trie sorts it as the test of database mode does for a block with a
count. -/
def Fit (env : Setting) (mature : Int → Bool) (count : Int) (u : Unspent) : Prop :=
  u.cnf ≠ 0 ∧ u.key ≠ Coin.null ∧
    (mature u.count = true ↔ ¬(u.count < 0 ∧ count + u.count < env.chain.maturity (-u.count)))

theorem redeem_agree (trie : env.validationDepth ≠ 0) (same : Same s t) {mature : Int → Bool}
    (spends : t.coins.Spends fun u => mature u.count) {input : Input} (iidx : Int)
    {iconf : Confirmation}
    (fit : ∀ u, t.coins.Holds u → u.key = input.prevout → Fit env mature iconf.count u) :
    Agree (alike Same) (redeem env.database input iidx iconf s) (redeem env input iidx iconf t) := by
  have find : s.db.findUnspent input.prevout = t.db.findUnspent input.prevout := by
    rw [same.db]
    rfl
  refine agree_of (fun coin s' run => ?_) fun coin t' run => ?_
  · obtain ⟨id, row, found, -, isMature, inRange, rfl, rfl⟩ := (redeem_database_ok rfl).mp run
    rw [find] at found
    obtain ⟨key, held⟩ := (findUnspent_iff spends).mp found
    have sorted := (fit _ held key).2.2.mpr isMature
    have spendable := (spends.spendable _ _).mpr ⟨key, held, sorted⟩
    exact ⟨_, _, (redeem_trie_ok trie).mpr ⟨spendable, inRange, rfl⟩, rfl, spend_same same _ _ _ _ _⟩
  · obtain ⟨spendable, inRange, -⟩ := (redeem_trie_ok trie).mp run
    obtain ⟨key, held, sorted⟩ := (spends.spendable _ _).mp spendable
    obtain ⟨confirmed, notNull, rule⟩ := fit coin held key
    have valid : coin.isValid = true := by
      have value := of_decide_eq_true inRange
      unfold Unspent.isValid Coin.isNull Output.isNull
      rw [decide_eq_false notNull, decide_eq_false (by omega), decide_eq_true confirmed]
      rfl
    have found : s.db.findUnspent input.prevout = some (coin.coin, coin.row) := by
      rw [find]
      exact (findUnspent_iff spends).mpr ⟨key, held⟩
    exact ⟨coin, _, (redeem_database_ok rfl).mpr
      ⟨coin.coin, coin.row, found, valid, rule.mp sorted, inRange, rfl, rfl⟩⟩

/-- A row with a new key is inserted in database mode, whatever the statement. -/
theorem insertUnspent_fresh (same : Same s t) {row : UnspentRow}
    (fresh : ∀ u, t.coins.Holds u → u.key ≠ row.key) (unique : Bool) :
    s.afterQuery (if unique then Database.insertUnspent row else Database.replaceUnspent row) =
      (t.db.unspents.nextId,
        { s with
          db := { t.db with unspents := t.db.unspents.insertAuto row, unspentIndex := true }
          lastRowid := t.db.unspents.nextId }) := by
  have none : (s.db.findUnspent row.key).isSome = false := by
    rw [same.db, Option.isSome_eq_false_iff, Option.isNone_iff_eq_none]
    exact Table.first_eq_none.mpr fun coin other stored =>
      decide_eq_false (fresh (other.unspent coin) stored)
  cases unique with
  | true =>
    unfold Ledger.afterQuery
    rw [if_pos rfl]
    unfold Database.insertUnspent
    rw [none, Bool.and_false, if_neg (by decide), same.db]
  | false =>
    -- no row is replaced
    have kept : (t.db.unspents.insertAuto row).deleteWhere (fun coin other =>
        decide (coin ≠ t.db.unspents.nextId) && decide (other.key = row.key)) =
        t.db.unspents.insertAuto row := by
      unfold Table.deleteWhere
      congr 1
      ext coin other
      rw [Map.lookup_filter_eq_some]
      refine ⟨And.left, fun stored => ⟨stored, ?_⟩⟩
      by_cases new : coin = t.db.unspents.nextId
      · show (!(decide (coin ≠ t.db.unspents.nextId) && _)) = true
        rw [decide_eq_false (not_not_intro new)]
        rfl
      · have old : t.db.unspents.rows[coin]? = some other := by
          rw [← stored]
          exact (Map.lookup_insert_of_ne _ _ fun equal => new equal.symm).symm
        show (!(_ && decide (other.key = row.key))) = true
        have different : other.key ≠ row.key := fresh (other.unspent coin) old
        rw [decide_eq_false different, Bool.and_false]
        rfl
    unfold Ledger.afterQuery
    rw [if_neg (by decide)]
    unfold Database.replaceUnspent
    rw [same.db]
    show (t.db.unspents.nextId, _) = _
    rw [if_pos rfl, kept]

theorem addUnspent_fresh {unspent : Unspent} {coinbase unique : Bool}
    (fresh : coinbase = true → unique = true → t.immatureCoinbases.contains unspent.key = false ∧
      t.spendables.contains unspent.key = false) :
    ∃ t', addUnspent unspent coinbase unique t = .ok () t' ∧ t'.db = t.db ∧ t'.pending = t.pending := by
  cases coinbase with
  | true => exact ⟨_, addCoinbase_ok.mpr ⟨fresh rfl, rfl⟩, rfl, rfl⟩
  | false => exact ⟨_, addSpendable_ok.mpr rfl, rfl, rfl⟩

/-- A coin with a new key is issued in trie mode. -/
theorem issue_trie_fresh (trie : env.validationDepth ≠ 0) {mature : Unspent → Bool}
    (spends : t.coins.Spends mature) (output : Output) {hash : Uint256} {outIdx : Nat}
    {conf : Confirmation} {unique : Bool}
    (fresh : ∀ u, t.coins.Holds u → u.key ≠ { hash := hash, index := outIdx })
    (waiting : conf.isCoinbase = true → unique = true →
      t.immatureCoinbases.contains { hash := hash, index := outIdx } = false) :
    ∃ t', issue env output hash outIdx conf unique t = .ok t.db.unspents.nextId t' ∧
      t'.db =
        { t.db with unspents := t.db.unspents.insertAuto (issueRow output hash outIdx conf) } ∧
      t'.pending = t.pending := by
  have noSpendable : t.spendables.contains { hash := hash, index := outIdx } = false := by
    refine Map.contains_of_absent ?_
    cases found : t.spendables[({ hash := hash, index := outIdx } : Coin)]? with
    | none => rfl
    | some u =>
      obtain ⟨key, held, -⟩ := (spends.spendable _ u).mp found
      exact absurd key (fresh u held)
  have allowed : (t.db.unspentIndex &&
      (t.db.findUnspent (issueRow output hash outIdx conf).key).isSome) = false := by
    have index : t.db.unspentIndex = false := spends.unindexed
    rw [index]
    rfl
  let mid : Ledger :=
    { t with
      db := { t.db with unspents := t.db.unspents.insertAuto (issueRow output hash outIdx conf) }
      lastRowid := t.db.unspents.nextId }
  have inserted : t.afterQuery (Database.insertUnspent (issueRow output hash outIdx conf)) =
      (t.db.unspents.nextId, mid) := by
    unfold Ledger.afterQuery Database.insertUnspent
    rw [allowed, if_neg (by decide)]
  obtain ⟨t', added, tables, pending⟩ : ∃ t', addUnspent
      ((issueRow output hash outIdx conf).unspent t.db.unspents.nextId) conf.isCoinbase unique mid =
        .ok () t' ∧ t'.db = mid.db ∧ t'.pending = mid.pending :=
    addUnspent_fresh fun coinbase only => ⟨waiting coinbase only, noSpendable⟩
  exact ⟨t', (issue_trie_ok trie).mpr ⟨mid, inserted, added⟩, tables, pending⟩

/-- The modes issue a coin with a new key alike. -/
theorem issue_agree (trie : env.validationDepth ≠ 0) (same : Same s t) {mature : Unspent → Bool}
    (spends : t.coins.Spends mature) (output : Output) {hash : Uint256} {outIdx : Nat}
    {conf : Confirmation} {unique : Bool}
    (fresh : ∀ u, t.coins.Holds u → u.key ≠ { hash := hash, index := outIdx })
    (waiting : conf.isCoinbase = true → unique = true →
      t.immatureCoinbases.contains { hash := hash, index := outIdx } = false) :
    Agree (alike Same) (issue env.database output hash outIdx conf unique s)
      (issue env output hash outIdx conf unique t) := by
  have new : ∀ u, t.coins.Holds u → u.key ≠ (issueRow output hash outIdx conf).key := fresh
  have database : env.database.validationDepth = 0 := rfl
  have first := (issue_database_ok database).mpr (insertUnspent_fresh same new unique)
  obtain ⟨t', second, tables, pending⟩ := issue_trie_fresh trie spends output fresh waiting
  refine agree_of_ok first second ⟨rfl, ?_, same.pending.trans pending.symm⟩
  rw [tables]

/-! ### Transactions -/

theorem nameInput_agree (same : Same s t) (op : NameOperation) (coin : Unspent) :
    Agree (alike Same) (nameInput env.database op coin s) (nameInput env op coin t) := by
  unfold nameInput
  show Agree _ ((if env.chain.adhereNames = true then _ else _ : LedgerM NameOperation) s) _
  by_cases names : env.chain.adhereNames = true
  · rw [if_pos names, if_pos names]
    refine alike_bind (liftExcept_agree _ same) fun result s' t' _ same => get_agree ?_
    have named : s'.db.getCoinName coin.coin = t'.db.getCoinName coin.coin := by
      rw [same.db]
      rfl
    rw [named]
    exact pure_agree _ same
  · rw [if_neg names, if_neg names]
    exact pure_agree op same

theorem updateName_agree (same : Same s t) (op : NameOperation) (coin count : Int) :
    Agree (alike Same) (updateName env.database op coin count s) (updateName env op coin count t) := by
  have latest : s.db.latestNameCount op.name = t.db.latestNameCount op.name := by
    rw [same.db]
    rfl
  unfold updateName
  refine get_agree ?_
  rw [latest]
  by_cases reserve : op.reserve = true
  · rw [if_pos reserve, if_pos reserve]
    refine alike_bind (throwIf_agree _ _ same) fun _ s' t' _ same => ?_
    refine alike_bind (throwIf_agree _ _ same) fun _ s' t' _ same => ?_
    exact insert_agree (blind_insertName _) same
  · rw [if_neg reserve, if_neg reserve]
    refine alike_bind (throwIf_agree _ _ same) fun _ s' t' _ same => ?_
    exact insert_agree (blind_insertName _) same

theorem nameOutput_agree (same : Same s t) (version : Int) (op : NameOperation) (output : Output)
    (coin count : Int) :
    Agree (alike Same) (nameOutput env.database version op output coin count s)
      (nameOutput env version op output coin count t) := by
  unfold nameOutput
  show Agree _ ((if env.chain.adhereNames = true then _ else _ : LedgerM NameOperation) s) _
  by_cases names : env.chain.adhereNames = true
  · rw [if_pos names, if_pos names]
    refine alike_bind (liftExcept_agree _ same) fun result s' t' _ same => ?_
    obtain ⟨op, named⟩ := result
    cases named with
    | true =>
      refine alike_bind (throwIf_agree _ _ same) fun _ s' t' _ same => ?_
      exact alike_bind (updateName_agree same op coin count) fun _ s' t' _ same => pure_agree op same
    | false => exact pure_agree op same
  · rw [if_neg names, if_neg names]
    exact pure_agree op same

theorem confirm_agree (same : Same s t) (txn : Transaction) (count idx : Int) :
    Agree (alike Same) (confirm env.database txn count idx s) (confirm env txn count idx t) := by
  unfold confirm
  show Agree _ ((if env.purgeDepth ≤ count then _ else _ : LedgerM Int) s) _
  by_cases deep : env.purgeDepth ≤ count
  · rw [if_pos deep]
    exact (query_agree (blind_insertConfirmation _) same).mono fun _ _ _ _ _ _ holds =>
      ⟨holds.2 rfl, holds.1⟩
  · rw [if_neg deep]
    exact pure_agree _ same

theorem addFee_agree (same : Same s t) (txn : Transaction) (valueIn fees minFee : Int) :
    Agree (alike Same) (addFee env.database txn valueIn fees minFee s)
      (addFee env txn valueIn fees minFee t) := by
  refine alike_bind (throwIf_agree _ _ same) fun _ s' t' _ same => ?_
  refine alike_bind (throwIf_agree _ _ same) fun _ s' t' _ same => ?_
  refine alike_bind (throwIf_agree _ _ same) fun _ s' t' _ same => ?_
  exact pure_agree _ same

theorem pushVerification_agree (same : Same s t) (verify : Bool) (verification : Verification) :
    Agree (alike Same) (pushVerification verify verification s)
      (pushVerification verify verification t) := by
  cases verify with
  | true => exact ⟨rfl, same.db, congrArg (· ++ [verification]) same.pending⟩
  | false => exact pure_agree () same

theorem checkNameFees_agree (same : Same s t) (op : NameOperation) (count : Int) :
    Agree (alike Same) (checkNameFees env.database op count s) (checkNameFees env op count t) := by
  unfold checkNameFees
  show Agree _ ((if env.chain.adhereNames = true then _ else _ : LedgerM Unit) s) _
  by_cases names : env.chain.adhereNames = true
  · rw [if_pos names, if_pos names]
    exact liftExcept_agree _ same
  · rw [if_neg names, if_neg names]
    exact pure_agree () same

/-- Of a list of coins that are only issued, none has a row before. -/
theorem noReissue_issued {live coins : List Coin} (fresh : NoReissue live (coins.map .issued)) :
    ∀ coin ∈ coins, coin ∉ live := by
  induction coins generalizing live with
  | nil => exact fun coin member => by cases member
  | cons first coins ih =>
    intro coin member
    rcases List.mem_cons.mp member with rfl | member
    · exact fresh.1
    · exact fun old => ih fresh.2 coin member (List.mem_cons_of_mem _ old)

section Accounts

variable {mature : Int → Bool} {good : Unspent → Prop} {live : List Coin}

theorem redeemAll_agree (trie : env.validationDepth ≠ 0) (same : Same s t)
    (accounts : Accounts Coins.Spends mature good live t.coins) {conf : Confirmation}
    {inputs : List Input}
    (fit : ∀ input ∈ inputs, ∀ u, good u → u.key = input.prevout → Fit env mature conf.count u)
    (idx : Nat) (valueIn : Int) (op : NameOperation) (scripts : List Script) :
    Agree (alike Same) (redeemAll env.database conf inputs idx valueIn op scripts s)
      (redeemAll env conf inputs idx valueIn op scripts t) := by
  induction inputs generalizing s t idx valueIn op scripts live with
  | nil => exact pure_agree _ same
  | cons input inputs ih =>
    have one : Agree (alike Same) (redeem env.database input idx conf s) (redeem env input idx conf t) :=
      redeem_agree trie same accounts.sorted idx fun u held key =>
        fit input List.mem_cons_self u (accounts.rows u held) key
    refine alike_bind one fun coin s' t' redeemed same => ?_
    have next := redeem_accounts Coins.stable_spends trie accounts redeemed
    refine alike_bind (nameInput_agree same op coin) fun op s'' t'' named same => ?_
    have kept : t''.coins = t'.coins := (nameInput_keeps _ _).ok named
    rw [← kept] at next
    exact ih same next (fun other member => fit other (List.mem_cons_of_mem _ member)) _ _ op _

theorem issueAll_agree (trie : env.validationDepth ≠ 0) (same : Same s t)
    (accounts : Accounts Coins.Spends mature good live t.coins) {hash : Uint256} {conf : Confirmation}
    {outputs : List Output} {idx : Nat}
    (fresh : NoReissue live ((issuedCoins hash outputs idx).map .issued))
    (kind : conf.isCoinbase = false) (isMature : mature conf.signed = true)
    (new : ∀ output i coin, i < idx + outputs.length → good ((issueRow output hash i conf).unspent coin))
    (version : Int) (op : NameOperation) :
    Agree (alike Same) (issueAll env.database version hash conf outputs idx op s)
      (issueAll env version hash conf outputs idx op t) := by
  induction outputs generalizing s t idx op live with
  | nil => exact pure_agree op same
  | cons output outputs ih =>
    have apart : ∀ u, t.coins.Holds u → u.key ≠ { hash := hash, index := idx } :=
      fun u held key => fresh.1 ((accounts.live _).mp ⟨u, held, key⟩)
    have one : Agree (alike Same) (issue env.database output hash idx conf true s)
        (issue env output hash idx conf true t) :=
      issue_agree trie same accounts.sorted output apart fun coinbase => by
        rw [kind] at coinbase
        cases coinbase
    rw [List.length_cons] at new
    refine alike_bind one fun coin s' t' issued same => ?_
    have next := issue_accounts Coins.stable_spends trie accounts fresh.1 (by rw [kind]; exact isMature)
      (fun coin => new _ _ coin (by omega)) issued
    refine alike_bind (nameOutput_agree same version op output coin _) fun op s'' t'' named same => ?_
    have kept : t''.coins = t'.coins := (nameOutput_keeps coins_names _ _ _ _ _).ok named
    rw [← kept] at next
    exact ih same next fresh.2 (fun output i coin within => new output i coin (by omega)) op

theorem issueCoinbase_agree (trie : env.validationDepth ≠ 0) (same : Same s t)
    (accounts : Accounts Coins.Spends mature good live t.coins) {hash : Uint256} {conf : Confirmation}
    {unique : Bool} {outputs : List Output} {idx : Nat}
    (fresh : NoReissue live ((issuedCoins hash outputs idx).map .issued))
    (kind : conf.isCoinbase = true) (notMature : mature conf.signed = false)
    (waiting : unique = true → ∀ coin ∈ issuedCoins hash outputs idx,
      t.immatureCoinbases.contains coin = false)
    (new : ∀ output i coin, i < idx + outputs.length → good ((issueRow output hash i conf).unspent coin)) :
    Agree (alike Same) (issueCoinbase env.database hash conf unique outputs idx s)
      (issueCoinbase env hash conf unique outputs idx t) := by
  induction outputs generalizing s t idx live with
  | nil => exact pure_agree () same
  | cons output outputs ih =>
    have apart : ∀ u, t.coins.Holds u → u.key ≠ { hash := hash, index := idx } :=
      fun u held key => fresh.1 ((accounts.live _).mp ⟨u, held, key⟩)
    have one : Agree (alike Same) (issue env.database output hash idx conf unique s)
        (issue env output hash idx conf unique t) :=
      issue_agree trie same accounts.sorted output apart fun _ only => waiting only _ List.mem_cons_self
    rw [List.length_cons] at new
    refine alike_bind one fun coin s' t' issued same => ?_
    have next := issue_accounts Coins.stable_spends trie accounts fresh.1 (by rw [kind]; exact notMature)
      (fun coin => new _ _ coin (by omega)) issued
    refine ih same next fresh.2 (fun only other member => ?_)
      (fun output i coin within => new output i coin (by omega))
    obtain ⟨after, -⟩ := issue_coins_trie trie accounts.sorted.unindexed issued
    have tree : t'.immatureCoinbases = t.immatureCoinbases.insertNew { hash := hash, index := idx }
        ((issueRow output hash idx conf).unspent t.coins.unspents.nextId) := by
      have immature := congrArg Coins.immatureCoinbases after
      unfold Coins.issue at immature
      rw [kind, if_pos rfl] at immature
      exact immature
    have different : ({ hash := hash, index := idx } : Coin) ≠ other := fun equal =>
      noReissue_issued fresh.2 other member (equal ▸ List.mem_cons_self)
    have before := waiting only other (List.mem_cons_of_mem _ member)
    rw [Std.ExtTreeMap.contains_eq_isSome_getElem?] at before ⊢
    rwa [tree, Map.lookup_insertNew, if_neg different]

end Accounts

/-! ### The immature coinbases -/

theorem immature_blocks : KeepsBlocks Ledger.immatureCoinbases where
  block _ _ := insertUnless_keeps fun _ _ => rfl
  auxProofOfWork _ := insert_keeps fun _ _ => rfl

theorem immature_confirmations : KeepsConfirmations Ledger.immatureCoinbases where
  next _ := insert_keeps fun _ _ => rfl
  at_ _ _ := insertUnless_keeps fun _ _ => rfl

theorem immature_unspents : KeepsUnspents Ledger.immatureCoinbases where
  insert _ := insertUnless_keeps fun _ _ => rfl
  replace _ := insert_keeps fun _ _ => rfl
  delete _ := keeps_modify fun _ => rfl

theorem immature_spendings : KeepsSpendings Ledger.immatureCoinbases :=
  fun _ _ => insertUnless_keeps fun _ _ => rfl

theorem immature_names : KeepsNames Ledger.immatureCoinbases := fun _ => insertUnless_keeps fun _ _ => rfl

theorem immature_spendables : KeepsSpendables Ledger.immatureCoinbases := fun _ _ => rfl

/-- Only the coinbase of a block enters the trie of the immature. -/
theorem postTransaction_immature {n : Int} (low : 0 ≤ n) {s' : Ledger}
    (confirmed : Confirmed n s.confirmations) {txn : Transaction} {fees minFee fees' : Int} {blk : Blk}
    {idx : Int} {verify : Bool}
    (run : postTransaction env txn fees minFee blk idx verify s = .ok fees' s') :
    s'.immatureCoinbases = s.immatureCoinbases ∧ Confirmed n s'.confirmations := by
  obtain ⟨cnf, one, _, valueIn, op, scripts, two, _, confirming, redeemed, -, -, -, issued⟩ :=
    postTransaction_ok run
  obtain ⟨positive, confirmed⟩ := confirm_number confirmed low confirming
  obtain ⟨kind, -⟩ := @Confirmation.signed_ordinary { cnf := cnf, count := blk.count } positive.le
  have first := (confirm_keeps immature_confirmations _ _ _).ok confirming
  have second := (redeemAll_keeps immature_unspents immature_spendings immature_spendables
    _ _ _ _ _ _).ok redeemed
  have third := (issueAll_keeps immature_unspents immature_names immature_spendables _ _ _ _ _ _
    fun coinbase => by rw [kind] at coinbase; cases coinbase).ok issued
  have kept := (redeemAll_keeps confirmations_unspents confirmations_spendings
    confirmations_spendables _ _ _ _ _ _).ok redeemed
  have kept' := (issueAll_keeps confirmations_unspents confirmations_names confirmations_spendables
    _ _ _ _ _ _ fun _ => confirmations_immature).ok issued
  have pushed : (two.pushed verify
      { scripts := scripts, txn := txn
        strictPayToScriptHash := decide (env.chain.timeStamp16 < blk.time) }).immatureCoinbases =
      two.immatureCoinbases := by
    cases verify <;> rfl
  have pushed' : (two.pushed verify
      { scripts := scripts, txn := txn
        strictPayToScriptHash := decide (env.chain.timeStamp16 < blk.time) }).confirmations =
      two.confirmations := by
    cases verify <;> rfl
  refine ⟨third.trans (pushed.trans (second.trans first)), ?_⟩
  rw [kept', pushed', kept]
  exact confirmed

theorem postAll_immature {n : Int} (low : 0 ≤ n) {s' : Ledger} (confirmed : Confirmed n s.confirmations)
    {blk : Blk} {txns : List Transaction} {idx fees : Int} {verify : Bool} {unconfirmed : Txns}
    {hashes : Hashes} {result : Int × Txns × Hashes}
    (run : postAll env blk txns idx fees verify unconfirmed hashes s = .ok result s') :
    s'.immatureCoinbases = s.immatureCoinbases := by
  induction txns generalizing s idx fees verify unconfirmed hashes with
  | nil =>
    obtain ⟨-, rfl⟩ := pure_ok.mp run
    rfl
  | cons txn txns ih =>
    unfold postAll at run
    obtain ⟨fees', one, posted, run⟩ := bind_ok.mp run
    obtain ⟨kept, confirmed⟩ := postTransaction_immature low confirmed posted
    exact (ih confirmed run).trans kept

/-- The coins of the coinbase of a block. -/
def Block.coinbaseCoins (prim : Primitives) (block : Block) : List Coin :=
  block.transactions.head?.elim [] fun txn => issuedCoins (prim.txnHash txn) txn.outputs 0

/-! ### Blocks -/

section Blocks

variable {good : Unspent → Prop} {live : List Coin} {n : Nat}

theorem postTransaction_agree (trie : env.validationDepth ≠ 0) (same : Same s t)
    (accounts : Accounts Coins.Spends (matured env.chain.maturity n) good live t.coins)
    (confirmed : Confirmed n t.confirmations) {txn : Transaction} {blk : Blk} (count : blk.count = n + 1)
    (new : ∀ u, IssuedBy env.prim (n + 1) [txn] u → good u)
    (fresh : NoReissue live (txn.redeems ++ txn.issues env.prim))
    (fit : ∀ input ∈ txn.inputs, ∀ u, good u → u.key = input.prevout →
      Fit env (matured env.chain.maturity n) (n + 1) u)
    (fees minFee idx : Int) (verify : Bool) :
    Agree (alike Same) (postTransaction env.database txn fees minFee blk idx verify s)
      (postTransaction env txn fees minFee blk idx verify t) := by
  refine agree_adaptExcept ?_
  unfold postTransactionBody
  refine alike_bind (confirm_agree same txn blk.count idx) fun cnf s1 t1 confirming same => ?_
  obtain ⟨positive, -⟩ := confirm_number confirmed (by omega) confirming
  have first : t1.coins = t.coins := (confirm_keeps coins_confirmations _ _ _).ok confirming
  rw [← first] at accounts
  refine alike_bind (redeemAll_agree trie same accounts (by rw [count]; exact fit) _ _ _ _)
    fun result s2 t2 redeemed same => ?_
  have next := redeemAll_accounts Coins.stable_spends trie accounts redeemed
  obtain ⟨valueIn, op, scripts⟩ := result
  refine alike_bind (pushVerification_agree same _ _) fun _ s3 t3 pushed same => ?_
  obtain rfl := pushVerification_ok.mp pushed
  rw [← pushed_coins verify] at next
  refine alike_bind (addFee_agree same txn valueIn fees minFee) fun fees s4 t4 fee same => ?_
  obtain ⟨-, -, -, -, rfl⟩ := addFee_ok.mp fee
  rw [noReissue_append] at fresh
  obtain ⟨kind, signed⟩ := @Confirmation.signed_ordinary { cnf := cnf, count := blk.count } positive.le
  have signed := signed.trans count
  refine alike_bind (issueAll_agree trie same next fresh.2 kind
    (by rw [signed]; exact matured_of_pos _ _ (by omega))
    (fun output i coin within => new _ ⟨txn, List.mem_singleton_self txn, rfl,
      by rw [Nat.zero_add] at within; exact within, .inl ⟨signed, positive⟩⟩) _ _)
    fun op s5 t5 _ same => ?_
  exact alike_bind (checkNameFees_agree same op blk.count) fun _ s6 t6 _ same => pure_agree fees same

theorem postAll_agree (trie : env.validationDepth ≠ 0) (same : Same s t)
    (accounts : Accounts Coins.Spends (matured env.chain.maturity n) good live t.coins)
    (confirmed : Confirmed n t.confirmations) {blk : Blk} (count : blk.count = n + 1)
    {txns : List Transaction} (new : ∀ u, IssuedBy env.prim (n + 1) txns u → good u)
    (fresh : NoReissue live (txns.flatMap fun txn => txn.redeems ++ txn.issues env.prim))
    (fit : ∀ txn ∈ txns, ∀ input ∈ txn.inputs, ∀ u, good u → u.key = input.prevout →
      Fit env (matured env.chain.maturity n) (n + 1) u)
    (idx fees : Int) (verify : Bool) (unconfirmed : Txns) (hashes : Hashes) :
    Agree (alike Same) (postAll env.database blk txns idx fees verify unconfirmed hashes s)
      (postAll env blk txns idx fees verify unconfirmed hashes t) := by
  induction txns generalizing s t idx fees verify unconfirmed hashes live with
  | nil => exact pure_agree _ same
  | cons txn txns ih =>
    rw [List.flatMap_cons, noReissue_append] at fresh
    have issued : ∀ u, IssuedBy env.prim (n + 1) [txn] u → good u := fun u ⟨only, member, issued⟩ =>
      new u ⟨only, List.mem_cons.mpr (.inl (List.mem_singleton.mp member)), issued⟩
    refine alike_bind (postTransaction_agree trie same accounts confirmed count issued fresh.1
      (fit txn List.mem_cons_self) _ _ _ _) fun fees' s' t' posted same => ?_
    obtain ⟨accounts, confirmed⟩ := postTransaction_accounts Coins.stable_spends trie accounts confirmed
      count issued fresh.1 posted
    exact ih same accounts confirmed
      (fun u ⟨other, member, issued⟩ => new u ⟨other, List.mem_cons_of_mem _ member, issued⟩) fresh.2
      (fun other member => fit other (List.mem_cons_of_mem _ member)) _ _ _ _ _

theorem confirmCoinbase_agree (same : Same s t) (confirmed : Confirmed n t.confirmations)
    (txn : Transaction) {count : Int} (above : n < count) :
    Agree (alike Same) (confirmCoinbase env.database txn count s) (confirmCoinbase env txn count t) := by
  unfold confirmCoinbase
  show Agree _ ((if env.purgeDepth ≤ count then _ else _ : LedgerM Int) s) _
  by_cases deep : env.purgeDepth ≤ count
  · rw [if_pos deep]
    refine (query_agree (blind_insertConfirmationAt _ _) same).mono fun _ _ _ _ _ _ holds =>
      ⟨holds.2 ?_, holds.1⟩
    have free : t.db.confirmations.rows.contains (-count) = false := by
      refine Map.contains_of_absent ?_
      cases stored : t.db.confirmations.rows[-count]? with
      | none => rfl
      | some row =>
        have bound := confirmed.low _ row stored
        omega
    unfold Database.insertConfirmationAt
    rw [free]
    rfl
  · rw [if_neg deep]
    exact pure_agree _ same

theorem recordCoinbase_agree (same : Same s t) (count valueIn : Int) (input : Input) :
    Agree (alike Same) (recordCoinbase env.database count valueIn input s)
      (recordCoinbase env count valueIn input t) := by
  unfold recordCoinbase
  show Agree _ ((if env.purgeDepth ≤ count then _ else _ : LedgerM Unit) s) _
  by_cases deep : env.purgeDepth ≤ count
  · rw [if_pos deep]
    exact insert_agree (blind_insertSpending _ _) same
  · rw [if_neg deep]
    exact pure_agree () same

/-- Nothing matures in database mode, and in trie mode the tables stay. -/
theorem maturateNext_agree (same : Same s t) (blk : Blk) :
    Agree (alike Same) (maturateNext env.database blk s) (maturateNext env blk t) := by
  have nothing : maturateNext env.database blk s = .ok () s := by
    unfold maturateNext
    rw [if_neg fun due => absurd due.1 (lt_irrefl (0 : Int))]
    rfl
  have tables : ∀ t', maturateNext env blk t = .ok () t' → Same s t' := by
    intro t' run
    have keeps : Keeps (fun u : Ledger => (u.db, u.pending)) (maturateNext env blk) :=
      maturateNext_keeps (fun _ _ => rfl) (fun _ _ => rfl) blk
    have kept := keeps.ok run
    obtain ⟨db, pending⟩ := Prod.mk.inj kept
    exact ⟨by rw [db]; exact same.db, by rw [pending]; exact same.pending⟩
  have moved : ∃ t', maturateNext env blk t = .ok () t' := by
    unfold maturateNext
    by_cases due : env.validationDepth > 0 ∧ env.chain.maturity blk.height < blk.count
    · rw [if_pos due]
      unfold maturate
      rw [if_neg (by omega)]
      exact ⟨_, rfl⟩
    · rw [if_neg due]
      exact ⟨t, rfl⟩
  obtain ⟨t', run⟩ := moved
  exact agree_of_ok nothing run ⟨rfl, tables t' run⟩

theorem postSubsidy_agree (trie : env.validationDepth ≠ 0)
    (positive : ∀ height, 1 ≤ env.chain.maturity height) (same : Same s t)
    (accounts : Accounts Coins.Spends (matured env.chain.maturity n) good live t.coins)
    (confirmed : Confirmed n t.confirmations) {txn : Transaction} {blk : Blk} (height : blk.height = n)
    (new : ∀ u, IssuedBy env.prim (n + 1) [txn] u → good u)
    (fresh : NoReissue live (txn.issues env.prim))
    (waiting : env.chain.timeStamp30 < blk.time →
      ∀ coin ∈ issuedCoins (env.prim.txnHash txn) txn.outputs 0,
        t.immatureCoinbases.contains coin = false) (fees : Int) :
    Agree (alike Same) (postSubsidy env.database txn blk fees s) (postSubsidy env txn blk fees t) := by
  have count : blk.count = n + 1 := by
    unfold Blk.count
    rw [height]
    omega
  unfold postSubsidy
  refine alike_bind (throwIf_agree _ _ same) fun _ s1 t1 checked same => ?_
  obtain ⟨-, rfl⟩ := throwIf_ok.mp checked
  refine alike_bind (confirmCoinbase_agree same confirmed txn (by omega)) fun cnf s2 t2 confirming same => ?_
  obtain ⟨rfl, confirmed⟩ := confirmCoinbase_number confirmed (by omega) confirming
  have second : t2.coins = t.coins := (confirmCoinbase_keeps coins_confirmations _ _).ok confirming
  refine alike_bind (throwIf_agree _ _ same) fun _ s3 t3 enough same => ?_
  obtain ⟨-, rfl⟩ := throwIf_ok.mp enough
  cases inputs : txn.inputs with
  | nil => exact trivial
  | cons input inputs =>
    refine alike_bind (recordCoinbase_agree same _ _ input) fun _ s4 t4 recorded same => ?_
    have third : t4.coins = t.coins :=
      ((recordCoinbase_keeps coins_spendings _ _ _).ok recorded).trans second
    rw [← third] at accounts
    have immature : t4.immatureCoinbases = t.immatureCoinbases := congrArg Coins.immatureCoinbases third
    rw [count]
    obtain ⟨kind, signed⟩ := @Confirmation.signed_coinbase { cnf := -((n : Int) + 1), count := n + 1 }
      (show -((n : Int) + 1) < 0 by omega)
    have notYet := matured_next positive n
    refine alike_bind (issueCoinbase_agree trie same accounts fresh kind (by rw [signed]; exact notYet)
      (fun only => by rw [immature]; exact waiting (of_decide_eq_true only))
      (fun output i coin within => new _ ⟨txn, List.mem_singleton_self txn, rfl,
        by rw [Nat.zero_add] at within; exact within, .inr ⟨signed, rfl⟩⟩)) fun _ s5 t5 _ same => ?_
    exact maturateNext_agree same blk

theorem insertBlockHeader_agree (same : Same s t) (count : Int) (block : Block) :
    Agree (alike Same) (insertBlockHeader env.database count block s)
      (insertBlockHeader env count block t) := by
  refine agree_bind (query_agree (blind_insertBlock _ _) same) fun _ s' _ t' _ _ holds => ?_
  show Agree _ ((if (env.chain.adhereAuxPow && hasAuxPow block.version) = true then _ else _ :
    LedgerM Unit) s') _
  by_cases aux : (env.chain.adhereAuxPow && hasAuxPow block.version) = true
  · rw [if_pos aux, if_pos aux]
    exact insert_agree (blind_insertAuxProofOfWork _) holds.1
  · rw [if_neg aux, if_neg aux]
    exact pure_agree () holds.1

/-- The modes attach a block alike that issues no coin again, when the trie sorts the coins that it
spends as the test of database mode does. -/
theorem attach_agree (trie : 0 < env.validationDepth)
    (positive : ∀ height, 1 ≤ env.chain.maturity height)
    (tables : s.db = { t.db with unspentIndex := true })
    (accounts : Accounts Coins.Spends (matured env.chain.maturity n) good live t.coins)
    (confirmed : Confirmed n t.confirmations) {blk : Blk} {block : Block} (height : blk.height = n)
    (new : ∀ u, IssuedBy env.prim (n + 1) block.transactions u → good u)
    (fresh : NoReissue live (block.events env.prim))
    (fit : ∀ txn ∈ block.transactions.tail, ∀ input ∈ txn.inputs, ∀ u, good u →
      u.key = input.prevout → Fit env (matured env.chain.maturity n) (n + 1) u)
    (waiting : env.chain.timeStamp30 < blk.time → ∀ coin ∈ block.coinbaseCoins env.prim,
      t.immatureCoinbases.contains coin = false) (unconfirmed : Txns) (hashes : Hashes) :
    Agree (alike Same) (attach env.database blk block unconfirmed hashes s)
      (attach env blk block unconfirmed hashes t) := by
  have count : blk.count = n + 1 := by
    unfold Blk.count
    rw [height]
    omega
  unfold attach
  refine alike_bind (R := fun s t => s.db = { t.db with unspentIndex := true })
    (throwIf_agree _ _ tables) fun _ s1 t1 checked tables => ?_
  obtain ⟨-, rfl⟩ := throwIf_ok.mp checked
  refine alike_bind (R := fun s t => s.db = { t.db with unspentIndex := true })
    (throwIf_agree _ _ tables) fun _ s2 t2 final tables => ?_
  obtain ⟨-, rfl⟩ := throwIf_ok.mp final
  have cleared : Agree (alike Same)
      ((modify fun s => { s with pending := [] } : LedgerM Unit) s2)
      ((modify fun s => { s with pending := [] } : LedgerM Unit) t) := ⟨rfl, tables, rfl⟩
  refine alike_bind cleared fun _ s3 t3 cleared same => ?_
  obtain rfl := modify_ok.mp cleared
  refine alike_bind (insertBlockHeader_agree same _ block) fun _ s4 t4 header same => ?_
  have coins : t4.coins = t.coins :=
    (insertBlockHeader_keeps coins_blocks _ _).ok (s := { t with pending := [] }) header
  have confirmations : t4.confirmations = t.confirmations :=
    (insertBlockHeader_keeps confirmations_blocks _ _).ok (s := { t with pending := [] }) header
  rw [← coins] at accounts
  rw [← confirmations] at confirmed
  unfold Block.events at fresh
  rw [noReissue_append] at fresh
  have later : ∀ u, IssuedBy env.prim (n + 1) block.transactions.tail u → good u :=
    fun u ⟨txn, member, issued⟩ => new u ⟨txn, List.mem_of_mem_tail member, issued⟩
  refine alike_bind (postAll_agree (by omega) same accounts confirmed count later fresh.1 fit _ _ _ _ _)
    fun result s5 t5 posted same => ?_
  obtain ⟨fees, unconfirmed', hashes'⟩ := result
  have immature : t5.immatureCoinbases = t.immatureCoinbases :=
    (postAll_immature (Int.natCast_nonneg n) confirmed posted).trans
      ((insertBlockHeader_keeps immature_blocks _ _).ok (s := { t with pending := [] }) header)
  obtain ⟨accounts, confirmed⟩ := postAll_accounts Coins.stable_spends (by omega) accounts confirmed
    count later fresh.1 posted
  unfold Block.coinbaseCoins at waiting
  cases transactions : block.transactions with
  | nil => exact trivial
  | cons coinbase txns =>
    rw [transactions] at new waiting
    have last := fresh.2
    rw [transactions] at accounts last
    refine alike_bind (postSubsidy_agree (by omega) positive same accounts confirmed height
      (fun u ⟨txn, member, issued⟩ =>
        new u ⟨txn, List.mem_cons.mpr (.inl (List.mem_singleton.mp member)), issued⟩) last
      (by rw [immature]; exact waiting) fees) fun _ s6 t6 _ same => get_agree ?_
    rw [same.pending]
    exact alike_bind (throwIf_agree _ _ same) fun _ s7 t7 _ same => pure_agree _ same

end Blocks

/-! ### Runs -/

/-- What `append` makes of a ledger when `attach` throws: the database is rolled back and the spendables
are the snapshot. The immature coinbases have no snapshot. -/
def Ledger.rollback (before after : Ledger) : Ledger :=
  { after with db := before.db, spendables := before.spendables }

/-- The offer of the same block on a tip with `n` blocks. -/
def Offer.onTip (n : Nat) (offer : Offer) : Offer := { offer with blk := { offer.blk with height := n } }

/-- A block is offered on a tip with `n` blocks: whether it is accepted, and the ledger after it. -/
def offerBlock (chain : Chain) (prim : Primitives) (validationDepth : Int) (n : Nat) (offer : Offer)
    (s : Ledger) : Bool × Ledger :=
  match (offer.onTip n).attach chain prim validationDepth s with
  | .ok _ s' => (true, s')
  | .error _ s' => (false, s.rollback s')

/-- Blocks are offered one after the other. -/
def offerAll (chain : Chain) (prim : Primitives) (validationDepth : Int) :
    Nat → List Offer → Ledger → List Bool × Ledger
  | _, [], s => ([], s)
  | n, offer :: offers, s =>
    let one := offerBlock chain prim validationDepth n offer s
    let rest := offerAll chain prim validationDepth (if one.1 then n + 1 else n) offers one.2
    (one.1 :: rest.1, rest.2)

theorem offerAll_cons (chain : Chain) (prim : Primitives) (validationDepth : Int) (n : Nat)
    (offer : Offer) (offers : List Offer) (s : Ledger) :
    offerAll chain prim validationDepth n (offer :: offers) s =
      ((offerBlock chain prim validationDepth n offer s).1 ::
        (offerAll chain prim validationDepth
          (if (offerBlock chain prim validationDepth n offer s).1 then n + 1 else n) offers
          (offerBlock chain prim validationDepth n offer s).2).1,
        (offerAll chain prim validationDepth
          (if (offerBlock chain prim validationDepth n offer s).1 then n + 1 else n) offers
          (offerBlock chain prim validationDepth n offer s).2).2) := rfl

/-- The keys of the rows. -/
def Ledger.keys (s : Ledger) : List Coin := s.db.unspents.rows.toList.map fun entry => entry.2.key

/-- The condition on a block that is offered on a tip with `n` blocks, in trie mode. -/
structure Clean (chain : Chain) (prim : Primitives) (n : Nat) (offer : Offer) (s : Ledger) : Prop where
  fresh : NoReissue s.keys (offer.block.events prim)
  waiting : chain.timeStamp30 < offer.blk.time → ∀ coin ∈ offer.block.coinbaseCoins prim,
    s.immatureCoinbases.contains coin = false
  small : ∀ txn ∈ offer.block.transactions, prim.txnHash txn = 0 → txn.outputs.length ≤ 0xffffffff
  genesis : chain.maturity n ≤ n → ∀ txn ∈ offer.block.transactions.tail, ∀ input ∈ txn.inputs,
    ∀ entry ∈ s.db.unspents.rows.toList, entry.2.key = input.prevout → entry.2.count ≠ -1

instance (chain : Chain) (prim : Primitives) (n : Nat) (offer : Offer) (s : Ledger) :
    Decidable (Clean chain prim n offer s) :=
  decidable_of_iff (_ ∧ _ ∧ _ ∧ _)
    ⟨fun ⟨fresh, waiting, small, genesis⟩ => ⟨fresh, waiting, small, genesis⟩,
      fun ⟨fresh, waiting, small, genesis⟩ => ⟨fresh, waiting, small, genesis⟩⟩

/-- Every block of a run in trie mode meets the condition. -/
def CleanRun (chain : Chain) (prim : Primitives) (validationDepth : Int) :
    Nat → List Offer → Ledger → Prop
  | _, [], _ => True
  | n, offer :: offers, s =>
    let one := offerBlock chain prim validationDepth n offer s
    Clean chain prim n offer s ∧
      CleanRun chain prim validationDepth (if one.1 then n + 1 else n) offers one.2

instance decidableCleanRun (chain : Chain) (prim : Primitives) (validationDepth : Int) :
    ∀ n offers s, Decidable (CleanRun chain prim validationDepth n offers s)
  | _, [], _ => isTrue trivial
  | n, offer :: offers, s =>
    have := decidableCleanRun chain prim validationDepth
      (if (offerBlock chain prim validationDepth n offer s).1 then n + 1 else n) offers
      (offerBlock chain prim validationDepth n offer s).2
    inferInstanceAs (Decidable (Clean chain prim n offer s ∧ CleanRun chain prim validationDepth
      (if (offerBlock chain prim validationDepth n offer s).1 then n + 1 else n) offers
      (offerBlock chain prim validationDepth n offer s).2))

theorem mem_keys {key : Coin} : (∃ u, s.coins.Holds u ∧ u.key = key) ↔ key ∈ s.keys := by
  unfold Ledger.keys
  rw [List.mem_map]
  constructor
  · rintro ⟨u, held, rfl⟩
    exact ⟨(u.coin, u.row), Map.mem_toList.mpr held, rfl⟩
  · rintro ⟨⟨coin, row⟩, member, rfl⟩
    exact ⟨row.unspent coin, Map.mem_toList.mp member, rfl⟩

/-- What is true of the rows after `n` blocks. -/
def Sound (n : Int) (u : Unspent) : Prop := Counted n u ∧ u.cnf ≠ 0 ∧ u.key ≠ Coin.null

/-- The two ledgers between the blocks of a run. -/
structure Twins (maturity : Int → Int) (n : Nat) (s t : Ledger) : Prop where
  tables : s.db = { t.db with unspentIndex := true }
  accounts : Accounts Coins.Spends (matured maturity n) (Sound n) t.keys t.coins
  confirmed : Confirmed n t.confirmations

section Runs

variable {chain : Chain} {prim : Primitives} {validationDepth m : Int}

theorem IssuedBy.sound {transactions : List Transaction} {n : Nat} {u : Unspent}
    (small : ∀ txn ∈ transactions, prim.txnHash txn = 0 → txn.outputs.length ≤ 0xffffffff)
    (issued : IssuedBy prim (n + 1) transactions u) : Sound (n + 1) u := by
  have counted := issued.counted
  obtain ⟨txn, member, hash, index, which⟩ := issued
  refine ⟨counted, by omega, fun null => ?_⟩
  have zero : prim.txnHash txn = 0 := by rw [← hash, null]; rfl
  have bound := small txn member zero
  rw [null] at index
  have : (0xffffffff : Nat) < txn.outputs.length := index
  omega

/-- A sound row of a coin that a clean block spends. -/
theorem sound_fit {env : Setting} (constant : ∀ height, env.chain.maturity height = m) (positive : 1 ≤ m)
    {n : Nat} {u : Unspent} (sound : Sound (n + 1) u) (genesis : u.count = -1 → ¬ m ≤ n) :
    Fit env (matured env.chain.maturity n) (n + 1) u := by
  obtain ⟨counted, confirmed, notNull⟩ := sound
  refine ⟨confirmed, notNull, ?_⟩
  rw [constant]
  unfold Counted at counted
  rcases lt_or_gt_of_ne counted.1 with negative | above
  · rw [matured_const constant positive n negative]
    omega
  · rw [matured_of_pos _ _ above]
    exact iff_of_true rfl fun both => absurd both.1 (by omega)

/-- One block: both modes accept it or both reject it. -/
theorem offerBlock_agree (constant : ∀ height, chain.maturity height = m) (positive : 1 ≤ m)
    (trie : 0 < validationDepth) {n : Nat} (twins : Twins chain.maturity n s t) {offer : Offer}
    (clean : Clean chain prim n offer t) :
    (offerBlock chain prim 0 n offer s).1 = (offerBlock chain prim validationDepth n offer t).1 ∧
      Twins chain.maturity (if (offerBlock chain prim validationDepth n offer t).1 then n + 1 else n)
        (offerBlock chain prim 0 n offer s).2 (offerBlock chain prim validationDepth n offer t).2 := by
  -- the coinbase of the genesis, once it is old enough, is not spent by this block
  let good : Unspent → Prop := fun u => Sound (n + 1) u ∧
    (u.count = -1 → m ≤ n → ∀ txn ∈ offer.block.transactions.tail, ∀ input ∈ txn.inputs,
      u.key ≠ input.prevout)
  have allPositive : ∀ height, 1 ≤ chain.maturity height := fun height => by
    rw [constant]
    exact positive
  have accounts : Accounts Coins.Spends (matured chain.maturity n) good t.keys t.coins :=
    twins.accounts.congr (fun _ => Iff.rfl) fun u held sound =>
      ⟨⟨sound.1.next, sound.2⟩, fun one due txn member input inside same =>
        clean.genesis (by rw [constant]; exact due) txn member input inside (u.coin, u.row)
          (Map.mem_toList.mpr held) same one⟩
  have new : ∀ u, IssuedBy prim (n + 1) offer.block.transactions u → good u := fun u issued => by
    refine ⟨issued.sound clean.small, fun one due => ?_⟩
    obtain ⟨-, -, -, -, which⟩ := issued
    omega
  have fit : ∀ txn ∈ offer.block.transactions.tail, ∀ input ∈ txn.inputs, ∀ u, good u →
      u.key = input.prevout → Fit ((offer.onTip n).setting chain prim validationDepth)
        (matured chain.maturity n) (n + 1) u := fun txn member input inside u isGood same =>
    sound_fit constant positive isGood.1 fun one due => isGood.2 one due txn member input inside same
  have height : (offer.onTip n).blk.height = n := rfl
  have waiting : chain.timeStamp30 < (offer.onTip n).blk.time →
      ∀ coin ∈ offer.block.coinbaseCoins prim, t.immatureCoinbases.contains coin = false := clean.waiting
  have agree : Agree (alike Same)
      (attach ((offer.onTip n).setting chain prim validationDepth).database (offer.onTip n).blk offer.block
        offer.unconfirmed offer.confirmed s)
      (attach ((offer.onTip n).setting chain prim validationDepth) (offer.onTip n).blk offer.block
        offer.unconfirmed offer.confirmed t) :=
    attach_agree trie allPositive twins.tables accounts twins.confirmed height new clean.fresh fit
      waiting _ _
  have agree : Agree (alike Same) ((offer.onTip n).attach chain prim 0 s)
      ((offer.onTip n).attach chain prim validationDepth t) := agree
  unfold offerBlock
  cases second : (offer.onTip n).attach chain prim validationDepth t with
  | ok result t' =>
    obtain ⟨_, s', first, -, same⟩ := agree.right second
    have attached : attach ((offer.onTip n).setting chain prim validationDepth) (offer.onTip n).blk
      offer.block offer.unconfirmed offer.confirmed t = .ok result t' := second
    obtain ⟨accounts, confirmed⟩ := attach_accounts Coins.stable_spends trie allPositive accounts
      twins.confirmed height new clean.fresh attached
    rw [first]
    refine ⟨rfl, same.db, ?_, by exact_mod_cast confirmed⟩
    have counted : Accounts Coins.Spends (matured chain.maturity (n + 1)) (Sound (n + 1)) t'.keys
        t'.coins :=
      accounts.congr (fun key => (accounts.live key).symm.trans mem_keys) fun _ _ => And.left
    exact_mod_cast counted
  | error fault t' =>
    cases first : (offer.onTip n).attach chain prim 0 s with
    | ok result s' =>
      obtain ⟨_, _, accepted, -⟩ := agree.left first
      rw [second] at accepted
      cases accepted
    | error fault' s' =>
      have kept := twins.accounts
      exact ⟨rfl, twins.tables, ⟨⟨kept.sorted.unindexed, kept.sorted.distinct, kept.sorted.spendable⟩,
        kept.live, kept.rows⟩, twins.confirmed⟩

theorem offerAll_agree (constant : ∀ height, chain.maturity height = m) (positive : 1 ≤ m)
    (trie : 0 < validationDepth) {n : Nat} (twins : Twins chain.maturity n s t) {offers : List Offer}
    (clean : CleanRun chain prim validationDepth n offers t) :
    (offerAll chain prim 0 n offers s).1 = (offerAll chain prim validationDepth n offers t).1 ∧
      (offerAll chain prim 0 n offers s).2.db.unspents =
        (offerAll chain prim validationDepth n offers t).2.db.unspents := by
  induction offers generalizing n s t with
  | nil =>
    have rows : s.db.unspents = t.db.unspents := by
      rw [twins.tables]
    exact ⟨rfl, rows⟩
  | cons offer offers ih =>
    obtain ⟨same, twins⟩ := offerBlock_agree constant positive trie twins clean.1
    obtain ⟨rest, rows⟩ := ih twins clean.2
    rw [offerAll_cons, offerAll_cons, same]
    exact ⟨congrArg (List.cons _) rest, rows⟩

theorem twins_empty (maturity : Int → Int) :
    Twins maturity 0 (Ledger.empty true) (Ledger.empty false) := by
  have accounts := accounts_empty (matured maturity 0) (Sound 0)
  refine ⟨rfl, ⟨accounts.sorted.toSpends, fun key => mem_keys, accounts.rows⟩, confirmed_empty false⟩

/-- From fresh tables on, the genesis being the first block, the modes agree on every run whose blocks
are clean: on which blocks are accepted, and on the rows of the unspents. -/
theorem offerAll_modes (constant : ∀ height, chain.maturity height = m) (positive : 1 ≤ m)
    (trie : 0 < validationDepth) {offers : List Offer}
    (clean : CleanRun chain prim validationDepth 0 offers (Ledger.empty false)) :
    (offerAll chain prim 0 0 offers (Ledger.empty true)).1 =
        (offerAll chain prim validationDepth 0 offers (Ledger.empty false)).1 ∧
      (offerAll chain prim 0 0 offers (Ledger.empty true)).2.db.unspents =
        (offerAll chain prim validationDepth 0 offers (Ledger.empty false)).2.db.unspents :=
  offerAll_agree constant positive trie (twins_empty chain.maturity) clean

end Runs

namespace Small

/-- Blocks after the genesis: the coinbase of the second is spent by the third, too early, and by the
fourth. -/
def spending : List Offer :=
  [offer 1 0 [coinbase 100 [50]], offer 2 0 [coinbase 101 [50]],
    offer 3 0 [coinbase 102 [50], spend 103 [(101, 0)] [50]], offer 4 0 [coinbase 104 [50]],
    offer 5 0 [coinbase 105 [50], spend 106 [(101, 0)] [20, 30]]]

/-- The third block spends the coinbase of the genesis. -/
def spendingGenesis : List Offer :=
  [offer 1 0 [coinbase 100 [50]], offer 2 0 [coinbase 101 [50]],
    offer 3 0 [coinbase 102 [50], spend 103 [(100, 0)] [50]]]

end Small

open Libcoin.Small

/-- A coinbase of maturity 2 that is spent too early is rejected in both modes, and later accepted. -/
theorem offerAll_modes_spending :
    (offerAll (chain 2) prim 0 0 spending (Ledger.empty true)).1 =
      (offerAll (chain 2) prim 1 0 spending (Ledger.empty false)).1 ∧
    (offerAll (chain 2) prim 1 0 spending (Ledger.empty false)).1 = [true, true, false, true, true] :=
  ⟨(offerAll_modes (m := 2) (fun _ => rfl) (by decide) (by decide) (by decide +kernel)).1,
    by decide +kernel⟩

/-- The coinbase of the genesis is spent in database mode, and refused in trie mode. -/
theorem offerAll_genesis :
    (offerAll (chain 2) prim 0 0 spendingGenesis (Ledger.empty true)).1 = [true, true, true] ∧
    (offerAll (chain 2) prim 1 0 spendingGenesis (Ledger.empty false)).1 = [true, true, false] := by
  decide +kernel

end Libcoin
