/-
The rows of `Confirmations` that a block adds, and those that are deleted.

* `attach_confirmations`: a block that is stored adds a row for each of its transactions, numbered one after the
  other, and the row of its coinbase, with minus its count. A block that is not stored adds none.
* `Tallied` is kept by blocks that are attached and detached, and by purges: the rows of a count are as many as
  the transactions of the block there, or none.
-/

import Libcoin.Library.Entries
import Libcoin.Ledger.Stock
import Libcoin.Ledger.Tries

namespace Libcoin

open Exec Map

/-- No row has a number that was not given out. -/
def Table.Ordered {Row : Type} (t : Table Row) : Prop := ∀ (key : Int) row, t.rows[key]? = some row → key ≤ t.seq

namespace Table.Ordered

variable {Row : Type} {t : Table Row}

theorem nextId_eq (ordered : t.Ordered) : t.nextId = t.seq + 1 := by
  refine congrArg (· + 1) (le_antisymm ?_ (Table.foldl_max_ge _ _).1)
  have below : ∀ key ∈ t.rows.keys, key ≤ t.seq := by
    intro key member
    rw [Std.ExtTreeMap.mem_keys, ← Std.ExtTreeMap.isSome_getElem?_iff_mem] at member
    obtain ⟨row, found⟩ := Option.isSome_iff_exists.mp member
    exact ordered key row found
  generalize t.rows.keys = keys at below
  induction keys with
  | nil => exact le_rfl
  | cons key keys ih =>
    rw [List.foldl_cons, max_eq_left (below key List.mem_cons_self)]
    exact ih fun other member => below other (List.mem_cons_of_mem _ member)

theorem insertAuto (t : Table Row) (row : Row) : (t.insertAuto row).Ordered := by
  intro key other found
  rcases Map.lookup_of_insert found with ⟨rfl, -⟩ | old
  · exact le_rfl
  · exact (t.key_lt_nextId old).le

theorem insertAt (ordered : t.Ordered) (key : Int) (row : Row) : (t.insertAt key row).Ordered := by
  intro other row' found
  rcases Map.lookup_of_insert found with ⟨rfl, -⟩ | old
  · exact le_max_right _ _
  · exact (ordered other row' old).trans (le_max_left _ _)

theorem deleteWhere (ordered : t.Ordered) (cond : Int → Row → Bool) : (t.deleteWhere cond).Ordered :=
  fun key row found => ordered key row ((Map.lookup_filter_eq_some _ _ _ _).mp found).1

end Table.Ordered

/-- The row of a transaction. -/
def confirmationRow (txn : Transaction) (count idx : Int) : ConfirmationRow :=
  { version := txn.version, lockTime := txn.lockTime, count := count, idx := idx }

theorem Table.nextId_insertAuto {Row : Type} (t : Table Row) (row : Row) :
    (t.insertAuto row).nextId = t.nextId + 1 := (Table.Ordered.insertAuto t row).nextId_eq

/-- The rows of transactions, with their numbers. -/
def confirmationRows (count : Int) : List Transaction → Int → Int → List (Int × ConfirmationRow)
  | [], _, _ => []
  | txn :: txns, idx, cnf => (cnf, confirmationRow txn count idx) :: confirmationRows count txns (idx + 1)
    (cnf + 1)

theorem confirmationRows_length (count : Int) (txns : List Transaction) (idx cnf : Int) :
    (confirmationRows count txns idx cnf).length = txns.length := by
  induction txns generalizing idx cnf with
  | nil => rfl
  | cons txn txns ih => exact congrArg (· + 1) (ih _ _)

theorem mem_confirmationRows {count : Int} {txns : List Transaction} {idx cnf : Int}
    {entry : Int × ConfirmationRow}
    (member : entry ∈ confirmationRows count txns idx cnf) : cnf ≤ entry.1 ∧ entry.2.count = count := by
  induction txns generalizing idx cnf with
  | nil => cases member
  | cons txn txns ih =>
    rcases List.mem_cons.mp member with rfl | member
    · exact ⟨le_rfl, rfl⟩
    · obtain ⟨above, same⟩ := ih member
      exact ⟨by omega, same⟩

/-- The rows are in the order of the transactions. -/
theorem confirmationRows_pairwise (count : Int) (txns : List Transaction) (idx cnf : Int) :
    (confirmationRows count txns idx cnf).Pairwise (fun first second => first.2.idx < second.2.idx) ∧
      ∀ entry ∈ confirmationRows count txns idx cnf, idx ≤ entry.2.idx := by
  induction txns generalizing idx cnf with
  | nil => exact ⟨List.Pairwise.nil, nofun⟩
  | cons txn txns ih =>
    obtain ⟨order, above⟩ := ih (idx + 1) (cnf + 1)
    refine ⟨List.pairwise_cons.mpr ⟨fun entry member => ?_, order⟩, fun entry member => ?_⟩
    · have later := above entry member
      show idx < entry.2.idx
      omega
    · rcases List.mem_cons.mp member with rfl | member
      · exact le_rfl
      · have later := above entry member
        omega

section Blocks

variable {env : Setting} {s s' : Ledger}

/-! ### Transactions -/

theorem confirm_confirmations {txn : Transaction} {count idx cnf : Int}
    (run : confirm env txn count idx s = .ok cnf s') :
    if env.purgeDepth ≤ count then
      cnf = s.confirmations.nextId ∧ s'.confirmations = s.confirmations.insertAuto (confirmationRow txn count idx)
    else cnf = locktimeThreshold ∧ s'.confirmations = s.confirmations := by
  unfold confirm at run
  split_ifs at run ⊢ with stored
  · rw [query_ok] at run
    obtain ⟨rfl, rfl⟩ := Prod.mk.inj run
    exact ⟨rfl, rfl⟩
  · obtain ⟨rfl, rfl⟩ := pure_ok.mp run
    exact ⟨rfl, rfl⟩

theorem postTransaction_confirmations {txn : Transaction} {fees minFee fees' : Int} {blk : Blk} {idx : Int}
    {verify : Bool} (run : postTransaction env txn fees minFee blk idx verify s = .ok fees' s') :
    s'.confirmations =
      if env.purgeDepth ≤ blk.count then s.confirmations.insertAuto (confirmationRow txn blk.count idx)
      else s.confirmations := by
  obtain ⟨cnf, one, ignoreRules, valueIn, op, scripts, two, op', confirm, redeemed, -, -, -, issued⟩ :=
    postTransaction_ok run
  have first := (redeemAll_keeps confirmations_unspents confirmations_spendings confirmations_spendables
    _ _ _ _ _ _).ok redeemed
  have pushed (verification : Verification) : (two.pushed verify verification).confirmations =
    two.confirmations := by
    unfold Ledger.pushed
    split <;> rfl
  have second := (issueAll_keeps confirmations_unspents confirmations_names confirmations_spendables
    _ _ _ _ _ _ fun _ => confirmations_immature).ok issued
  rw [second, pushed, first]
  have confirmed := confirm_confirmations confirm
  split_ifs at confirmed ⊢
  · exact confirmed.2
  · exact confirmed.2

/-- The rows that a block adds to a table for its transactions, or none. -/
theorem postAll_confirmations {blk : Blk} {txns : List Transaction} {idx fees : Int} {verify : Bool}
    {unconfirmed : Txns} {confirmed : Hashes} {result : Int × Txns × Hashes}
    (run : postAll env blk txns idx fees verify unconfirmed confirmed s = .ok result s') :
    entries s'.confirmations.rows = entries s.confirmations.rows +
      (if env.purgeDepth ≤ blk.count then confirmationRows blk.count txns idx s.confirmations.nextId else [] :
        List (Int × ConfirmationRow)) := by
  induction txns generalizing idx fees verify unconfirmed confirmed s with
  | nil =>
    obtain ⟨-, rfl⟩ := pure_ok.mp run
    split <;> exact (add_zero _).symm
  | cons txn txns ih =>
    unfold postAll at run
    obtain ⟨fees', mid, posted, run⟩ := bind_ok.mp run
    have first := postTransaction_confirmations posted
    rw [ih run]
    split_ifs at first ⊢ with stored
    · rw [first, Table.nextId_insertAuto]
      have added := entries_insert s.confirmations.nextId_fresh (confirmationRow txn blk.count idx)
      show entries (s.confirmations.rows.insert _ _) + _ = _
      rw [added, Multiset.cons_add, confirmationRows, ← Multiset.cons_coe, Multiset.add_cons]
    · rw [first]

/-- The numbers that are given out for them. -/
theorem postAll_ordered {blk : Blk} {txns : List Transaction} {idx fees : Int} {verify : Bool}
    {unconfirmed : Txns} {confirmed : Hashes} {result : Int × Txns × Hashes} (ordered : s.confirmations.Ordered)
    (run : postAll env blk txns idx fees verify unconfirmed confirmed s = .ok result s') :
    s'.confirmations.Ordered ∧
      s'.confirmations.seq = s.confirmations.seq + if env.purgeDepth ≤ blk.count then txns.length else 0 := by
  induction txns generalizing idx fees verify unconfirmed confirmed s with
  | nil =>
    obtain ⟨-, rfl⟩ := pure_ok.mp run
    refine ⟨ordered, ?_⟩
    split <;> simp
  | cons txn txns ih =>
    unfold postAll at run
    obtain ⟨fees', mid, posted, run⟩ := bind_ok.mp run
    have first := postTransaction_confirmations posted
    split_ifs at first with stored
    · obtain ⟨rest, last⟩ := ih (by rw [first]; exact Table.Ordered.insertAuto _ _) run
      have grown : mid.confirmations.seq = s.confirmations.seq + 1 := by
        rw [first]
        exact ordered.nextId_eq
      rw [if_pos stored] at last ⊢
      refine ⟨rest, ?_⟩
      rw [last, grown, List.length_cons]
      push_cast
      ring
    · rw [← first] at ordered
      rw [← first]
      exact (ih ordered run).imp_right fun last => by rwa [if_neg stored] at last ⊢

/-- No transaction gets the number of a coinbase. -/
theorem postAll_free {blk : Blk} {txns : List Transaction} {idx fees : Int} {verify : Bool}
    {unconfirmed : Txns} {confirmed : Hashes} {result : Int × Txns × Hashes} (start : 0 ≤ s.confirmations.seq)
    (free : s.confirmations.rows[-blk.count]? = none)
    (run : postAll env blk txns idx fees verify unconfirmed confirmed s = .ok result s') :
    s'.confirmations.rows[-blk.count]? = none := by
  have positive := blk.count_pos
  cases found : s'.confirmations.rows[-blk.count]? with
  | none => rfl
  | some row =>
    have member := mem_entries.mpr found
    rw [postAll_confirmations run] at member
    rcases Multiset.mem_add.mp member with old | new
    · rw [mem_entries, free] at old
      cases old
    · split_ifs at new
      · have above : s.confirmations.nextId ≤ -blk.count := (mem_confirmationRows (Multiset.mem_coe.mp new)).1
        have next := s.confirmations.seq_lt_nextId
        omega
      · cases new

/-! ### The coinbase -/

theorem confirmCoinbase_confirmations {txn : Transaction} {count cnf : Int}
    (free : s.confirmations.rows[-count]? = none) (run : confirmCoinbase env txn count s = .ok cnf s') :
    cnf = -count ∧ s'.confirmations =
      if env.purgeDepth ≤ count then s.confirmations.insertAt (-count) (confirmationRow txn count 0)
      else s.confirmations := by
  unfold confirmCoinbase at run
  split_ifs at run ⊢ with stored
  · rw [query_ok] at run
    have inserted : s.afterQuery (Database.insertConfirmationAt (-count) (confirmationRow txn count 0)) =
        (-count, { s with
          db := { s.db with confirmations := s.db.confirmations.insertAt (-count) (confirmationRow txn count 0) }
          lastRowid := -count }) := by
      unfold Ledger.afterQuery Database.insertConfirmationAt
      rw [show s.db.confirmations.rows.contains (-count) = false from Map.contains_of_absent free]
      rfl
    obtain ⟨rfl, rfl⟩ := Prod.mk.inj (inserted.symm.trans run)
    exact ⟨rfl, rfl⟩
  · obtain ⟨rfl, rfl⟩ := pure_ok.mp run
    exact ⟨rfl, rfl⟩

theorem postSubsidy_confirmations {txn : Transaction} {blk : Blk} {fees : Int} {done : Unit}
    (free : s.confirmations.rows[-blk.count]? = none) (run : postSubsidy env txn blk fees s = .ok done s') :
    s'.confirmations =
      if env.purgeDepth ≤ blk.count then
        s.confirmations.insertAt (-blk.count) (confirmationRow txn blk.count 0)
      else s.confirmations := by
  obtain ⟨cnf, input, one, two, three, -, -, -, confirmed, -, recorded, issued, matured⟩ := postSubsidy_ok run
  have first := (confirmCoinbase_confirmations free confirmed).2
  have second := (recordCoinbase_keeps confirmations_spendings _ _ _).ok recorded
  have third := (issueCoinbase_keeps confirmations_unspents confirmations_spendables _ _ _ _ _
    fun _ => confirmations_immature).ok issued
  have fourth := (maturateNext_keeps confirmations_spendables confirmations_immature _).ok matured
  rw [fourth, third, second, first]

/-! ### Blocks -/

/-- The rows of a block, the coinbase last. -/
def blockRows (count : Int) (coinbase : Transaction) (txns : List Transaction) (cnf : Int) :
    List (Int × ConfirmationRow) :=
  confirmationRows count txns 1 cnf ++ [(-count, confirmationRow coinbase count 0)]

/-- **The rows that a block adds.** -/
theorem attach_confirmations {blk : Blk} {block : Block} {unconfirmed : Txns} {confirmed : Hashes}
    {result : Txns × Hashes} (start : 0 ≤ s.confirmations.seq) (ordered : s.confirmations.Ordered)
    (free : s.confirmations.rows[-blk.count]? = none)
    (run : attach env blk block unconfirmed confirmed s = .ok result s') :
    ∃ coinbase txns, block.transactions = coinbase :: txns ∧
      entries s'.confirmations.rows = entries s.confirmations.rows +
        (if env.purgeDepth ≤ blk.count then blockRows blk.count coinbase txns s.confirmations.nextId else [] :
          List (Int × ConfirmationRow)) ∧
      s'.confirmations.Ordered ∧
      s'.confirmations.seq = s.confirmations.seq + if env.purgeDepth ≤ blk.count then txns.length else 0 := by
  obtain ⟨coinbase, txns, one, fees, two, transactions, -, -, header, posted, subsidy, -⟩ := attach_ok run
  have same : one.confirmations = s.confirmations :=
    (insertBlockHeader_keeps confirmations_blocks _ _).ok (s := { s with pending := [] }) header
  rw [← same] at start free ordered
  have rows := postAll_confirmations posted
  have free := postAll_free start free posted
  obtain ⟨ordered, grown⟩ := postAll_ordered ordered posted
  rw [same] at start rows grown
  have last := postSubsidy_confirmations free subsidy
  refine ⟨coinbase, txns, transactions, ?_⟩
  split_ifs at last rows grown ⊢
  · rw [last]
    refine ⟨?_, ordered.insertAt _ _, ?_⟩
    · show entries (two.confirmations.rows.insert _ _) = _
      rw [entries_insert free, rows, blockRows, ← Multiset.coe_add, ← add_assoc, ← Multiset.singleton_add,
        add_comm]
      rfl
    · have positive := blk.count_pos
      show max two.confirmations.seq (-blk.count) = _
      omega
  · rw [last]
    exact ⟨rows, ordered, grown⟩

/-! ### Blocks that are detached -/

theorem foldl_rollback_confirmations (cnfs : List Int) (s : Ledger) :
    (cnfs.foldl (fun s cnf => rollbackConfirmation env cnf s) s).confirmations =
      { s.confirmations with rows := eraseAll cnfs s.confirmations.rows } := by
  induction cnfs generalizing s with
  | nil => rfl
  | cons cnf cnfs ih =>
    have first : (rollbackConfirmation env cnf s).confirmations = s.confirmations.delete cnf := by
      unfold rollbackConfirmation Database.rollbackConfirmation
      dsimp only
      split_ifs <;> rfl
    rw [List.foldl_cons, ih, first]
    rfl

/-- The rows of a block that is detached are deleted. -/
theorem rollbackBlock_confirmations (env : Setting) (count : Int) (s : Ledger) :
    (rollbackBlock env count s).confirmations = s.confirmations.deleteWhere fun _ row =>
      decide (row.count = count) := by
  refine (foldl_rollback_confirmations _ s).trans ?_
  refine congrArg (fun rows => ({ s.confirmations with rows := rows } : Table ConfirmationRow)) ?_
  ext cnf : 1
  rw [Map.lookup_eraseAll, Map.lookup_filter]
  have member : cnf ∈ ((s.db.confirmationsOf count).map Prod.fst).reverse ↔
      ∃ row, s.confirmations.rows[cnf]? = some row ∧ row.count = count := by
    rw [List.mem_reverse, List.mem_map]
    constructor
    · rintro ⟨⟨_, row⟩, member, rfl⟩
      obtain ⟨stored, counted⟩ := Table.mem_select.mp ((List.mem_insertionSort _).mp member)
      exact ⟨row, stored, of_decide_eq_true counted⟩
    · rintro ⟨row, stored, counted⟩
      exact ⟨(cnf, row), (List.mem_insertionSort _).mpr
        (Table.mem_select.mpr ⟨stored, decide_eq_true counted⟩), rfl⟩
  cases stored : s.confirmations.rows[cnf]? with
  | none =>
    rw [if_neg (by rw [member, stored]; nofun)]
    rfl
  | some row =>
    by_cases counted : row.count = count
    · rw [if_pos (member.mpr ⟨row, stored, counted⟩)]
      exact (Option.filter_some_neg (by simp [counted])).symm
    · rw [if_neg]
      · exact (Option.filter_some_pos (by simp [counted])).symm
      · rintro known
        obtain ⟨other, same, counted'⟩ := member.mp known
        rw [stored] at same
        cases same
        exact counted counted'

end Blocks

/-! ### As many rows as transactions -/

/-- The rows of a count. -/
def rowsAt (count : Int) (t : Table ConfirmationRow) : Multiset (Int × ConfirmationRow) :=
  (entries t.rows).filter fun entry => entry.2.count = count

theorem confirmationsOf_length (db : Database) (count : Int) :
    (db.confirmationsOf count).length = (rowsAt count db.confirmations).card := by
  unfold Database.confirmationsOf rowsAt
  rw [List.length_insertionSort, ← Multiset.coe_card, coe_select]
  simp

/-- The blocks that are attached have rows for all their transactions, or none. -/
structure Tallied (blocks : List Block) (t : Table ConfirmationRow) : Prop where
  start : 0 ≤ t.seq
  ordered : t.Ordered
  numbered : ∀ (cnf : Int) row, t.rows[cnf]? = some row →
    (cnf = -row.count ∨ 0 < cnf) ∧ 1 ≤ row.count ∧ row.count ≤ blocks.length
  all : ∀ (i : Nat) (lt : i < blocks.length),
    (rowsAt (i + 1) t).card = blocks[i].transactions.length ∨ rowsAt (i + 1) t = 0

namespace Tallied

variable {blocks : List Block} {block : Block} {t : Table ConfirmationRow}

/-- The rows of some counts are deleted. -/
theorem filter (tallied : Tallied blocks t) (drop : Int → Bool) :
    Tallied blocks (t.deleteWhere fun _ row => drop row.count) := by
  refine ⟨tallied.start, tallied.ordered.deleteWhere _, fun cnf row found => ?_, fun i lt => ?_⟩
  · exact tallied.numbered cnf row ((Map.lookup_filter_eq_some _ _ _ _).mp found).1
  · have rows : rowsAt (i + 1) (t.deleteWhere fun _ row => drop row.count) =
        if drop (i + 1) then 0 else rowsAt (i + 1) t := by
      unfold rowsAt Table.deleteWhere
      rw [entries_filter, Multiset.filter_filter]
      split_ifs with dropped
      · refine Multiset.filter_eq_nil.mpr fun entry _ => ?_
        rintro ⟨same, kept⟩
        simp [same, dropped] at kept
      · refine Multiset.filter_congr fun entry _ => ?_
        constructor
        · exact fun both => both.1
        · intro same
          exact ⟨same, by simpa [same] using dropped⟩
    rw [rows]
    split_ifs
    · exact .inr rfl
    · exact tallied.all i lt

/-- The last block is detached. -/
theorem dropLast (tallied : Tallied (blocks ++ [block]) t) :
    Tallied blocks (t.deleteWhere fun _ row => decide (row.count = blocks.length + 1)) := by
  have rest := tallied.filter fun count => decide (count = blocks.length + 1)
  refine ⟨rest.start, rest.ordered, fun cnf row found => ?_, fun i lt => ?_⟩
  · obtain ⟨number, low, high⟩ := rest.numbered cnf row found
    have kept := ((Map.lookup_filter_eq_some _ _ _ _).mp found).2
    rw [List.length_append, List.length_singleton] at high
    have other : row.count ≠ blocks.length + 1 := by simpa using kept
    push_cast at high
    exact ⟨number, low, by omega⟩
  · have all := rest.all i (by rw [List.length_append]; omega)
    rwa [List.getElem_append_left lt] at all

theorem empty : Tallied [] Table.empty where
  start := le_rfl
  ordered cnf row found := by cases found
  numbered cnf row found := by cases found
  all i lt := absurd lt (Nat.not_lt_zero i)

/-- No row has the number of the next coinbase. -/
theorem free (tallied : Tallied blocks t) {count : Int} (next : count = blocks.length + 1) :
    t.rows[-count]? = none := by
  cases found : t.rows[-count]? with
  | none => rfl
  | some row =>
    obtain ⟨number, low, high⟩ := tallied.numbered _ row found
    omega

/-- The next block is attached. -/
theorem attach {env : Setting} {s s' : Ledger} {blk : Blk} {unconfirmed : Txns} {confirmed : Hashes}
    {result : Txns × Hashes} (tallied : Tallied blocks s.confirmations) (next : blk.count = blocks.length + 1)
    (run : Libcoin.attach env blk block unconfirmed confirmed s = .ok result s') :
    Tallied (blocks ++ [block]) s'.confirmations := by
  have free := tallied.free next
  obtain ⟨coinbase, txns, transactions, rows, ordered, grown⟩ :=
    attach_confirmations tallied.start tallied.ordered free run
  have added : ∀ entry ∈ (if env.purgeDepth ≤ blk.count then
      blockRows blk.count coinbase txns s.confirmations.nextId else []),
      entry.2.count = blk.count ∧ (entry.1 = -blk.count ∨ 0 < entry.1) := by
    intro entry member
    split_ifs at member
    · rcases List.mem_append.mp member with member | member
      · obtain ⟨above, same⟩ := mem_confirmationRows member
        have next := s.confirmations.seq_lt_nextId
        have start := tallied.start
        exact ⟨same, .inr (by omega)⟩
      · rw [List.mem_singleton.mp member]
        exact ⟨rfl, .inl rfl⟩
    · cases member
  have start := tallied.start
  refine ⟨by rw [grown]; split <;> omega, ordered, fun cnf row found => ?_, fun i lt => ?_⟩
  · have member := mem_entries.mpr found
    rw [rows] at member
    rw [List.length_append, List.length_singleton]
    push_cast
    rcases Multiset.mem_add.mp member with old | new
    · obtain ⟨number, low, high⟩ := tallied.numbered cnf row (mem_entries.mp old)
      exact ⟨number, low, by omega⟩
    · obtain ⟨counted, number⟩ := added _ (Multiset.mem_coe.mp new)
      have counted : row.count = blk.count := counted
      rw [counted]
      exact ⟨number, by omega, by omega⟩
  · rw [List.length_append, List.length_singleton] at lt
    unfold rowsAt
    rw [rows, Multiset.filter_add]
    rcases Nat.lt_succ_iff_lt_or_eq.mp lt with before | rfl
    · -- the new rows are not those of an earlier block
      have others : Multiset.filter (fun entry : Int × ConfirmationRow => entry.2.count = i + 1)
          (if env.purgeDepth ≤ blk.count then
            blockRows blk.count coinbase txns s.confirmations.nextId else [] : List _) = 0 := by
        refine Multiset.filter_eq_nil.mpr fun entry member same => ?_
        have counted := (added entry (Multiset.mem_coe.mp member)).1
        omega
      rw [others, add_zero, List.getElem_append_left before]
      exact tallied.all i before
    · have none : Multiset.filter (fun entry : Int × ConfirmationRow => entry.2.count = blocks.length + 1)
          (entries s.confirmations.rows) = 0 := by
        refine Multiset.filter_eq_nil.mpr fun entry member same => ?_
        have high := (tallied.numbered entry.1 entry.2 (mem_entries.mp member)).2.2
        omega
      have all : Multiset.filter (fun entry : Int × ConfirmationRow => entry.2.count = blocks.length + 1)
          (if env.purgeDepth ≤ blk.count then
            blockRows blk.count coinbase txns s.confirmations.nextId else [] : List _) = _ :=
        Multiset.filter_eq_self.mpr fun entry member => (added entry (Multiset.mem_coe.mp member)).1.trans next
      rw [none, zero_add, all, List.getElem_append_right le_rfl]
      split_ifs
      · refine .inl ?_
        simp [blockRows, confirmationRows_length, transactions]
      · exact .inr rfl

end Tallied

end Libcoin
