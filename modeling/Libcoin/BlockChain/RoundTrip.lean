/-
Blocks that are read back from the tables.

* `Kept` is a run: blocks are attached one after the other, and purges spare a count.
* `Tidy` says which numbers and keys the tables can have after some blocks, and `Filed` what they have of one
  block: the rows of its confirmations, and under each of their numbers the inputs and the outputs of the
  transaction.
-/

import Libcoin.BlockChain.Append
import Libcoin.BlockChain.Headers
import Libcoin.Ledger.Archive

namespace Libcoin

open Exec Map

/-! ### The auxiliary proofs of work -/

/-- The table of auxiliary proofs of work. -/
def Ledger.auxProofOfWorks (s : Ledger) : Table AuxRow := s.db.auxProofOfWorks

theorem auxs_confirmations : KeepsConfirmations Ledger.auxProofOfWorks where
  next _ := insert_keeps fun _ _ => rfl
  at_ _ _ := insertUnless_keeps fun _ _ => rfl

theorem auxs_unspents : KeepsUnspents Ledger.auxProofOfWorks where
  insert _ := insertUnless_keeps fun _ _ => rfl
  replace _ := insert_keeps fun _ _ => rfl
  delete _ := keeps_modify fun _ => rfl

theorem auxs_spendings : KeepsSpendings Ledger.auxProofOfWorks := fun _ _ => insertUnless_keeps fun _ _ => rfl

theorem auxs_names : KeepsNames Ledger.auxProofOfWorks := fun _ => insertUnless_keeps fun _ _ => rfl

section Blocks

variable {env : Setting} {s s' : Ledger}

/-- The row of a block. -/
def auxRow (env : Setting) (count : Int) (block : Block) : AuxRow :=
  { count := count, hash := env.prim.auxPowHash block.auxPow, auxPow := block.auxPow }

theorem insertBlockHeader_auxs {count : Int} {block : Block} {done : Unit}
    (run : insertBlockHeader env count block s = .ok done s') :
    s'.auxProofOfWorks =
      if env.chain.adhereAuxPow && hasAuxPow block.version then s.auxProofOfWorks.insertNext
        (auxRow env count block)
      else s.auxProofOfWorks := by
  unfold insertBlockHeader at run
  obtain ⟨rowid, mid, inserted, run⟩ := bind_ok.mp run
  have same : mid.auxProofOfWorks = s.auxProofOfWorks :=
    (insertUnless_keeps fun _ _ => rfl : Keeps Ledger.auxProofOfWorks
      (query (Database.insertBlock count _))).ok inserted
  split_ifs at run ⊢
  · obtain ⟨rowid', last, inserted, run⟩ := bind_ok.mp run
    obtain ⟨-, rfl⟩ := pure_ok.mp run
    rw [query_ok] at inserted
    obtain ⟨-, rfl⟩ := Prod.mk.inj inserted
    rw [← same]
    rfl
  · obtain ⟨-, rfl⟩ := pure_ok.mp run
    exact same

/-- A block with an auxiliary proof of work stores it. -/
theorem attach_auxs {blk : Blk} {block : Block} {unconfirmed : Txns} {confirmed : Hashes} {result : Txns × Hashes}
    (run : attach env blk block unconfirmed confirmed s = .ok result s') :
    s'.auxProofOfWorks =
      if env.chain.adhereAuxPow && hasAuxPow block.version then
        s.auxProofOfWorks.insertNext (auxRow env blk.count block)
      else s.auxProofOfWorks := by
  obtain ⟨coinbase, txns, one, fees, two, transactions, -, -, header, posted, subsidy, -⟩ := attach_ok run
  have first := (postAll_keeps auxs_confirmations auxs_unspents auxs_spendings auxs_names (fun _ _ => rfl)
    (fun _ _ => rfl) (fun _ _ => rfl) _ _ _ _ _ _ _).ok posted
  have second := (postSubsidy_keeps auxs_confirmations auxs_unspents auxs_spendings (fun _ _ =>
    rfl) (fun _ _ => rfl)
    _ _ _).ok subsidy
  rw [second, first]
  exact insertBlockHeader_auxs (s := { s with pending := [] }) header

end Blocks

/-! ### What the tables can have -/

/-- The hashes of the transactions of blocks. -/
def txnHashes (prim : Primitives) (blocks : List Block) : List Uint256 :=
  blocks.flatMap fun block => block.transactions.map prim.txnHash

theorem txnHashes_append (prim : Primitives) (offers : List Offer) (offer : Offer) :
    txnHashes prim ((offers ++ [offer]).map Offer.block) =
      txnHashes prim (offers.map Offer.block) ++ offer.block.transactions.map prim.txnHash := by
  unfold txnHashes
  rw [List.map_append, List.flatMap_append, List.map_singleton, List.flatMap_singleton]

/-- The numbers and keys in the tables after some blocks. -/
structure Tidy (prim : Primitives) (validationDepth : Int) (offers : List Offer) (s : Ledger) : Prop where
  sound : s.stock.Sound validationDepth
  held : s.stock.Held validationDepth
  tallied : Tallied (offers.map Offer.block) s.confirmations
  few : s.confirmations.seq ≤ (offers.map fun offer => (offer.block.transactions.length : Int)).sum
  inputs : ∀ entry ∈ s.stock.inputs, -(offers.length : Int) ≤ entry.1 ∧ entry.1 ≤ s.confirmations.seq
  outputs : ∀ entry ∈ s.stock.outputs, -(offers.length : Int) ≤ entry.1 ∧
    (entry.1 ≤ s.confirmations.seq ∨
      entry.1 = locktimeThreshold ∧ ∃ offer ∈ offers, offer.blk.count < offer.purgeDepth)
  spendings : ∀ (coin : Int) row, s.stock.spendings[coin]? = some row → -(offers.length : Int) ≤ coin
  keys : ∀ key, s.stock.HasRow key → key.hash ∈ txnHashes prim (offers.map Offer.block)
  blocks : ∀ (count : Int) row, s.blocks[count]? = some row → count ≤ offers.length
  auxs : ∀ (id : Int) row, s.auxProofOfWorks.rows[id]? = some row → row.count ≤ offers.length

section Tidy

variable {chain : Chain} {prim : Primitives} {validationDepth : Int} {offers : List Offer} {offer : Offer}
  {s s' : Ledger}

theorem Tidy.empty {unspentIndex : Bool} (trie : validationDepth ≠ 0 → unspentIndex = false) :
    Tidy prim validationDepth [] (Ledger.empty unspentIndex) where
  sound := sound_empty trie
  held _ key unspent found := by
    have found : (∅ : Map Coin Unspent)[key]? = some unspent := found
    simp at found
  tallied := Tallied.empty
  few := le_rfl
  inputs entry member := by cases member
  outputs entry member := by cases member
  spendings coin row found := by
    have found : (∅ : Map Int Spending)[coin]? = some row := found
    simp at found
  keys key there := by
    obtain ⟨coin, row, found, -⟩ := there
    have found : (∅ : Map Int UnspentRow)[coin]? = some row := found
    simp at found
  blocks count row found := by
    have found : (∅ : Map Int BlockRow)[count]? = some row := found
    simp at found
  auxs id row found := by
    have found : (∅ : Map Int AuxRow)[id]? = some row := found
    simp at found

/-- What the next block, whose transactions are new, adds. -/
theorem Tidy.files (tidy : Tidy prim validationDepth offers s) (next : offer.blk.count = offers.length + 1)
    (apart : (txnHashes prim ((offers ++ [offer]).map Offer.block)).Nodup) {result : Txns × Hashes}
    (run : offer.attach chain prim validationDepth s = .ok result s') :
    ∃ coinbase txns valueIn, offer.block.transactions = coinbase :: txns ∧
      Stock.Files validationDepth (offer.purgeDepth ≤ offer.blk.count)
        (ifStored (offer.setting chain prim validationDepth) offer.blk.count
          (allInputs (numberedBlock (offer.setting chain prim validationDepth) offer.blk.count coinbase txns
            s.confirmations.nextId)))
        (ifStored (offer.setting chain prim validationDepth) offer.blk.count [coinbaseOutput valueIn] +
          (allOutputs (numberedBlock (offer.setting chain prim validationDepth) offer.blk.count coinbase txns
            s.confirmations.nextId) : List _))
        (fun key => ∃ txn ∈ offer.block.transactions, key.hash = prim.txnHash txn) s.stock s'.stock ∧
      entries s'.confirmations.rows = entries s.confirmations.rows +
        (if offer.purgeDepth ≤ offer.blk.count then
          blockRows offer.blk.count coinbase txns s.confirmations.nextId else [] : List (Int × ConfirmationRow)) ∧
      s'.confirmations.seq =
        s.confirmations.seq + if offer.purgeDepth ≤ offer.blk.count then txns.length else 0 := by
  rw [txnHashes_append, List.nodup_append] at apart
  obtain ⟨-, own, others⟩ := apart
  have free : s.confirmations.rows[-offer.blk.count]? = none := tidy.tallied.free (by rw [next, List.length_map])
  have unspent : s.stock.spendings[-offer.blk.count]? = none := by
    cases found : s.stock.spendings[-offer.blk.count]? with
    | none => rfl
    | some row =>
      have low := tidy.spendings _ row found
      omega
  have fresh : ∀ txn ∈ offer.block.transactions, ∀ i, ¬s.stock.HasRow { hash := prim.txnHash txn, index := i } :=
    fun txn member i there => others _ (tidy.keys _ there) _ (List.mem_map_of_mem member) rfl
  obtain ⟨coinbase, txns, valueIn, transactions, files⟩ :=
    attach_files tidy.sound tidy.held own fresh free unspent run
  obtain ⟨coinbase', txns', transactions', rows, -, grown⟩ :=
    attach_confirmations tidy.tallied.start tidy.tallied.ordered free run
  obtain ⟨rfl, rfl⟩ := List.cons.inj (transactions.symm.trans transactions')
  exact ⟨coinbase, txns, valueIn, transactions, files, rows, grown⟩

/-- The row of the next block. -/
theorem Tidy.blocks_attach (tidy : Tidy prim validationDepth offers s)
    (next : offer.blk.count = offers.length + 1)
    {result : Txns × Hashes} (run : offer.attach chain prim validationDepth s = .ok result s') :
    s'.blocks = s.blocks.insert offer.blk.count
      { offer.block.toBlockHeader with hash := prim.headerHash offer.block.toBlockHeader } := by
  refine attach_blocks run ?_
  cases found : s.blocks[offer.blk.count]? with
  | none => rfl
  | some row =>
    have high := tidy.blocks _ row found
    omega

/-- The next block is attached. -/
theorem Tidy.attach (tidy : Tidy prim validationDepth offers s) (next : offer.blk.count = offers.length + 1)
    (apart : (txnHashes prim ((offers ++ [offer]).map Offer.block)).Nodup) {result : Txns × Hashes}
    (run : offer.attach chain prim validationDepth s = .ok result s') :
    Tidy prim validationDepth (offers ++ [offer]) s' := by
  obtain ⟨coinbase, txns, valueIn, transactions, files, -, grown⟩ := tidy.files next apart run
  have length : ((offers ++ [offer]).length : Int) = offers.length + 1 := by
    rw [List.length_append, List.length_singleton]
    push_cast
    rfl
  have start := tidy.tallied.start
  have number := tidy.tallied.ordered.nextId_eq
  have above : s.confirmations.seq ≤ s'.confirmations.seq := by
    rw [grown]
    split <;> omega
  -- the numbers of the block
  have bounds : ∀ entry ∈ numberedBlock (offer.setting chain prim validationDepth) offer.blk.count coinbase txns
      s.confirmations.nextId, -(offers.length + 1 : Int) ≤ entry.1 ∧ (entry.1 ≤ s'.confirmations.seq ∨
        entry.1 = locktimeThreshold ∧ offer.blk.count < offer.purgeDepth) := by
    intro entry member
    rcases mem_numberedBlock member with coinbase | given
    · rw [coinbase]
      exact ⟨by omega, .inl (by omega)⟩
    · have stored_iff : (offer.setting chain prim validationDepth).purgeDepth = offer.purgeDepth := rfl
      rw [stored_iff] at given
      split_ifs at given grown with stored
      · exact ⟨by omega, .inl (by omega)⟩
      · refine ⟨?_, .inr ⟨given, not_le.mp stored⟩⟩
        rw [given]
        unfold locktimeThreshold
        omega
  refine
    { sound := files.sound
      held := files.held
      tallied := ?_
      few := ?_
      inputs := fun entry member => ?_
      outputs := fun entry member => ?_
      spendings := fun coin row found => ?_
      keys := fun key there => ?_
      blocks := fun count row found => ?_
      auxs := fun id row found => ?_ }
  · rw [List.map_append]
    exact tidy.tallied.attach (by rw [next, List.length_map]) run
  · have few := tidy.few
    rw [List.map_append, List.sum_append, List.map_singleton, List.sum_singleton, grown, transactions,
      List.length_cons]
    push_cast
    split <;> omega
  · rw [length]
    rw [files.inputs] at member
    rcases Multiset.mem_add.mp member with old | new
    · have known := tidy.inputs entry old
      omega
    · obtain ⟨stored, member⟩ := mem_ifStored new
      obtain ⟨txn, member, same⟩ := mem_allInputs member
      have given := bounds txn member
      have stored : offer.purgeDepth ≤ offer.blk.count := stored
      rw [same]
      omega
  · rw [length]
    have member := Multiset.mem_of_le files.outputs member
    rcases Multiset.mem_add.mp member with old | new
    · obtain ⟨low, known⟩ := tidy.outputs entry old
      refine ⟨by omega, known.imp (fun below => below.trans above) fun ⟨same, other, member, unstored⟩ =>
        ⟨same, other, List.mem_append_left _ member, unstored⟩⟩
    · rcases Multiset.mem_add.mp new with new | new
      · obtain ⟨-, member⟩ := mem_ifStored new
        rw [List.mem_singleton.mp member]
        exact ⟨show -((offers.length : Int) + 1) ≤ 0 by omega, .inl (start.trans above)⟩
      · obtain ⟨txn, member, same⟩ := mem_allOutputs (Multiset.mem_coe.mp new)
        obtain ⟨low, known⟩ := bounds txn member
        rw [same]
        exact ⟨low, known.imp_right fun ⟨same, unstored⟩ =>
          ⟨same, offer, List.mem_append_right _ List.mem_cons_self, unstored⟩⟩
  · rw [length]
    rcases files.recorded coin row found with old | ⟨number, entry, member, same⟩
    · have low := tidy.spendings coin row old
      omega
    · obtain ⟨stored, member⟩ := mem_ifStored member
      obtain ⟨txn, member, tagged⟩ := mem_allInputs member
      have low := (bounds txn member).1
      omega
  · rw [txnHashes_append]
    rcases files.rows key there with old | ⟨txn, member, same⟩
    · exact List.mem_append_left _ (tidy.keys key old)
    · exact List.mem_append_right _ (List.mem_map.mpr ⟨txn, member, same.symm⟩)
  · rw [length]
    rw [tidy.blocks_attach next run] at found
    rcases Map.lookup_of_insert found with ⟨rfl, -⟩ | old
    · exact next.le
    · have high := tidy.blocks count row old
      omega
  · rw [length]
    rw [attach_auxs run] at found
    split_ifs at found
    · rcases Map.lookup_of_insert found with ⟨-, rfl⟩ | old
      · exact next.le
      · have high := tidy.auxs id row old
        omega
    · have high := tidy.auxs id row found
      omega

/-- A purge only deletes rows. -/
theorem Tidy.purge (tidy : Tidy prim validationDepth offers s) (depth : Int) :
    Tidy prim validationDepth offers { s with db := s.db.purge depth } := by
  have spendings : ∀ (coin : Int) row, (s.db.purge depth).spendings[coin]? = some row →
      s.stock.spendings[coin]? = some row :=
    fun coin row found => ((Map.lookup_filter_eq_some _ _ _ _).mp found).1
  refine
    { tidy with
      sound := tidy.sound.filter _ _
      tallied := tidy.tallied.filter fun count => decide (count ≤ depth)
      inputs := fun entry member => tidy.inputs entry ?_
      outputs := fun entry member => tidy.outputs entry ?_
      spendings := fun coin row found => tidy.spendings coin row (spendings coin row found) }
  · exact Multiset.mem_of_le (Multiset.map_le_map (entries_filter_le _ _)) member
  · refine Multiset.mem_of_le ?_ member
    exact add_le_add le_rfl (Multiset.map_le_map (entries_filter_le _ _))

end Tidy

/-! ### What the tables have of a block -/

/-- A number of a block or of a later one. -/
def Late (count first cnf : Int) : Prop := first ≤ cnf ∨ cnf ≤ -count

/-- What the tables have of the block at a count: its header, the rows of its confirmations and, under the number
of each transaction, the inputs and outputs. Its outputs are spent by the block or by a later one. -/
structure Filed (env : Setting) (count : Int) (block : Block) (coinbase : Transaction) (txns : List Transaction)
    (first : Int) (s : Ledger) : Prop where
  rows : rowsAt count s.confirmations = (blockRows count coinbase txns first : List _)
  numbers : ∀ txn ∈ numberedBlock env count coinbase txns first,
    txn.1 = -count ∨ first ≤ txn.1 ∧ txn.1 ≤ s.confirmations.seq
  start : 0 < first ∧ first ≤ s.confirmations.seq + 1
  inputs : ∀ txn ∈ numberedBlock env count coinbase txns first,
    (s.stock.inputs.filter fun entry => entry.1 = txn.1) = (filedInputs txn.1 txn.2.inputs 0 : List _)
  outputs : ∀ txn ∈ numberedBlock env count coinbase txns first,
    (s.stock.outputs.filter fun entry => entry.1 = txn.1) = (filedOutputs txn.1 txn.2.outputs 0 : List _)
  late : ∀ (coin : Int) row, s.stock.spendings[coin]? = some row →
    (∃ txn ∈ numberedBlock env count coinbase txns first, row.ocnf = txn.1) → Late count first row.icnf
  counts : ∀ (cnf : Int) row, s.confirmations.rows[cnf]? = some row → Late count first cnf → count ≤ row.count
  header : s.blocks[count]? = some { block.toBlockHeader with hash := env.prim.headerHash block.toBlockHeader }
  proof : (env.chain.adhereAuxPow && hasAuxPow block.version) = true →
    ∃ id : Int, s.auxProofOfWorks.rows[id]? = some (auxRow env count block) ∧
      ∀ (other : Int) row, s.auxProofOfWorks.rows[other]? = some row → row.count = count → other = id

section Filed

variable {chain : Chain} {prim : Primitives} {validationDepth : Int} {offers : List Offer} {offer : Offer}
  {s s' : Ledger}

/-- A block that is stored is filed. -/
theorem Filed.attach (tidy : Tidy prim validationDepth offers s) (next : offer.blk.count = offers.length + 1)
    (apart : (txnHashes prim ((offers ++ [offer]).map Offer.block)).Nodup)
    (clear : (∀ offer ∈ offers, offer.purgeDepth ≤ offer.blk.count) ∨
      ((offers ++ [offer]).map fun offer => (offer.block.transactions.length : Int)).sum < locktimeThreshold)
    (stored : offer.purgeDepth ≤ offer.blk.count) {result : Txns × Hashes}
    (run : offer.attach chain prim validationDepth s = .ok result s') :
    ∃ coinbase txns, offer.block.transactions = coinbase :: txns ∧
      Filed (offer.setting chain prim validationDepth) offer.blk.count offer.block coinbase txns
        s.confirmations.nextId s' := by
  obtain ⟨coinbase, txns, valueIn, transactions, files, rows, grown⟩ := tidy.files next apart run
  have after := tidy.attach next apart run
  have start := tidy.tallied.start
  have number := tidy.tallied.ordered.nextId_eq
  rw [if_pos stored] at rows grown
  have numbers : ∀ txn ∈ numberedBlock (offer.setting chain prim validationDepth) offer.blk.count coinbase txns
      s.confirmations.nextId, txn.1 = -offer.blk.count ∨
        s.confirmations.nextId ≤ txn.1 ∧ txn.1 ≤ s'.confirmations.seq := by
    intro txn member
    refine (mem_numberedBlock member).imp_right fun given => ?_
    rw [if_pos (show (offer.setting chain prim validationDepth).purgeDepth ≤
      offer.blk.count from stored)] at given
    omega
  have nodup := @numberedBlock_nodup (offer.setting chain prim validationDepth) _ stored offer.blk.count_pos
    coinbase txns _ (show 0 < s.confirmations.nextId by omega)
  -- no output has a number of the block before
  have new : ∀ entry ∈ s.stock.outputs, ∀ txn ∈ numberedBlock (offer.setting chain prim validationDepth)
      offer.blk.count coinbase txns s.confirmations.nextId, entry.1 ≠ txn.1 := by
    intro entry known txn member same
    obtain ⟨low, known⟩ := tidy.outputs entry known
    have given := numbers txn member
    rcases known with below | ⟨threshold, other, listed, unstored⟩
    · omega
    · rcases clear with clear | clear
      · have stored := clear other listed
        omega
      · have few := after.few
        omega
  have all {A : Type} (values : List A) :
      ifStored (offer.setting chain prim validationDepth) offer.blk.count values = values := if_pos stored
  rw [all] at files
  refine ⟨coinbase, txns, transactions, ?_, numbers, ⟨by omega, by omega⟩, ?_, ?_, ?_, ?_, ?_, ?_⟩
  · unfold rowsAt
    rw [rows, Multiset.filter_add, Multiset.filter_eq_nil.mpr, zero_add, Multiset.filter_eq_self]
    · intro entry member
      rcases List.mem_append.mp (Multiset.mem_coe.mp member) with member | member
      · exact (mem_confirmationRows member).2
      · rw [List.mem_singleton.mp member]
        rfl
    · intro entry member same
      have high := (tidy.tallied.numbered entry.1 entry.2 (mem_entries.mp member)).2.2
      rw [List.length_map] at high
      omega
  · intro txn member
    rw [files.inputs, Multiset.filter_add, Multiset.filter_eq_nil.mpr, zero_add, Multiset.filter_coe]
    · refine congrArg _ (filter_tagged (fun pair value known => ?_) nodup member)
      obtain ⟨_, -, rfl⟩ := List.mem_map.mp known
      rfl
    · intro entry known same
      have known := tidy.inputs entry known
      have given := numbers txn member
      omega
  · intro txn member
    rw [files.exactly stored, all, Multiset.filter_add, Multiset.filter_eq_nil.mpr, zero_add, Multiset.filter_add,
      Multiset.filter_eq_nil.mpr, zero_add, Multiset.filter_coe]
    · refine congrArg _ (filter_tagged (fun pair value known => ?_) nodup member)
      obtain ⟨_, -, rfl⟩ := List.mem_map.mp known
      rfl
    · intro entry known same
      rw [List.mem_singleton.mp (Multiset.mem_coe.mp known)] at same
      have given := numbers txn member
      have same : 0 = txn.1 := same
      omega
    · exact fun entry known => new entry known txn member
  · rintro coin row found ⟨txn, member, same⟩
    rcases files.recorded coin row found with old | ⟨-, entry, known, tagged⟩
    · -- no coin with a number of this block was spent before
      have known : (row.ocnf, row.key.index, row.output) ∈ s.stock.outputs :=
        Multiset.mem_add.mpr (.inr (Multiset.mem_map.mpr ⟨(coin, row), mem_entries.mpr old, rfl⟩))
      exact absurd same (new _ known txn member)
    · obtain ⟨txn', member', same'⟩ := mem_allInputs (Multiset.mem_coe.mp known)
      have given := numbers txn' member'
      unfold Late
      omega
  · intro cnf row found late
    have known := mem_entries.mpr found
    rw [rows] at known
    rcases Multiset.mem_add.mp known with old | new
    · have old := mem_entries.mp old
      have high := tidy.tallied.ordered cnf row old
      obtain ⟨given, low, above⟩ := tidy.tallied.numbered cnf row old
      rw [List.length_map] at above
      unfold Late at late
      omega
    · rcases List.mem_append.mp (Multiset.mem_coe.mp new) with member | member
      · exact (mem_confirmationRows member).2.ge
      · have same := congrArg Prod.snd (List.mem_singleton.mp member)
        have same : row = confirmationRow coinbase offer.blk.count 0 := same
        rw [same]
        exact le_rfl
  · rw [tidy.blocks_attach next run]
    exact Map.lookup_insert_self _ _ _
  · intro adheres
    have added := attach_auxs run
    rw [if_pos adheres] at added
    rw [added]
    refine ⟨s.auxProofOfWorks.nextId, Map.lookup_insert_self _ _ _, fun other row found same => ?_⟩
    rcases Map.lookup_of_insert found with ⟨same, -⟩ | old
    · exact same
    · have high := tidy.auxs other row old
      omega

section Later

variable {env : Setting} {count : Int} {block : Block} {coinbase : Transaction} {txns : List Transaction}
  {first : Int}

/-- A later block that is stored leaves what is filed. -/
theorem Filed.next (filed : Filed env count block coinbase txns first s)
    (tidy : Tidy prim validationDepth offers s) (next : offer.blk.count = offers.length + 1)
    (apart : (txnHashes prim ((offers ++ [offer]).map Offer.block)).Nodup)
    (earlier : count ≤ offers.length) (positive : 0 < count) (stored : offer.purgeDepth ≤ offer.blk.count)
    {result : Txns × Hashes} (run : offer.attach chain prim validationDepth s = .ok result s') :
    Filed env count block coinbase txns first s' := by
  obtain ⟨coinbase', txns', valueIn, transactions, files, rows, grown⟩ := tidy.files next apart run
  have number := tidy.tallied.ordered.nextId_eq
  have start := filed.start
  rw [if_pos stored] at rows grown
  have numbers : ∀ txn ∈ numberedBlock (offer.setting chain prim validationDepth) offer.blk.count coinbase' txns'
      s.confirmations.nextId, txn.1 = -offer.blk.count ∨ s.confirmations.seq < txn.1 := by
    intro txn member
    refine (mem_numberedBlock member).imp_right fun given => ?_
    rw [if_pos (show (offer.setting chain prim validationDepth).purgeDepth ≤
      offer.blk.count from stored)] at given
    omega
  -- the numbers of the two blocks differ
  have differ : ∀ txn ∈ numberedBlock env count coinbase txns first, ∀ other ∈ numberedBlock
      (offer.setting chain prim validationDepth) offer.blk.count coinbase' txns' s.confirmations.nextId,
      other.1 ≠ txn.1 := by
    intro txn member other member' same
    have given := filed.numbers txn member
    have given' := numbers other member'
    omega
  have all {A : Type} (values : List A) :
      ifStored (offer.setting chain prim validationDepth) offer.blk.count values = values := if_pos stored
  rw [all] at files
  refine
    { rows := ?_
      numbers := fun txn member => (filed.numbers txn member).imp_right fun given => ⟨given.1, by omega⟩
      start := ⟨start.1, by omega⟩
      inputs := fun txn member => ?_
      outputs := fun txn member => ?_
      late := ?_
      counts := fun cnf row found late => ?_
      header := ?_
      proof := fun adheres => ?_ }
  · rw [← filed.rows]
    unfold rowsAt
    rw [rows, Multiset.filter_add, add_eq_left, Multiset.filter_eq_nil]
    intro entry member same
    rcases List.mem_append.mp (Multiset.mem_coe.mp member) with member | member
    · have counted := (mem_confirmationRows member).2
      omega
    · rw [List.mem_singleton.mp member] at same
      have same : offer.blk.count = count := same
      omega
  · rw [← filed.inputs txn member, files.inputs, Multiset.filter_add, add_eq_left, Multiset.filter_eq_nil]
    intro entry known same
    obtain ⟨other, member', tagged⟩ := mem_allInputs (Multiset.mem_coe.mp known)
    exact differ txn member other member' (tagged.symm.trans same)
  · rw [← filed.outputs txn member, files.exactly stored, Multiset.filter_add, add_eq_left,
      Multiset.filter_eq_nil]
    intro entry known same
    rcases Multiset.mem_add.mp known with known | known
    · obtain ⟨-, known⟩ := mem_ifStored known
      rw [List.mem_singleton.mp known] at same
      have given := filed.numbers txn member
      have same : 0 = txn.1 := same
      omega
    · obtain ⟨other, member', tagged⟩ := mem_allOutputs (Multiset.mem_coe.mp known)
      exact differ txn member other member' (tagged.symm.trans same)
  · intro coin row found spent
    rcases files.recorded coin row found with old | ⟨-, entry, known, tagged⟩
    · exact filed.late coin row old spent
    · obtain ⟨other, member', tagged'⟩ := mem_allInputs (Multiset.mem_coe.mp known)
      have given := numbers other member'
      unfold Late
      omega
  · have known := mem_entries.mpr found
    rw [rows] at known
    rcases Multiset.mem_add.mp known with old | new
    · exact filed.counts cnf row (mem_entries.mp old) late
    · rcases List.mem_append.mp (Multiset.mem_coe.mp new) with member | member
      · have counted : row.count = offer.blk.count := (mem_confirmationRows member).2
        omega
      · have same := congrArg Prod.snd (List.mem_singleton.mp member)
        have counted : row.count = offer.blk.count := congrArg ConfirmationRow.count same
        omega
  · rw [tidy.blocks_attach next run, Map.lookup_insert_of_ne _ _ (by omega)]
    exact filed.header
  · obtain ⟨id, found, only⟩ := filed.proof adheres
    rw [attach_auxs run]
    split_ifs
    · refine ⟨id, ?_, fun other row known same => ?_⟩
      · exact Map.lookup_insert_of_absent _ s.auxProofOfWorks.nextId_fresh found
      · rcases Map.lookup_of_insert known with ⟨-, rfl⟩ | old
        · have same : offer.blk.count = count := same
          omega
        · exact only other row old same
    · exact ⟨id, found, only⟩

/-- A purge below the block leaves what is filed. -/
theorem Filed.purge (filed : Filed env count block coinbase txns first s) {depth : Int} (below : depth < count) :
    Filed env count block coinbase txns first { s with db := s.db.purge depth } := by
  -- a spending of the block, or of its coins, stays
  have spared : ∀ row : Spending, Late count first row.icnf →
      (!(s.db.confirmations.rows[row.icnf]?).any fun confirmation => decide (confirmation.count ≤ depth)) =
        true := by
    intro row late
    cases found : s.db.confirmations.rows[row.icnf]? with
    | none => rfl
    | some confirmation =>
      have counted := filed.counts _ confirmation found late
      simp only [Option.any_some, Bool.not_eq_true', decide_eq_false_iff_not]
      omega
  have numbers : ∀ txn ∈ numberedBlock env count coinbase txns first, Late count first txn.1 := fun txn member =>
    (filed.numbers txn member).symm.imp (fun given => given.1) fun same => same.le
  refine
    { filed with
      rows := ?_
      inputs := fun txn member => ?_
      outputs := fun txn member => ?_
      late := fun coin row found => filed.late coin row ((Map.lookup_filter_eq_some _ _ _ _).mp found).1
      counts := fun cnf row found => filed.counts cnf row ((Map.lookup_filter_eq_some _ _ _ _).mp found).1 }
  · rw [← filed.rows]
    unfold rowsAt
    show Multiset.filter _ (entries (s.confirmations.rows.filter _)) = _
    rw [entries_filter, Multiset.filter_filter]
    refine Multiset.filter_congr fun entry _ => ⟨fun both => both.1, fun same => ⟨same, ?_⟩⟩
    simp only [Bool.not_eq_true', decide_eq_false_iff_not]
    omega
  · rw [← filed.inputs txn member]
    unfold Stock.inputs
    show Multiset.filter _ (Multiset.map _ (entries (s.db.spendings.filter _))) = _
    rw [entries_filter, Multiset.filter_map, Multiset.filter_map, Multiset.filter_filter]
    refine congrArg _ (Multiset.filter_congr fun entry _ => ⟨fun both => both.1, fun same => ⟨same, ?_⟩⟩)
    refine spared entry.2 ?_
    have same : entry.2.icnf = txn.1 := same
    rw [same]
    exact numbers txn member
  · rw [← filed.outputs txn member]
    unfold Stock.outputs
    rw [Multiset.filter_add, Multiset.filter_add]
    refine congrArg _ ?_
    show Multiset.filter _ (Multiset.map _ (entries (s.db.spendings.filter _))) = _
    rw [entries_filter, Multiset.filter_map, Multiset.filter_map, Multiset.filter_filter]
    refine congrArg _ (Multiset.filter_congr fun entry stored => ⟨fun both => both.1, fun same => ⟨same, ?_⟩⟩)
    exact spared entry.2 (filed.late entry.1 entry.2 (mem_entries.mp stored) ⟨txn, member, same⟩)

end Later

end Filed

/-! ### Reading -/

/-- Values that are sorted by their keys, where the keys are increasing positions. -/
theorem sorted_positions {A B : Type} {f : A → Int × B} {entries : List A} {values : List B}
    (perm : (entries.map f).Perm ((values.zipIdx 0).map fun entry => ((entry.2 : Int), entry.1))) :
    ((entries.insertionSort fun first second => (f first).1 ≤ (f second).1).map fun entry => (f entry).2) =
      values := by
  have sorted := sorted_of_perm (f := Prod.fst) perm ((zipIdx_pairwise values 0).map _ fun a b less => by
    show (a.2 : Int) < b.2
    omega)
  have mapped := List.map_insertionSort (fun first second => (f first).1 ≤ (f second).1)
    (fun first second : Int × B => first.1 ≤ second.1) f entries fun a _ b _ => Iff.rfl
  have both := congrArg (List.map Prod.snd) (mapped.trans sorted)
  rw [List.map_map, List.map_map] at both
  refine both.trans ?_
  exact (List.map_congr_left fun entry _ => rfl).trans (List.zipIdx_map_fst 0 values)

theorem inputsOf_eq {s : Ledger} {cnf : Int} {inputs : List Input}
    (filed : (s.stock.inputs.filter fun entry => entry.1 = cnf) = (filedInputs cnf inputs 0 : List _)) :
    s.db.inputsOf cnf = inputs := by
  refine sorted_positions (f := fun entry : Int × Spending => (entry.2.iidx,
    ({ prevout := entry.2.key, signature := entry.2.signature, sequence := entry.2.sequence } : Input))) ?_
  have second := congrArg (Multiset.map Prod.snd) filed
  unfold Stock.inputs at second
  rw [Multiset.filter_map, Multiset.map_map] at second
  rw [← Multiset.coe_eq_coe]
  refine second.trans ?_
  unfold filedInputs
  rw [Multiset.map_coe, List.map_map]
  rfl

theorem outputsOf_eq {s : Ledger} {cnf : Int} {outputs : List Output}
    (filed : (s.stock.outputs.filter fun entry => entry.1 = cnf) = (filedOutputs cnf outputs 0 : List _)) :
    s.db.outputsOf cnf = outputs := by
  have second := congrArg (Multiset.map Prod.snd) filed
  unfold Stock.outputs at second
  rw [Multiset.filter_add, Multiset.map_add, Multiset.filter_map, Multiset.filter_map, Multiset.map_map,
    Multiset.map_map] at second
  unfold filedOutputs at second
  rw [Multiset.map_coe, List.map_map] at second
  have perm : ((s.db.unspents.select fun _ row => decide (row.cnf = cnf)).map
      (fun entry => (entry.2.key.index, entry.2.output)) ++
      (s.db.spendings.toList.filter fun entry => decide (entry.2.ocnf = cnf)).map
        fun entry => (entry.2.key.index, entry.2.output)).Perm ((outputs.zipIdx 0).map fun entry =>
          (entry.2, entry.1)) := by
    rw [← Multiset.coe_eq_coe]
    exact second
  have order : ((outputs.zipIdx 0).map fun entry => (entry.2, entry.1)).Pairwise fun a b => a.1 < b.1 :=
    (zipIdx_pairwise outputs 0).map _ fun a b less => less
  have nodup := perm.nodup_iff.mpr (order.imp fun less same => absurd (congrArg Prod.fst same) less.ne)
  unfold Database.outputsOf
  dsimp only
  rw [nodup.dedup, sorted_of_perm perm order, List.map_map]
  exact (List.map_congr_left fun entry _ => rfl).trans (List.zipIdx_map_fst 0 outputs)

/-! ### Runs -/

/-- The blocks that are attached, and the ledger. The blocks from a count on are stored, and no purge reaches
them. -/
inductive Kept (chain : Chain) (prim : Primitives) (validationDepth count : Int) : List Offer → Ledger → Prop
  | start (unspentIndex : Bool) (trie : validationDepth ≠ 0 → unspentIndex = false) :
      Kept chain prim validationDepth count [] (Ledger.empty unspentIndex)
  | attach {offers : List Offer} {offer : Offer} {s s' : Ledger} {result : Txns × Hashes}
      (before : Kept chain prim validationDepth count offers s) (next : offer.blk.count = offers.length + 1)
      (stored : count ≤ offer.blk.count → offer.purgeDepth ≤ offer.blk.count)
      (run : offer.attach chain prim validationDepth s = .ok result s') :
      Kept chain prim validationDepth count (offers ++ [offer]) s'
  | purge {offers : List Offer} {s : Ledger} (depth : Int)
    (before : Kept chain prim validationDepth count offers s)
      (above : depth < count ∨ offers.length < count) :
      Kept chain prim validationDepth count offers { s with db := s.db.purge depth }

section Runs

variable {chain : Chain} {prim : Primitives} {validationDepth count : Int} {offers : List Offer} {s : Ledger}

/-- No transaction has the number that stands for those that are not stored: all are stored, or they are too few.
-/
def Clear (offers : List Offer) : Prop :=
  (∀ offer ∈ offers, offer.purgeDepth ≤ offer.blk.count) ∨
    (offers.map fun offer => (offer.block.transactions.length : Int)).sum < locktimeThreshold

theorem Clear.before {offer : Offer} (clear : Clear (offers ++ [offer])) : Clear offers := by
  rcases clear with stored | few
  · exact .inl fun other member => stored other (List.mem_append_left _ member)
  · refine .inr (lt_of_le_of_lt ?_ few)
    rw [List.map_append, List.sum_append, List.map_singleton, List.sum_singleton]
    omega

/-- Every block from the count on is filed. -/
theorem Kept.filed (kept : Kept chain prim validationDepth count offers s)
    (apart : (txnHashes prim (offers.map Offer.block)).Nodup) (clear : Clear offers) :
    Tidy prim validationDepth offers s ∧ ∀ (i : Nat) (lt : i < offers.length), count = i + 1 →
      ∃ coinbase txns first, offers[i].block.transactions = coinbase :: txns ∧
        offers[i].purgeDepth ≤ count ∧
        Filed (offers[i].setting chain prim validationDepth) count offers[i].block coinbase txns first s := by
  induction kept with
  | start unspentIndex trie => exact ⟨Tidy.empty trie, fun i lt => absurd lt (Nat.not_lt_zero i)⟩
  | @attach offers offer s s' result before next stored run ih =>
    have apart' := apart
    rw [txnHashes_append, List.nodup_append] at apart'
    obtain ⟨tidy, filed⟩ := ih apart'.1 clear.before
    refine ⟨tidy.attach next apart run, fun i lt at_ => ?_⟩
    rw [List.length_append, List.length_singleton] at lt
    rcases Nat.lt_succ_iff_lt_or_eq.mp lt with earlier | rfl
    · obtain ⟨coinbase, txns, first, transactions, deep, filed⟩ := filed i earlier at_
      rw [List.getElem_append_left earlier]
      exact ⟨coinbase, txns, first, transactions, deep,
        filed.next tidy next apart (by omega) (by omega) (stored (by omega)) run⟩
    · have same : count = offer.blk.count := at_.trans next.symm
      have deep := stored same.le
      rw [List.getElem_append_right le_rfl]
      obtain ⟨coinbase, txns, transactions, new⟩ := Filed.attach tidy next apart
        (clear.imp_left fun stored other member => stored other (List.mem_append_left _ member)) deep run
      subst same
      exact ⟨coinbase, txns, _, by simpa using transactions, by simpa using deep, by simpa using new⟩
  | purge depth before above ih =>
    obtain ⟨tidy, filed⟩ := ih apart clear
    refine ⟨tidy.purge depth, fun i lt at_ => ?_⟩
    obtain ⟨coinbase, txns, first, transactions, deep, filed⟩ := filed i lt at_
    exact ⟨coinbase, txns, first, transactions, deep, filed.purge (by omega)⟩

theorem confirmationRows_map {env : Setting} (stored : env.purgeDepth ≤ count) {txns : List Transaction}
    {idx first : Int}
    {read : Int × ConfirmationRow → Transaction}
    (same : ∀ txn ∈ numbered env count txns first, ∀ idx, read (txn.1, confirmationRow txn.2 count idx) = txn.2) :
    (confirmationRows count txns idx first).map read = txns := by
  induction txns generalizing idx first with
  | nil => rfl
  | cons txn txns ih =>
    have head := same _ List.mem_cons_self idx
    unfold confirmationNumber at head
    rw [if_pos stored] at head
    unfold confirmationRows
    rw [List.map_cons, ih fun other member => same other (List.mem_cons_of_mem _ member)]
    exact congrArg (· :: txns) head

/-- The rows of the block, in the order of the transactions. -/
theorem Filed.confirmationsOf {filing : Setting} {block : Block} {coinbase : Transaction}
    {txns : List Transaction}
    {first : Int} (filed : Filed filing count block coinbase txns first s) :
    s.db.confirmationsOf count =
      (-count, confirmationRow coinbase count 0) :: confirmationRows count txns 1 first := by
  obtain ⟨order, above⟩ := confirmationRows_pairwise count txns 1 first
  refine sorted_of_perm (f := fun entry : Int × ConfirmationRow => entry.2.idx) ?_
    (List.pairwise_cons.mpr ⟨fun entry member => above entry member, order⟩)
  refine List.Perm.trans ?_ (List.perm_append_singleton _ _)
  rw [← Multiset.coe_eq_coe, coe_select]
  refine Eq.trans ?_ filed.rows
  exact Multiset.filter_congr fun entry _ => decide_eq_true_iff

/-- The block of a count is read from the tables. -/
theorem Filed.readBlock {env filing : Setting} {block : Block} {coinbase : Transaction} {txns : List Transaction}
    {first : Int} (filed : Filed filing count block coinbase txns first s) (stored : filing.purgeDepth ≤ count)
    (renamed : ∀ txn ∈ numberedBlock filing count coinbase txns first, env.chain.duplicateTx txn.1 = txn.1)
    (transactions : block.transactions = coinbase :: txns)
    (root : block.merkleRoot = block.buildMerkleTree env.prim) :
    s.db.readBlock env count = { block with auxPow := [] } := by
  have read : ∀ txn ∈ numberedBlock filing count coinbase txns first, ∀ idx,
      ({ version := (confirmationRow txn.2 count idx).version, inputs := s.db.inputsOf txn.1
         outputs := s.db.outputsOf (env.chain.duplicateTx txn.1)
         lockTime := (confirmationRow txn.2 count idx).lockTime } : Transaction) = txn.2 := by
    intro txn member idx
    rw [renamed txn member, inputsOf_eq (filed.inputs txn member), outputsOf_eq (filed.outputs txn member)]
    rfl
  have header : s.db.getBlockHeader count = block.toBlockHeader := by
    have header : s.db.blocks[count]? = _ := filed.header
    unfold Database.getBlockHeader
    rw [header]
    rfl
  have all : (s.db.confirmationsOf count).map (fun entry =>
      ({ version := entry.2.version, inputs := s.db.inputsOf entry.1
         outputs := s.db.outputsOf (env.chain.duplicateTx entry.1), lockTime :=
           entry.2.lockTime } : Transaction)) =
      block.transactions := by
    rw [filed.confirmationsOf, transactions, List.map_cons]
    refine congrArg₂ List.cons (read (-count, coinbase) (List.mem_append_right _ List.mem_cons_self) 0) ?_
    exact confirmationRows_map stored fun txn member idx => read txn (List.mem_append_left _ member) idx
  have tree : Block.buildMerkleTree env.prim { block with auxPow := [] } = block.merkleRoot := root.symm
  unfold Database.readBlock
  rw [all, header]
  dsimp only
  rw [tree]

/-- The size and the signature operations of a block without its auxiliary proof of work. -/
structure Primitives.Bare (prim : Primitives) : Prop where
  blockSize : ∀ block : Block, prim.blockSize { block with auxPow := [] } ≤ prim.blockSize block
  sigOpCount : ∀ block : Block, prim.sigOpCount { block with auxPow := [] } = prim.sigOpCount block

/-- A block still passes the check later, without its auxiliary proof of work. -/
theorem Chain.checkBlock_bare (bare : prim.Bare) {adjustedTime later : Int} {block : Block}
    (passed : chain.checkBlock prim adjustedTime block = .ok ()) (after : adjustedTime ≤ later) :
    chain.checkBlock prim later { block with auxPow := [] } = .ok () := by
  obtain ⟨size, time, first, second, transactions, sigops, root⟩ := checkBlock_ok.mp passed
  have smaller := bare.blockSize block
  refine checkBlock_ok.mpr ⟨?_, ?_, first, second, transactions, ?_, root⟩
  · simp only [Bool.or_eq_true, decide_eq_true_eq, not_or] at size ⊢
    exact ⟨size.1, by omega⟩
  · show ¬later + 2 * 60 * 60 < block.time
    omega
  · rw [bare.sigOpCount]
    exact sigops

/-- **The block at an unpurged count is read back as it was attached.** -/
theorem getBlock_kept (bare : prim.Bare) (kept : Kept chain prim validationDepth count offers s)
    (apart : (txnHashes prim (offers.map Offer.block)).Nodup) (clear : Clear offers) {i : Nat}
    (lt : i < offers.length)
    (at_ : count = i + 1) (coinbase : chain.duplicateTx (-count) = -count)
    (ordinary : ∀ cnf, 0 < cnf → chain.duplicateTx cnf = cnf) {adjustedTime : Int}
    (passed : chain.checkBlock prim adjustedTime offers[i].block = .ok ()) {env : Setting}
    (same : env.chain = chain)
    (same' : env.prim = prim) (after : adjustedTime ≤ env.adjustedTime) :
    s.db.getBlock env count =
      { offers[i].block with
        auxPow := if chain.adhereAuxPow && hasAuxPow offers[i].block.version then offers[i].block.auxPow else [] } := by
  obtain ⟨tidy, filed⟩ := kept.filed apart clear
  obtain ⟨cb, txns, first, transactions, stored, filed⟩ := filed i lt at_
  have renamed : ∀ txn ∈ numberedBlock (offers[i].setting chain prim validationDepth) count cb txns first,
      env.chain.duplicateTx txn.1 = txn.1 := by
    intro txn member
    rw [same]
    rcases filed.numbers txn member with own | ⟨above, -⟩
    · rw [own, coinbase]
    · exact ordinary _ (filed.start.1.trans_le above)
  have read : s.db.readBlock env count = { offers[i].block with auxPow := [] } :=
    filed.readBlock stored renamed transactions (by
    rw [same']
    exact Chain.checkBlock_merkleRoot passed)
  have deep : ¬count < s.db.getDeepestDepth := by
    have known : (-count, confirmationRow cb count 0) ∈ rowsAt count s.confirmations := by
      rw [filed.rows]
      exact Multiset.mem_coe.mpr (List.mem_append_right _ List.mem_cons_self)
    exact not_lt.mpr (s.db.getDeepestDepth_le (mem_entries.mp (Multiset.mem_filter.mp known).1))
  have checked := Chain.checkBlock_bare bare passed after
  unfold Database.getBlock
  rw [if_neg deep, read, same, same']
  dsimp only
  rw [checked]
  split_ifs with adheres
  · obtain ⟨id, found, only⟩ := filed.proof adheres
    have proof : s.db.auxProofOfWorks.first (fun _ row => decide (row.count = count)) = some (id, _) :=
      Table.first_eq_of_unique found (decide_eq_true rfl) fun other row found same =>
        only other row found (of_decide_eq_true same)
    rw [proof]
    rfl
  · rfl

end Runs

/-! ### The renamed confirmations -/

/-- `duplicateTx` of `BitcoinChain`: the coinbases that a later block repeats. -/
def BitcoinChain.duplicateTx (cnf : Int) : Int :=
  if cnf = -91723 then -91881 else if cnf = -91813 then -91843 else cnf

theorem BitcoinChain.duplicateTx_pos {cnf : Int} (positive : 0 < cnf) : BitcoinChain.duplicateTx cnf = cnf := by
  unfold BitcoinChain.duplicateTx
  rw [if_neg (by omega), if_neg (by omega)]

namespace Small

/-- The small chain with the exceptions of `BitcoinChain`. -/
def repeating : Chain := { chain 1 with duplicateTx := BitcoinChain.duplicateTx }

/-- The block at a height, with a coinbase that pays 50. -/
def payday (height : Nat) : Offer :=
  { offer (height + 1) height [] with
    block :=
      { block (height + 1) height [coinbase (height + 1) [50]] with merkleRoot := Fin.ofNat _ (height + 1) } }

theorem payday_passes (height : Nat) : repeating.checkBlock prim 0 (payday height).block = .ok () := by
  refine Chain.checkBlock_ok.mpr ⟨?_, ?_, rfl, Bool.false_ne_true, rfl, ?_, rfl⟩
  · show ¬(false || decide ((1000 : Int) < 1) || decide ((1000 : Int) < 1)) = true
    decide
  · show ¬(0 + 2 * 60 * 60 : Int) < 1
    decide
  · show ¬maxBlockSigops < 0
    decide

/-- Where coins are looked up in the table, a block with a coinbase alone is always attached. -/
theorem payday_attached (height : Nat) : Always ((payday height).attach repeating prim 0) := by
  have issued (env : Setting) (database : env.validationDepth = 0) (hash : Uint256) (conf : Confirmation)
    (unique : Bool)
      (outputs : List Output) (idx : Nat) : Always (issueCoinbase env hash conf unique outputs idx) := by
    induction outputs generalizing idx with
    | nil => exact always_pure _
    | cons output outputs ih =>
      refine always_bind ?_ fun _ => ih (idx + 1)
      unfold issue
      dsimp only
      rw [if_pos database]
      exact always_ite (always_modifyGet _) (always_modifyGet _)
  have header (env : Setting) (count : Int) (block : Block) : Always (insertBlockHeader env count block) :=
    always_bind (always_modifyGet _) fun _ =>
      always_ite (always_bind (always_modifyGet _) fun _ => always_pure _) (always_pure _)
  refine always_pure_bind (always_pure_bind ?_)
  refine always_bind (always_modify _) fun _ => ?_
  refine always_bind (header _ _ _) fun _ => ?_
  refine always_pure_bind ?_
  refine always_bind ?_ fun _ => ?_
  · refine always_pure_bind ?_
    refine always_bind (always_ite (always_modifyGet _) (always_pure _)) fun cnf => ?_
    refine always_pure_bind ?_
    refine always_bind (always_ite (always_bind (always_modifyGet _) fun _ =>
      always_pure _) (always_pure _)) fun _ => ?_
    exact always_bind (issued _ rfl _ _ _ _ _) fun _ => always_ite (by
      unfold maturate
      exact always_ite (always_pure _) (always_modify _)) (always_pure _)
  · intro s
    have verified : ((payday height).setting repeating prim 0).yieldSuccess s.pending = true :=
      List.all_eq_true.mpr fun _ _ => rfl
    refine ⟨((payday height).unconfirmed, (payday height).confirmed), s, ?_⟩
    show (throwIf (!((payday height).setting repeating prim 0).yieldSuccess s.pending) _ >>= fun _ =>
      pure _) s = _
    rw [verified]
    rfl

/-- A chain of such blocks. -/
def paydays (blocks : Nat) : List Offer := (List.range blocks).map payday

theorem paydays_succ (blocks : Nat) : paydays (blocks + 1) = paydays blocks ++ [payday blocks] := by
  unfold paydays
  rw [List.range_succ, List.map_append, List.map_singleton]

theorem paydays_length (blocks : Nat) : (paydays blocks).length = blocks := by
  unfold paydays
  rw [List.length_map, List.length_range]

theorem paydays_getElem {blocks height : Nat} (lt : height < (paydays blocks).length) :
    (paydays blocks)[height] = payday height := by
  simp [paydays]

theorem paydays_kept (count : Int) (blocks : Nat) : ∃ s, Kept repeating prim 0 count (paydays blocks) s := by
  induction blocks with
  | zero => exact ⟨_, Kept.start true fun trie => absurd rfl trie⟩
  | succ blocks ih =>
    obtain ⟨s, kept⟩ := ih
    obtain ⟨result, s', run⟩ := payday_attached blocks s
    rw [paydays_succ]
    refine ⟨s', kept.attach ?_ (fun _ => ?_) run⟩
    · rw [paydays_length]
      rfl
    · show (0 : Int) ≤ (blocks : Int) + 1
      omega

theorem paydays_apart {blocks : Nat} (few : blocks < 2 ^ 256) :
    (txnHashes prim ((paydays blocks).map Offer.block)).Nodup := by
  have hashes : txnHashes prim ((paydays blocks).map Offer.block) =
      (List.range blocks).map fun height => Fin.ofNat (2 ^ 256) (height + 1) := by
    unfold txnHashes paydays
    rw [List.map_map, List.flatMap_map]
    exact List.map_eq_flatMap.symm
  rw [hashes]
  refine List.Nodup.map_on (fun height low height' low' same => ?_) List.nodup_range
  rw [List.mem_range] at low low'
  have same := congrArg Fin.val same
  rw [Fin.val_ofNat, Fin.val_ofNat, Nat.mod_eq_of_lt (by omega), Nat.mod_eq_of_lt (by omega)] at same
  omega

end Small

open Libcoin.Small in
/-- On a chain that has not reached the block that repeats its coinbase, the block at count 91723 is not read
back: its outputs are looked for under the number of the later coinbase. -/
theorem getBlock_renamed :
    ∃ s, Kept repeating prim 0 91723 (paydays 91723) s ∧
      (txnHashes prim ((paydays 91723).map Offer.block)).Nodup ∧
      (∀ offer ∈ paydays 91723, repeating.checkBlock prim 0 offer.block = .ok () ∧
        offer.purgeDepth ≤ offer.blk.count) ∧
      (paydays 91723)[91722]? = some (payday 91722) ∧
      (s.db.getBlock ((payday 91722).setting repeating prim 0) 91723).transactions ≠
        (payday 91722).block.transactions := by
  obtain ⟨s, kept⟩ := paydays_kept 91723 91723
  have apart := @paydays_apart 91723 (by omega)
  have length := paydays_length 91723
  have lt : 91722 < (paydays 91723).length := by omega
  have passed : ∀ offer ∈ paydays 91723, repeating.checkBlock prim 0 offer.block = .ok () ∧
      offer.purgeDepth ≤ offer.blk.count := by
    intro offer member
    obtain ⟨height, -, rfl⟩ := List.mem_map.mp member
    refine ⟨payday_passes height, ?_⟩
    show (0 : Int) ≤ (height : Int) + 1
    omega
  refine ⟨s, kept, apart, passed, ?_, fun same => ?_⟩
  · rw [List.getElem?_eq_getElem lt, paydays_getElem]
  · obtain ⟨tidy, filed⟩ := kept.filed apart (.inl fun offer member => (passed offer member).2)
    obtain ⟨cb, txns, first, transactions, -, filed⟩ := filed 91722 lt rfl
    rw [paydays_getElem] at transactions
    obtain ⟨rfl, rfl⟩ := List.cons.inj transactions
    -- no output has the number of the later coinbase
    have outputs : s.db.outputsOf (-91881) = [] := by
      refine outputsOf_eq (Multiset.filter_eq_nil.mpr fun entry member number => ?_)
      have low := (tidy.outputs entry member).1
      rw [length] at low
      omega
    rcases s.db.getBlock_cases ((payday 91722).setting repeating prim 0) 91723 with ⟨-, none⟩ | ⟨read, -⟩
    · rw [none] at same
      cases same
    · rw [same] at read
      unfold Database.readBlock at read
      rw [filed.confirmationsOf] at read
      have paid := congrArg (fun transactions => transactions.map Transaction.outputs) read
      have paid : [[({ value := 50, script := [] } : Output)]] = [s.db.outputsOf (-91881)] := paid
      rw [outputs] at paid
      cases paid

namespace Small

/-- A block that spends the coinbase of the first one. -/
def spender : Offer := offer 3 2 [coinbase 3 [50], spend 4 [(1, 0)] [30]]

end Small

open Libcoin.Small in
/-- The first block is read back after its coinbase was spent. -/
theorem getBlock_spent :
    ∃ s, Kept repeating prim 0 1 [payday 0, payday 1, spender] s ∧
      s.db.getBlock ((payday 0).setting repeating prim 0) 1 = (payday 0).block := by
  have run : succeeds ((payday 0).attach repeating prim 0 (Ledger.empty true)) (fun _ s =>
      succeeds ((payday 1).attach repeating prim 0 s) fun _ s =>
        succeeds (spender.attach repeating prim 0 s) fun _ _ => true) = true := by
    decide +kernel
  obtain ⟨_, s₁, first, run⟩ := of_succeeds run
  obtain ⟨_, s₂, second, run⟩ := of_succeeds run
  obtain ⟨_, s₃, third, -⟩ := of_succeeds run
  have kept : Kept repeating prim 0 1 [payday 0, payday 1, spender] s₃ :=
    (((Kept.start true fun trie => absurd rfl trie).attach rfl (fun _ => by decide) first).attach rfl
      (fun _ => by decide) second).attach rfl (fun _ => by decide) third
  have stored : Clear [payday 0, payday 1, spender] := .inl (by decide)
  exact ⟨s₃, kept, getBlock_kept (i := 0) ⟨fun _ => le_rfl, fun _ => rfl⟩ kept (by decide +kernel) stored
    (by decide) rfl (by decide) (fun cnf positive =>
      BitcoinChain.duplicateTx_pos positive) (payday_passes 0) rfl rfl
    le_rfl⟩

end Libcoin
