/-
`setMerkleBranch`: the block of a transaction, the place in it, and the branch to its Merkle root.

* `confirmationOf` and `getTransaction` look a transaction up by its hash, `getTransaction_posted` says that it is found
  in its block.
* The transactions of the block are compared with the block chain itself, which is cast to a transaction. `this` is what
  is read there.
-/

import Libcoin.BlockChain.Locators
import Libcoin.BlockChain.Positions
import Libcoin.BlockChain.RoundTrip
import Libcoin.Ledger.MerkleBranches
import Libcoin.Ledger.Serialization
import Libcoin.Tree.Backward

namespace Libcoin

open Exec Map Stock
open BlockTree (Reached)

/-! ### Lookups by a hash -/

/-- `iterator(height)`, with a valid iterator. -/
def BlockTree.refAt (t : BlockTree Uint256) (height : Int) : Except Fault (BlockRef Uint256) :=
  match t.trunk.head? with
  | none => .error .undefined
  | some genesis => do
    match ← t.advance genesis height with
    | none => .error .undefined
    | some ref => return ref

namespace Database

/-- `SELECT ocnf FROM Unspents WHERE hash = ? LIMIT 1`. -/
def unspentConfirmation (db : Database) (hash : Uint256) : Int :=
  ((db.unspents.first fun _ row => decide (row.key.hash = hash)).map fun entry => entry.2.cnf).getD 0

/-- The confirmation that is found for a hash. -/
def confirmationOf (db : Database) (hash : Uint256) : Int :=
  if db.unspentConfirmation hash = 0 then db.spentConfirmation hash else db.unspentConfirmation hash

/-- `SELECT cnf, version, locktime, count FROM Confirmations WHERE cnf = ?`. -/
def confirmationAt (db : Database) (cnf : Int) : ConfirmationRow :=
  db.confirmations.rows[cnf]?.getD { version := 1, lockTime := 0, count := 0, idx := 0 }

end Database

namespace BlockChain

section Source

variable (cfg : Config) (clock : Clock) (s : BlockChain)

/-- The height and the time of a confirmation. -/
def whenConfirmed (conf : ConfirmationRow) : Except Fault (Int × Int) :=
  if locktimeThreshold < conf.count then .ok (-1, conf.count)
  else do
    let blk ← s.tree.refAt (conf.count - 1)
    return (conf.count - 1, blk.time)

/-- `getTransaction(hash, txn, height, time)`. -/
def getTransaction (hash : Uint256) : Except Fault (Transaction × Int × Int) := do
  let db := s.ledger.db
  let cnf := db.confirmationOf hash
  let conf := db.confirmationAt cnf
  let (height, time) ← s.whenConfirmed conf
  let txn : Transaction :=
    { version := conf.version, inputs := db.inputsOf cnf, outputs := db.outputsOf cnf, lockTime := conf.lockTime }
  return (txn, height, time)

/-- The end of `setMerkleBranch`: a transaction is located in a block. The loop ends at the first transaction that is
`*(Transaction*)this`. -/
def located (prim : Primitives) (this : Transaction) (height : Int) (block : Block) (mtxn : MerkleTx) :
    Except Fault (Int × MerkleTx) :=
  let mtxn := { mtxn with blockHash := prim.headerHash block.toBlockHeader }
  let index := block.transactions.idxOf this
  if index = block.transactions.length then .ok (0, { mtxn with merkleBranch := [], index := -1 })
  else do
    let cached := ({ block := block, merkleTree := [] } : CachedBlock).buildMerkleTree prim
    let (merkleBranch, _) ← cached.2.getMerkleBranch prim index
    return (if height < 0 then 0 else height, { mtxn with merkleBranch := merkleBranch, index := index })

/-- `setMerkleBranch`. -/
def setMerkleBranch (this : Transaction) (mtxn : MerkleTx) : Except Fault (Int × MerkleTx) := do
  let (_, height, _) ← s.getTransaction (cfg.prim.txnHash mtxn.txn)
  located cfg.prim this height (s.ledger.db.getBlock (s.setting cfg clock) (height + 1)) mtxn

end Source

end BlockChain

/-- What shows that a transaction is in a block: the hash of the block, the place, and a branch to its Merkle root. -/
structure MerkleTx.Proves (prim : Primitives) (block : Block) (place : Nat) (mtxn : MerkleTx) : Prop where
  blockHash : mtxn.blockHash = prim.headerHash block.toBlockHeader
  index : mtxn.index = place
  branch : checkMerkleBranch prim (prim.txnHash mtxn.txn) mtxn.merkleBranch mtxn.index = block.merkleRoot

/-! ### The confirmation of a hash -/

section Lookup

variable {validationDepth : Int} {hash : Uint256} {count cnf : Int} {outputs : List Output} {spent : List Coin}
  {s : Ledger}

theorem Stock.Placed.unspentConfirmation (placed : Placed validationDepth hash count cnf outputs spent s.stock) :
    s.db.unspentConfirmation hash =
      if ∃ i < outputs.length, ({ hash := hash, index := i } : Coin) ∉ spent then cnf else 0 := by
  unfold Database.unspentConfirmation
  rcases placed.first_unspent with ⟨missed, all⟩ | ⟨entry, found, -, number, some⟩
  · rw [missed, if_neg all]
    rfl
  · rw [found, if_pos some]
    exact number

/-- A transaction with an output has its confirmation, spent or not. -/
theorem Stock.Placed.confirmationOf (placed : Placed validationDepth hash count cnf outputs spent s.stock)
    (nonnull : hash ≠ 0) (number : cnf ≠ 0) (some : outputs ≠ []) : s.db.confirmationOf hash = cnf := by
  unfold Database.confirmationOf
  rw [placed.unspentConfirmation]
  by_cases unspent : ∃ i < outputs.length, ({ hash := hash, index := i } : Coin) ∉ spent
  · rw [if_pos unspent, if_neg number]
  · rw [if_neg unspent, if_pos rfl, placed.spentConfirmation nonnull fun i inside => ?_, if_neg some]
    by_contra kept
    exact unspent ⟨i, inside, kept⟩

end Lookup

theorem BlockTree.hashAt_refAt (t : BlockTree Uint256) (height : Int) :
    t.hashAt height = t.refAt height >>= fun ref => .ok ref.hash := by
  unfold hashAt refAt
  cases t.trunk.head? with
  | none => rfl
  | some genesis =>
    dsimp only
    cases t.advance genesis height with
    | error fault => rfl
    | ok found => cases found <;> rfl

/-- An iterator to a height of the trunk is valid. -/
theorem BlockTree.refAt_ok {known : List (BlockRef Uint256)} {t : BlockTree Uint256} (reached : Reached known t)
    {height : Int} (low : 0 ≤ height) (high : height < t.trunk.length) : ∃ ref, t.refAt height = .ok ref := by
  obtain ⟨grown, rep, -⟩ := reached.kept
  have named := hashAt_eq (rep.indexed grown) low high
  rw [hashAt_refAt] at named
  obtain ⟨ref, found, -⟩ := bind_eq_ok.mp named
  exact ⟨ref, found⟩

/-! ### The blocks of a chain -/

section Chains

variable {cfg : Config} {offers : List Offer} {unspentIndex : Bool} {node : BlockChain}

/-- The transactions that are posted are those of the blocks. -/
theorem postedIn_perm (offers : List Offer) :
    ((postedIn offers).map Posted.txn).Perm (offers.flatMap fun offer => offer.block.transactions) := by
  unfold postedIn
  rw [List.map_flatMap]
  refine List.Perm.flatMap_left _ fun offer _ => ?_
  unfold Offer.posted
  rw [List.map_append, List.map_map, List.map_map]
  cases offer.block.transactions with
  | nil => exact List.Perm.refl _
  | cons coinbase txns =>
    simp only [List.tail_cons, List.head?_cons, Option.toList_some]
    refine List.Perm.trans ?_ (List.perm_append_singleton _ _)
    refine .of_eq (congrArg (· ++ [coinbase]) ?_)
    exact List.map_id'' (fun _ => rfl) txns

/-- Where no hash is repeated, a transaction of a block is the only one with its hash. -/
theorem Posted.named_of_nodup {prim : Primitives} (distinct : (txnHashes prim (offers.map Offer.block)).Nodup)
    {p : Posted} (member : p ∈ postedIn offers) : p.Named prim offers := by
  have hashes : ((postedIn offers).map fun p => prim.txnHash p.txn).Nodup := by
    have perm := (postedIn_perm offers).map prim.txnHash
    rw [List.map_map] at perm
    refine perm.nodup_iff.mpr ?_
    have same : txnHashes prim (offers.map Offer.block) =
        (offers.flatMap fun offer => offer.block.transactions).map prim.txnHash := by
      unfold txnHashes
      rw [List.flatMap_map, List.map_flatMap]
    rwa [← same]
  unfold Posted.Named namedBy
  clear distinct
  generalize postedIn offers = posted at member hashes
  induction posted with
  | nil => cases member
  | cons q rest ih =>
    rw [List.map_cons, List.nodup_cons] at hashes
    rcases List.mem_cons.mp member with rfl | later
    · rw [List.filter_cons_of_pos (by simp), List.filter_eq_nil_iff.mpr]
      intro other inside same
      exact hashes.1 (List.mem_map.mpr ⟨other, inside, of_decide_eq_true same⟩)
    · rw [List.filter_cons_of_neg, ih later hashes.2]
      intro same
      exact hashes.1 (List.mem_map.mpr ⟨p, later, (of_decide_eq_true same).symm⟩)

theorem count_at {count : Int} (consecutive : Consecutive count offers) {i : Nat} (lt : i < offers.length) :
    offers[i].blk.count = count + i + 1 := by
  induction offers generalizing count i with
  | nil => exact absurd lt (Nat.not_lt_zero i)
  | cons offer offers ih =>
    obtain ⟨next, -, consecutive⟩ := consecutive
    cases i with
    | zero =>
      rw [List.getElem_cons_zero, next]
      omega
    | succ i =>
      rw [List.getElem_cons_succ, ih consecutive (Nat.lt_of_succ_lt_succ lt)]
      omega

/-- The transaction at a place of a block is posted with its count. -/
theorem exists_posted (consecutive : Consecutive 0 offers) {i : Nat} (lt : i < offers.length) {place : Nat}
    {txn : Transaction} (there : offers[i].block.transactions[place]? = some txn) :
    ∃ p ∈ postedIn offers, p.txn = txn ∧ p.count = i + 1 := by
  have count := count_at consecutive lt
  rw [Int.zero_add] at count
  have posted {p : Posted} (member : p ∈ offers[i].posted) : p ∈ postedIn offers :=
    List.mem_flatMap.mpr ⟨_, List.getElem_mem lt, member⟩
  unfold Offer.posted at posted
  cases listed : offers[i].block.transactions with
  | nil =>
    rw [listed] at there
    cases there
  | cons coinbase txns =>
    rw [listed] at there posted
    rcases List.mem_cons.mp (List.mem_of_getElem? there) with rfl | member
    · exact ⟨_, posted (List.mem_append_right _ List.mem_cons_self), rfl, count⟩
    · exact ⟨_, posted (List.mem_append_left _ (List.mem_map.mpr ⟨txn, member, rfl⟩)), rfl, count⟩

/-- Blocks that are attached one after the other are kept. -/
theorem kept_of_attachAll {chain : Chain} {prim : Primitives} {validationDepth count : Int} {before : List Offer}
    {s s' : Ledger} (kept : Kept chain prim validationDepth count before s)
    (consecutive : Consecutive before.length offers) {done : Unit}
    (run : attachAll chain prim validationDepth offers s = .ok done s') :
    Kept chain prim validationDepth count (before ++ offers) s' := by
  induction offers generalizing before s with
  | nil =>
    obtain ⟨-, rfl⟩ := pure_ok.mp run
    rwa [List.append_nil]
  | cons offer offers ih =>
    obtain ⟨next, stored, consecutive⟩ := consecutive
    unfold attachAll at run
    obtain ⟨result, mid, attached, run⟩ := bind_ok.mp run
    rw [List.append_cons]
    refine ih (kept.attach next (fun _ => stored) attached) ?_ run
    rwa [List.length_append, List.length_singleton, Nat.cast_succ]

/-- The lookup of a transaction that is posted: the height of its block, or none from the threshold on. -/
theorem getTransaction_posted (follows : node.Follows cfg offers unspentIndex) {known : List (BlockRef Uint256)}
    (reached : Reached known node.tree) {p : Posted} (named : p.Named cfg.prim offers)
    (nonnull : cfg.prim.txnHash p.txn ≠ 0) (some : p.txn.outputs ≠ []) :
    ∃ txn time, node.getTransaction (cfg.prim.txnHash p.txn) =
      .ok (txn, if locktimeThreshold < p.count then -1 else p.count - 1, time) := by
  obtain ⟨cnf, number, dated, placed⟩ := follows.placed named
  obtain ⟨positive, high⟩ := count_of_mem follows.consecutive named.mem
  have found := placed.confirmationOf nonnull number some
  have conf : (node.ledger.db.confirmationAt cnf).count = p.count := by
    rw [← dated]
    unfold Database.confirmationAt Database.confirmationCount
    cases node.ledger.db.confirmations.rows[cnf]? <;> rfl
  unfold BlockChain.getTransaction BlockChain.whenConfirmed
  dsimp only
  rw [found, conf]
  by_cases late : locktimeThreshold < p.count
  · rw [if_pos late, if_pos late]
    exact ⟨_, _, rfl⟩
  · have length := follows.height
    have low : 0 ≤ p.count - 1 := by omega
    obtain ⟨ref, valid⟩ := BlockTree.refAt_ok reached low (by omega)
    rw [if_neg late, if_neg late, valid]
    exact ⟨_, _, rfl⟩

/-- Every transaction of a block that passes the check has an output. -/
theorem outputs_of_passed {chain : Chain} {prim : Primitives} {adjustedTime : Int} {block : Block}
    (passed : chain.checkBlock prim adjustedTime block = .ok ()) {txn : Transaction}
    (member : txn ∈ block.transactions) : txn.outputs ≠ [] := by
  have checked := (Chain.checkBlock_ok.mp passed).2.2.2.2.1
  generalize block.transactions = txns at member checked
  induction txns with
  | nil => cases member
  | cons first txns ih =>
    obtain ⟨done, own, rest⟩ := bind_eq_ok.mp checked
    rcases List.mem_cons.mp member with rfl | later
    · exact (checkTransaction_ok own).2.1
    · exact ih later rest

/-- The transactions of a block are distinct if their hashes are. -/
theorem transactions_nodup {prim : Primitives} (distinct : (txnHashes prim (offers.map Offer.block)).Nodup) {i : Nat}
    (lt : i < offers.length) : offers[i].block.transactions.Nodup := by
  have part := (List.nodup_flatMap.mp distinct).1 offers[i].block
    (List.mem_map.mpr ⟨_, List.getElem_mem lt, rfl⟩)
  exact part.of_map

theorem BlockChain.Follows.clear (follows : node.Follows cfg offers unspentIndex) : Clear offers := by
  have each {count : Int} (consecutive : Consecutive count offers) :
      ∀ offer ∈ offers, offer.purgeDepth ≤ offer.blk.count := by
    clear follows
    induction offers generalizing count with
    | nil => exact List.forall_mem_nil _
    | cons offer offers ih =>
      obtain ⟨-, purged, rest⟩ := consecutive
      exact List.forall_mem_cons.mpr ⟨purged, ih rest⟩
  exact .inl (each follows.consecutive)

theorem BlockChain.Follows.kept (follows : node.Follows cfg offers unspentIndex) (count : Int) :
    Kept cfg.chain cfg.prim cfg.validationDepth count offers node.ledger := by
  have start : Kept cfg.chain cfg.prim cfg.validationDepth count [] (Ledger.empty unspentIndex) :=
    Kept.start unspentIndex follows.trie
  exact kept_of_attachAll start follows.consecutive follows.run

/-- No block is read at the count before the first one. -/
theorem getBlock_zero (follows : node.Follows cfg offers unspentIndex)
    (distinct : (txnHashes cfg.prim (offers.map Offer.block)).Nodup) (env : Setting) :
    (node.ledger.db.getBlock env 0).transactions = [] := by
  have tallied := ((follows.kept 0).filed distinct follows.clear).1.tallied
  have none : node.ledger.db.confirmationsOf 0 = [] := by
    unfold Database.confirmationsOf
    rw [show node.ledger.db.confirmations.select (fun _ row => decide (row.count = 0)) = [] from ?_]
    · rfl
    · refine List.eq_nil_iff_forall_not_mem.mpr fun entry member => ?_
      obtain ⟨found, zero⟩ := Table.mem_select.mp member
      have positive := (tallied.numbered entry.1 entry.2 found).2.1
      have zero := of_decide_eq_true zero
      omega
  rcases node.ledger.db.getBlock_cases env 0 with ⟨-, empty⟩ | ⟨read, -⟩
  · exact empty
  · rw [read]
    unfold Database.readBlock
    rw [none]
    rfl

/-- The branch of a place of a block that was just read. -/
theorem exists_branch (prim : Primitives) (block : Block) {place : Nat} {txn : Transaction}
    (there : block.transactions[place]? = some txn) :
    ∃ branch b, ((({ block := block, merkleTree := [] } : CachedBlock).buildMerkleTree prim).2).getMerkleBranch prim
        place = .ok (branch, b) ∧
      checkMerkleBranch prim (prim.txnHash txn) branch place = block.buildMerkleTree prim := by
  have counted : CountedBy prim (({ block := block, merkleTree := [] } : CachedBlock).buildMerkleTree prim).2
      { txns := block.transactions.length, built := block.transactions.length } := by
    rw [buildMerkleTree_tree]
    refine ⟨rfl, le_rfl, ?_⟩
    rw [List.take_length]
  obtain ⟨branch, b, read, -, verifies⟩ := counted.branch (.inr rfl) (Int.natCast_nonneg place)
  exact ⟨branch, b, read, verifies txn there⟩

/-- The transaction that is read in place of the block chain has no place. -/
theorem located_missed {prim : Primitives} {this : Transaction} {height : Int} {block : Block} {mtxn : MerkleTx}
    (missed : this ∉ block.transactions) :
    BlockChain.located prim this height block mtxn =
      .ok (0, { mtxn with
        blockHash := prim.headerHash block.toBlockHeader
        merkleBranch := []
        index := -1 }) := by
  unfold BlockChain.located
  dsimp only
  rw [if_pos (List.idxOf_of_notMem missed)]

/-- The place that is found is the one of the transaction that is read in place of the block chain. -/
theorem located_at {prim : Primitives} {this : Transaction} {height : Int} {block : Block}
    (nodup : block.transactions.Nodup) {place : Nat} (there : block.transactions[place]? = some this)
    (mtxn : MerkleTx) :
    ∃ branch, BlockChain.located prim this height block mtxn =
        .ok (if height < 0 then 0 else height, { mtxn with
          blockHash := prim.headerHash block.toBlockHeader
          merkleBranch := branch
          index := place }) ∧
      checkMerkleBranch prim (prim.txnHash this) branch place = block.buildMerkleTree prim := by
  obtain ⟨branch, b, read, verifies⟩ := exists_branch prim block there
  obtain ⟨inside, same⟩ := List.getElem?_eq_some_iff.mp there
  have found : block.transactions.idxOf this = place := by
    rw [← same]
    exact nodup.idxOf_getElem place inside
  refine ⟨branch, ?_, verifies⟩
  unfold BlockChain.located
  dsimp only
  rw [found, if_neg (Nat.ne_of_lt inside), read]
  rfl

/-- A transaction of a block that is read as it was attached is located exactly if the block chain reads as it. -/
theorem located_proves_iff {prim : Primitives} {this : Transaction} {height : Int} {block read : Block}
    {mtxn : MerkleTx} (nodup : block.transactions.Nodup) {place : Nat}
    (there : block.transactions[place]? = some mtxn.txn)
    (root : block.merkleRoot = block.buildMerkleTree prim) (header : read.toBlockHeader = block.toBlockHeader)
    (txns : read.transactions = block.transactions) :
    (∃ height' shown, BlockChain.located prim this height read mtxn = .ok (height', shown) ∧ shown.txn = mtxn.txn ∧
      shown.Proves prim block place) ↔ this = mtxn.txn := by
  rw [← txns] at nodup there
  constructor
  · rintro ⟨height', shown, ran, -, proves⟩
    by_cases known : this ∈ read.transactions
    · obtain ⟨found, named⟩ := List.mem_iff_getElem?.mp known
      obtain ⟨branch, located, -⟩ := located_at nodup named mtxn
      rw [located] at ran
      cases ran
      have same : found = place := Int.ofNat_inj.mp proves.index
      rw [same, there] at named
      exact (Option.some.inj named).symm
    · rw [located_missed known] at ran
      cases ran
      exact absurd proves.index (by simp)
  · rintro rfl
    obtain ⟨branch, located, verifies⟩ := located_at nodup there mtxn
    refine ⟨_, _, located, rfl, congrArg prim.headerHash header, rfl, verifies.trans ?_⟩
    rw [root]
    unfold Block.buildMerkleTree
    rw [txns]

/-- The block of a count is read as it was attached. -/
theorem getBlock_follows (follows : node.Follows cfg offers unspentIndex) (bare : cfg.prim.Bare)
    (distinct : (txnHashes cfg.prim (offers.map Offer.block)).Nodup) {i : Nat} (lt : i < offers.length)
    (coinbase : cfg.chain.duplicateTx (-(i + 1)) = -(i + 1))
    (ordinary : ∀ cnf, 0 < cnf → cfg.chain.duplicateTx cnf = cnf) {adjustedTime : Int}
    (passed : cfg.chain.checkBlock cfg.prim adjustedTime offers[i].block = .ok ()) {clock : Clock}
    (after : adjustedTime ≤ clock.adjusted) :
    (node.ledger.db.getBlock (node.setting cfg clock) (i + 1)).toBlockHeader = offers[i].block.toBlockHeader ∧
      (node.ledger.db.getBlock (node.setting cfg clock) (i + 1)).transactions = offers[i].block.transactions := by
  rw [getBlock_kept bare (follows.kept _) distinct follows.clear lt rfl coinbase ordinary passed rfl rfl after]
  exact ⟨rfl, rfl⟩

/-- The height and the block where `setMerkleBranch` locates a transaction. -/
theorem setMerkleBranch_located (follows : node.Follows cfg offers unspentIndex) {known : List (BlockRef Uint256)}
    (reached : Reached known node.tree) (distinct : (txnHashes cfg.prim (offers.map Offer.block)).Nodup) {i : Nat}
    (lt : i < offers.length) {adjustedTime : Int}
    (passed : cfg.chain.checkBlock cfg.prim adjustedTime offers[i].block = .ok ()) (clock : Clock) {place : Nat}
    {mtxn : MerkleTx} (there : offers[i].block.transactions[place]? = some mtxn.txn)
    (nonnull : cfg.prim.txnHash mtxn.txn ≠ 0) (this : Transaction) :
    node.setMerkleBranch cfg clock this mtxn =
      if locktimeThreshold < (i : Int) + 1 then
        BlockChain.located cfg.prim this (-1) (node.ledger.db.getBlock (node.setting cfg clock) 0) mtxn
      else BlockChain.located cfg.prim this i (node.ledger.db.getBlock (node.setting cfg clock) (i + 1)) mtxn := by
  obtain ⟨p, member, same, count⟩ := exists_posted follows.consecutive lt there
  have some := outputs_of_passed passed (List.mem_of_getElem? there)
  rw [← same] at nonnull some
  have named := Posted.named_of_nodup distinct member
  obtain ⟨txn, time, found⟩ := getTransaction_posted follows reached named nonnull some
  rw [same, count] at found
  unfold BlockChain.setMerkleBranch
  rw [found, ok_bind]
  dsimp only
  by_cases late : locktimeThreshold < (i : Int) + 1
  · rw [if_pos late, if_pos late, Int.add_left_neg]
  · rw [if_neg late, if_neg late, Int.add_sub_cancel]

/-- **The inclusion of a transaction is shown exactly if the block chain reads as this transaction**, for every chain of
blocks that are attached and stored and every transaction of one of its blocks, coinbases included, where the height is
not beyond the threshold for times. -/
theorem setMerkleBranch_proves_iff (follows : node.Follows cfg offers unspentIndex) {known : List (BlockRef Uint256)}
    (reached : Reached known node.tree) (bare : cfg.prim.Bare)
    (distinct : (txnHashes cfg.prim (offers.map Offer.block)).Nodup)
    (ordinary : ∀ cnf, 0 < cnf → cfg.chain.duplicateTx cnf = cnf) {i : Nat} (lt : i < offers.length)
    (coinbase : cfg.chain.duplicateTx (-(i + 1)) = -(i + 1)) {adjustedTime : Int}
    (passed : cfg.chain.checkBlock cfg.prim adjustedTime offers[i].block = .ok ()) {clock : Clock}
    (after : adjustedTime ≤ clock.adjusted) {place : Nat} {mtxn : MerkleTx}
    (there : offers[i].block.transactions[place]? = some mtxn.txn) (nonnull : cfg.prim.txnHash mtxn.txn ≠ 0)
    (this : Transaction) :
    (∃ height shown, node.setMerkleBranch cfg clock this mtxn = .ok (height, shown) ∧ shown.txn = mtxn.txn ∧
      shown.Proves cfg.prim offers[i].block place) ↔ this = mtxn.txn ∧ (i : Int) + 1 ≤ locktimeThreshold := by
  rw [setMerkleBranch_located follows reached distinct lt passed clock there nonnull this]
  by_cases late : locktimeThreshold < (i : Int) + 1
  · -- the transaction is looked for in the block at the count zero, which holds none
    have empty := getBlock_zero follows distinct (node.setting cfg clock)
    rw [if_pos late]
    refine iff_of_false ?_ (by omega)
    rintro ⟨height, shown, ran, -, proves⟩
    rw [located_missed (by rw [empty]; exact List.not_mem_nil)] at ran
    cases ran
    exact absurd proves.index (by simp)
  · obtain ⟨header, txns⟩ := getBlock_follows follows bare distinct lt coinbase ordinary passed after
    rw [if_neg late, and_iff_left (not_lt.mp late)]
    exact located_proves_iff (transactions_nodup distinct lt) there (Chain.checkBlock_merkleRoot passed) header txns

end Chains

namespace Small

/-- The coinbase of the first payday, not yet located. -/
def firstPay : MerkleTx :=
  { txn := coinbase 1 [50], blockHash := 0, merkleBranch := [], index := -1 }

theorem prim_bare : prim.Bare := ⟨fun _ => le_rfl, fun _ => rfl⟩

/-- A node of three paydays. -/
theorem exists_paydays : ∃ (node : BlockChain) (known : List (BlockRef Uint256)),
    node.Follows { config 1 0 with chain := repeating } (paydays 3) true ∧ Reached known node.tree := by
  obtain ⟨t, reached, trunk⟩ := BlockTree.reached_fork
  have run : succeeds (attachAll repeating prim 0 (paydays 3) (Ledger.empty true)) (fun _ _ => true) = true := by
    decide +kernel
  obtain ⟨done, s, attached, -⟩ := of_succeeds run
  refine ⟨{ following [] s with tree := t }, _, ⟨fun trie => absurd rfl trie, ?_, attached, ?_⟩, reached⟩
  · show Consecutive 0 [payday 0, payday 1, payday 2]
    exact ⟨rfl, by decide, rfl, by decide, rfl, by decide, trivial⟩
  · show t.trunk.length = 3
    rw [trunk]
    rfl

end Small

open Libcoin.Small

/-- The coinbase of the first of three blocks is located where the block chain reads as this coinbase. -/
theorem setMerkleBranch_proves_iff_firstPay : ∃ node : BlockChain, ∃ height shown,
    node.setMerkleBranch { config 1 0 with chain := repeating } clock firstPay.txn firstPay = .ok (height, shown) ∧
      shown.txn = firstPay.txn ∧ shown.Proves prim (payday 0).block 0 := by
  obtain ⟨node, known, follows, reached⟩ := exists_paydays
  have passed : repeating.checkBlock prim 0 (payday 0).block = .ok () := payday_passes 0
  have after : (0 : Int) ≤ clock.adjusted := by decide
  have there : (payday 0).block.transactions[0]? = some firstPay.txn := rfl
  have located := setMerkleBranch_proves_iff (i := 0) follows reached prim_bare (paydays_apart (by decide))
    (fun _ => BitcoinChain.duplicateTx_pos) (by decide) (by decide) passed after there (by decide) firstPay.txn
  obtain ⟨height, shown, ran, same, proves⟩ := located.mpr ⟨rfl, by decide⟩
  exact ⟨node, height, shown, ran, same, proves⟩

/-- Where the block chain reads as a transaction without inputs, the coinbase of the first of three blocks is not
located. -/
theorem setMerkleBranch_not_proves : ∃ (node : BlockChain) (known : List (BlockRef Uint256)) (this : Transaction),
    node.Follows { config 1 0 with chain := repeating } (paydays 3) true ∧ Reached known node.tree ∧ ¬ ∃ height shown,
      node.setMerkleBranch { config 1 0 with chain := repeating } clock this firstPay = .ok (height, shown) ∧
        shown.txn = firstPay.txn ∧ shown.Proves prim (payday 0).block 0 := by
  obtain ⟨node, known, follows, reached⟩ := exists_paydays
  have apart := @paydays_apart 3 (by decide)
  let this : Transaction := { version := 0, inputs := [], outputs := [], lockTime := 0 }
  refine ⟨node, known, this, follows, reached, ?_⟩
  have after : (0 : Int) ≤ clock.adjusted := by decide
  have there : (payday 0).block.transactions[0]? = some firstPay.txn := rfl
  obtain ⟨-, txns⟩ := getBlock_follows (i := 0) follows prim_bare apart (by decide) (by decide)
    (fun _ => BitcoinChain.duplicateTx_pos) (payday_passes 0) after
  have located := setMerkleBranch_located (i := 0) follows reached apart (by decide) (payday_passes 0) clock there
    (by decide) this
  rw [if_neg (by decide), located_missed (by rw [txns]; decide)] at located
  rintro ⟨height, shown, ran, -, proves⟩
  rw [located] at ran
  cases ran
  exact absurd proves.index (by simp)

end Libcoin
