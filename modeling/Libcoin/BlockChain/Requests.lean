/-
Blocks that peers ask for by their hash.

* `getBlock` finds the block in the tree and reads the tables at its count. `getData` is what `BlockFilter` pushes in
  answer to a `getdata` message.
* `Hashed`: the rows of blocks have the hashes of their headers, which every call of `append` keeps.
-/

import Libcoin.BlockChain.RoundTrip
import Libcoin.BlockChain.Trunk

namespace Libcoin

open Exec
open BlockTree (Represents Reached)
open Run (AlongStates AlongSteps)

/-- `BlockHeader::isNull`. -/
def BlockHeader.isNull (header : BlockHeader) : Bool := decide (header.bits = 0)

/-- The types of an inventory. -/
inductive InventoryType
  | txn
  | block
  | filteredBlock
  | other (type : Int)
  deriving DecidableEq, Repr

structure Inventory where
  type : InventoryType
  hash : Uint256
  deriving DecidableEq, Repr

/-- A message that is pushed in answer to `getdata`. A merkle block is made from the block. -/
inductive Answer
  | block (block : Block)
  | merkleBlock (block : Block)
  | inv (best : Uint256)
  deriving DecidableEq, Repr

/-- The block of an answer. -/
def Answer.block? : Answer → Option Block
  | .block sent => some sent
  | .merkleBlock sent => some sent
  | .inv _ => none

namespace BlockChain

section Source

variable (cfg : Config) (clock : Clock) (s : BlockChain)

/-- `getBlock(hash, block)` with a null block. -/
def getBlock (hash : Uint256) : Except Fault Block := do
  match ← s.tree.find hash with
  | none => return Block.null
  | some blk => do
    let count ← s.tree.count blk.hash
    return s.ledger.db.getBlock (s.setting cfg clock) count

/-- What was pushed to a peer, and `_continue`, the hash that it is waiting for. The peer is told the best block when
it has got that one. -/
def tickle (hash : Uint256) (origin : List Answer × Uint256) : Except Fault (List Answer × Uint256) :=
  if hash = origin.2 then do
    let best ← s.tree.best
    return (origin.1 ++ [.inv best.hash], 0)
  else return origin

/-- What is pushed for a block or a filtered block. -/
def pushBlock (inv : Inventory) (origin : List Answer × Uint256) : Except Fault (List Answer × Uint256) := do
  let block ← getBlock cfg clock s inv.hash
  if block.isNull then return origin
  else
    let answer := if inv.type = .block then Answer.block block else Answer.merkleBlock block
    tickle s inv.hash (origin.1 ++ [answer], origin.2)

/-- The loop of `getdata` over the inventories, where blocks are not sent in their normalized form. -/
def pushAll : List Inventory → List Answer × Uint256 → Except Fault (List Answer × Uint256)
  | [], origin => return origin
  | inv :: invs, origin => do
    let origin ←
      (if inv.type = .block ∨ inv.type = .filteredBlock then pushBlock cfg clock s inv origin else return origin)
    let origin ← tickle s inv.hash origin
    pushAll invs origin

/-- `getdata`. -/
def getData (invs : List Inventory) (origin : List Answer × Uint256) : Except Fault (List Answer × Uint256) :=
  if 50000 < invs.length then return origin else pushAll cfg clock s invs origin

end Source

section Requests

variable {cfg : Config} {clock : Clock} {s s' : BlockChain}

/-! ### The rows of blocks -/

/-- Every row has the hash of its header. -/
def Hashed (prim : Primitives) (blocks : Map Int BlockRow) : Prop :=
  ∀ (count : Int) row, blocks[count]? = some row → prim.headerHash row.toBlockHeader = row.hash

theorem Hashed.insert {prim : Primitives} {blocks : Map Int BlockRow} (hashed : Hashed prim blocks) (count : Int)
    (header : BlockHeader) :
    Hashed prim (blocks.insert count { header with hash := prim.headerHash header }) := by
  intro other row found
  rcases Map.lookup_of_insert found with ⟨-, rfl⟩ | old
  · rfl
  · exact hashed other row old

theorem Hashed.eraseAll {prim : Primitives} {blocks : Map Int BlockRow} (hashed : Hashed prim blocks)
    (counts : List Int) : Hashed prim (Map.eraseAll counts blocks) := by
  intro other row found
  rw [Map.lookup_eraseAll] at found
  split at found
  · cases found
  · exact hashed other row found

theorem insertBlockHeader_hashed {env : Setting} {count : Int} {block : Block} {done : Unit} {l l' : Ledger}
    (hashed : Hashed env.prim l.blocks) (run : insertBlockHeader env count block l = .ok done l') :
    Hashed env.prim l'.blocks := by
  cases found : l.blocks[count]? with
  | none =>
    rw [insertBlockHeader_blocks run found]
    exact hashed.insert count block.toBlockHeader
  | some row =>
    -- the row that is in the way stays
    have same : l'.blocks = l.blocks := by
      unfold insertBlockHeader at run
      obtain ⟨rowid, mid, inserted, run⟩ := bind_ok.mp run
      have first : mid.blocks = l.blocks := by
        have here : l.db.blocks.contains count = true := Map.contains_of_stored found
        have done := query_ok.mp inserted
        unfold Ledger.afterQuery Database.insertBlock at done
        rw [here] at done
        obtain ⟨-, rfl⟩ := Prod.mk.inj done
        rfl
      rw [← first]
      have rest : Keeps Ledger.blocks (if env.chain.adhereAuxPow && hasAuxPow block.version then do
          let _ ← query (Database.insertAuxProofOfWork (auxRow env count block))
          else pure ()) :=
        keeps_ite (keeps_bind (insert_keeps fun _ _ => rfl) fun _ => keeps_pure _) (keeps_pure _)
      exact rest.ok run
    rw [same]
    exact hashed

/-- A block that is attached keeps the rows. -/
theorem attach_hashed {env : Setting} {blk : Blk} {block : Block} {unconfirmed : Txns} {confirmed : Hashes}
    {result : Txns × Hashes} {l l' : Ledger} (hashed : Hashed env.prim l.blocks)
    (run : attach env blk block unconfirmed confirmed l = .ok result l') : Hashed env.prim l'.blocks := by
  obtain ⟨unconfirmed', confirmed'⟩ := result
  obtain ⟨coinbase, txns, one, fees, two, -, -, -, header, posted, subsidy, -⟩ := attach_ok run
  have first : Hashed env.prim one.blocks := insertBlockHeader_hashed (l := { l with pending := [] }) hashed header
  have second : two.blocks = one.blocks :=
    (postAll_keeps blocks_confirmations blocks_unspents blocks_spendings blocks_names (fun _ _ => rfl)
      (fun _ _ => rfl) (fun _ _ => rfl) _ _ _ _ _ _ _).ok posted
  have third : l'.blocks = two.blocks :=
    (postSubsidy_keeps blocks_confirmations blocks_unspents blocks_spendings (fun _ _ => rfl)
      (fun _ _ => rfl) _ _ _).ok subsidy
  rw [third, second]
  exact first

theorem attachBlocks_hashed {news : List Uint256} {blk blk' : Option Blk} {unconfirmed unconfirmed' : Txns}
    {confirmed confirmed' : Hashes} (hashed : Hashed cfg.prim s.ledger.blocks)
    (run : attachBlocks cfg clock news blk unconfirmed confirmed s = .ok (blk', unconfirmed', confirmed') s') :
    Hashed cfg.prim s'.ledger.blocks := by
  induction news generalizing s blk unconfirmed confirmed with
  | nil =>
    obtain ⟨-, rfl⟩ := pure_ok.mp run
    exact hashed
  | cons hash news ih =>
    unfold attachBlocks at run
    obtain ⟨⟨one, known, done⟩, mid, first, run⟩ := bind_ok.mp run
    obtain ⟨-, branches, ledger, rfl, -, attached⟩ := attachBlock_ok first
    refine ih ?_ run
    exact attach_hashed hashed attached

theorem detachBlocks_hashed {hashes : List Uint256} {unconfirmed unconfirmed' : Txns}
    (hashed : Hashed cfg.prim s.ledger.blocks)
    (run : detachBlocks cfg clock hashes unconfirmed s = .ok unconfirmed' s') :
    Hashed cfg.prim s'.ledger.blocks := by
  induction hashes generalizing s unconfirmed with
  | nil =>
    obtain ⟨-, rfl⟩ := pure_ok.mp run
    exact hashed
  | cons hash hashes ih =>
    obtain ⟨known, blk, block, ledger, -, detached, run⟩ := detachBlocks_cons_ok run
    obtain ⟨-, rfl, -⟩ := detach_ok detached
    refine ih ?_ run
    show Hashed cfg.prim (rollbackBlock _ _ _).blocks
    rw [rollbackBlock_blocks]
    exact hashed.eraseAll [blk.count]

/-- Every call keeps the rows. -/
theorem append_hashed (hashed : Hashed cfg.prim s.ledger.blocks) {block : Block}
    (ends : Ended cfg clock s block s') : Hashed cfg.prim s'.ledger.blocks := by
  cases ends with
  | refused => exact hashed
  | forbidden => exact hashed
  | branched => exact hashed
  | undone => exact hashed
  | @committed prev prevHeight invalidTree tree changes unconfirmed confirmed s₁ s₂ accepted moved done told =>
    have told : s₂.ledger = s₁.ledger := (notify_keeps (fun _ _ => rfl) (fun _ _ => rfl) _ _).ok told
    obtain ⟨known, mid, blk, s₃, locator, detached, attached, rfl⟩ := reorganize_ok done
    have settled : (settle cfg clock unconfirmed confirmed s₂).ledger = s₂.ledger :=
      settle_keeps (fun _ _ => rfl) (fun _ _ => rfl) _ _ _
    have purged : (purgeBlocks cfg prevHeight (blk.elim 0 Blk.count) s₃).ledger.blocks = s₃.ledger.blocks := by
      unfold purgeBlocks
      split <;> rfl
    rw [settled, told]
    show Hashed cfg.prim (purgeBlocks cfg prevHeight (blk.elim 0 Blk.count) s₃).ledger.blocks
    rw [purged]
    have lower := detachBlocks_hashed (s := grown cfg block invalidTree tree s) hashed detached
    exact attachBlocks_hashed lower attached

/-! ### What is read -/

section Read

variable (cfg : Config) (clock : Clock) (s : BlockChain)

/-- The block at a count is read: it is not purged, it passes the check, and it is not null. -/
def Readable (count : Int) : Prop :=
  ¬count < s.ledger.db.getDeepestDepth ∧
    cfg.chain.checkBlock cfg.prim clock.adjusted (s.ledger.db.readBlock (s.setting cfg clock) count) = .ok () ∧
    (s.ledger.db.getBlockHeader count).isNull = false

/-- The transactions in the tables have the merkle root of their row. -/
def Whole (count : Int) : Prop :=
  (s.ledger.db.readBlock (s.setting cfg clock) count).merkleRoot = (s.ledger.db.getBlockHeader count).merkleRoot

instance (count : Int) : Decidable (Readable cfg clock s count) := inferInstanceAs (Decidable (_ ∧ _ ∧ _))

instance (count : Int) : Decidable (Whole cfg clock s count) := inferInstanceAs (Decidable (_ = _))

/-- The tree does not know the hash, or nothing is read at its count, or the block is in the trunk and its
transactions are still in the tables. -/
def Answers (hash : Uint256) : Prop :=
  ∀ height, s.tree.heights[hash]? = some height → Readable cfg clock s (height.natAbs + 1) →
    0 ≤ height ∧ Whole cfg clock s (height.natAbs + 1)

/-- A header that is read has the hash of a known block only if it is the header in the row. -/
def Apart : Prop :=
  ∀ (count : Int) row hash height, s.ledger.blocks[count]? = some row → s.tree.heights[hash]? = some height →
    cfg.prim.headerHash (s.ledger.db.readBlock (s.setting cfg clock) count).toBlockHeader = hash →
    (s.ledger.db.readBlock (s.setting cfg clock) count).toBlockHeader = row.toBlockHeader

/-- What is found for a hash is null, or the block with this hash. -/
def Faithful (hash : Uint256) : Prop :=
  ∃ block, getBlock cfg clock s hash = .ok block ∧
    (block.isNull = true ∨ cfg.prim.headerHash block.toBlockHeader = hash)

end Read

/-- Where nothing is read, the block is null. -/
theorem getBlock_unreadable {count : Int} (unread : ¬Readable cfg clock s count) :
    (s.ledger.db.getBlock (s.setting cfg clock) count).isNull = true := by
  unfold Readable at unread
  unfold Database.getBlock
  split
  · rfl
  · rename_i deep
    dsimp only
    split
    · rename_i checked
      have null : (s.ledger.db.getBlockHeader count).isNull = true := by
        by_contra other
        exact unread ⟨deep, checked, Bool.eq_false_of_not_eq_true other⟩
      split <;> exact null
    · split <;> rfl

theorem getBlock_readable {count : Int} (read : Readable cfg clock s count) :
    (s.ledger.db.getBlock (s.setting cfg clock) count).toBlockHeader =
      (s.ledger.db.readBlock (s.setting cfg clock) count).toBlockHeader := by
  obtain ⟨deep, checked, -⟩ := read
  unfold Database.getBlock
  rw [if_neg deep]
  have checked : (s.setting cfg clock).chain.checkBlock (s.setting cfg clock).prim (s.setting cfg clock).adjustedTime
      (s.ledger.db.readBlock (s.setting cfg clock) count) = .ok () := checked
  dsimp only
  rw [checked]
  split_ifs <;> rfl

/-- A header that is read is that of the row, but for the merkle root. -/
theorem readBlock_whole {count : Int} (whole : Whole cfg clock s count) :
    (s.ledger.db.readBlock (s.setting cfg clock) count).toBlockHeader = s.ledger.db.getBlockHeader count :=
  congrArg (fun root => { s.ledger.db.getBlockHeader count with merkleRoot := root }) whole

/-! ### A block of the tree -/

/-- A hash that is not known is answered with the null block. -/
theorem getBlock_unknown {hash : Uint256} (unknown : s.tree.heights[hash]? = none) :
    getBlock cfg clock s hash = .ok Block.null := by
  have nothing : s.tree.find hash = .ok none := by
    unfold SparseTree.find
    rw [unknown]
  unfold getBlock
  rw [nothing]
  rfl

/-- A block of the tree is looked up at its height, without the sign. -/
theorem getBlock_known {known : List (BlockRef Uint256)} (rep : Represents known s.tree) (grown : Grown known)
    {b : BlockRef Uint256} (member : b ∈ known) :
    ∃ height, s.tree.heights[b.hash]? = some height ∧
      (0 ≤ height ↔ b ∈ s.tree.trunk) ∧ (height.natAbs : Int) = depth known b.hash ∧
      getBlock cfg clock s b.hash = .ok (s.ledger.db.getBlock (s.setting cfg clock) (height.natAbs + 1)) := by
  have low := Represents.depth_nonneg grown member
  have found := rep.find_known grown member
  have looked (height : Int) (stored : s.tree.heights[b.hash]? = some height) :
      getBlock cfg clock s b.hash = .ok (s.ledger.db.getBlock (s.setting cfg clock) (height.natAbs + 1)) := by
    have counted : s.tree.count b.hash = .ok ((height.natAbs : Int) + 1) := by
      unfold SparseTree.count SparseTree.heightOf
      rw [stored]
      rfl
    unfold getBlock
    rw [found]
    show (do
      let count ← s.tree.count b.hash
      return s.ledger.db.getBlock (s.setting cfg clock) count : Except Fault Block) = _
    rw [counted]
    rfl
  by_cases on : b ∈ s.tree.trunk
  · have stored := rep.onTrunk b on
    exact ⟨_, stored, iff_of_true low on, Int.natAbs_of_nonneg low, looked _ stored⟩
  · have stored := rep.onBranch b member on
    have high := rep.depth_pos grown member on
    exact ⟨_, stored, iff_of_false (by omega) on, by omega, looked _ stored⟩

/-- The row of a count that is read: it has the hash of the block of the trunk. -/
theorem InStep.row (inStep : InStep s) (hashed : Hashed cfg.prim s.ledger.blocks) {height : Nat}
    (there : (s.ledger.db.getBlockHeader (height + 1)).isNull = false) :
    ∃ row, s.ledger.blocks[(height + 1 : Int)]? = some row ∧
      s.ledger.db.getBlockHeader (height + 1) = row.toBlockHeader ∧
      cfg.prim.headerHash row.toBlockHeader = row.hash ∧ (hashes s.tree.trunk)[height]? = some row.hash := by
  cases found : s.ledger.blocks[(height + 1 : Int)]? with
  | none =>
    -- a header that is not there is null
    have found : s.ledger.db.blocks[(height + 1 : Int)]? = none := found
    unfold Database.getBlockHeader at there
    rw [found] at there
    cases there
  | some row =>
    have found' : s.ledger.db.blocks[(height + 1 : Int)]? = .some row := found
    have listed := inStep.rows (height + 1)
    rw [found, if_pos (by omega), show ((height : Int) + 1 - 1).toNat = height by omega] at listed
    refine ⟨row, rfl, ?_, hashed _ row found, listed.symm⟩
    unfold Database.getBlockHeader
    rw [found']
    rfl

/-- What is found is the block that was asked for just where the tables and the tree answer. -/
theorem InStep.faithful_iff (inStep : InStep s) (hashed : Hashed cfg.prim s.ledger.blocks)
    (apart : Apart cfg clock s) (hash : Uint256) : Faithful cfg clock s hash ↔ Answers cfg clock s hash := by
  obtain ⟨known, reached⟩ := inStep.reached
  obtain ⟨grown, rep, -⟩ := reached.kept
  by_cases inside : hash ∈ hashes known
  · obtain ⟨b, member, rfl⟩ := List.mem_map.mp inside
    obtain ⟨height, stored, on, size, looked⟩ := @getBlock_known cfg clock s known rep grown b member
    have stored : s.tree.heights[TreeElem.hash b]? = some height := stored
    have looked : getBlock cfg clock s (TreeElem.hash b) =
      .ok (s.ledger.db.getBlock (s.setting cfg clock) (height.natAbs + 1)) := looked
    constructor
    · rintro ⟨block, found, right⟩ other same read
      obtain rfl := Option.some.inj (stored.symm.trans same)
      obtain rfl := Except.ok.inj (looked.symm.trans found)
      obtain ⟨row, there, header, own, listed⟩ := inStep.row hashed read.2.2
      rw [getBlock_readable read] at right
      have right := right.resolve_left (by
        rw [Bool.not_eq_true]
        exact read.2.2)
      have same := apart _ row _ height there stored right
      rw [same, own] at right
      refine ⟨on.mpr ?_, ?_⟩
      · -- the row is that of a block of the trunk with this hash
        obtain ⟨c, inTrunk, named⟩ := List.mem_map.mp (List.mem_of_getElem? listed)
        exact grown.eq_of_hash (rep.trunk_known inTrunk) member (named.trans right) ▸ inTrunk
      · unfold Whole
        rw [header]
        exact congrArg BlockHeader.merkleRoot same
    · intro answers
      refine ⟨_, looked, ?_⟩
      by_cases read : Readable cfg clock s (height.natAbs + 1)
      · obtain ⟨trunk, whole⟩ := answers height stored read
        obtain ⟨row, there, header, own, listed⟩ := inStep.row hashed read.2.2
        obtain ⟨low, high, split, -⟩ := rep.trunk_split grown (on.mp trunk)
        have index := depth_trunk rep grown split
        have at_ : low.length = height.natAbs := by omega
        have here : (hashes s.tree.trunk)[height.natAbs]? = some (TreeElem.hash b) := by
          rw [split, hashes_append, ← at_, hashes, List.getElem?_append_right (by rw [List.length_map]),
            List.length_map, Nat.sub_self]
          rfl
        rw [getBlock_readable read, readBlock_whole whole, header, own]
        exact .inr (Option.some.inj (listed.symm.trans here))
      · exact .inl (getBlock_unreadable read)
  · have unknown := rep.unknown hash inside
    refine iff_of_true ⟨_, getBlock_unknown unknown, .inl rfl⟩ fun height stored => ?_
    rw [unknown] at stored
    cases stored

/-! ### What is pushed -/

/-- The announcement of the best block is not a block. -/
theorem tickle_block {hash : Uint256} {origin origin' : List Answer × Uint256}
    (run : tickle s hash origin = .ok origin') {answer : Answer} (member : answer ∈ origin'.1) {block : Block}
    (sent : answer.block? = some block) : answer ∈ origin.1 := by
  unfold tickle at run
  split at run
  · obtain ⟨best, -, run⟩ := bind_eq_ok.mp run
    obtain rfl := Except.ok.inj run
    refine (List.mem_append.mp member).resolve_right fun last => ?_
    rw [List.mem_singleton.mp last] at sent
    cases sent
  · obtain rfl := Except.ok.inj run
    exact member

theorem pushBlock_block {inv : Inventory} {origin origin' : List Answer × Uint256}
    (run : pushBlock cfg clock s inv origin = .ok origin') {answer : Answer} (member : answer ∈ origin'.1)
    {block : Block} (sent : answer.block? = some block) :
    answer ∈ origin.1 ∨ getBlock cfg clock s inv.hash = .ok block ∧ block.isNull = false := by
  unfold pushBlock at run
  obtain ⟨found, looked, run⟩ := bind_eq_ok.mp run
  split at run
  · obtain rfl := Except.ok.inj run
    exact .inl member
  · rename_i some
    rcases List.mem_append.mp (tickle_block run member sent) with before | last
    · exact .inl before
    · rw [List.mem_singleton.mp last] at sent
      have same : found = block := by
        split at sent
        · exact Option.some.inj sent
        · exact Option.some.inj sent
      subst same
      exact .inr ⟨looked, Bool.eq_false_of_not_eq_true some⟩

/-- Every block that is pushed was found for one of the inventories. -/
theorem pushAll_block {invs : List Inventory} {origin origin' : List Answer × Uint256}
    (run : pushAll cfg clock s invs origin = .ok origin') {answer : Answer} (member : answer ∈ origin'.1)
    {block : Block} (sent : answer.block? = some block) :
    answer ∈ origin.1 ∨ ∃ inv ∈ invs, getBlock cfg clock s inv.hash = .ok block ∧ block.isNull = false := by
  induction invs generalizing origin with
  | nil =>
    obtain rfl := Except.ok.inj run
    exact .inl member
  | cons inv invs ih =>
    unfold pushAll at run
    obtain ⟨one, first, run⟩ := bind_eq_ok.mp run
    obtain ⟨two, second, run⟩ := bind_eq_ok.mp run
    rcases ih run with before | ⟨other, later, found⟩
    · have before := tickle_block second before sent
      split at first
      · exact (pushBlock_block first before sent).imp_right fun found => ⟨inv, List.mem_cons_self, found⟩
      · obtain rfl := Except.ok.inj first
        exact .inl before
    · exact .inr ⟨other, List.mem_cons_of_mem _ later, found⟩

/-- A block that is pushed is one of those that were asked for. -/
theorem getData_block {invs : List Inventory} {waiting : Uint256} {pushed : List Answer × Uint256}
    (right : ∀ inv ∈ invs, Faithful cfg clock s inv.hash)
    (run : getData cfg clock s invs ([], waiting) = .ok pushed) {answer : Answer} (member : answer ∈ pushed.1)
    {block : Block} (sent : answer.block? = some block) :
    ∃ inv ∈ invs, cfg.prim.headerHash block.toBlockHeader = inv.hash := by
  unfold getData at run
  split at run
  · obtain rfl := Except.ok.inj run
    cases member
  · obtain ⟨inv, asked, found, some⟩ := (pushAll_block run member sent).resolve_left List.not_mem_nil
    obtain ⟨other, found', right⟩ := right inv asked
    obtain rfl := Except.ok.inj (found.symm.trans found')
    refine ⟨inv, asked, right.resolve_left fun null => ?_⟩
    rw [some] at null
    cases null

/-! ### Runs -/

/-- What is found for each hash, and pushed for inventories that all have their blocks. -/
structure Asked (cfg : Config) (clock : Clock) (s : BlockChain) : Prop where
  found : ∀ hash, Faithful cfg clock s hash ↔ Answers cfg clock s hash
  pushed : ∀ invs waiting pushed, (∀ inv ∈ invs, Answers cfg clock s inv.hash) →
    getData cfg clock s invs ([], waiting) = .ok pushed → ∀ answer ∈ pushed.1, ∀ block,
      answer.block? = some block → ∃ inv ∈ invs, cfg.prim.headerHash block.toBlockHeader = inv.hash

theorem InStep.asked (inStep : InStep s) (hashed : Hashed cfg.prim s.ledger.blocks) (apart : Apart cfg clock s) :
    Asked cfg clock s := by
  refine ⟨inStep.faithful_iff hashed apart, fun invs waiting pushed answers run answer member block sent => ?_⟩
  exact getData_block (fun inv asked => (inStep.faithful_iff hashed apart inv.hash).mpr (answers inv asked)) run
    member sent

/-- **A block that is asked for by its hash is this block or none if and only if it is in the trunk with its
transactions, or the trunk has none to read at its count**, in every state of a run in which reorganisations do not
fail. -/
theorem asked_iff {calls : List (Clock × Block)} (loaded : Loaded s) (hashed : Hashed cfg.prim s.ledger.blocks)
    (along : AlongSteps (offer cfg) (fun now call => ∀ s ∈ now, TrunkMeets cfg s call) (some s) calls) :
    AlongStates (offer cfg) (fun now => ∀ s ∈ now, ∀ clock, Apart cfg clock s →
      Asked cfg clock s) (some s) calls := by
  have kept : ∀ (s : BlockChain) (call : Clock × Block) s',
      InStep s ∧ Hashed cfg.prim s.ledger.blocks → TrunkMeets cfg s call →
        outcome (append cfg call.1 call.2 s) = some s' → InStep s' ∧ Hashed cfg.prim s'.ledger.blocks := by
    rintro s call s' ⟨inStep, hashed⟩ met done
    exact ⟨inStep.append met done, append_hashed hashed (met.commits.ended inStep.reached done)⟩
  refine offers_run ?_ kept ⟨loaded.inStep, hashed⟩ along
  intro s both clock apart
  exact both.1.asked both.2 apart

/-- A new chain has the row of its genesis block. -/
theorem create_hashed {genesis : Block} {unspentIndex : Bool} {purgeDepth : Int}
    (run : create cfg clock genesis unspentIndex purgeDepth = .ok s) : Hashed cfg.prim s.ledger.blocks := by
  obtain ⟨tree, start, blk, ledger, locator, result, -, -, -, -, -, -, attached, rfl⟩ := create_ok run
  have none_yet : Hashed cfg.prim (Ledger.empty unspentIndex).blocks := by
    intro count row found
    have found : (∅ : Map Int BlockRow)[count]? = some row := found
    simp at found
  exact attach_hashed none_yet attached

/-- A block that goes on a branch meets what is asked. -/
theorem InStep.meets_branch (inStep : InStep s) {call : Clock × Block}
    (branch : ∀ tree changes, s.tree.insert (refOf cfg call.2 call.2.prevBlock) = .ok (tree, changes) →
      changes.inserted = []) : TrunkMeets cfg s call := by
  obtain ⟨known, reached⟩ := inStep.reached
  have none {prev prevHeight invalidTree tree changes}
      (accepted : Accepted cfg s call.2 prev prevHeight invalidTree tree changes) : changes.inserted = [] := by
    obtain ⟨-, -, before⟩ := accepted.offered reached
    refine branch tree changes ?_
    rw [← before]
    exact accepted.grown
  refine ⟨fun accepted hash member => ?_, fun prev prevHeight invalidTree tree changes accepted moved => ?_⟩
  · rw [none accepted] at member
    cases member
  · exact absurd (none accepted) moved

/-- No two headers are confused where all rows are whole. -/
theorem Apart.of_whole (whole : ∀ (count : Int) row, s.ledger.blocks[count]? = some row → Whole cfg clock s count) :
    Apart cfg clock s := by
  intro count row hash height found stored same
  have found' : s.ledger.db.blocks[count]? = some row := found
  rw [readBlock_whole (whole count row found)]
  unfold Database.getBlockHeader
  rw [found']
  rfl

end Requests

end BlockChain

namespace Small

/-- A block with a coinbase alone, which is its own merkle root. -/
def rooted (n prev : Nat) : Block := { mined n prev [coinbase n [50]] with merkleRoot := Fin.ofNat _ n }

/-- The chain of such a genesis block. -/
def started : Except Fault BlockChain := BlockChain.create (config 1 0) clock (rooted 1 0) true 0

end Small

namespace BlockChain

open Libcoin.Small in
/-- Of two blocks on the first one, the second is asked for and the first is found. The second is then built upon,
and the first, which has left the trunk, is answered with the second. -/
theorem asked_other : ∃ s, started = .ok s ∧
    ¬ AlongStates (offer (config 1 0)) (fun now => ∀ s ∈ now, ∀ hash, Faithful (config 1 0) clock s hash) (some s)
      [(clock, rooted 2 1), (clock, rooted 3 1)] ∧
    ¬ AlongStates (offer (config 1 0)) (fun now => ∀ s ∈ now, ∀ invs pushed,
        getData (config 1 0) clock s invs ([], 0) = .ok pushed → ∀ answer ∈ pushed.1, ∀ block,
          answer.block? = some block → ∃ inv ∈ invs, prim.headerHash block.toBlockHeader = inv.hash) (some s)
      [(clock, rooted 2 1), (clock, rooted 3 1), (clock, rooted 4 3)] := by
  have run : (do
      let s ← started.toOption
      let s₁ ← Run.final (offer (config 1 0)) (some s) [(clock, rooted 2 1), (clock, rooted 3 1)]
      let s₂ ← Run.final (offer (config 1 0)) (some s)
        [(clock, rooted 2 1), (clock, rooted 3 1), (clock, rooted 4 3)]
      let block ← (getBlock (config 1 0) clock s₁ 3).toOption
      let pushed ← (getData (config 1 0) clock s₂ [⟨.block, 2⟩] ([], 0)).toOption
      return (block.isNull, prim.headerHash block.toBlockHeader,
        pushed.1.map fun answer => answer.block?.map fun block => prim.headerHash block.toBlockHeader)) =
      some (false, 2, [some 3]) := by decide +kernel
  obtain ⟨s, done, run⟩ := Option.bind_eq_some_iff.mp run
  obtain ⟨s₁, first, run⟩ := Option.bind_eq_some_iff.mp run
  obtain ⟨s₂, second, run⟩ := Option.bind_eq_some_iff.mp run
  obtain ⟨block, found, run⟩ := Option.bind_eq_some_iff.mp run
  obtain ⟨pushed, sent, run⟩ := Option.bind_eq_some_iff.mp run
  obtain ⟨some_block, run⟩ := Prod.mk.inj (Option.some.inj run)
  obtain ⟨named, answered⟩ := Prod.mk.inj run
  refine ⟨s, toOption_eq_some.mp done, fun along => ?_, fun along => ?_⟩
  · obtain ⟨other, found', right⟩ := along.final s₁ first 3
    obtain rfl := Except.ok.inj ((toOption_eq_some.mp found).symm.trans found')
    rcases right with null | same
    · exact absurd (some_block.symm.trans null) (by decide)
    · exact absurd (named.symm.trans same) (by decide)
  · obtain ⟨answer, rest, split, own, -⟩ := List.map_eq_cons_iff.mp answered
    obtain ⟨other, blocked, own⟩ := Option.map_eq_some_iff.mp own
    obtain ⟨inv, asked, same⟩ := along.final s₂ second [⟨.block, 2⟩] pushed (toOption_eq_some.mp sent) answer
      (split ▸ List.mem_cons_self) other blocked
    rw [List.mem_singleton.mp asked] at same
    exact absurd (own.symm.trans same) (by decide)

open Libcoin.Small in
/-- In the same run the first block is found, and the second one is not. -/
theorem asked_iff_branch : ∃ s, started = .ok s ∧
    ∃ s', Run.final (offer (config 1 0)) (some s) [(clock, rooted 2 1), (clock, rooted 3 1)] = some s' ∧
      Faithful (config 1 0) clock s' 2 ∧ ¬Faithful (config 1 0) clock s' 3 := by
  have run : (do
      let s ← started.toOption
      let s₁ ← offer (config 1 0) (some s) (clock, rooted 2 1)
      let s₂ ← offer (config 1 0) (some s₁) (clock, rooted 3 1)
      let inserted ← (s₁.tree.insert (refOf (config 1 0) (rooted 3 1) 1)).toOption
      return decide (s.tree.trunk.getLast?.map BlockRef.hash = some 1 ∧ inserted.2.inserted = [] ∧
        s₂.tree.heights[(2 : Uint256)]? = some 1 ∧ s₂.tree.heights[(3 : Uint256)]? = some (-1) ∧
        (∀ row ∈ s₂.ledger.db.blocks.toList, Whole (config 1 0) clock s₂ row.1) ∧
        Readable (config 1 0) clock s₂ 2 ∧ Whole (config 1 0) clock s₂ 2)) = some true := by decide +kernel
  obtain ⟨s, done, run⟩ := Option.bind_eq_some_iff.mp run
  obtain ⟨s₁, one, run⟩ := Option.bind_eq_some_iff.mp run
  obtain ⟨s₂, two, run⟩ := Option.bind_eq_some_iff.mp run
  obtain ⟨⟨tree, changes⟩, inserted, run⟩ := Option.bind_eq_some_iff.mp run
  obtain ⟨first, branch, trunk, other, whole, read, there⟩ := of_decide_eq_true (Option.some.inj run)
  obtain ⟨tip, best, named⟩ := Option.map_eq_some_iff.mp first
  have created := toOption_eq_some.mp done
  have loaded := create_loaded created
  have meets : TrunkMeets (config 1 0) s (clock, rooted 2 1) :=
    loaded.inStep.meets_tip best (by rw [named]; decide)
  have meets' : TrunkMeets (config 1 0) s₁ (clock, rooted 3 1) := by
    refine (loaded.inStep.append meets one).meets_branch fun tree' changes' done => ?_
    obtain ⟨-, rfl⟩ := Prod.mk.inj (Except.ok.inj ((toOption_eq_some.mp inserted).symm.trans done))
    exact branch
  have along : AlongSteps (offer (config 1 0)) (fun now call => ∀ s ∈ now, TrunkMeets (config 1 0) s call) (some s)
      [(clock, rooted 2 1), (clock, rooted 3 1)] := by
    refine ⟨?_, ?_, trivial⟩
    · rintro _ ⟨⟩
      exact meets
    · rw [one]
      rintro _ ⟨⟩
      exact meets'
  have last :
      Run.final (offer (config 1 0)) (some s) [(clock, rooted 2 1), (clock, rooted 3 1)] = some s₂ := by
    show offer (config 1 0) (offer (config 1 0) (some s) (clock, rooted 2 1)) _ = _
    rw [one]
    exact two
  have whole (count : Int) (row : BlockRow) (found : s₂.ledger.blocks[count]? = some row) :
      Whole (config 1 0) clock s₂ count := whole (count, row) (Map.mem_toList.mpr found)
  have asked := (asked_iff loaded (create_hashed created) along).final s₂ last clock (Apart.of_whole whole)
  refine ⟨s, created, s₂, last, (asked.found 2).mpr fun height stored _ => ?_, fun found => ?_⟩
  · obtain rfl := Option.some.inj (trunk.symm.trans stored)
    exact ⟨by decide, there⟩
  · exact absurd ((asked.found 3).mp found (-1) other read).1 (by decide)

end BlockChain

end Libcoin
