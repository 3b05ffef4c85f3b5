/-
Blocks that are announced to a node that asks for them by its locator.

* `getBlocks` is the answer to a `getblocks` message, and `receiveInv` what a node does with the inventories.
* `pushBlocks_eq`: the rest of the trunk is announced up to the stop, or until one of two limits is used up.
-/

import Libcoin.BlockChain.BlockFilter
import Libcoin.BlockChain.Locators
import Libcoin.BlockChain.Requests

namespace Libcoin

open Exec
open BlockTree (Represents Reached)

/-- `SendBufferSize`. -/
def sendBufferSize : Nat := 10 * 1000 * 1000

/-- A peer: the inventories that it is known to have, those that are to be sent to it, and the hash at which the
answer to its last request was cut off. -/
structure Origin where
  knownInventory : Finset Uint256
  toSend : List Uint256
  hashContinue : Uint256

/-- `push`, for the inventory of a block. -/
def Origin.push (hash : Uint256) (origin : Origin) : Origin :=
  if hash ∈ origin.knownInventory then origin else { origin with toSend := origin.toSend ++ [hash] }

namespace BlockChain

section Source

variable (cfg : Config) (clock : Clock) (s : BlockChain)

/-- `serialize_size` of the block that is read for an iterator. -/
def blockBytes (count : Int) : Nat := (cfg.prim.blockSize (s.ledger.db.getBlock (s.setting cfg clock) count)).toNat

/-- The loop of `getblocks` over the trunk, with at most so many turns. The bytes are counted in an `unsigned int`. -/
def pushBlocks (hashStop : Uint256) :
    Nat → Option (BlockRef Uint256) → Int → Nat → Origin → Except Fault Origin
  | _, none, _, _, origin => return origin
  | 0, some _, _, _, _ => .error .undefined
  | turns + 1, some blk, limit, bytes, origin => do
    let height ← s.tree.heightOf blk.hash
    if height < s.ledger.db.getDeepestDepth then return origin
    else if blk.hash = hashStop then return origin
    else do
      let count ← s.tree.count blk.hash
      let origin := origin.push blk.hash
      let bytes := (bytes + blockBytes cfg clock s count) % 2 ^ 32
      if limit - 1 ≤ 0 ∨ sendBufferSize / 2 ≤ bytes then return { origin with hashContinue := blk.hash }
      else do
        let next ← s.tree.advance blk 1
        pushBlocks hashStop turns next (limit - 1) bytes origin

/-- `getblocks`. -/
def getBlocks (locator : List Uint256) (hashStop : Uint256) (origin : Origin) : Except Fault Origin := do
  match ← s.tree.locate locator with
  | none => .error .undefined
  | some blk => do
    let distance ← s.tree.getDistanceBack locator
    let next ← s.tree.advance blk 1
    pushBlocks cfg clock s hashStop (s.tree.trunk.length + 1) next (500 + distance) 0 origin

end Source

end BlockChain

namespace BlockFilter

section Source

variable (cfg : Config)

/-- `alreadyHave`, for a block. -/
def alreadyHave (f : BlockFilter) (hash : Uint256) : Except Halt Bool := do
  if f.orphans[hash]?.isSome then return true else haveBlock hash f.chain

/-- The loop of `inv` over the inventories: what is queued, and the filter, which asks for what an orphan lacks. -/
def queueAll : List Inventory → List Uint256 × BlockFilter → Except Halt (List Uint256 × BlockFilter)
  | [], now => return now
  | inv :: invs, (queued, f) => do
    if inv.type = .block then do
      let known ← alreadyHave f inv.hash
      if !known then queueAll invs (queued ++ [inv.hash], f)
      else
        match f.orphans[inv.hash]? with
        | none => queueAll invs (queued, f)
        | some orphan => do
          let root ← orphanRoot cfg f.orphans (f.orphans.size + 1) orphan
          queueAll invs (queued, { f with asked := f.asked ++ [(f.chain.bestLocator, root)] })
    else queueAll invs (queued, f)

/-- `inv`. -/
def receiveInv (invs : List Inventory) (now : List Uint256 × BlockFilter) :
    Except Halt (List Uint256 × BlockFilter) :=
  if 50000 < invs.length then return now else queueAll cfg invs now

end Source

end BlockFilter

namespace BlockChain

open BlockTree

/-! ### What is announced -/

section Announced

variable {cfg : Config} {clock : Clock} {s : BlockChain} {stop : Uint256}

/-- The bytes of the block of the trunk at a height. -/
def bytesAt (cfg : Config) (clock : Clock) (s : BlockChain) (height : Nat) : Nat :=
  blockBytes cfg clock s (height + 1)

/-- What is pushed from some heights on. -/
def announced (cfg : Config) (clock : Clock) (s : BlockChain) (stop : Uint256) (limit : Int) (bytes : Nat)
    (heights : List Nat) : List Uint256 :=
  (cutOff (bytesAt cfg clock s) (sendBufferSize / 2) limit bytes
    (heights.takeWhile fun height => decide (s.tree.nameAt height ≠ stop))).map fun height : Nat => s.tree.nameAt height

/-- The loop of `getblocks` pushes the rest of the trunk, up to the stop or until a limit is used up. -/
theorem pushBlocks_eq (indexed : Indexed s.tree) (unpurged : s.ledger.db.getDeepestDepth ≤ 1)
    (small : ∀ height < s.tree.trunk.length, bytesAt cfg clock s height + sendBufferSize / 2 ≤ 2 ^ 32)
    {turns bytes : Nat} {limit : Int} {low high : List (BlockRef Uint256)} (split : s.tree.trunk = low ++ high)
    (above : 1 ≤ low.length) (enough : high.length ≤ turns) (within : bytes < sendBufferSize / 2) (origin : Origin) :
    ∃ hash, pushBlocks cfg clock s stop turns high.head? limit bytes origin =
      .ok { (announced cfg clock s stop limit bytes (List.range' low.length high.length)).foldl
        (fun origin hash => origin.push hash) origin with hashContinue := hash } := by
  induction high generalizing turns bytes limit low origin with
  | nil =>
    refine ⟨origin.hashContinue, ?_⟩
    rw [List.head?_nil, pushBlocks]
    rfl
  | cons b high ih =>
    obtain ⟨turns, rfl⟩ := Nat.exists_eq_add_of_le' (Nat.lt_of_lt_of_le (Nat.succ_pos _) enough)
    have height : s.tree.heightOf b.hash = .ok (low.length : Int) := by
      rw [SparseTree.heightOf, indexed low b high split]
    have count : s.tree.count b.hash = .ok ((low.length : Int) + 1) := by
      rw [SparseTree.count, height]
      rfl
    have named : s.tree.nameAt low.length = b.hash := nameAt_append split
    have inside : low.length < s.tree.trunk.length := by
      rw [split, List.length_append, List.length_cons]
      omega
    have fits := small low.length inside
    have next : s.tree.trunk = (low ++ [b]) ++ high := by
      rw [split, List.append_assoc, List.singleton_append]
    rw [List.head?_cons, pushBlocks, height, ok_bind, if_neg (by omega)]
    unfold announced
    rw [List.length_cons, List.range'_succ, List.takeWhile_cons, named]
    by_cases stopped : b.hash = stop
    · rw [if_pos stopped, decide_eq_false (not_not.mpr stopped)]
      exact ⟨origin.hashContinue, rfl⟩
    · have counted : (bytes + bytesAt cfg clock s low.length) % 2 ^ 32 = bytes + bytesAt cfg clock s low.length :=
        Nat.mod_eq_of_lt (by omega)
      rw [if_neg stopped, decide_eq_true stopped, count, ok_bind]
      show ∃ hash, (if limit - 1 ≤ 0 ∨ sendBufferSize / 2 ≤ (bytes + bytesAt cfg clock s low.length) % 2 ^ 32 then _
        else s.tree.advance b 1 >>= fun next =>
          pushBlocks cfg clock s stop turns next (limit - 1) ((bytes + bytesAt cfg clock s low.length) % 2 ^ 32) _) = _
      rw [counted]
      show ∃ hash, _ = Except.ok { List.foldl _ origin (List.map _ (cutOff _ _ _ _
        (_ :: _))) with hashContinue := hash }
      rw [cutOff, List.map_cons, List.foldl_cons, named]
      split
      · exact ⟨b.hash, rfl⟩
      · rename_i more
        rw [advance_trunk indexed split, ok_bind]
        have long : (low ++ [b]).length = low.length + 1 := List.length_append
        have enough : high.length ≤ turns := Nat.le_of_succ_le_succ enough
        have within : bytes + bytesAt cfg clock s low.length < sendBufferSize / 2 := by omega
        obtain ⟨hash, done⟩ := ih next (by omega) enough within (origin.push b.hash)
        rw [long] at done
        exact ⟨hash, done⟩

/-- What is pushed for the locator of another trunk. -/
def answerTo (cfg : Config) (clock : Clock) (s : BlockChain) (r : BlockTree Uint256) (stop : Uint256) : List Uint256 :=
  announced cfg clock s stop (500 + distanceTo (forkHeight s.tree r) r.locatorList 0 1) 0
    (List.range' (startHeight s.tree r + 1) (s.tree.trunk.length - (startHeight s.tree r + 1)))

/-- The answer to a request with the locator of another node. -/
theorem getBlocks_eq {r : BlockTree Uint256} {known low ours theirs : List (BlockRef Uint256)}
    (rep : Represents known s.tree) (grown : Grown known) (forked : Forked s.tree r low ours theirs)
    (unpurged : s.ledger.db.getDeepestDepth ≤ 1)
    (small : ∀ height < s.tree.trunk.length, bytesAt cfg clock s height + sendBufferSize / 2 ≤ 2 ^ 32)
    (origin : Origin) :
    ∃ hash, getBlocks cfg clock s (r.locatorList.map r.nameAt) stop origin =
      .ok { (answerTo cfg clock s r stop).foldl (fun origin hash => origin.push hash) origin with
        hashContinue := hash } := by
  obtain ⟨entry, below, member⟩ := forked.start
  have common : ∀ height ∈ r.locatorList, r.nameAt height ∈ hashes s.tree.trunk ↔ height ≤ forkHeight s.tree r :=
    fun height member =>
      forked.mem_iff (mem_locatorList forked.nonempty member).1 (mem_locatorList forked.nonempty member).2
  have long := forked.fork_eq
  have inside : startHeight s.tree r < s.tree.trunk.length := by
    rw [forked.split, List.length_append]
    omega
  obtain ⟨before, b, after, split, counted⟩ := split_at (Int.natCast_nonneg _) (Int.ofNat_lt.mpr inside)
  have named : r.nameAt (startHeight s.tree r) = b.hash := by
    rw [forked.nameAt_eq (by omega), ← counted]
    exact nameAt_append split
  have onTree : b ∈ s.tree.trunk := split ▸ List.mem_append_right _ List.mem_cons_self
  have located : s.tree.locate (r.locatorList.map r.nameAt) = .ok (some b) := by
    rw [locate_eq rep grown common ⟨_, member, by omega⟩, entry, named]
    exact rep.find_known grown (rep.trunk_known onTree)
  have distance : s.tree.getDistanceBack (r.locatorList.map r.nameAt) =
      .ok (distanceTo (forkHeight s.tree r) r.locatorList 0 1) := distanceBack_eq rep grown common 0 1
  have next : s.tree.trunk = (before ++ [b]) ++ after := by
    rw [split, List.append_assoc, List.singleton_append]
  have start : (before ++ [b]).length = startHeight s.tree r + 1 := by
    rw [List.length_append, List.length_singleton]
    omega
  have rest : after.length = s.tree.trunk.length - (startHeight s.tree r + 1) := by
    rw [next, List.length_append, start]
    omega
  obtain ⟨hash, done⟩ := @pushBlocks_eq _ _ _ stop (rep.indexed grown) unpurged small _ _ _ _ _ next (by omega)
    (by omega : after.length ≤ s.tree.trunk.length + 1) (by decide : 0 < sendBufferSize / 2) origin
  refine ⟨hash, ?_⟩
  unfold getBlocks
  rw [located, ok_bind]
  show (s.tree.getDistanceBack _ >>= _) = _
  rw [distance, ok_bind, advance_trunk (rep.indexed grown) split, ok_bind, done, start, rest, answerTo]

/-- The blocks of the trunk from the entry of the locator up to the fork, which the other node has, do not use up half
of the send buffer, and neither one of them nor the first block above the fork has the hash of the stop. -/
def Fits (cfg : Config) (clock : Clock) (s : BlockChain) (r : BlockTree Uint256) (stop : Uint256) : Prop :=
  (∀ height ∈ List.range' (startHeight s.tree r + 1) (forkHeight s.tree r - startHeight s.tree r + 1),
    s.tree.nameAt (height : Nat) ≠ stop) ∧
  ((List.range' (startHeight s.tree r + 1) (forkHeight s.tree r - startHeight s.tree r)).map
    (bytesAt cfg clock s)).sum < sendBufferSize / 2

instance (r : BlockTree Uint256) : Decidable (Fits cfg clock s r stop) := inferInstanceAs (Decidable (_ ∧ _))

/-- The heights up to the fork, the first one above it and the rest. -/
theorem heights_split {start fork length : Nat} (below : start ≤ fork) (more : fork + 1 < length) :
    List.range' (start + 1) (length - (start + 1)) =
      List.range' (start + 1) (fork - start) ++ (fork + 1) :: List.range' (fork + 2) (length - (fork + 2)) := by
  have first : fork + 1 = start + 1 + (fork - start) := by omega
  have rest : length - (start + 1) = fork - start + (length - (fork + 2) + 1) := by omega
  show _ = _ ++ List.range' (fork + 1) (length - (fork + 2) + 1)
  rw [first, List.range'_append_1, ← rest]

/-- Something new is announced if and only if what is known fits. -/
theorem exists_announced_iff {r : BlockTree Uint256} {low ours theirs : List (BlockRef Uint256)}
    (forked : Forked s.tree r low ours theirs) :
    (∃ hash ∈ answerTo cfg clock s r stop, hash ∉ hashes r.trunk) ↔ Fits cfg clock s r stop := by
  obtain ⟨entry, below, -⟩ := forked.start
  have long := forked.fork_eq
  have longer : forkHeight s.tree r + 1 < s.tree.trunk.length := by
    have more := List.length_pos_iff.mpr forked.more
    rw [forked.split, List.length_append]
    omega
  have high : (forkHeight s.tree r : Int) ≤ r.height := by
    have length : r.trunk.length = low.length + theirs.length := by rw [forked.split', List.length_append]
    unfold SparseTree.height
    omega
  have gap := locatorList_gap (Int.natCast_nonneg _) high
  rw [entry] at gap
  have counted : ((List.range' (startHeight s.tree r + 1)
      (forkHeight s.tree r - startHeight s.tree r)).length : Int) <
        500 + distanceTo (forkHeight s.tree r) r.locatorList 0 1 := by
    rw [List.length_range']
    omega
  have old : ∀ height ∈ List.range' (startHeight s.tree r + 1) (forkHeight s.tree r - startHeight s.tree r),
      ¬s.tree.nameAt (height : Nat) ∉ hashes r.trunk := by
    intro height member
    have bounds := List.mem_range'_1.mp member
    rw [forked.new_iff (by omega)]
    omega
  have here : s.tree.nameAt ((forkHeight s.tree r + 1 : Nat) : Int) ∉ hashes r.trunk :=
    (forked.new_iff longer).mpr (Nat.lt_succ_self _)
  have last : forkHeight s.tree r + 1 =
      startHeight s.tree r + 1 + 1 * (forkHeight s.tree r - startHeight s.tree r) := by omega
  have passes : (∀ height ∈ List.range' (startHeight s.tree r + 1) (forkHeight s.tree r - startHeight s.tree r) ++
      [forkHeight s.tree r + 1], decide (s.tree.nameAt (height : Nat) ≠ stop) = true) ↔ _ :=
    forall₂_congr fun _ _ => decide_eq_true_iff
  have taken := @exists_cutOff_takeWhile_iff Nat (bytesAt cfg clock s) (sendBufferSize / 2)
    (fun height => s.tree.nameAt height ∉ hashes r.trunk) (fun height => decide (s.tree.nameAt height ≠ stop)) _ _
    (List.range' (forkHeight s.tree r + 2) (s.tree.trunk.length - (forkHeight s.tree r + 2))) _ counted
    (by decide) old here
  unfold answerTo announced Fits
  rw [heights_split below longer, List.range'_concat, ← last, ← passes, ← taken]
  simp only [List.mem_map, exists_exists_and_eq_and]

/-- Only blocks of the trunk are announced. -/
theorem answerTo_trunk {r : BlockTree Uint256} {hash : Uint256} (member : hash ∈ answerTo cfg clock s r stop) :
    hash ∈ hashes s.tree.trunk := by
  obtain ⟨height, taken, rfl⟩ := List.mem_map.mp member
  have bounds := List.mem_range'_1.mp ((List.takeWhile_prefix _).subset ((prefix_cutOff _ _ _).subset taken))
  have whole : s.tree.trunk = [] ++ s.tree.trunk := rfl
  obtain ⟨b, on, named⟩ := nameAt_high whole (Nat.zero_le _) (by omega : (height : Int).toNat < _)
  rw [named]
  exact List.mem_map_of_mem on

end Announced

theorem foldl_push (hashes : List Uint256) (origin : Origin) :
    hashes.foldl (fun origin hash => origin.push hash) origin =
      { origin with toSend := origin.toSend ++ hashes.filter fun hash => decide (hash ∉ origin.knownInventory) } := by
  induction hashes generalizing origin with
  | nil => rw [List.filter_nil, List.append_nil]; rfl
  | cons hash hashes ih =>
    rw [List.foldl_cons, ih, Origin.push]
    split
    · rename_i known
      rw [List.filter_cons_of_neg (by simpa using known)]
    · rename_i unknown
      rw [List.filter_cons_of_pos (by simpa using unknown), List.append_assoc, List.singleton_append]

end BlockChain

namespace BlockFilter

open BlockTree

/-! ### What is queued -/

section Queued

variable {cfg : Config} {f : BlockFilter}

/-- A node without orphans queues the blocks that it does not have. -/
theorem queueAll_eq (own : ∀ hash, haveBlock hash f.chain = .ok (decide (hash ∈ hashes f.chain.tree.trunk)))
    (noOrphans : f.orphans = ∅) (news queued : List Uint256) :
    queueAll cfg (news.map fun hash => ⟨.block, hash⟩) (queued, f) =
      .ok (queued ++ news.filter fun hash => decide (hash ∉ hashes f.chain.tree.trunk), f) := by
  induction news generalizing queued with
  | nil => rw [List.filter_nil, List.append_nil]; rfl
  | cons hash news ih =>
    have stored : f.orphans[hash]? = none := by
      rw [noOrphans]
      exact Map.lookup_empty hash
    have known : alreadyHave f hash = .ok (decide (hash ∈ hashes f.chain.tree.trunk)) := by
      unfold alreadyHave
      rw [stored]
      exact own hash
    rw [List.map_cons, queueAll, if_pos rfl, known, ok_bind]
    by_cases inside : hash ∈ hashes f.chain.tree.trunk
    · rw [decide_eq_true inside, List.filter_cons_of_neg (by simpa using inside)]
      show (match f.orphans[hash]? with | none => _ | some orphan => _) = _
      rw [stored]
      exact ih queued
    · rw [decide_eq_false inside, List.filter_cons_of_pos (by simpa using inside)]
      refine (ih (queued ++ [hash])).trans ?_
      rw [List.append_assoc, List.singleton_append]

/-- The messages in which inventories come queue what it does not have of all of them. -/
theorem receiveAll_eq (own : ∀ hash, haveBlock hash f.chain = .ok (decide (hash ∈ hashes f.chain.tree.trunk)))
    (noOrphans : f.orphans = ∅) {messages : List (List Uint256)} (short : ∀ news ∈ messages, news.length ≤ 50000)
    (queued : List Uint256) :
    messages.foldlM (fun now news => receiveInv cfg (news.map fun hash => ⟨.block, hash⟩) now) (queued, f) =
      .ok (queued ++ messages.flatten.filter fun hash => decide (hash ∉ hashes f.chain.tree.trunk), f) := by
  induction messages generalizing queued with
  | nil => rw [List.flatten_nil, List.filter_nil, List.append_nil]; rfl
  | cons news messages ih =>
    have within : ¬50000 < (news.map fun hash => (⟨.block, hash⟩ : Inventory)).length := by
      rw [List.length_map]
      exact not_lt.mpr (short news List.mem_cons_self)
    rw [List.foldlM_cons, receiveInv, if_neg within, queueAll_eq own noOrphans, ok_bind,
      ih fun news member => short news (List.mem_cons_of_mem _ member)]
    rw [List.flatten_cons, List.filter_append, List.append_assoc]

end Queued

/-! ### Progress -/

/-- A node that asks another one for blocks, of which neither has purged any. Their trunks have the same genesis block
and no two blocks with one hash, and the node that asks has its own trunk and nothing else. The bytes that are counted
do not pass the end of an `unsigned int`. -/
structure Meeting (cfg cfg' : Config) (clock : Clock) (s : BlockChain) (f : BlockFilter) : Prop where
  server : ∃ known, Reached known s.tree
  requester : ∃ known, Reached known f.chain.tree
  genesis : s.tree.trunk.head? = f.chain.tree.trunk.head?
  named : ∀ b ∈ f.chain.tree.trunk.head?, b.hash = cfg'.genesisHash
  agree : ∀ a ∈ s.tree.trunk, ∀ b ∈ f.chain.tree.trunk, a.hash = b.hash → a = b
  located : ∃ before, BlockChain.updateBestLocator cfg' before = .ok () f.chain
  own : ∀ hash, haveBlock hash f.chain = .ok (decide (hash ∈ hashes f.chain.tree.trunk))
  noOrphans : f.orphans = ∅
  unpurged : s.ledger.db.getDeepestDepth ≤ 1
  small : ∀ height < s.tree.trunk.length, BlockChain.bytesAt cfg clock s height + sendBufferSize / 2 ≤ 2 ^ 32

section Progress

variable {cfg cfg' : Config} {clock : Clock} {s : BlockChain} {f : BlockFilter}

/-- The best locator names the trunk at its heights. -/
theorem Meeting.bestLocator (meeting : Meeting cfg cfg' clock s f) :
    f.chain.bestLocator = f.chain.tree.locatorList.map f.chain.tree.nameAt := by
  obtain ⟨known, reached⟩ := meeting.requester
  obtain ⟨before, updated⟩ := meeting.located
  obtain ⟨entries, mid, read, updated⟩ := bind_ok.mp updated
  obtain ⟨located, rfl⟩ := readTree_ok.mp read
  have made := modify_ok.mp updated
  obtain ⟨grown, rep, -⟩ := reached.kept
  have same : before.tree = f.chain.tree := by rw [← made]
  rw [same, locatorHashes_eq (rep.indexed grown) rep.trunk_ne_nil] at located
  obtain ⟨first, rest, trunk⟩ := List.exists_cons_of_ne_nil rep.trunk_ne_nil
  have genesis : f.chain.tree.nameAt 0 = cfg'.genesisHash := by
    refine Eq.trans ?_ (meeting.named first (by rw [trunk]; rfl))
    exact nameAt_append (show f.chain.tree.trunk = [] ++ first :: rest from trunk)
  have whole : f.chain.bestLocator = entries ++ [cfg'.genesisHash] := (congrArg BlockChain.bestLocator made).symm
  rw [whole, ← Except.ok.inj located, ← genesis, locatorList, ← List.cons_append, List.map_append]
  rfl

/-- **A node that lacks blocks of the trunk of another one is told of one of them, and queues it, if and only if the
blocks that it has, from the highest common entry of its locator up to the fork, use up less than half of the send
buffer.** -/
theorem download_progress_iff (meeting : Meeting cfg cfg' clock s f) {origin : Origin}
    (known : ∀ hash ∈ origin.knownInventory, hash ∈ hashes f.chain.tree.trunk)
    (ahead : ¬s.tree.trunk <+: f.chain.tree.trunk) :
    ∃ origin' news, BlockChain.getBlocks cfg clock s f.chain.bestLocator 0 origin = .ok origin' ∧
      origin'.toSend = origin.toSend ++ news ∧
      ((∃ hash ∈ news, hash ∈ hashes s.tree.trunk ∧ hash ∉ hashes f.chain.tree.trunk) ↔
        BlockChain.Fits cfg clock s f.chain.tree 0) ∧
      ∀ messages : List (List Uint256), messages.flatten = news → (∀ part ∈ messages, part.length ≤ 50000) →
        ∃ queued, messages.foldlM (fun now part => receiveInv cfg' (part.map fun hash => ⟨.block, hash⟩) now) ([], f) =
          .ok (queued, f) ∧ (queued ≠ [] ↔ BlockChain.Fits cfg clock s f.chain.tree 0) := by
  obtain ⟨blocks, reached⟩ := meeting.server
  obtain ⟨blocks', reached'⟩ := meeting.requester
  obtain ⟨grown, rep, -⟩ := reached.kept
  obtain ⟨low, ours, theirs, forked⟩ := exists_forked reached reached' meeting.genesis meeting.agree ahead
  obtain ⟨hash, answered⟩ := BlockChain.getBlocks_eq rep grown forked meeting.unpurged meeting.small origin
  have some_new : (∃ hash ∈ BlockChain.answerTo cfg clock s f.chain.tree 0, hash ∉ hashes f.chain.tree.trunk) ↔ _ :=
    BlockChain.exists_announced_iff forked
  have trunk : ∀ hash ∈ BlockChain.answerTo cfg clock s f.chain.tree 0, hash ∈ hashes s.tree.trunk :=
    fun hash => BlockChain.answerTo_trunk
  rw [← meeting.bestLocator, BlockChain.foldl_push] at answered
  generalize BlockChain.answerTo cfg clock s f.chain.tree 0 = all at answered some_new trunk
  have new_iff : (∃ hash ∈ all.filter fun hash => decide (hash ∉ origin.knownInventory),
      hash ∉ hashes f.chain.tree.trunk) ↔ BlockChain.Fits cfg clock s f.chain.tree 0 := by
    rw [← some_new]
    constructor
    · rintro ⟨hash, member, off⟩
      exact ⟨hash, (List.mem_filter.mp member).1, off⟩
    · rintro ⟨hash, member, off⟩
      exact ⟨hash, List.mem_filter.mpr ⟨member, decide_eq_true fun old => off (known hash old)⟩, off⟩
  refine ⟨_, all.filter fun hash => decide (hash ∉ origin.knownInventory), answered, rfl, ?_, ?_⟩
  · rw [← new_iff]
    constructor
    · rintro ⟨hash, member, -, off⟩
      exact ⟨hash, member, off⟩
    · rintro ⟨hash, member, off⟩
      exact ⟨hash, member, trunk hash (List.mem_filter.mp member).1, off⟩
  · intro messages split short
    refine ⟨_, receiveAll_eq meeting.own meeting.noOrphans short [], ?_⟩
    rw [List.nil_append, split, ← new_iff, ne_eq, List.filter_eq_nil_iff]
    push Not
    simp only [decide_eq_true_eq]

/-- A best locator that is what the trunk has is written again. -/
theorem updateBestLocator_again {cfg : Config} {r : BlockChain} {entries : List Uint256}
    (located : r.tree.locatorHashes = .ok entries) (written : r.bestLocator = entries ++ [cfg.genesisHash]) :
    BlockChain.updateBestLocator cfg r = .ok () r := by
  have read : readTree locatorHashes r = .ok entries r := readTree_ok.mpr ⟨located, rfl⟩
  refine bind_ok.mpr ⟨entries, r, read, modify_ok.mpr ?_⟩
  rw [← written]

/-- A chain without branches, whose invalid tree knows blocks of the trunk alone, has its trunk and nothing else. -/
theorem own_of_trunk {r : BlockChain} (reached : ∃ known, Reached known r.tree) (bare : r.tree.branches.toList = [])
    (valid : ∀ entry ∈ r.invalidTree.heights.toList, entry.1 ∈ hashes r.tree.trunk)
    (sound : ∀ b ∈ r.tree.trunk, (r.invalidTree.find b.hash).isOk = true) (hash : Uint256) :
    haveBlock hash r = .ok (decide (hash ∈ hashes r.tree.trunk)) := by
  obtain ⟨known, reached⟩ := reached
  obtain ⟨grown, rep, -⟩ := reached.kept
  unfold haveBlock
  by_cases inside : hash ∈ hashes r.tree.trunk
  · obtain ⟨b, member, rfl⟩ := List.mem_map.mp inside
    have found : (r.invalidTree.find (TreeElem.hash b)).isOk = true := sound b member
    have stored : r.tree.find (TreeElem.hash b) = .ok (some b) := rep.find_known grown (rep.trunk_known member)
    rw [decide_eq_true inside, stored]
    cases invalid : r.invalidTree.find (TreeElem.hash b) with
    | ok _ => rfl
    | error _ =>
      rw [invalid] at found
      cases found
  · have unknown : hash ∉ hashes known := by
      intro isKnown
      obtain ⟨b, member, rfl⟩ := List.mem_map.mp isKnown
      have off : b ∉ r.tree.trunk := fun on => inside (List.mem_map_of_mem on)
      have stored := Std.ExtTreeMap.mem_toList_iff_getElem?_eq_some.mpr
        ((rep.branches (TreeElem.hash b) b).mpr ⟨member, off, rfl⟩)
      rw [bare] at stored
      cases stored
    have absent : r.invalidTree.heights[hash]? = none := by
      cases found : r.invalidTree.heights[hash]? with
      | none => rfl
      | some height =>
        exact absurd (valid (hash, height) (Std.ExtTreeMap.mem_toList_iff_getElem?_eq_some.mpr found)) inside
    have invalid : r.invalidTree.find hash = .ok none := by
      unfold SparseTree.find
      rw [absent]
    rw [decide_eq_false inside, rep.find_unknown unknown, invalid]
    rfl

end Progress

end BlockFilter

namespace Small

/-- The small chain, with blocks of the maximal size. -/
def large : Config :=
  { config 1 0 with
    chain := { (config 1 0).chain with maxBlockSize := 1000000 }
    prim := { prim with blockSize := fun _ => 1000000 } }

/-- Blocks with these hashes, one on the other. -/
def onward : Nat → List Nat → List (Clock × Block)
  | _, [] => []
  | prev, n :: ns => (clock, mined n prev [coinbase n [50]]) :: onward n ns

end Small

namespace BlockFilter

open BlockChain (offer)

open Libcoin.Small in
/-- Two nodes leave each other after five blocks. The blocks that both
have use up half of the send buffer, and nothing is queued. -/
theorem download_stalls : ∃ s r, Run.final (offer large) (created 1 0).toOption (onward 1
      [2, 3, 4, 5, 6, 31, 32, 33, 34, 35, 36, 37, 38, 39, 40, 41, 42, 43, 44, 45, 46, 47, 48]) = some s ∧
    Run.final (offer large) (created 1 0).toOption (onward 1
      [2, 3, 4, 5, 6, 7, 8, 9, 10, 11, 12, 13, 14, 15, 16, 17, 18, 19, 20, 21, 22, 23]) = some r ∧
    s.tree.height = 23 ∧ r.tree.height = 22 ∧ s.ledger.db.getDeepestDepth ≤ 1 ∧
    ∃ origin', BlockChain.getBlocks large clock s r.bestLocator 0 ⟨∅, [], 0⟩ = .ok origin' ∧
      (∀ hash ∈ origin'.toSend, hash ∈ hashes r.tree.trunk) ∧
      ∃ f, receiveInv large (origin'.toSend.map fun hash => ⟨.block, hash⟩) ([], new r) = .ok ([], f) := by
  have run : (do
      let s ← Run.final (offer large) (created 1 0).toOption (onward 1
        [2, 3, 4, 5, 6, 31, 32, 33, 34, 35, 36, 37, 38, 39, 40, 41, 42, 43, 44, 45, 46, 47, 48])
      let r ← Run.final (offer large) (created 1 0).toOption (onward 1
        [2, 3, 4, 5, 6, 7, 8, 9, 10, 11, 12, 13, 14, 15, 16, 17, 18, 19, 20, 21, 22, 23])
      let origin' ← (BlockChain.getBlocks large clock s r.bestLocator 0 ⟨∅, [], 0⟩).toOption
      let now ← (receiveInv large (origin'.toSend.map fun hash => ⟨.block, hash⟩) ([], new r)).toOption
      return decide (s.tree.height = 23 ∧ r.tree.height = 22 ∧ s.ledger.db.getDeepestDepth ≤ 1 ∧
        (origin'.toSend.all fun hash => decide (hash ∈ hashes r.tree.trunk)) ∧ now.1 = [])) =
          some true := by decide +kernel
  obtain ⟨s, server, run⟩ := Option.bind_eq_some_iff.mp run
  obtain ⟨r, requester, run⟩ := Option.bind_eq_some_iff.mp run
  obtain ⟨origin', answered, run⟩ := Option.bind_eq_some_iff.mp run
  obtain ⟨⟨queued, f⟩, received, run⟩ := Option.bind_eq_some_iff.mp run
  obtain ⟨long, short, unpurged, old, rfl⟩ := of_decide_eq_true (Option.some.inj run)
  exact ⟨s, r, server, requester, long, short, unpurged, origin', toOption_eq_some.mp answered,
    fun hash member => of_decide_eq_true (List.all_eq_true.mp old hash member), f, toOption_eq_some.mp received⟩

open Libcoin.Small in
/-- The server leaves the trunk of the requester after the block of height 2, and the locator has 1 and 3 of these
heights: the answer starts with a block that the requester has. -/
theorem download_progress_next : ∃ r s,
    Run.final (offer (config 1 0)) (created 1 0).toOption (onward 1 (List.range' 2 13)) = some r ∧
    Run.final (offer (config 1 0)) (created 1 0).toOption (onward 1 [2, 3, 31, 32]) = some s ∧
    ∃ origin' news, BlockChain.getBlocks (config 1 0) clock s r.bestLocator 0 ⟨∅, [], 0⟩ = .ok origin' ∧
      origin'.toSend = news ∧ 3 ∈ news ∧ 3 ∈ hashes r.tree.trunk ∧
      ∃ hash ∈ news, hash ∈ hashes s.tree.trunk ∧ hash ∉ hashes r.tree.trunk := by
  have run : (do
      let start ← (created 1 0).toOption
      let r ← Run.final (offer (config 1 0)) (some start) (onward 1 (List.range' 2 13))
      let s ← Run.final (offer (config 1 0)) (some start) (onward 1 [2, 3, 31, 32])
      let entries ← r.tree.locatorHashes.toOption
      let origin' ← (BlockChain.getBlocks (config 1 0) clock s r.bestLocator 0 ⟨∅, [], 0⟩).toOption
      return decide (
        Run.AlongSteps (offer (config 1 0)) (fun now call => ∀ s ∈ now, BlockChain.takes (config 1 0) s call = true)
          (some start) (onward 1 (List.range' 2 13)) ∧
        Run.AlongSteps (offer (config 1 0)) (fun now call => ∀ s ∈ now, BlockChain.takes (config 1 0) s call = true)
          (some start) (onward 1 [2, 3, 31, 32]) ∧
        r.bestLocator = entries ++ [1] ∧ r.tree.trunk.head?.map BlockRef.hash = some 1 ∧
        s.tree.trunk.head? = r.tree.trunk.head? ∧ r.tree.branches.toList = [] ∧
        (∀ entry ∈ r.invalidTree.heights.toList, entry.1 ∈ hashes r.tree.trunk) ∧
        (∀ b ∈ r.tree.trunk, (r.invalidTree.find b.hash).isOk = true) ∧
        (∀ a ∈ s.tree.trunk, ∀ b ∈ r.tree.trunk, a.hash = b.hash → a = b) ∧ s.ledger.db.getDeepestDepth ≤ 1 ∧
        (∀ height < s.tree.trunk.length,
          BlockChain.bytesAt (config 1 0) clock s height + sendBufferSize / 2 ≤ 2 ^ 32) ∧
        ¬s.tree.trunk <+: r.tree.trunk ∧ BlockChain.Fits (config 1 0) clock s r.tree 0 ∧
        3 ∈ origin'.toSend ∧ 3 ∈ hashes r.tree.trunk)) = some true := by decide +kernel
  obtain ⟨start, done, run⟩ := Option.bind_eq_some_iff.mp run
  obtain ⟨r, requester, run⟩ := Option.bind_eq_some_iff.mp run
  obtain ⟨s, server, run⟩ := Option.bind_eq_some_iff.mp run
  obtain ⟨entries, located, run⟩ := Option.bind_eq_some_iff.mp run
  obtain ⟨origin', sent, run⟩ := Option.bind_eq_some_iff.mp run
  obtain ⟨taken, taken', written, first, genesis, bare, valid, sound, agree, unpurged, small, ahead, fits, announced,
    old⟩ := of_decide_eq_true (Option.some.inj run)
  have loaded := BlockChain.create_loaded (toOption_eq_some.mp done)
  have reached := (BlockChain.taken_inStep loaded taken requester).reached
  have meeting : Meeting (config 1 0) (config 1 0) clock s (new r) :=
    { server := (BlockChain.taken_inStep loaded taken' server).reached
      requester := reached
      genesis := genesis
      named := fun b member => by
        have name : r.tree.trunk.head?.map BlockRef.hash = some b.hash := congrArg _ (Option.mem_def.mp member)
        exact Option.some.inj (name.symm.trans first)
      agree := agree
      located := ⟨r, updateBestLocator_again (toOption_eq_some.mp located) written⟩
      own := own_of_trunk reached bare valid sound
      noOrphans := rfl
      unpurged := unpurged
      small := small }
  have unknown : ∀ hash ∈ (⟨∅, [], 0⟩ : Origin).knownInventory, hash ∈ hashes r.tree.trunk :=
    fun hash member => absurd member (Finset.notMem_empty hash)
  obtain ⟨_, news, answered, rfl, progress, -⟩ := download_progress_iff meeting unknown ahead
  obtain rfl := Except.ok.inj (answered.symm.trans (toOption_eq_some.mp sent))
  rw [done]
  exact ⟨r, s, requester, server, _, _, answered, rfl, announced, old, progress.mpr fits⟩

end BlockFilter

end Libcoin
