/-
`BlockFilter`: blocks that peers send, appended or kept as orphans.

* `receive` is the handler of block messages, and `process` what it does with a block whose previous block is
  known: the block is handed to `append`, and then the orphans on it, those on them, and so on.
* `Exact`: the store has one entry by previous block for each orphan, and no other.
* `Turn` is the invariant of the loop over the work queue, and `Adopted` what it comes to in the end.

A call of `append` is recorded in `handed`, a call of a listener in `heard`, what is pushed to a peer in `pushed`,
and a request for blocks in `asked`.
-/

import Libcoin.BlockChain.Append
import Libcoin.Library.Entries
import Libcoin.Library.Run

namespace Libcoin

open Exec
open Run (AlongStates AlongSteps)

/-- Why there is no state after a call: the program has exited, `append` or the tree has behaviour that is not
defined, an iterator to an orphan was used after the orphan was erased, or a loop does not end. -/
inductive Halt
  | exited
  | undefined
  | dangling
  | endless
  deriving DecidableEq, Repr

/-- A peer, and the height that it has started with. -/
structure BlockPeer where
  id : Nat
  startingHeight : Int
  deriving DecidableEq, Repr

/-- The members of `BlockFilter`, and its block chain. `orphansByPrev` has its entries in the order of their
insertion; an iterator to an orphan is the key of the orphan. -/
structure BlockFilter where
  chain : BlockChain
  orphans : Map Uint256 Block
  orphansByPrev : List (Uint256 × Uint256)
  handed : List Block
  heard : List (Nat × Block)
  pushed : List (Nat × Uint256 × Bool)
  asked : List (List Uint256 × Uint256)

/-- A block that comes in: the time, the peers, and the block. -/
structure BlockReceived where
  clock : Clock
  peers : List BlockPeer
  block : Block

namespace BlockFilter

section Source

variable (cfg : Config) (listeners : List Nat)

/-- `block.getHash()`. -/
def hashOf (block : Block) : Uint256 := cfg.prim.headerHash block.toBlockHeader

/-- `haveBlock`. -/
def haveBlock (hash : Uint256) (s : BlockChain) : Except Halt Bool :=
  match s.tree.find hash, s.invalidTree.find hash with
  | .ok valid, .ok invalid => .ok (valid.isSome || invalid.isSome)
  | _, _ => .error .undefined

/-- `getOrphanRoot`, with at most so many turns. -/
def orphanRoot (orphans : Map Uint256 Block) : Nat → Block → Except Halt Uint256
  | 0, _ => .error .endless
  | turns + 1, block =>
    match orphans[block.prevBlock]? with
    | none => .ok (hashOf cfg block)
    | some prev => orphanRoot orphans turns prev

/-- `try` with a call of `append` and, unless it throws, of the listeners, which are all called with the block
that is processed. The first result is whether it has thrown. -/
def handOver (clock : Clock) (processed block : Block) (f : BlockFilter) : Except Halt (Bool × BlockFilter) :=
  let f := { f with handed := f.handed ++ [block] }
  match BlockChain.append cfg clock block f.chain with
  | .ok _ chain =>
    .ok (false, { f with chain := chain, heard := f.heard ++ listeners.map fun listener =>
      (listener, processed) })
  | .error .undefined _ => .error .undefined
  | .error _ chain => .ok (true, { f with chain := chain })

/-- The inventory of the processed block is pushed to the peers if it is the best block. -/
def relay (peers : List BlockPeer) (hash : Uint256) (force : Bool) (f : BlockFilter) : Except Halt BlockFilter :=
  match f.chain.tree.best with
  | .error _ => .error .undefined
  | .ok best =>
    if best.hash = hash then
      let behind := peers.filter fun peer => decide
        ((if peer.startingHeight ≠ -1 then peer.startingHeight - 2000 else cfg.chain.totalBlocksEstimate) <
          f.chain.tree.height)
      .ok { f with pushed := f.pushed ++ behind.map fun peer => (peer.id, hash, force) }
    else .ok f

/-- The loop of `process` over the orphans on a block: what was added to the work queue. -/
def adopt (received : BlockReceived) :
    List (Uint256 × Uint256) → BlockFilter → Except Halt (List Uint256 × BlockFilter)
  | [], f => .ok ([], f)
  | (_, key) :: entries, f =>
    match f.orphans[key]? with
    | none => .error .dangling
    | some orphan => do
      let (_, f) ← handOver cfg listeners received.clock received.block orphan f
      let f ← relay cfg received.peers (hashOf cfg received.block) false f
      let (queue, f) ← adopt received entries { f with orphans := f.orphans.erase (hashOf cfg orphan) }
      return (hashOf cfg orphan :: queue, f)

/-- The entries from `lower_bound` to `upper_bound` of a hash. -/
def entriesOf (f : BlockFilter) (prev : Uint256) : List (Uint256 × Uint256) :=
  f.orphansByPrev.filter fun entry => decide (entry.1 = prev)

/-- `_orphansByPrev.erase(prev)`. -/
def eraseEntries (prev : Uint256) (f : BlockFilter) : BlockFilter :=
  { f with orphansByPrev := f.orphansByPrev.filter fun entry => !decide (entry.1 = prev) }

/-- The loop of `process` over the work queue, which grows, with at most so many turns. -/
def workLoop (received : BlockReceived) : Nat → List Uint256 → BlockFilter → Except Halt BlockFilter
  | _, [], f => .ok f
  | 0, _ :: _, _ => .error .endless
  | turns + 1, prev :: queue, f => do
    let (added, f) ← adopt cfg listeners received (f.entriesOf prev) f
    workLoop received turns (queue ++ added) (f.eraseEntries prev)

/-- `process`. -/
def process (received : BlockReceived) (f : BlockFilter) : Except Halt BlockFilter := do
  let hash := hashOf cfg received.block
  let (threw, f) ← handOver cfg listeners received.clock received.block received.block f
  if threw && decide (3 < f.chain.invalidTree.height - f.chain.tree.height) then .error .exited
  else do
    let f ← relay cfg received.peers hash true f
    workLoop cfg listeners received (f.orphansByPrev.length + 1) [hash] f

/-- `operator()` for a block message. -/
def receive (received : BlockReceived) (f : BlockFilter) : Except Halt BlockFilter := do
  let block := received.block
  let hash := hashOf cfg block
  let known ← haveBlock hash f.chain
  if known then return f
  else if f.orphans[hash]?.isSome then return f
  else
    match cfg.chain.checkBlock cfg.prim received.clock.adjusted block with
    | .error _ => return f
    | .ok _ =>
      if !cfg.chain.checkProofOfWork block then return f
      else do
        let connects ← haveBlock block.prevBlock f.chain
        if connects then process cfg listeners received f
        else do
          let f := { f with
            orphans := f.orphans.insert hash block
            orphansByPrev := f.orphansByPrev ++ [(block.prevBlock, hash)] }
          let root ← orphanRoot cfg f.orphans (f.orphans.size + 1) block
          return { f with asked := f.asked ++ [(f.chain.bestLocator, root)] }

/-- What changes the store: a block message, or a block that is processed directly. -/
inductive Event
  | message (received : BlockReceived)
  | process (received : BlockReceived)

/-- One event after the other, as long as there is a state. -/
def handle (now : Except Halt BlockFilter) : Event → Except Halt BlockFilter
  | .message received => now.bind (receive cfg listeners received)
  | .process received => now.bind (process cfg listeners received)

end Source

variable {cfg : Config} {listeners : List Nat} {received : BlockReceived} {f f' : BlockFilter}

/-! ### One orphan after the other -/

/-- The store is as it was, and some blocks have been handed to `append`. -/
structure Hands (blocks : List Block) (f f' : BlockFilter) : Prop where
  orphans : f'.orphans = f.orphans
  entries : f'.orphansByPrev = f.orphansByPrev
  handed : f'.handed = f.handed ++ blocks

theorem handOver_cases (cfg : Config) (listeners : List Nat) (clock : Clock) (processed block : Block)
    (f : BlockFilter) :
    handOver cfg listeners clock processed block f = .error .undefined ∨
      ∃ threw f', handOver cfg listeners clock processed block f = .ok (threw, f') ∧ Hands [block] f f' := by
  unfold handOver
  dsimp only
  cases BlockChain.append cfg clock block f.chain with
  | ok done chain => exact .inr ⟨_, _, rfl, rfl, rfl, rfl⟩
  | error fault chain =>
    cases fault with
    | undefined => exact .inl rfl
    | error what => exact .inr ⟨_, _, rfl, rfl, rfl, rfl⟩
    | reject what => exact .inr ⟨_, _, rfl, rfl, rfl, rfl⟩

theorem relay_cases (cfg : Config) (peers : List BlockPeer) (hash : Uint256) (force : Bool) (f : BlockFilter) :
    relay cfg peers hash force f = .error .undefined ∨
      ∃ f', relay cfg peers hash force f = .ok f' ∧ Hands [] f f' := by
  unfold relay
  cases f.chain.tree.best with
  | error fault => exact .inl rfl
  | ok best =>
    dsimp only
    split
    · exact .inr ⟨_, rfl, rfl, rfl, (List.append_nil _).symm⟩
    · exact .inr ⟨_, rfl, rfl, rfl, (List.append_nil _).symm⟩

/-- The loop over entries with different keys of orphans: each orphan is handed over and erased. -/
theorem adopt_cases (listeners : List Nat) (received : BlockReceived) {entries : List (Uint256 × Uint256)}
    (apart : (entries.map Prod.snd).Nodup)
    (stored : ∀ entry ∈ entries, ∃ block, f.orphans[entry.2]? = some block ∧ hashOf cfg block = entry.2) :
    adopt cfg listeners received entries f = .error .undefined ∨
      ∃ f' blocks, adopt cfg listeners received entries f = .ok (entries.map Prod.snd, f') ∧
        blocks.map (hashOf cfg) = entries.map Prod.snd ∧
        (∀ block ∈ blocks, f.orphans[hashOf cfg block]? = some block) ∧
        f'.orphansByPrev = f.orphansByPrev ∧ f'.handed = f.handed ++ blocks ∧
        ∀ key, f'.orphans[key]? = if key ∈ entries.map Prod.snd then none else f.orphans[key]? := by
  induction entries generalizing f with
  | nil => exact .inr ⟨f, [], rfl, rfl, nofun, rfl, (List.append_nil _).symm, fun _ => rfl⟩
  | cons entry entries ih =>
    obtain ⟨prev, key⟩ := entry
    obtain ⟨block, found, hash⟩ := stored (prev, key) List.mem_cons_self
    obtain ⟨fresh, others⟩ := List.nodup_cons.mp apart
    have found : f.orphans[key]? = some block := found
    obtain rfl : hashOf cfg block = key := hash
    unfold adopt
    rw [found]
    dsimp only
    rcases handOver_cases cfg listeners received.clock received.block block f with
      failed | ⟨threw, f₁, handed, hands⟩
    · rw [failed]
      exact .inl rfl
    rw [handed]
    dsimp only [bind, Except.bind]
    rcases relay_cases cfg received.peers (hashOf cfg received.block) false f₁ with
      failed | ⟨f₂, relayed, kept⟩
    · rw [failed]
      exact .inl rfl
    rw [relayed]
    dsimp only
    have erased (other : Uint256) : (f₂.orphans.erase (hashOf cfg block))[other]? =
        if hashOf cfg block = other then none else f.orphans[other]? := by
      rw [Map.lookup_erase, kept.orphans, hands.orphans]
    have rest : ∀ entry ∈ entries, ∃ other, (f₂.orphans.erase (hashOf cfg block))[entry.2]? = some other ∧
        hashOf cfg other = entry.2 := by
      intro entry member
      obtain ⟨other, here, hash⟩ := stored entry (List.mem_cons_of_mem _ member)
      refine ⟨other, ?_, hash⟩
      rw [erased, if_neg, here]
      rintro same
      exact fresh (List.mem_map.mpr ⟨entry, member, same.symm⟩)
    rcases ih (f := { f₂ with orphans := f₂.orphans.erase (hashOf cfg block) }) others rest with
      failed | ⟨f', blocks, run, hashes, store, entries', list, orphans⟩
    · rw [failed]
      exact .inl rfl
    rw [run]
    refine .inr ⟨f', block :: blocks, rfl, ?_, ?_, ?_, ?_, ?_⟩
    · rw [List.map_cons, List.map_cons, hashes]
    · rw [List.forall_mem_cons]
      refine ⟨found, fun other member => ?_⟩
      have here := store other member
      rw [erased] at here
      split at here
      · cases here
      · exact here
    · rw [entries', kept.entries, hands.entries]
    · rw [list, kept.handed, hands.handed]
      simp only [List.append_nil, List.append_assoc, List.singleton_append]
    · intro other
      rw [orphans]
      show (if _ then none else (f₂.orphans.erase (hashOf cfg block))[other]?) = _
      rw [erased]
      by_cases here : hashOf cfg block = other
      · simp [here]
      · simp [here, Ne.symm here]

/-! ### The store -/

/-- Every orphan is stored under its hash, and has one entry by its previous block; there is no other entry. -/
structure Exact (cfg : Config) (f : BlockFilter) : Prop where
  keyed : ∀ key block, f.orphans[key]? = some block → hashOf cfg block = key
  entries : (f.orphansByPrev : Multiset (Uint256 × Uint256)) =
    f.orphans.entries.map fun entry => (entry.2.prevBlock, entry.1)

theorem Exact.mem (exact : Exact cfg f) {prev key : Uint256} :
    (prev, key) ∈ f.orphansByPrev ↔ ∃ block, f.orphans[key]? = some block ∧ block.prevBlock = prev := by
  rw [← Multiset.mem_coe, exact.entries, Multiset.mem_map]
  constructor
  · rintro ⟨⟨_, block⟩, member, same⟩
    obtain ⟨rfl, rfl⟩ := Prod.mk.inj same
    exact ⟨block, Map.mem_entries.mp member, rfl⟩
  · rintro ⟨block, found, rfl⟩
    exact ⟨(key, block), Map.mem_entries.mpr found, rfl⟩

/-- The keys of the entries are different. -/
theorem Exact.apart (exact : Exact cfg f) : (f.orphansByPrev.map Prod.snd).Nodup := by
  have perm : (f.orphansByPrev.map Prod.snd).Perm (f.orphans.toList.map Prod.fst) := by
    rw [← Multiset.coe_eq_coe, ← Multiset.map_coe, exact.entries, Multiset.map_map, ← Multiset.map_coe]
    rfl
  refine perm.nodup_iff.mpr ?_
  exact (List.pairwise_map.mpr (Map.toList_sorted f.orphans)).imp fun below => ne_of_lt below

theorem Exact.hands {blocks : List Block} (exact : Exact cfg f) (hands : Hands blocks f f') : Exact cfg f' := by
  refine ⟨?_, ?_⟩
  · rw [hands.orphans]
    exact exact.keyed
  · rw [hands.orphans, hands.entries]
    exact exact.entries

/-- A block is added to the orphans. -/
theorem Exact.insert (exact : Exact cfg f) {block : Block} (fresh : f.orphans[hashOf cfg block]? = none) :
    Exact cfg { f with
      orphans := f.orphans.insert (hashOf cfg block) block
      orphansByPrev := f.orphansByPrev ++ [(block.prevBlock, hashOf cfg block)] } := by
  refine ⟨fun key other stored => ?_, ?_⟩
  · rcases Map.lookup_of_insert stored with ⟨rfl, rfl⟩ | old
    · rfl
    · exact exact.keyed key other old
  · dsimp only
    rw [Map.entries_insert fresh, Multiset.map_cons, ← exact.entries, ← Multiset.coe_add, Multiset.add_comm]
    rfl

theorem Exact.mem_entriesOf (exact : Exact cfg f) {prev key : Uint256} :
    key ∈ (f.entriesOf prev).map Prod.snd ↔ ∃ block, f.orphans[key]? = some block ∧ block.prevBlock = prev := by
  rw [← exact.mem, List.mem_map]
  constructor
  · rintro ⟨entry, member, rfl⟩
    obtain ⟨inside, same⟩ := List.mem_filter.mp member
    rw [← of_decide_eq_true same]
    exact inside
  · intro member
    exact ⟨(prev, key), List.mem_filter.mpr ⟨member, decide_eq_true rfl⟩, rfl⟩

/-- The orphans on a block are erased, with their entries. -/
theorem Exact.erase (exact : Exact cfg f) {prev : Uint256} (entries : f'.orphansByPrev = f.orphansByPrev)
    (orphans : ∀ key, f'.orphans[key]? =
      if key ∈ (f.entriesOf prev).map Prod.snd then none else f.orphans[key]?) :
    Exact cfg (f'.eraseEntries prev) := by
  have same : f'.orphans = f.orphans.filter fun _ block => !decide (block.prevBlock = prev) := by
    ext key : 1
    rw [orphans, Map.lookup_filter]
    cases found : f.orphans[key]? with
    | none => rw [ite_self, Option.filter_none]
    | some block =>
      rw [Option.filter_some]
      by_cases here : block.prevBlock = prev
      · rw [if_pos (exact.mem_entriesOf.mpr ⟨block, found, here⟩), decide_eq_true here]
        rfl
      · have other : key ∉ (f.entriesOf prev).map Prod.snd := by
          intro member
          obtain ⟨block', found', same⟩ := exact.mem_entriesOf.mp member
          rw [found] at found'
          exact here (Option.some.inj found' ▸ same)
        rw [if_neg other, decide_eq_false here]
        rfl
  refine ⟨fun key block stored => exact.keyed key block ?_, ?_⟩
  · have stored : f'.orphans[key]? = some block := stored
    rw [orphans] at stored
    split at stored
    · cases stored
    · exact stored
  · show Multiset.ofList (f'.orphansByPrev.filter fun entry => !decide (entry.1 = prev)) =
      Multiset.map _ (Map.entries f'.orphans)
    have coe : Multiset.filter (fun entry => (!decide (entry.1 = prev)) = true)
      (Multiset.ofList f.orphansByPrev) =
        Multiset.ofList (f.orphansByPrev.filter fun entry => !decide (entry.1 = prev)) := by
      rw [Multiset.filter_coe]
      simp only [Bool.decide_eq_true]
    rw [entries, ← coe, exact.entries, same, Map.entries_filter, Multiset.filter_map]
    rfl

/-! ### The work queue -/

/-- The keys of the orphans that are connected to a block through previous-block links inside of the store. -/
inductive Connected (orphans : Map Uint256 Block) (hash : Uint256) : Uint256 → Prop
  | child {key : Uint256} {orphan : Block} (stored : orphans[key]? = some orphan)
    (link : orphan.prevBlock = hash) :
      Connected orphans hash key
  | step {parent key : Uint256} {orphan : Block} (connected : Connected orphans hash parent)
      (stored : orphans[key]? = some orphan) (link : orphan.prevBlock = parent) : Connected orphans hash key

theorem Connected.stored {orphans : Map Uint256 Block} {hash key : Uint256}
    (connected : Connected orphans hash key) : ∃ orphan, orphans[key]? = some orphan := by
  cases connected with
  | child stored link => exact ⟨_, stored⟩
  | step connected stored link => exact ⟨_, stored⟩

/-- A store with more orphans. -/
theorem Connected.mono {orphans more : Map Uint256 Block} {hash key : Uint256}
    (kept : ∀ (key : Uint256) orphan, orphans[key]? = some orphan → more[key]? = some orphan)
    (connected : Connected orphans hash key) : Connected more hash key := by
  induction connected with
  | child stored link => exact .child (kept _ _ stored) link
  | step connected stored link ih => exact .step ih (kept _ _ stored) link

/-- Every block comes after the block before it, which is the processed one or in the list as well. -/
def Ordered (cfg : Config) (hash : Uint256) : List Block → Prop :=
  fun blocks => ∀ early block late, blocks = early ++ block :: late →
    block.prevBlock = hash ∨ block.prevBlock ∈ early.map (hashOf cfg)

theorem Ordered.append {hash : Uint256} {first second : List Block} (ordered : Ordered cfg hash first)
    (known : ∀ block ∈ second, block.prevBlock = hash ∨ block.prevBlock ∈ first.map (hashOf cfg)) :
    Ordered cfg hash (first ++ second) := by
  intro early block late split
  rcases List.append_eq_append_iff.mp split with ⟨more, rfl, rest⟩ | ⟨more, rfl, rest⟩
  · -- The block is in the second list, and comes after all of the first.
    refine (known block (rest ▸ List.mem_append_right _ List.mem_cons_self)).imp_right fun member => ?_
    rw [List.map_append]
    exact List.mem_append_left _ member
  · cases more with
    | nil =>
      have rest : block :: late = second := rest
      rw [List.append_nil] at known
      exact known block (rest ▸ List.mem_cons_self)
    | cons first more =>
      obtain ⟨rfl, -⟩ := List.cons.inj rest
      exact ordered early block more rfl

/-- The orphans of a store that were adopted while a block was processed. -/
structure Taken (cfg : Config) (start : BlockFilter) (hash : Uint256) (taken : List Block) (f : BlockFilter) :
    Prop where
  exact : Exact cfg f
  handed : f.handed = start.handed ++ taken
  stored : ∀ block ∈ taken, start.orphans[hashOf cfg block]? = some block
  once : (taken.map (hashOf cfg)).Nodup
  left : ∀ key, f.orphans[key]? = if key ∈ taken.map (hashOf cfg) then none else start.orphans[key]?
  connected : ∀ block ∈ taken, Connected start.orphans hash (hashOf cfg block)
  ordered : Ordered cfg hash taken

/-- The loop over the work queue: what is left of it covers all orphans on what was adopted. -/
structure Turn (cfg : Config) (start : BlockFilter) (hash : Uint256) (queue : List Uint256) (taken : List Block)
    (f : BlockFilter) : Prop extends Taken cfg start hash taken f where
  queued : ∀ prev ∈ queue, prev = hash ∨ prev ∈ taken.map (hashOf cfg)
  covered : ∀ (key : Uint256) orphan, f.orphans[key]? = some orphan →
    orphan.prevBlock = hash ∨ orphan.prevBlock ∈ taken.map (hashOf cfg) → orphan.prevBlock ∈ queue

variable {start : BlockFilter} {hash : Uint256} {taken : List Block} {queue : List Uint256}

/-- One turn of the loop. -/
theorem Turn.next (listeners : List Nat) (received : BlockReceived) {prev : Uint256}
    (turn : Turn cfg start hash (prev :: queue) taken f) :
    adopt cfg listeners received (f.entriesOf prev) f = .error .undefined ∨
      ∃ f' blocks, adopt cfg listeners received (f.entriesOf prev) f = .ok ((f.entriesOf prev).map Prod.snd, f') ∧
        Turn cfg start hash (queue ++ (f.entriesOf prev).map Prod.snd) (taken ++ blocks) (f'.eraseEntries prev) ∧
        f'.orphansByPrev = f.orphansByPrev := by
  have apart : ((f.entriesOf prev).map Prod.snd).Nodup :=
    turn.exact.apart.sublist (List.filter_sublist.map Prod.snd)
  have stored : ∀ entry ∈ f.entriesOf prev,
      ∃ block, f.orphans[entry.2]? = some block ∧ hashOf cfg block = entry.2 := by
    intro entry member
    obtain ⟨block, found, -⟩ := turn.exact.mem_entriesOf.mp (List.mem_map_of_mem (f := Prod.snd) member)
    exact ⟨block, found, turn.exact.keyed _ _ found⟩
  rcases adopt_cases listeners received apart stored with
    failed | ⟨f', blocks, run, hashes, store, entries, list, orphans⟩
  · exact .inl failed
  refine .inr ⟨f', blocks, run, ?_, entries⟩
  -- What was adopted now are the orphans on the hash.
  have own : ∀ block ∈ blocks, f.orphans[hashOf cfg block]? = some block ∧ block.prevBlock = prev := by
    intro block member
    have here : hashOf cfg block ∈ (f.entriesOf prev).map Prod.snd := hashes ▸ List.mem_map_of_mem member
    obtain ⟨block', found, same⟩ := turn.exact.mem_entriesOf.mp here
    rw [store block member] at found
    obtain rfl := Option.some.inj found
    exact ⟨store block member, same⟩
  have from_start : ∀ block ∈ blocks, start.orphans[hashOf cfg block]? = some block ∧
      hashOf cfg block ∉ taken.map (hashOf cfg) := by
    intro block member
    have found := store block member
    rw [turn.left] at found
    split at found
    · cases found
    · exact ⟨found, ‹_›⟩
  have on_prev : prev = hash ∨ prev ∈ taken.map (hashOf cfg) := turn.queued prev List.mem_cons_self
  refine { exact := turn.exact.erase entries orphans, handed := ?_, stored := ?_, once := ?_, left := ?_,
           connected := ?_, ordered := ?_, queued := ?_, covered := ?_ }
  · show f'.handed = _
    rw [list, turn.handed, List.append_assoc]
  · intro block member
    rcases List.mem_append.mp member with old | new
    · exact turn.stored block old
    · exact (from_start block new).1
  · rw [List.map_append, List.nodup_append']
    refine ⟨turn.once, hashes ▸ apart, ?_⟩
    intro key old new
    obtain ⟨block, member, rfl⟩ := List.mem_map.mp new
    exact (from_start block member).2 old
  · intro key
    show f'.orphans[key]? = _
    rw [orphans, turn.left, List.map_append, ← hashes]
    by_cases new : key ∈ blocks.map (hashOf cfg)
    · simp [new]
    · simp [new]
  · intro block member
    rcases List.mem_append.mp member with old | new
    · exact turn.connected block old
    · have found := (from_start block new).1
      rcases on_prev with same | before
      · exact .child found ((own block new).2.trans same)
      · obtain ⟨parent, inside, same⟩ := List.mem_map.mp before
        exact .step (turn.connected parent inside) found ((own block new).2.trans same.symm)
  · refine turn.ordered.append fun block member => ?_
    rw [(own block member).2]
    exact on_prev
  · intro other member
    rw [List.map_append, List.mem_append]
    rcases List.mem_append.mp member with old | new
    · exact (turn.queued other (List.mem_cons_of_mem _ old)).imp_right .inl
    · exact .inr (.inr (hashes ▸ new))
  · intro key orphan found link
    have found : f'.orphans[key]? = some orphan := found
    rw [orphans] at found
    split at found
    · cases found
    rename_i kept
    rw [List.map_append, List.mem_append] at link
    rw [List.mem_append]
    have before : orphan.prevBlock = hash ∨ orphan.prevBlock ∈ taken.map (hashOf cfg) →
        orphan.prevBlock ∈ queue := by
      intro old
      rcases List.mem_cons.mp (turn.covered key orphan found old) with same | member
      · exact absurd (turn.exact.mem_entriesOf.mpr ⟨orphan, found, same⟩) kept
      · exact member
    rcases link with same | old | new
    · exact .inl (before (.inl same))
    · exact .inl (before (.inr old))
    · exact .inr (hashes ▸ new)

/-- The loop comes to its end, with nothing left to adopt. -/
theorem Turn.run (listeners : List Nat) (received : BlockReceived) {turns : Nat}
    (turn : Turn cfg start hash queue taken f)
    (enough : queue.length + f.orphansByPrev.length ≤ turns) :
    workLoop cfg listeners received turns queue f = .error .undefined ∨
      ∃ f' taken', workLoop cfg listeners received turns queue f = .ok f' ∧ Turn cfg start hash [] taken' f' := by
  induction turns generalizing queue taken f with
  | zero =>
    obtain rfl : queue = [] := List.eq_nil_of_length_eq_zero (by omega)
    exact .inr ⟨f, taken, rfl, turn⟩
  | succ turns ih =>
    cases queue with
    | nil => exact .inr ⟨f, taken, rfl, turn⟩
    | cons prev queue =>
      rw [workLoop]
      rcases turn.next listeners received with failed | ⟨f', blocks, run, next, entries⟩
      · rw [failed]
        exact .inl rfl
      · rw [run]
        refine ih next ?_
        have parts := List.length_eq_length_filter_add (l := f.orphansByPrev) fun entry => decide (entry.1 = prev)
        show (queue ++ (f.entriesOf prev).map Prod.snd).length + (f'.orphansByPrev.filter _).length ≤ turns
        rw [entries, List.length_append, List.length_map]
        rw [List.length_cons] at enough
        unfold entriesOf
        omega

/-- **What `process` does with a block**: the block is handed to `append`, and after it, each once and after its
parent, the orphans that are connected to it, none of which is left. -/
structure Processed (cfg : Config) (f f' : BlockFilter) (block : Block) (orphans : List Block) : Prop where
  handed : f'.handed = f.handed ++ block :: orphans
  stored : ∀ orphan ∈ orphans, f.orphans[hashOf cfg orphan]? = some orphan
  connected : ∀ key, key ∈ orphans.map (hashOf cfg) ↔ Connected f.orphans (hashOf cfg block) key
  once : (orphans.map (hashOf cfg)).Nodup
  ordered : Ordered cfg (hashOf cfg block) orphans
  left : ∀ key, f'.orphans[key]? = if key ∈ orphans.map (hashOf cfg) then none else f.orphans[key]?
  none_left : ∀ key, ¬Connected f'.orphans (hashOf cfg block) key

theorem Turn.complete (turn : Turn cfg start hash [] taken f) {key : Uint256}
    (connected : Connected start.orphans hash key) : key ∈ taken.map (hashOf cfg) := by
  have adopted {key : Uint256} {orphan : Block} (stored : start.orphans[key]? = some orphan)
      (link : orphan.prevBlock = hash ∨ orphan.prevBlock ∈ taken.map (hashOf cfg)) :
      key ∈ taken.map (hashOf cfg) := by
    by_contra other
    have kept : f.orphans[key]? = some orphan := by rw [turn.left, if_neg other, stored]
    exact absurd (turn.covered key orphan kept link) List.not_mem_nil
  induction connected with
  | child stored link => exact adopted stored (.inl link)
  | step connected stored link ih => exact adopted stored (.inr (link ▸ ih))

theorem process_cases (listeners : List Nat) (received : BlockReceived) (exact : Exact cfg f) :
    process cfg listeners received f = .error .undefined ∨ process cfg listeners received f = .error .exited ∨
      ∃ f' orphans, process cfg listeners received f = .ok f' ∧ Exact cfg f' ∧
        Processed cfg f f' received.block orphans := by
  unfold process
  dsimp only [bind, Except.bind]
  rcases handOver_cases cfg listeners received.clock received.block received.block f with
    failed | ⟨threw, f₁, handed, hands⟩
  · rw [failed]
    exact .inl rfl
  rw [handed]
  dsimp only
  split
  · exact .inr (.inl rfl)
  rcases relay_cases cfg received.peers (hashOf cfg received.block) true f₁ with
    failed | ⟨f₂, relayed, kept⟩
  · rw [failed]
    exact .inl rfl
  rw [relayed]
  dsimp only
  have begun : Turn cfg f₂ (hashOf cfg received.block) [hashOf cfg received.block] [] f₂ :=
    { exact := (exact.hands hands).hands kept
      handed := (List.append_nil _).symm
      stored := nofun
      once := List.nodup_nil
      left := fun _ => rfl
      connected := nofun
      ordered := fun early block late split => absurd split (by simp)
      queued := fun prev member => .inl (List.mem_singleton.mp member)
      covered := fun key orphan _ link => List.mem_singleton.mpr (link.resolve_right nofun) }
  have enough : [hashOf cfg received.block].length + f₂.orphansByPrev.length ≤ f₂.orphansByPrev.length + 1 := by
    rw [List.length_singleton]
    omega
  rcases begun.run listeners received enough with failed | ⟨f', taken, run, turn⟩
  · exact .inl failed
  have same : f₂.orphans = f.orphans := kept.orphans.trans hands.orphans
  refine .inr (.inr ⟨f', taken, run, turn.exact, ?_⟩)
  have connected : ∀ key, key ∈ taken.map (hashOf cfg) ↔ Connected f.orphans (hashOf cfg received.block) key := by
    intro key
    rw [← same]
    refine ⟨fun member => ?_, turn.complete⟩
    obtain ⟨block, inside, rfl⟩ := List.mem_map.mp member
    exact turn.connected block inside
  have left := turn.left
  have stored := turn.stored
  rw [same] at left stored
  refine { handed := ?_, stored := stored, connected := connected, once := turn.once, ordered := turn.ordered
           left := left, none_left := ?_ }
  · rw [turn.handed, kept.handed, hands.handed, List.append_nil, List.append_assoc, List.singleton_append]
  · intro key remains
    have was : Connected f.orphans (hashOf cfg received.block) key := by
      refine remains.mono fun key orphan found => ?_
      rw [left] at found
      split at found
      · cases found
      · exact found
    obtain ⟨orphan, found⟩ := remains.stored
    rw [left, if_pos ((connected key).mpr was)] at found
    cases found

/-! ### Runs -/

/-- The store is exact, and `process` adopts the orphans of any block without using what was erased. -/
structure Sound (cfg : Config) (listeners : List Nat) (f : BlockFilter) : Prop where
  exact : Exact cfg f
  defined : ∀ received, process cfg listeners received f ≠ .error .dangling ∧
    process cfg listeners received f ≠ .error .endless
  processed : ∀ received f', process cfg listeners received f = .ok f' →
    ∃ orphans, Processed cfg f f' received.block orphans

theorem Exact.sound (exact : Exact cfg f) : Sound cfg listeners f := by
  refine ⟨exact, fun received => ?_, fun received f' run => ?_⟩
  · rcases process_cases listeners received exact with
      failed | exited | ⟨f', orphans, run, -, -⟩
    · rw [failed]
      exact ⟨nofun, nofun⟩
    · rw [exited]
      exact ⟨nofun, nofun⟩
    · rw [run]
      exact ⟨nofun, nofun⟩
  · rcases process_cases listeners received exact with
      failed | exited | ⟨after, orphans, done, -, processed⟩
    · cases failed.symm.trans run
    · cases exited.symm.trans run
    · obtain rfl := Except.ok.inj (done.symm.trans run)
      exact ⟨orphans, processed⟩

theorem Exact.process (exact : Exact cfg f) (run : process cfg listeners received f = .ok f') : Exact cfg f' := by
  rcases process_cases listeners received exact with
    failed | exited | ⟨after, orphans, done, kept, -⟩
  · cases failed.symm.trans run
  · cases exited.symm.trans run
  · obtain rfl := Except.ok.inj (done.symm.trans run)
    exact kept

/-- One message. -/
theorem Exact.receive (exact : Exact cfg f) (run : receive cfg listeners received f = .ok f') : Exact cfg f' := by
  unfold BlockFilter.receive at run
  obtain ⟨known, -, run⟩ := bind_eq_ok.mp run
  split at run
  · exact Except.ok.inj run ▸ exact
  split at run
  · exact Except.ok.inj run ▸ exact
  rename_i fresh
  rw [Bool.not_eq_true, Option.isSome_eq_false_iff, Option.isNone_iff_eq_none] at fresh
  split at run
  · exact Except.ok.inj run ▸ exact
  split at run
  · exact Except.ok.inj run ▸ exact
  obtain ⟨connects, -, run⟩ := bind_eq_ok.mp run
  split at run
  · exact exact.process run
  · obtain ⟨root, -, run⟩ := bind_eq_ok.mp run
    obtain rfl := Except.ok.inj run
    have stored := exact.insert fresh
    exact ⟨stored.keyed, stored.entries⟩

/-- The filter of a block chain, before anything was received. -/
def new (chain : BlockChain) : BlockFilter :=
  { chain := chain, orphans := ∅, orphansByPrev := [], handed := [], heard := [], pushed := [], asked := [] }

/-- **The store is exact in every run, and a block that is processed takes all orphans that are connected to it
along.** -/
theorem store_exact (cfg : Config) (listeners : List Nat) (chain : BlockChain) (events : List Event) :
    AlongStates (handle cfg listeners) (fun now => ∀ f, now = .ok f → Sound cfg listeners f) (.ok (new chain))
      events := by
  have preserved : ∀ (now : Except Halt BlockFilter) (event : Event), (∀ f, now = .ok f → Exact cfg f) → True →
      ∀ f', handle cfg listeners now event = .ok f' → Exact cfg f' := by
    intro now event exact _ f' run
    cases event with
    | message received =>
      obtain ⟨f, here, run⟩ := bind_eq_ok.mp run
      exact (exact f here).receive run
    | process received =>
      obtain ⟨f, here, run⟩ := bind_eq_ok.mp run
      exact (exact f here).process run
  refine AlongStates.of_inv (fun now exact f here => (exact f here).sound) preserved ?_
    (AlongSteps.of_forall fun _ _ _ => trivial)
  rintro f' same
  obtain rfl := Except.ok.inj same
  exact ⟨fun key block stored => by simp [new] at stored, rfl⟩

end BlockFilter

end Libcoin
