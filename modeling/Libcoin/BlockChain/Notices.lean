/-
What `BlockFilter::process` tells the listeners and the peers.

* `attempts` are the calls of `append` with one block after the other, each with its outcome, and `inTurn` the blocks
  that `process` hands over, both from the state before.
* `Tells` is what the code does with a list of blocks: `handed_tells` for one block, `adopt_tells` and
  `workLoop_tells` for the two loops, `process_tells` for a call.
* `Truthful` is what the listeners and the peers should be told, and `truthful_iff` says when they are.

Both calls of the listeners name the block that is processed, also where an orphan was appended.
-/

import Libcoin.BlockChain.BlockFilter

namespace Libcoin.BlockFilter

open Exec

/-- A call of `append`: the block, whether it did not throw, and the block chain after it. -/
structure Attempt where
  block : Block
  accepted : Bool
  chain : BlockChain

section Attempts

variable (cfg : Config) (clock : Clock)

def attempt (block : Block) (chain : BlockChain) : Attempt :=
  match BlockChain.append cfg clock block chain with
  | .ok _ chain => ⟨block, true, chain⟩
  | .error _ chain => ⟨block, false, chain⟩

/-- One block after the other. -/
def attempts : List Block → BlockChain → List Attempt
  | [], _ => []
  | block :: blocks, chain =>
    attempt cfg clock block chain :: attempts blocks (attempt cfg clock block chain).chain

/-- The block chain after all of them. -/
def chainAfter : List Block → BlockChain → BlockChain
  | [], chain => chain
  | block :: blocks, chain => chainAfter blocks (attempt cfg clock block chain).chain

theorem attempts_append (first second : List Block) (chain : BlockChain) :
    attempts cfg clock (first ++ second) chain =
      attempts cfg clock first chain ++ attempts cfg clock second (chainAfter cfg clock first chain) := by
  induction first generalizing chain with
  | nil => rfl
  | cons block first ih => simp only [List.cons_append, attempts, chainAfter, ih]

theorem chainAfter_append (first second : List Block) (chain : BlockChain) :
    chainAfter cfg clock (first ++ second) chain =
      chainAfter cfg clock second (chainAfter cfg clock first chain) := by
  induction first generalizing chain with
  | nil => rfl
  | cons block first ih => simp only [List.cons_append, chainAfter, ih]

end Attempts

/-! ### The order of the orphans -/

/-- The orphans behind some entries. -/
def orphansOf (orphans : Map Uint256 Block) (entries : List (Uint256 × Uint256)) : List Block :=
  entries.filterMap fun entry => orphans[entry.2]?

/-- The orphans on the blocks of a work queue, those on them, and so on, in at most so many turns. -/
def dependents (cfg : Config) (orphans : Map Uint256 Block) :
    Nat → List Uint256 → List (Uint256 × Uint256) → List Block
  | 0, _, _ => []
  | _, [], _ => []
  | turns + 1, prev :: queue, entries =>
    let here := orphansOf orphans (entries.filter fun entry => decide (entry.1 = prev))
    here ++ dependents cfg orphans turns (queue ++ here.map (hashOf cfg))
      (entries.filter fun entry => !decide (entry.1 = prev))

/-- The blocks that `process` hands to `append`, in their order: the block itself and the orphans. -/
def inTurn (cfg : Config) (block : Block) (f : BlockFilter) : List Block :=
  block :: dependents cfg f.orphans (f.orphansByPrev.length + 1) [hashOf cfg block] f.orphansByPrev

/-! ### What is told -/

/-- What is pushed after an append names the block that is the best one then. -/
def NamesBest (attempt : Attempt) (pushes : List (Nat × Uint256 × Bool)) : Prop :=
  ∀ push ∈ pushes, ∃ best, attempt.chain.tree.best = .ok best ∧ push.2.1 = best.hash

/-- **The truth about the blocks that were handed to `append`**: every listener is called once for each block that
was accepted, with this block, in the order of the appends; and after each append nothing is pushed but the hash of
the best block. -/
structure Truthful (cfg : Config) (listeners : List Nat) (clock : Clock) (f f' : BlockFilter) (blocks : List Block) :
    Prop where
  handed : f'.handed = f.handed ++ blocks
  heard : f'.heard = f.heard ++ ((attempts cfg clock blocks f.chain).filter (·.accepted)).flatMap fun attempt =>
    listeners.map fun listener => (listener, attempt.block)
  pushed : ∃ pushes, f'.pushed = f.pushed ++ pushes.flatten ∧
    List.Forall₂ NamesBest (attempts cfg clock blocks f.chain) pushes

/-- What the code tells: the listeners are always called with the block that is processed. -/
structure Tells (cfg : Config) (listeners : List Nat) (received : BlockReceived) (f f' : BlockFilter)
    (blocks : List Block) : Prop where
  chain : f'.chain = chainAfter cfg received.clock blocks f.chain
  handed : f'.handed = f.handed ++ blocks
  heard : f'.heard = f.heard ++ ((attempts cfg received.clock blocks f.chain).filter (·.accepted)).flatMap fun _ =>
    listeners.map fun listener => (listener, received.block)
  pushed : ∃ pushes, f'.pushed = f.pushed ++ pushes.flatten ∧
    List.Forall₂ NamesBest (attempts cfg received.clock blocks f.chain) pushes

variable {cfg : Config} {listeners : List Nat} {received : BlockReceived} {f f' : BlockFilter}

theorem Tells.refl (f : BlockFilter) : Tells cfg listeners received f f [] :=
  ⟨rfl, (List.append_nil _).symm, (List.append_nil _).symm, [], (List.append_nil _).symm, .nil⟩

theorem Tells.trans {middle : BlockFilter} {first second : List Block}
    (told : Tells cfg listeners received f middle first)
    (next : Tells cfg listeners received middle f' second) :
    Tells cfg listeners received f f' (first ++ second) := by
  obtain ⟨pushes, pushed, names⟩ := told.pushed
  obtain ⟨more, pushed', names'⟩ := next.pushed
  rw [told.chain] at names'
  refine ⟨?_, ?_, ?_, pushes ++ more, ?_, ?_⟩
  · rw [next.chain, told.chain, chainAfter_append]
  · rw [next.handed, told.handed, List.append_assoc]
  · rw [next.heard, told.heard, told.chain, attempts_append, List.filter_append, List.flatMap_append,
      List.append_assoc]
  · rw [pushed', pushed, List.flatten_append, List.append_assoc]
  · rw [attempts_append]
    exact List.rel_append names names'

/-- The store takes no part in what is told. -/
theorem Tells.with_store {blocks : List Block} (told : Tells cfg listeners received f f' blocks)
    (orphans : Map Uint256 Block) (entries : List (Uint256 × Uint256)) :
    Tells cfg listeners received f { f' with orphans := orphans, orphansByPrev := entries } blocks :=
  ⟨told.chain, told.handed, told.heard, told.pushed⟩

/-! ### One block -/

theorem handOver_ok {clock : Clock} {processed block : Block} {threw : Bool}
    (run : handOver cfg listeners clock processed block f = .ok (threw, f')) :
    f'.chain = (attempt cfg clock block f.chain).chain ∧ f'.handed = f.handed ++ [block] ∧
      f'.heard = f.heard ++ (if (attempt cfg clock block f.chain).accepted then
        listeners.map fun listener => (listener, processed) else []) ∧
      f'.pushed = f.pushed ∧ f'.orphans = f.orphans ∧ f'.orphansByPrev = f.orphansByPrev := by
  unfold handOver at run
  unfold attempt
  dsimp only at run
  cases appended : BlockChain.append cfg clock block f.chain with
  | ok done chain =>
    rw [appended] at run
    cases run
    exact ⟨rfl, rfl, rfl, rfl, rfl, rfl⟩
  | error fault chain =>
    rw [appended] at run
    cases fault with
    | undefined => cases run
    | error what =>
      cases run
      exact ⟨rfl, rfl, (List.append_nil _).symm, rfl, rfl, rfl⟩
    | reject what =>
      cases run
      exact ⟨rfl, rfl, (List.append_nil _).symm, rfl, rfl, rfl⟩

theorem relay_ok {peers : List BlockPeer} {hash : Uint256} {force : Bool}
    (run : relay cfg peers hash force f = .ok f') :
    (∃ pushes, f'.pushed = f.pushed ++ pushes ∧
      ∀ push ∈ pushes, ∃ best, f.chain.tree.best = .ok best ∧ push.2.1 = best.hash) ∧
      f'.chain = f.chain ∧ f'.handed = f.handed ∧ f'.heard = f.heard ∧ f'.orphans = f.orphans ∧
      f'.orphansByPrev = f.orphansByPrev := by
  unfold relay at run
  cases found : f.chain.tree.best with
  | error fault =>
    rw [found] at run
    cases run
  | ok best =>
    rw [found] at run
    dsimp only at run
    split at run
    · rename_i same
      cases run
      refine ⟨⟨_, rfl, fun push member => ⟨best, rfl, ?_⟩⟩, rfl, rfl, rfl, rfl, rfl⟩
      obtain ⟨peer, -, rfl⟩ := List.mem_map.mp member
      exact same.symm
    · cases run
      exact ⟨⟨[], (List.append_nil _).symm, nofun⟩, rfl, rfl, rfl, rfl, rfl⟩

/-- A block is handed over and relayed. -/
theorem handed_tells {block : Block} {hash : Uint256} {threw force : Bool} {middle : BlockFilter}
    (handed : handOver cfg listeners received.clock received.block block f = .ok (threw, middle))
    (relayed : relay cfg received.peers hash force middle = .ok f') :
    Tells cfg listeners received f f' [block] ∧ f'.orphans = f.orphans ∧ f'.orphansByPrev = f.orphansByPrev := by
  obtain ⟨chain, list, heard, quiet, store, entries⟩ := handOver_ok handed
  obtain ⟨⟨pushes, pushed, names⟩, chain', list', heard', store', entries'⟩ := relay_ok relayed
  refine ⟨⟨?_, ?_, ?_, [pushes], ?_, ?_⟩, store'.trans store, entries'.trans entries⟩
  · rw [chain', chain]
    rfl
  · rw [list', list]
  · rw [heard', heard]
    unfold attempts attempts
    cases accepted : (attempt cfg received.clock block f.chain).accepted <;> simp [accepted]
  · simp [pushed, quiet]
  · rw [chain] at names
    exact .cons names .nil

/-! ### The loops -/

/-- The loop over the entries: the blocks are those that the store had before. -/
theorem adopt_tells {entries : List (Uint256 × Uint256)} {added : List Uint256} {store : Map Uint256 Block}
    (within : ∀ (key : Uint256) block, f.orphans[key]? = some block → store[key]? = some block)
    (run : adopt cfg listeners received entries f = .ok (added, f')) :
    Tells cfg listeners received f f' (orphansOf store entries) ∧
      added = (orphansOf store entries).map (hashOf cfg) ∧ f'.orphansByPrev = f.orphansByPrev ∧
      ∀ (key : Uint256) block, f'.orphans[key]? = some block → store[key]? = some block := by
  induction entries generalizing f added with
  | nil =>
    cases run
    exact ⟨.refl _, rfl, rfl, within⟩
  | cons entry entries ih =>
    obtain ⟨prev, key⟩ := entry
    unfold adopt at run
    cases found : f.orphans[key]? with
    | none =>
      rw [found] at run
      cases run
    | some orphan =>
      rw [found] at run
      dsimp only at run
      obtain ⟨⟨threw, handed⟩, handing, run⟩ := bind_eq_ok.mp run
      obtain ⟨relayed, relaying, run⟩ := bind_eq_ok.mp run
      obtain ⟨⟨queue, last⟩, rest, run⟩ := bind_eq_ok.mp run
      cases run
      obtain ⟨told, same, list⟩ := handed_tells handing relaying
      have inside : ∀ (other : Uint256) block,
          (relayed.orphans.erase (hashOf cfg orphan))[other]? = some block → store[other]? = some block := by
        intro other block kept
        rw [Map.lookup_erase] at kept
        split at kept
        · cases kept
        · exact within other block (same ▸ kept)
      obtain ⟨told', added, list', within'⟩ := ih inside rest
      have split : orphansOf store ((prev, key) :: entries) = [orphan] ++ orphansOf store entries := by
        simp [orphansOf, within key orphan found]
      refine ⟨?_, ?_, list'.trans list, within'⟩
      · rw [split]
        exact (told.with_store _ _).trans told'
      · rw [split, added]
        rfl

/-- The loop over the work queue. -/
theorem workLoop_tells {turns : Nat} {queue : List Uint256} {store : Map Uint256 Block}
    (within : ∀ (key : Uint256) block, f.orphans[key]? = some block → store[key]? = some block)
    (run : workLoop cfg listeners received turns queue f = .ok f') :
    Tells cfg listeners received f f' (dependents cfg store turns queue f.orphansByPrev) := by
  induction turns generalizing queue f with
  | zero =>
    cases queue with
    | nil =>
      cases run
      exact .refl _
    | cons prev queue => cases run
  | succ turns ih =>
    cases queue with
    | nil =>
      cases run
      exact .refl _
    | cons prev queue =>
      rw [workLoop] at run
      obtain ⟨⟨added, middle⟩, adopted, run⟩ := bind_eq_ok.mp run
      obtain ⟨told, rfl, list, within'⟩ := adopt_tells within adopted
      have told' := ih (f := middle.eraseEntries prev) within' run
      unfold eraseEntries at told'
      rw [list] at told'
      exact (told.with_store _ _).trans told'

/-- A call of `process`. -/
theorem process_tells (run : process cfg listeners received f = .ok f') :
    Tells cfg listeners received f f' (inTurn cfg received.block f) := by
  unfold process at run
  dsimp only at run
  obtain ⟨⟨threw, handed⟩, handing, run⟩ := bind_eq_ok.mp run
  dsimp only at run
  split at run
  · cases run
  obtain ⟨relayed, relaying, run⟩ := bind_eq_ok.mp run
  obtain ⟨told, same, list⟩ := handed_tells handing relaying
  have told' := workLoop_tells (fun _ _ stored => same ▸ stored) run
  rw [list] at told'
  exact told.trans told'

/-! ### The truth -/

/-- Calls of the same listeners are the same if they are made with the same blocks, or if there are no listeners. -/
theorem calls_eq_iff (listeners : List Nat) (block : Block) (tried : List Attempt) :
    (tried.flatMap fun _ => listeners.map fun listener => (listener, block)) =
        (tried.flatMap fun attempt => listeners.map fun listener => (listener, attempt.block)) ↔
      listeners = [] ∨ ∀ attempt ∈ tried, attempt.block = block := by
  rcases eq_or_ne listeners [] with rfl | subscribed
  · simp
  obtain ⟨first, others, rfl⟩ := List.exists_cons_of_ne_nil subscribed
  simp only [reduceCtorEq, false_or]
  induction tried with
  | nil => simp
  | cons attempt tried ih =>
    rw [List.flatMap_cons, List.flatMap_cons, List.forall_mem_cons, ← ih]
    constructor
    · intro same
      obtain ⟨here, rest⟩ := List.append_inj same (by simp)
      refine ⟨?_, rest⟩
      exact (congrArg Prod.snd (List.cons.inj here).1).symm
    · rintro ⟨here, rest⟩
      rw [here, rest]

theorem Tells.truthful_iff {blocks : List Block} (told : Tells cfg listeners received f f' blocks) :
    (∃ blocks, Truthful cfg listeners received.clock f f' blocks) ↔ listeners = [] ∨
      ∀ attempt ∈ attempts cfg received.clock blocks f.chain,
        attempt.accepted = true → attempt.block = received.block := by
  have calls := calls_eq_iff listeners received.block
    ((attempts cfg received.clock blocks f.chain).filter (·.accepted))
  simp only [List.mem_filter, and_imp] at calls
  rw [← calls]
  constructor
  · rintro ⟨others, truth⟩
    obtain rfl := List.append_cancel_left (told.handed.symm.trans truth.handed)
    exact List.append_cancel_left (told.heard.symm.trans truth.heard)
  · intro same
    exact ⟨_, told.handed, same ▸ told.heard, told.pushed⟩

/-- **The listeners and the peers are told the truth about a block and the orphans that depend on it exactly if there
are no listeners, or `append` accepts no other block than the one that is processed.** -/
theorem truth_told_iff (run : process cfg listeners received f = .ok f') :
    (∃ blocks, Truthful cfg listeners received.clock f f' blocks) ↔ listeners = [] ∨
      ∀ attempt ∈ attempts cfg received.clock (inTurn cfg received.block f) f.chain,
        attempt.accepted = true → attempt.block = received.block :=
  (process_tells run).truthful_iff

end Libcoin.BlockFilter

namespace Libcoin.Small

/-- Block 2 on the genesis block, and block 3 on block 2. -/
def parentBlock : Block := { mined 2 1 [coinbase 2 [50]] with merkleRoot := 2 }

def orphanBlock : Block := { mined 3 2 [coinbase 3 [50]] with merkleRoot := 3 }

end Libcoin.Small

namespace Libcoin.BlockFilter

open Exec Libcoin.Small

/-- Block 3 is kept as an orphan, and then block 2 is received: both are accepted. -/
theorem orphan_adopted : ∃ chain f f', created 1 0 = .ok chain ∧
    receive (config 1 0) [0] ⟨clock, [], orphanBlock⟩ (new chain) = .ok f ∧
    process (config 1 0) [0] ⟨clock, [], parentBlock⟩ f = .ok f' ∧
    ((attempts (config 1 0) clock (inTurn (config 1 0) parentBlock f) f.chain).filter (·.accepted)).map
      (fun attempt => hashOf (config 1 0) attempt.block) = [2, 3] := by
  have run : (do
      let chain ← (created 1 0).toOption
      let f ← (receive (config 1 0) [0] ⟨clock, [], orphanBlock⟩ (new chain)).toOption
      let f' ← (process (config 1 0) [0] ⟨clock, [], parentBlock⟩ f).toOption
      return ((attempts (config 1 0) clock (inTurn (config 1 0) parentBlock f) f.chain).filter (·.accepted)).map
        (fun attempt => hashOf (config 1 0) attempt.block)) = some [2, 3] := by
    decide +kernel
  obtain ⟨chain, created, run⟩ := Option.bind_eq_some_iff.mp run
  obtain ⟨f, received, run⟩ := Option.bind_eq_some_iff.mp run
  obtain ⟨f', processed, run⟩ := Option.bind_eq_some_iff.mp run
  exact ⟨chain, f, f', toOption_eq_some.mp created, toOption_eq_some.mp received, toOption_eq_some.mp processed,
    Option.some.inj run⟩

/-- The listener is called with block 2 twice. -/
theorem truth_not_told : ∃ chain f f', created 1 0 = .ok chain ∧
    receive (config 1 0) [0] ⟨clock, [], orphanBlock⟩ (new chain) = .ok f ∧
    process (config 1 0) [0] ⟨clock, [], parentBlock⟩ f = .ok f' ∧
    ¬ ∃ blocks, Truthful (config 1 0) [0] clock f f' blocks := by
  obtain ⟨chain, f, f', created, received, processed, accepted⟩ := orphan_adopted
  refine ⟨chain, f, f', created, received, processed, fun truth => ?_⟩
  rcases (process_tells processed).truthful_iff.mp truth with nobody | same
  · cases nobody
  have three : (3 : Uint256) ∈ [2, 3] := List.mem_cons_of_mem _ List.mem_cons_self
  rw [← accepted] at three
  obtain ⟨attempt, member, hash⟩ := List.mem_map.mp three
  obtain ⟨member, ok⟩ := List.mem_filter.mp member
  rw [same attempt member ok] at hash
  exact absurd hash (by decide)

theorem truth_told_iff_adopted : ∃ chain f f', created 1 0 = .ok chain ∧
    receive (config 1 0) [0] ⟨clock, [], orphanBlock⟩ (new chain) = .ok f ∧
    process (config 1 0) [0] ⟨clock, [], parentBlock⟩ f = .ok f' ∧
    ((∃ blocks, Truthful (config 1 0) [0] clock f f' blocks) ↔ [0] = [] ∨
      ∀ attempt ∈ attempts (config 1 0) clock (inTurn (config 1 0) parentBlock f) f.chain,
        attempt.accepted = true → attempt.block = parentBlock) := by
  obtain ⟨chain, f, f', created, received, processed, -⟩ := orphan_adopted
  exact ⟨chain, f, f', created, received, processed, truth_told_iff processed⟩

end Libcoin.BlockFilter
