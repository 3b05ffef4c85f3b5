/-
`TransactionFilter`: transactions that peers send, claimed or kept as orphans.

* `process` claims a transaction, and then the orphans that spend its outputs, those that spend theirs, and so
  on. A transaction that is rejected because a coin is missing becomes an orphan.
* `receive_run` is the induction for an invariant of the block chain: it has to be kept by the claim of a
  transaction that meets a condition, which the orphans then meet as well.

A call of a listener of the filter is recorded in `heard`, and what is pushed to a peer in `pushed`.
-/

import Libcoin.BlockChain.Runs
import Libcoin.Pool.Families

namespace Libcoin

open Exec
open Run (AlongStates AlongSteps)

/-- The members of `TransactionFilter`, and its block chain. `orphansByPrev` has its entries in the order of
their insertion, each with the key of its orphan. -/
structure TransactionFilter where
  chain : BlockChain
  orphans : Map Uint256 Transaction
  orphansByPrev : List (Uint256 × Uint256)
  relays : Map Uint256 Transaction
  relayExpiration : List (Int × Uint256)
  heard : List (Nat × Transaction)
  pushed : List (Nat × Uint256 × Bool)

/-- A transaction that comes in: the time, the peers it is relayed to, and the transaction. -/
structure Received where
  clock : Clock
  peers : List Nat
  txn : Transaction

namespace TransactionFilter

variable (cfg : Config) (listeners : List Nat)

/-- The loop of `relay` over what has expired. -/
def expire (now : Int) : List (Int × Uint256) → Map Uint256 Transaction →
    List (Int × Uint256) × Map Uint256 Transaction
  | [], relays => ([], relays)
  | (time, hash) :: rest, relays =>
    if time < now then expire now rest (relays.erase hash) else ((time, hash) :: rest, relays)

/-- `relay`. -/
def relay (now : Int) (peers : List Nat) (txn : Transaction) (force : Bool) (f : TransactionFilter) :
    TransactionFilter :=
  let (expiration, relays) := expire now f.relayExpiration f.relays
  let hash := cfg.prim.txnHash txn
  { f with
    relays := relays.insert hash txn
    relayExpiration := expiration ++ [(now + 180 * 60, hash)]
    pushed := f.pushed ++ peers.map fun peer => (peer, hash, force) }

/-- What follows a claim that is accepted: the calls of the listeners, and `relay`. -/
def announce (now : Int) (peers : List Nat) (txn : Transaction) (f : TransactionFilter) : TransactionFilter :=
  relay cfg now peers txn false { f with heard := f.heard ++ listeners.map fun listener => (listener, txn) }

/-- `addOrphan`. -/
def addOrphan (txn : Transaction) (f : TransactionFilter) : TransactionFilter :=
  let hash := cfg.prim.txnHash txn
  if f.orphans[hash]?.isSome then f
  else
    { f with
      orphans := f.orphans.insert hash txn
      orphansByPrev := f.orphansByPrev ++ txn.inputs.map fun input => (input.prevout.hash, hash) }

/-- `eraseOrphan`. -/
def eraseOrphan (f : TransactionFilter) (hash : Uint256) : TransactionFilter :=
  match f.orphans[hash]? with
  | none => f
  | some txn =>
    { f with
      orphans := f.orphans.erase hash
      orphansByPrev := txn.inputs.foldl
        (fun entries input => entries.filter fun entry => !decide (entry = (input.prevout.hash, hash)))
        f.orphansByPrev }

/-- The orphans from `lower_bound` to `upper_bound` of a hash. -/
def orphansOf (f : TransactionFilter) (prev : Uint256) : List Transaction :=
  (f.orphansByPrev.filter fun entry => decide (entry.1 = prev)).filterMap fun entry => f.orphans[entry.2]?

/-- The loop of `process` over the orphans of a hash: what was added to the work queue. What `claim` throws is
dropped. -/
def adopt (clock : Clock) (peers : List Nat) :
    List Transaction → TransactionFilter → Option (List Uint256 × TransactionFilter)
  | [], f => some ([], f)
  | txn :: txns, f =>
    match BlockChain.claim cfg clock txn true f.chain with
    | .ok _ chain => do
      let (queue, f) ← adopt clock peers txns (announce cfg listeners clock.now peers txn
        { f with chain := chain })
      return (cfg.prim.txnHash txn :: queue, f)
    | .error .undefined _ => none
    | .error _ chain => adopt clock peers txns { f with chain := chain }

/-- The loop of `process` over the work queue, which grows: all of it in the end. -/
def workLoop (clock : Clock) (peers : List Nat) :
    Nat → List Uint256 → TransactionFilter → Option (List Uint256 × TransactionFilter)
  | _, [], f => some ([], f)
  | 0, _ :: _, _ => none
  | fuel + 1, hash :: queue, f => do
    let (added, f) ← adopt cfg listeners clock peers (f.orphansOf hash) f
    let (done, f) ← workLoop clock peers fuel (queue ++ added) f
    return (hash :: done, f)

/-- `process`. Nothing is known after behaviour that is not defined. -/
def process (received : Received) (f : TransactionFilter) : Option TransactionFilter :=
  let hash := cfg.prim.txnHash received.txn
  if f.chain.claims.haveHash hash then
    some (relay cfg received.clock.now received.peers received.txn true f)
  else
    match BlockChain.claim cfg received.clock received.txn true f.chain with
    | .ok _ chain => do
      let (queue, f) ← workLoop cfg listeners received.clock received.peers (f.orphansByPrev.length + 1) [hash]
        (announce cfg listeners received.clock.now received.peers received.txn { f with chain := chain })
      return queue.foldl eraseOrphan f
    | .error (.reject _) chain => some (addOrphan cfg received.txn { f with chain := chain })
    | .error (.error _) chain => some { f with chain := chain }
    | .error .undefined _ => none

/-- A transaction is received. -/
def receive (now : Option TransactionFilter) (received : Received) : Option TransactionFilter :=
  now.bind (process cfg listeners received)

/-- The filter of a block chain, before anything was received. -/
def new (chain : BlockChain) : TransactionFilter :=
  { chain := chain, orphans := ∅, orphansByPrev := [], relays := ∅, relayExpiration := [], heard := [],
    pushed := [] }

variable {cfg : Config} {listeners : List Nat} {clock : Clock} {peers : List Nat} {f f' : TransactionFilter}

@[simp] theorem announce_chain (now : Int) (txn : Transaction) :
    (announce cfg listeners now peers txn f).chain = f.chain := rfl

/-! ### A claim -/

/-- A claim is accepted, or leaves the block chain as it is. -/
theorem claim_cases (txn : Transaction) (s : BlockChain) :
    (∃ spents fee, BlockChain.tryClaim cfg clock s txn true = .ok (spents, fee) ∧
        BlockChain.claim cfg clock txn true s = .ok () (BlockChain.claimed cfg clock s txn spents fee)) ∨
      ∃ fault, BlockChain.claim cfg clock txn true s = .error fault s := by
  unfold BlockChain.claim
  rw [bind_get]
  cases tried : BlockChain.tryClaim cfg clock s txn true with
  | error fault => exact .inr ⟨fault, rfl⟩
  | ok result => exact .inl ⟨result.1, result.2, rfl, rfl⟩

/-! ### The work queue -/

/-- The orphans, as often as they are in `orphansByPrev`, that are not claimed. -/
def unclaimed (cfg : Config) (f : TransactionFilter) : List Transaction :=
  (f.orphansByPrev.filterMap fun entry => f.orphans[entry.2]?).filter fun txn =>
    !f.chain.claims.haveHash (cfg.prim.txnHash txn)

theorem mem_orphansOf {prev : Uint256} {txn : Transaction} (member : txn ∈ f.orphansOf prev) :
    txn ∈ f.orphansByPrev.filterMap fun entry => f.orphans[entry.2]? := by
  obtain ⟨entry, inside, found⟩ := List.mem_filterMap.mp member
  exact List.mem_filterMap.mpr ⟨entry, (List.mem_filter.mp inside).1, found⟩

/-- A hash is pooled after the claim if it was, or if it is that of the claim. -/
theorem haveHash_claimed {s : BlockChain} {txn : Transaction} {spents : Finset Coin} {fee : Int}
    (hash : Uint256) :
    (BlockChain.claimed cfg clock s txn spents fee).claims.haveHash hash =
      (s.claims.haveHash hash || decide (cfg.prim.txnHash txn = hash)) := by
  show ((s.claims.insert cfg.prim clock.now txn spents fee 0).confirmations[hash]?).isSome = _
  rw [Claims.lookup_insert]
  by_cases same : cfg.prim.txnHash txn = hash
  · simp [same]
  · simp [same, Claims.haveHash]

/-- Every hash that `adopt` adds to the work queue is that of an orphan which was not claimed before. -/
theorem adopt_bound {txns : List Transaction} {added : List Uint256}
    (run : adopt cfg listeners clock peers txns f = some (added, f'))
    (inside : ∀ txn ∈ txns, txn ∈ f.orphansByPrev.filterMap fun entry => f.orphans[entry.2]?) :
    added.length + (unclaimed cfg f').length ≤ (unclaimed cfg f).length ∧
      f'.orphans = f.orphans ∧ f'.orphansByPrev = f.orphansByPrev := by
  induction txns generalizing f added with
  | nil =>
    obtain ⟨rfl, rfl⟩ := Prod.mk.inj (Option.some.inj run)
    exact ⟨by simp, rfl, rfl⟩
  | cons txn txns ih =>
    have later : ∀ other ∈ txns, other ∈ f.orphansByPrev.filterMap fun entry => f.orphans[entry.2]? :=
      fun other member => inside other (List.mem_cons_of_mem _ member)
    unfold adopt at run
    rcases claim_cases txn f.chain with ⟨spents, fee, tried, claimed⟩ | ⟨fault, refused⟩
    · rw [claimed] at run
      obtain ⟨⟨queue, f₁⟩, rest, run⟩ := Option.bind_eq_some_iff.mp run
      obtain ⟨rfl, rfl⟩ := Prod.mk.inj (Option.some.inj run)
      obtain ⟨bound, orphans, entries⟩ := ih rest later
      refine ⟨?_, orphans, entries⟩
      have fewer : (unclaimed cfg (announce cfg listeners clock.now peers txn
          { f with chain := BlockChain.claimed cfg clock f.chain txn spents fee })).length <
            (unclaimed cfg f).length := by
        have again : unclaimed cfg (announce cfg listeners clock.now peers txn
            { f with chain := BlockChain.claimed cfg clock f.chain txn spents fee }) =
              (unclaimed cfg f).filter fun other => !decide (cfg.prim.txnHash txn = cfg.prim.txnHash other) := by
          unfold unclaimed
          rw [List.filter_filter]
          refine List.filter_congr fun other _ => ?_
          simp [haveHash_claimed, Bool.not_or, Bool.and_comm]
        rw [again, List.length_filter_lt_length_iff_exists]
        refine ⟨txn, List.mem_filter.mpr ⟨inside txn List.mem_cons_self, ?_⟩, by simp⟩
        rw [(BlockChain.tryClaim_ok tried).fresh]
        rfl
      rw [List.length_cons]
      omega
    · rw [refused] at run
      cases fault with
      | undefined => cases run
      | reject what => exact ih run later
      | error what => exact ih run later

/-- The loop comes to its end: with so many turns, more make no difference. -/
theorem workLoop_enough {fuel : Nat} {queue : List Uint256}
    (enough : queue.length + (unclaimed cfg f).length ≤ fuel) :
    workLoop cfg listeners clock peers (fuel + 1) queue f = workLoop cfg listeners clock peers fuel queue f := by
  induction fuel generalizing queue f with
  | zero =>
    have nothing : queue = [] := List.eq_nil_of_length_eq_zero (by omega)
    rw [nothing]
    rfl
  | succ fuel ih =>
    cases queue with
    | nil => rfl
    | cons hash queue =>
      show (adopt cfg listeners clock peers (f.orphansOf hash) f).bind _ =
        (adopt cfg listeners clock peers (f.orphansOf hash) f).bind _
      cases adopted : adopt cfg listeners clock peers (f.orphansOf hash) f with
      | none => rfl
      | some result =>
        obtain ⟨added, f₁⟩ := result
        have bound := (adopt_bound adopted fun txn member => mem_orphansOf member).1
        have same : workLoop cfg listeners clock peers (fuel + 1) (queue ++ added) f₁ =
            workLoop cfg listeners clock peers fuel (queue ++ added) f₁ :=
          ih (by simp at enough ⊢; omega)
        simp only [Option.bind_some, same]

/-- The turns that `process` gives the loop are enough. -/
theorem process_enough (hash : Uint256) (more : Nat) :
    workLoop cfg listeners clock peers (f.orphansByPrev.length + 1 + more) [hash] f =
      workLoop cfg listeners clock peers (f.orphansByPrev.length + 1) [hash] f := by
  have fewer : (unclaimed cfg f).length ≤ f.orphansByPrev.length :=
    (List.length_filter_le _ _).trans (List.length_filterMap_le _ _)
  induction more with
  | zero => rfl
  | succ more ih =>
    have enough : [hash].length + (unclaimed cfg f).length ≤ f.orphansByPrev.length + 1 + more := by
      rw [List.length_singleton]
      omega
    exact (workLoop_enough enough).trans ih

/-! ### Invariants -/

/-- An invariant of the block chain, and a condition on all orphans. -/
structure Holds (inv : BlockChain → Prop) (meets : Transaction → Prop) (f : TransactionFilter) : Prop where
  chain : inv f.chain
  orphans : ∀ (hash : Uint256) txn, f.orphans[hash]? = some txn → meets txn

section Invariants

variable {inv : BlockChain → Prop} {meets : Transaction → Prop}
  (kept : ∀ clock s txn spents fee, inv s → meets txn →
    BlockChain.tryClaim cfg clock s txn true = .ok (spents, fee) →
      inv (BlockChain.claimed cfg clock s txn spents fee))

theorem Holds.eraseOrphan (holds : Holds inv meets f) (hash : Uint256) :
    Holds inv meets (f.eraseOrphan hash) := by
  unfold TransactionFilter.eraseOrphan
  cases found : f.orphans[hash]? with
  | none => exact holds
  | some txn => exact ⟨holds.chain, fun other txn' stored =>
    holds.orphans other txn' (Map.lookup_of_erase stored).2⟩

theorem Holds.addOrphan (holds : Holds inv meets f) {txn : Transaction} (met : meets txn) :
    Holds inv meets (f.addOrphan cfg txn) := by
  unfold TransactionFilter.addOrphan
  dsimp only
  split
  · exact holds
  · refine ⟨holds.chain, fun other txn' stored => ?_⟩
    rcases Map.lookup_of_insert stored with ⟨-, rfl⟩ | old
    · exact met
    · exact holds.orphans other txn' old

include kept

theorem Holds.adopt {txns : List Transaction} {added : List Uint256} (holds : Holds inv meets f)
    (met : ∀ txn ∈ txns, meets txn) (run : adopt cfg listeners clock peers txns f = some (added, f')) :
    Holds inv meets f' := by
  induction txns generalizing f added with
  | nil =>
    obtain ⟨-, rfl⟩ := Prod.mk.inj (Option.some.inj run)
    exact holds
  | cons txn txns ih =>
    have later : ∀ other ∈ txns, meets other := fun other member => met other (List.mem_cons_of_mem _ member)
    unfold TransactionFilter.adopt at run
    rcases claim_cases txn f.chain with ⟨spents, fee, tried, claimed⟩ | ⟨fault, refused⟩
    · rw [claimed] at run
      obtain ⟨⟨queue, f₁⟩, rest, run⟩ := Option.bind_eq_some_iff.mp run
      obtain ⟨-, rfl⟩ := Prod.mk.inj (Option.some.inj run)
      have next := kept clock f.chain txn spents fee holds.chain (met txn List.mem_cons_self) tried
      have claimed : Holds inv meets (announce cfg listeners clock.now peers txn
          { f with chain := BlockChain.claimed cfg clock f.chain txn spents fee }) := ⟨next, holds.orphans⟩
      exact ih claimed later rest
    · rw [refused] at run
      cases fault with
      | undefined => cases run
      | reject what => exact ih holds later run
      | error what => exact ih holds later run

theorem Holds.workLoop {fuel : Nat} {queue done : List Uint256} (holds : Holds inv meets f)
    (run : workLoop cfg listeners clock peers fuel queue f = some (done, f')) : Holds inv meets f' := by
  induction fuel generalizing queue f done with
  | zero =>
    cases queue with
    | nil =>
      obtain ⟨-, rfl⟩ := Prod.mk.inj (Option.some.inj run)
      exact holds
    | cons hash queue => cases run
  | succ fuel ih =>
    cases queue with
    | nil =>
      obtain ⟨-, rfl⟩ := Prod.mk.inj (Option.some.inj run)
      exact holds
    | cons hash queue =>
      obtain ⟨⟨added, f₁⟩, adopted, run⟩ := Option.bind_eq_some_iff.mp run
      obtain ⟨⟨rest, f₂⟩, looped, run⟩ := Option.bind_eq_some_iff.mp run
      obtain ⟨-, rfl⟩ := Prod.mk.inj (Option.some.inj run)
      refine ih (holds.adopt kept (fun txn member => ?_) adopted) looped
      obtain ⟨entry, -, found⟩ := List.mem_filterMap.mp member
      exact holds.orphans _ _ found

/-- One call of `process`. -/
theorem Holds.process {received : Received} (holds : Holds inv meets f) (met : meets received.txn)
    (run : process cfg listeners received f = some f') : Holds inv meets f' := by
  unfold TransactionFilter.process at run
  dsimp only at run
  split at run
  · obtain rfl := Option.some.inj run
    exact ⟨holds.chain, holds.orphans⟩
  · rcases claim_cases received.txn f.chain with ⟨spents, fee, tried, claimed⟩ | ⟨fault, refused⟩
    · rw [claimed] at run
      obtain ⟨⟨queue, f₁⟩, looped, run⟩ := Option.bind_eq_some_iff.mp run
      obtain rfl := Option.some.inj run
      have next := kept received.clock f.chain received.txn spents fee holds.chain met tried
      have claimed : Holds inv meets (announce cfg listeners received.clock.now received.peers received.txn
          { f with chain := BlockChain.claimed cfg received.clock f.chain received.txn spents fee }) :=
        ⟨next, holds.orphans⟩
      have after : Holds inv meets f₁ := claimed.workLoop kept looped
      have erased : ∀ (hashes : List Uint256) (f : TransactionFilter), Holds inv meets f →
          Holds inv meets (hashes.foldl TransactionFilter.eraseOrphan f) := by
        intro hashes
        induction hashes with
        | nil => exact fun _ holds => holds
        | cons hash hashes ih => exact fun f holds => ih _ (holds.eraseOrphan hash)
      exact erased queue f₁ after
    · rw [refused] at run
      cases fault with
      | undefined => cases run
      | reject what =>
        obtain rfl := Option.some.inj run
        exact Holds.addOrphan ⟨holds.chain, holds.orphans⟩ met
      | error what =>
        obtain rfl := Option.some.inj run
        exact ⟨holds.chain, holds.orphans⟩

/-- **An invariant of all runs** in which every transaction that is received meets the condition. -/
theorem receive_run {gives : BlockChain → Prop} (weaker : ∀ s, inv s → gives s) {received : List Received}
    (start : inv f.chain) (none : f.orphans = ∅) (met : ∀ r ∈ received, meets r.txn) :
    AlongStates (receive cfg listeners) (fun now => ∀ f ∈ now, gives f.chain) (some f) received := by
  have each : ∀ (now : Option TransactionFilter) (r : Received), (∀ f ∈ now, Holds inv meets f) → meets r.txn →
      ∀ f' ∈ receive cfg listeners now r, Holds inv meets f' := by
    intro now r holds met f' is
    obtain ⟨f, here, run⟩ := Option.bind_eq_some_iff.mp is
    exact (holds f here).process kept met run
  have along : AlongSteps (receive cfg listeners) (fun _ r => meets r.txn) (some f) received :=
    AlongSteps.of_forall fun r member _ => met r member
  refine AlongStates.of_inv (fun now holds f here => weaker f.chain (holds f here).chain) each ?_ along
  rintro f' ⟨⟩
  refine ⟨start, fun hash txn stored => ?_⟩
  rw [none] at stored
  simp at stored

end Invariants

end TransactionFilter

end Libcoin
