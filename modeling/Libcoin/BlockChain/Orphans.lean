/-
The store of orphans of a `TransactionFilter`.

* `Exact`: `_orphansByPrev` has one entry for each input of each orphan, under the hash that the input refers
  to, and no other entries (`exact_process`).
* `Settled`: no orphan could be claimed. On a chain without names a claim makes claimable only what spends its
  outputs (`tryClaim_before`), so that an orphan which the loops of `process` have refused stays refused until
  another of its parents is claimed: `Waiting` is the invariant of both loops.
-/

import Libcoin.BlockChain.TransactionFilter

namespace Libcoin

open Exec
open Run (AlongStates AlongSteps)

namespace BlockChain

variable {cfg : Config} {clock : Clock} {s s' : BlockChain}

/-! ### What a claim changes for others -/

/-- The loop over the inputs, in a block chain with fewer spent coins. -/
theorem claimInputs_before (noNames : cfg.chain.adhereNames = false)
    (spent : ∀ coin, coin ∈ s.claims.spents → coin ∈ s'.claims.spents) {txn : Transaction} {verify : Bool}
    {inputs : List Input} (coins : ∀ input ∈ inputs, claimedCoin cfg s' input = claimedCoin cfg s input) {idx : Nat}
    {valueIn : Int} {op : NameOperation} {spents : Finset Coin} {result : Int × NameOperation × Finset Coin}
    (run : claimInputs cfg clock s' txn verify inputs idx valueIn op spents = .ok result) :
    claimInputs cfg clock s txn verify inputs idx valueIn op spents = .ok result := by
  induction inputs generalizing idx valueIn op spents with
  | nil => exact run
  | cons input inputs ih =>
    unfold claimInputs at run ⊢
    obtain ⟨_, unspent, run⟩ := bind_eq_ok.mp run
    obtain ⟨unclaimed, apart⟩ := Bool.or_eq_false_iff.mp (refuseIf_ok.mp unspent)
    have free : s.claims.spent input.prevout = false :=
      decide_eq_false fun member => of_decide_eq_false unclaimed (spent _ member)
    obtain ⟨coin, found, run⟩ := bind_eq_ok.mp run
    rw [coins input List.mem_cons_self] at found
    obtain ⟨op', named, run⟩ := bind_eq_ok.mp run
    have same : claimName cfg s op coin = claimName cfg s' op coin := by
      unfold claimName
      rw [noNames, if_neg Bool.false_ne_true, if_neg Bool.false_ne_true]
    rw [← same] at named
    obtain ⟨_, range, run⟩ := bind_eq_ok.mp run
    obtain ⟨_, verified, run⟩ := bind_eq_ok.mp run
    have rest := ih (fun other member => coins other (List.mem_cons_of_mem _ member)) run
    rw [free, apart, found, ok_bind, named, ok_bind, range, ok_bind, verified, ok_bind]
    exact rest

/-- What is claimed after another claim, and spends none of its outputs, could be claimed before it. -/
theorem tryClaim_before (noNames : cfg.chain.adhereNames = false) {parent txn : Transaction}
    {spents : Finset Coin} {fee : Int} (apart : ∀ input ∈ txn.inputs, input.prevout.hash ≠ cfg.prim.txnHash parent)
    {verify : Bool} {result : Finset Coin × Int}
    (accepted : tryClaim cfg clock (claimed cfg clock s parent spents fee) txn verify = .ok result) :
    tryClaim cfg clock s txn verify = .ok result := by
  have coins : ∀ input ∈ txn.inputs,
      claimedCoin cfg (claimed cfg clock s parent spents fee) input = claimedCoin cfg s input := by
    intro input member
    have same : (claimed cfg clock s parent spents fee).claims.prev input.prevout = s.claims.prev input.prevout := by
      unfold Claims.prev
      rw [show (claimed cfg clock s parent spents fee).claims.confirmations[input.prevout.hash]? = _ from
        Claims.lookup_insert _, if_neg (Ne.symm (apart input member))]
    unfold claimedCoin
    rw [same]
    rfl
  unfold tryClaim at accepted ⊢
  by_cases pooled : s.claims.haveHash (cfg.prim.txnHash txn) = true
  · have still : (claimed cfg clock s parent spents fee).claims.haveHash (cfg.prim.txnHash txn) = true := by
      rw [show (claimed cfg clock s parent spents fee).claims.haveHash _ = _ from Claims.haveHash_insert _, pooled,
        Bool.or_true]
    rw [if_pos still] at accepted
    cases accepted
  · rw [if_neg pooled]
    split at accepted
    · cases accepted
    · split at accepted
      · cases accepted
      · rename_i ordinary
        rw [if_neg ordinary, mapError_eq_ok]
        have body := mapError_eq_ok.mp accepted
        unfold tryClaimBody at body ⊢
        obtain ⟨⟨valueIn, op, spents'⟩, run, body⟩ := bind_eq_ok.mp body
        obtain ⟨_, positive, body⟩ := bind_eq_ok.mp body
        obtain ⟨_, -, body⟩ := bind_eq_ok.mp body
        have before := claimInputs_before noNames (fun coin member => Finset.mem_union_left _ member) coins run
        have named : claimNames cfg clock s txn op = .ok () := by
          unfold claimNames
          rw [noNames, if_neg Bool.false_ne_true]
        exact bind_eq_ok.mpr ⟨_, before, bind_eq_ok.mpr ⟨_, positive, bind_eq_ok.mpr ⟨_, named, body⟩⟩⟩

end BlockChain

namespace TransactionFilter

open BlockChain

variable {cfg : Config} {listeners : List Nat} {clock : Clock} {peers : List Nat} {f f' : TransactionFilter}

/-! ### The entries of `_orphansByPrev` -/

/-- Each orphan is kept under its hash, and `_orphansByPrev` has one entry for each of its inputs and no
others. -/
structure Exact (cfg : Config) (f : TransactionFilter) : Prop where
  keyed : ∀ (hash : Uint256) txn, f.orphans[hash]? = some txn → cfg.prim.txnHash txn = hash
  entries : ∀ prev hash : Uint256, f.orphansByPrev.count (prev, hash) =
    (f.orphans[hash]?).elim 0 fun txn => txn.inputs.countP fun input => decide (input.prevout.hash = prev)

theorem Exact.new (chain : BlockChain) : Exact cfg (new chain) :=
  ⟨fun hash txn stored => by simp [TransactionFilter.new] at stored, fun prev hash => by simp [TransactionFilter.new]⟩

/-- Exactness is about the orphans and their entries alone. -/
theorem Exact.of_same (exact : Exact cfg f) (orphans : f'.orphans = f.orphans)
    (entries : f'.orphansByPrev = f.orphansByPrev) : Exact cfg f' := by
  constructor
  · rw [orphans]
    exact exact.keyed
  · rw [orphans, entries]
    exact exact.entries

/-- How often a pair is among the entries that an orphan gets. -/
theorem count_entries (inputs : List Input) (hash prev other : Uint256) :
    (inputs.map fun input => (input.prevout.hash, hash)).count (prev, other) =
      if other = hash then inputs.countP fun input => decide (input.prevout.hash = prev) else 0 := by
  rw [List.count, List.countP_map]
  by_cases own : other = hash
  · rw [if_pos own]
    refine List.countP_congr fun input _ => ?_
    simp [own]
  · rw [if_neg own, List.countP_eq_zero]
    intro input _ same
    have same : (input.prevout.hash, hash) = (prev, other) := by simpa using same
    exact own (Prod.mk.inj same).2.symm

theorem Exact.addOrphan (exact : Exact cfg f) (txn : Transaction) : Exact cfg (f.addOrphan cfg txn) := by
  unfold TransactionFilter.addOrphan
  dsimp only
  split
  · exact exact
  · rename_i absent
    have missing : f.orphans[cfg.prim.txnHash txn]? = none := Option.not_isSome_iff_eq_none.mp absent
    constructor
    · intro hash other stored
      rcases Map.lookup_of_insert stored with ⟨rfl, rfl⟩ | old
      · rfl
      · exact exact.keyed hash other old
    · intro prev hash
      show (f.orphansByPrev ++ _).count (prev, hash) = _
      rw [List.count_append, count_entries, exact.entries, Map.lookup_insert]
      by_cases own : hash = cfg.prim.txnHash txn
      · rw [if_pos own, if_pos own.symm, own, missing, Option.elim_none, Option.elim_some, Nat.zero_add]
      · rw [if_neg own, if_neg (Ne.symm own), Nat.add_zero]

/-- What the loop of `eraseOrphan` leaves of the entries. -/
theorem count_erased (inputs : List Input) (hash prev other : Uint256) (entries : List (Uint256 × Uint256)) :
    (inputs.foldl (fun entries input => entries.filter fun entry => !decide (entry = (input.prevout.hash, hash)))
      entries).count (prev, other) =
      if other = hash ∧ prev ∈ inputs.map (·.prevout.hash) then 0 else entries.count (prev, other) := by
  induction inputs generalizing entries with
  | nil => simp
  | cons input inputs ih =>
    rw [List.foldl_cons, ih, List.map_cons]
    by_cases later : other = hash ∧ prev ∈ inputs.map (·.prevout.hash)
    · rw [if_pos later, if_pos ⟨later.1, List.mem_cons_of_mem _ later.2⟩]
    · rw [if_neg later]
      by_cases here : other = hash ∧ prev = input.prevout.hash
      · rw [if_pos ⟨here.1, here.2 ▸ List.mem_cons_self⟩, List.count_eq_zero]
        intro member
        simp [here.1, here.2] at member
      · rw [if_neg fun both => (List.mem_cons.mp both.2).elim (fun own => here ⟨both.1, own⟩) fun own =>
          later ⟨both.1, own⟩]
        refine List.count_filter ?_
        simp only [Bool.not_eq_true', decide_eq_false_iff_not, Prod.mk.injEq, not_and]
        exact fun own same => here ⟨same, own⟩

/-- What is left of the orphans. -/
theorem lookup_eraseOrphan (hash other : Uint256) :
    (f.eraseOrphan hash).orphans[other]? = if hash = other then none else f.orphans[other]? := by
  unfold TransactionFilter.eraseOrphan
  cases stored : f.orphans[hash]? with
  | none =>
    by_cases same : hash = other
    · rw [if_pos same, ← same]
      exact stored
    · rw [if_neg same]
  | some txn => exact Map.lookup_erase _ _ _

theorem Exact.eraseOrphan (exact : Exact cfg f) (hash : Uint256) : Exact cfg (f.eraseOrphan hash) := by
  constructor
  · intro other txn stored
    rw [lookup_eraseOrphan] at stored
    split at stored
    · cases stored
    · exact exact.keyed other txn stored
  · intro prev other
    rw [lookup_eraseOrphan]
    unfold TransactionFilter.eraseOrphan
    cases stored : f.orphans[hash]? with
    | none =>
      rw [exact.entries]
      by_cases same : hash = other
      · rw [if_pos same, ← same, stored]
      · rw [if_neg same]
    | some txn =>
      dsimp only
      rw [count_erased]
      by_cases same : hash = other
      · rw [if_pos same, Option.elim_none]
        split
        · rfl
        · rename_i apart
          rw [exact.entries, ← same, stored, Option.elim_some, List.countP_eq_zero]
          intro input member own
          exact apart ⟨same.symm, List.mem_map.mpr ⟨input, member, of_decide_eq_true own⟩⟩
      · rw [if_neg same, if_neg fun both => same both.1.symm, exact.entries]

theorem Exact.foldl_eraseOrphan (exact : Exact cfg f) (hashes : List Uint256) :
    Exact cfg (hashes.foldl TransactionFilter.eraseOrphan f) := by
  induction hashes generalizing f with
  | nil => exact exact
  | cons hash hashes ih => exact ih (exact.eraseOrphan hash)

theorem lookup_foldl_eraseOrphan (hashes : List Uint256) (other : Uint256) :
    (hashes.foldl TransactionFilter.eraseOrphan f).orphans[other]? =
      if other ∈ hashes then none else f.orphans[other]? := by
  induction hashes generalizing f with
  | nil => simp
  | cons hash hashes ih =>
    rw [List.foldl_cons, ih, lookup_eraseOrphan]
    by_cases later : other ∈ hashes
    · rw [if_pos later, if_pos (List.mem_cons_of_mem _ later)]
    · rw [if_neg later]
      by_cases same : hash = other
      · rw [if_pos same, if_pos (same ▸ List.mem_cons_self)]
      · rw [if_neg same, if_neg fun member => (List.mem_cons.mp member).elim (fun own => same own.symm) later]

theorem foldl_eraseOrphan_chain (hashes : List Uint256) :
    (hashes.foldl TransactionFilter.eraseOrphan f).chain = f.chain := by
  induction hashes generalizing f with
  | nil => rfl
  | cons hash hashes ih =>
    rw [List.foldl_cons, ih]
    unfold TransactionFilter.eraseOrphan
    split <;> rfl

/-- The loop over the work queue leaves the orphans as they are. -/
theorem workLoop_same {fuel : Nat} {queue done : List Uint256}
    (run : workLoop cfg listeners clock peers fuel queue f = some (done, f')) :
    f'.orphans = f.orphans ∧ f'.orphansByPrev = f.orphansByPrev := by
  induction fuel generalizing f queue done with
  | zero =>
    cases queue with
    | nil =>
      obtain ⟨-, rfl⟩ := Prod.mk.inj (Option.some.inj run)
      exact ⟨rfl, rfl⟩
    | cons hash queue => cases run
  | succ fuel ih =>
    cases queue with
    | nil =>
      obtain ⟨-, rfl⟩ := Prod.mk.inj (Option.some.inj run)
      exact ⟨rfl, rfl⟩
    | cons hash queue =>
      obtain ⟨⟨added, f₁⟩, adopted, run⟩ := Option.bind_eq_some_iff.mp run
      obtain ⟨⟨rest, f₂⟩, looped, run⟩ := Option.bind_eq_some_iff.mp run
      obtain ⟨-, rfl⟩ := Prod.mk.inj (Option.some.inj run)
      obtain ⟨-, orphans, entries⟩ := adopt_bound adopted fun txn member => mem_orphansOf member
      obtain ⟨orphans', entries'⟩ := ih looped
      exact ⟨orphans'.trans orphans, entries'.trans entries⟩

/-- The orphans of a hash are those with an input that refers to it. -/
theorem Exact.mem_orphansOf (exact : Exact cfg f) {hash prev : Uint256} {txn : Transaction}
    (stored : f.orphans[hash]? = some txn) {input : Input} (member : input ∈ txn.inputs)
    (refers : input.prevout.hash = prev) : txn ∈ f.orphansOf prev := by
  have counted := exact.entries prev hash
  rw [stored, Option.elim_some] at counted
  have positive : 0 < f.orphansByPrev.count (prev, hash) := by
    rw [counted, List.countP_pos_iff]
    exact ⟨input, member, decide_eq_true refers⟩
  exact List.mem_filterMap.mpr ⟨(prev, hash), List.mem_filter.mpr ⟨List.count_pos_iff.mp positive,
    decide_eq_true rfl⟩, stored⟩

/-- `process` keeps the entries exact. -/
theorem exact_process (exact : Exact cfg f) {received : Received} (run : process cfg listeners received f = some f') :
    Exact cfg f' := by
  unfold process at run
  dsimp only at run
  split at run
  · obtain rfl := Option.some.inj run
    exact exact.of_same rfl rfl
  · rcases claim_cases received.txn f.chain with ⟨spents, fee, tried, claimed⟩ | ⟨fault, refused⟩
    · rw [claimed] at run
      obtain ⟨⟨queue, f₁⟩, looped, run⟩ := Option.bind_eq_some_iff.mp run
      obtain rfl := Option.some.inj run
      have same := workLoop_same looped
      exact (exact.of_same same.1 same.2).foldl_eraseOrphan queue
    · rw [refused] at run
      cases fault with
      | undefined => cases run
      | reject what =>
        obtain rfl := Option.some.inj run
        exact Exact.addOrphan (exact.of_same rfl rfl) received.txn
      | error what =>
        obtain rfl := Option.some.inj run
        exact exact.of_same rfl rfl

/-! ### What the loops claim -/

/-- No orphan could be claimed. -/
def Settled (cfg : Config) (clock : Clock) (f : TransactionFilter) : Prop :=
  ∀ (hash : Uint256) txn, f.orphans[hash]? = some txn → ∀ result, tryClaim cfg clock f.chain txn true ≠ .ok result

/-- Every orphan that could be claimed is among those of the list, or has a parent in the queue. -/
def Waiting (cfg : Config) (clock : Clock) (queue : List Uint256) (txns : List Transaction)
    (f : TransactionFilter) : Prop :=
  ∀ (hash : Uint256) txn, f.orphans[hash]? = some txn → ∀ result,
    tryClaim cfg clock f.chain txn true = .ok result → txn ∈ txns ∨ ∃ input ∈ txn.inputs, input.prevout.hash ∈ queue

theorem waiting_nil : Waiting cfg clock [] [] f ↔ Settled cfg clock f := by
  simp [Waiting, Settled]

theorem not_accepted {s : BlockChain} {txn : Transaction} {fault : Fault}
    (refused : BlockChain.claim cfg clock txn true s = .error fault s) (result : Finset Coin × Int) :
    tryClaim cfg clock s txn true ≠ .ok result := by
  intro accepted
  have claimed : BlockChain.claim cfg clock txn true s =
      .ok () (BlockChain.claimed cfg clock s txn result.1 result.2) := by
    unfold BlockChain.claim
    rw [bind_get, accepted]
    rfl
  rw [claimed] at refused
  cases refused

/-- A claim puts its hash into the queue. -/
theorem Waiting.claimed (noNames : cfg.chain.adhereNames = false) {queue : List Uint256} {parent : Transaction}
    {txns : List Transaction} (waiting : Waiting cfg clock queue (parent :: txns) f) {spents : Finset Coin}
    {fee : Int} (same : f'.orphans = f.orphans) (chain : f'.chain = claimed cfg clock f.chain parent spents fee) :
    Waiting cfg clock (queue ++ [cfg.prim.txnHash parent]) txns f' := by
  intro hash txn stored result accepted
  rw [same] at stored
  rw [chain] at accepted
  by_cases child : ∃ input ∈ txn.inputs, input.prevout.hash = cfg.prim.txnHash parent
  · obtain ⟨input, member, own⟩ := child
    exact .inr ⟨input, member, List.mem_append_right _ (List.mem_singleton.mpr own)⟩
  · have before := tryClaim_before noNames (fun input member own => child ⟨input, member, own⟩) accepted
    rcases waiting hash txn stored result before with listed | ⟨input, member, queued⟩
    · rcases List.mem_cons.mp listed with rfl | later
      · -- the transaction itself is pooled now
        obtain ⟨spents, fee⟩ := result
        have fresh := (tryClaim_ok accepted).fresh
        rw [haveHash_claimed] at fresh
        simp at fresh
      · exact .inl later
    · exact .inr ⟨input, member, List.mem_append_left _ queued⟩

/-- The loop over the orphans of a hash. -/
theorem Waiting.adopt (noNames : cfg.chain.adhereNames = false) {queue added : List Uint256}
    {txns : List Transaction} (waiting : Waiting cfg clock queue txns f)
    (run : adopt cfg listeners clock peers txns f = some (added, f')) : Waiting cfg clock (queue ++ added) [] f' := by
  induction txns generalizing f queue added with
  | nil =>
    obtain ⟨rfl, rfl⟩ := Prod.mk.inj (Option.some.inj run)
    rw [List.append_nil]
    exact waiting
  | cons txn txns ih =>
    unfold TransactionFilter.adopt at run
    rcases claim_cases txn f.chain with ⟨spents, fee, tried, claimed⟩ | ⟨fault, refused⟩
    · rw [claimed] at run
      obtain ⟨⟨rest, f₁⟩, looped, run⟩ := Option.bind_eq_some_iff.mp run
      obtain ⟨rfl, rfl⟩ := Prod.mk.inj (Option.some.inj run)
      rw [List.append_cons]
      refine ih ?_ looped
      exact waiting.claimed noNames rfl rfl
    · have next : Waiting cfg clock queue txns f := by
        intro hash other stored result accepted
        rcases waiting hash other stored result accepted with listed | queued
        · rcases List.mem_cons.mp listed with rfl | later
          · exact absurd accepted (not_accepted refused result)
          · exact .inl later
        · exact .inr queued
      rw [refused] at run
      cases fault with
      | undefined => cases run
      | reject what => exact ih next run
      | error what => exact ih next run

/-- **The loop over the work queue**: in the end no orphan could be claimed. -/
theorem Waiting.workLoop (noNames : cfg.chain.adhereNames = false) (exact : Exact cfg f) {fuel : Nat}
    {queue done : List Uint256} (waiting : Waiting cfg clock queue [] f)
    (run : workLoop cfg listeners clock peers fuel queue f = some (done, f')) : Settled cfg clock f' := by
  induction fuel generalizing f queue done with
  | zero =>
    cases queue with
    | nil =>
      obtain ⟨-, rfl⟩ := Prod.mk.inj (Option.some.inj run)
      exact waiting_nil.mp waiting
    | cons hash queue => cases run
  | succ fuel ih =>
    cases queue with
    | nil =>
      obtain ⟨-, rfl⟩ := Prod.mk.inj (Option.some.inj run)
      exact waiting_nil.mp waiting
    | cons hash queue =>
      obtain ⟨⟨added, f₁⟩, adopted, run⟩ := Option.bind_eq_some_iff.mp run
      obtain ⟨⟨rest, f₂⟩, looped, run⟩ := Option.bind_eq_some_iff.mp run
      obtain ⟨-, rfl⟩ := Prod.mk.inj (Option.some.inj run)
      have next : Waiting cfg clock queue (f.orphansOf hash) f := by
        intro other txn stored result accepted
        rcases waiting other txn stored result accepted with listed | ⟨input, member, queued⟩
        · cases listed
        · rcases List.mem_cons.mp queued with own | later
          · exact .inl (exact.mem_orphansOf stored member own)
          · exact .inr ⟨input, member, later⟩
      have same := (adopt_bound adopted fun txn member => mem_orphansOf member).2
      exact ih (exact.of_same same.1 same.2) (next.adopt noNames adopted) looped

/-! ### Which orphans are claimed -/

theorem adopt_claims {txns : List Transaction} {added : List Uint256}
    (run : adopt cfg listeners clock peers txns f = some (added, f')) (hash : Uint256) :
    f'.chain.claims.haveHash hash = true ↔ f.chain.claims.haveHash hash = true ∨ hash ∈ added := by
  induction txns generalizing f added with
  | nil =>
    obtain ⟨rfl, rfl⟩ := Prod.mk.inj (Option.some.inj run)
    simp
  | cons txn txns ih =>
    unfold adopt at run
    rcases claim_cases txn f.chain with ⟨spents, fee, tried, claimed⟩ | ⟨fault, refused⟩
    · rw [claimed] at run
      obtain ⟨⟨rest, f₁⟩, looped, run⟩ := Option.bind_eq_some_iff.mp run
      obtain ⟨rfl, rfl⟩ := Prod.mk.inj (Option.some.inj run)
      rw [ih looped, announce_chain, haveHash_claimed, Bool.or_eq_true, decide_eq_true_eq, List.mem_cons, or_assoc,
        eq_comm (a := hash)]
    · rw [refused] at run
      cases fault with
      | undefined => cases run
      | reject what => exact ih run
      | error what => exact ih run

/-- What is claimed after the loop was claimed before it or is in the queue in the end. -/
theorem workLoop_claims {fuel : Nat} {queue done : List Uint256}
    (run : workLoop cfg listeners clock peers fuel queue f = some (done, f'))
    (pooled : ∀ hash ∈ queue, f.chain.claims.haveHash hash = true) :
    (∀ hash ∈ queue, hash ∈ done) ∧ ∀ hash, f'.chain.claims.haveHash hash = true ↔
      f.chain.claims.haveHash hash = true ∨ hash ∈ done := by
  induction fuel generalizing f queue done with
  | zero =>
    cases queue with
    | nil =>
      obtain ⟨rfl, rfl⟩ := Prod.mk.inj (Option.some.inj run)
      exact ⟨nofun, fun hash => by simp⟩
    | cons hash queue => cases run
  | succ fuel ih =>
    cases queue with
    | nil =>
      obtain ⟨rfl, rfl⟩ := Prod.mk.inj (Option.some.inj run)
      exact ⟨nofun, fun hash => by simp⟩
    | cons hash queue =>
      obtain ⟨⟨added, f₁⟩, adopted, run⟩ := Option.bind_eq_some_iff.mp run
      obtain ⟨⟨rest, f₂⟩, looped, run⟩ := Option.bind_eq_some_iff.mp run
      obtain ⟨rfl, rfl⟩ := Prod.mk.inj (Option.some.inj run)
      have claims := adopt_claims adopted
      obtain ⟨inside, after⟩ := ih looped fun other member => by
        rw [claims]
        exact (List.mem_append.mp member).imp_left fun queued => pooled other (List.mem_cons_of_mem _ queued)
      refine ⟨fun other member => ?_, fun other => ?_⟩
      · rcases List.mem_cons.mp member with rfl | later
        · exact List.mem_cons_self
        · exact List.mem_cons_of_mem _ (inside other (List.mem_append_left _ later))
      · rw [after, claims, or_assoc, List.mem_cons]
        constructor
        · rintro (before | new | later)
          · exact .inl before
          · exact .inr (.inr (inside other (List.mem_append_right _ new)))
          · exact .inr (.inr later)
        · rintro (before | rfl | later)
          · exact .inl before
          · exact .inl (pooled other List.mem_cons_self)
          · exact .inr (.inr later)

/-- An orphan that is gone was claimed, and what was claimed in between is no orphan. -/
structure Adopts (f f' : TransactionFilter) : Prop where
  claimed : ∀ (hash : Uint256) txn, f.orphans[hash]? = some txn →
    f'.orphans[hash]? = some txn ∨ f'.orphans[hash]? = none ∧ f'.chain.claims.haveHash hash = true
  removed : ∀ hash : Uint256, f.chain.claims.haveHash hash = false → f'.chain.claims.haveHash hash = true →
    f'.orphans[hash]? = none

/-- A call that claims nothing and keeps the orphans. -/
theorem Adopts.of_same (orphans : ∀ (hash : Uint256) txn, f.orphans[hash]? = some txn → f'.orphans[hash]? = some txn)
    (chain : f'.chain = f.chain) : Adopts f f' :=
  ⟨fun hash txn stored => .inl (orphans hash txn stored), fun hash fresh pooled => by
    rw [chain, fresh] at pooled
    cases pooled⟩

theorem Settled.addOrphan (settled : Settled cfg clock f) {txn : Transaction} {fault : Fault}
    (refused : BlockChain.claim cfg clock txn true f.chain = .error fault f.chain) :
    Settled cfg clock (f.addOrphan cfg txn) := by
  intro hash other stored result accepted
  unfold TransactionFilter.addOrphan at stored accepted
  dsimp only at stored accepted
  split at stored
  · rename_i old
    rw [if_pos old] at accepted
    exact settled hash other stored result accepted
  · rename_i new
    rw [if_neg new] at accepted
    rcases Map.lookup_of_insert stored with ⟨-, rfl⟩ | old
    · exact not_accepted refused result accepted
    · exact settled hash other old result accepted

theorem Adopts.addOrphan (txn : Transaction) : Adopts f (f.addOrphan cfg txn) := by
  unfold TransactionFilter.addOrphan
  dsimp only
  split
  · exact .of_same (fun _ _ stored => stored) rfl
  · rename_i new
    refine .of_same (fun hash other stored => ?_) rfl
    rw [Map.lookup_insert_of_ne _ _ fun same => new ?_]
    · exact stored
    · rw [same, stored]
      rfl

/-- What is erased in the end is what was claimed. -/
theorem Adopts.erased {queue : List Uint256} {f₁ : TransactionFilter} (orphans : f₁.orphans = f.orphans)
    (claims : ∀ hash, f₁.chain.claims.haveHash hash = true ↔ f.chain.claims.haveHash hash = true ∨ hash ∈ queue) :
    Adopts f (queue.foldl TransactionFilter.eraseOrphan f₁) := by
  constructor
  · intro hash txn stored
    rw [lookup_foldl_eraseOrphan, foldl_eraseOrphan_chain, orphans]
    by_cases member : hash ∈ queue
    · rw [if_pos member]
      exact .inr ⟨rfl, (claims hash).mpr (.inr member)⟩
    · rw [if_neg member]
      exact .inl stored
  · intro hash fresh pooled
    rw [foldl_eraseOrphan_chain, claims, fresh] at pooled
    rcases pooled with old | member
    · cases old
    · rw [lookup_foldl_eraseOrphan, if_pos member]

/-- `process` leaves no orphan that could be claimed, if there was none. -/
theorem process_closed (noNames : cfg.chain.adhereNames = false) (exact : Exact cfg f) {received : Received}
    (settled : Settled cfg received.clock f) (run : process cfg listeners received f = some f') :
    Settled cfg received.clock f' ∧ Adopts f f' := by
  unfold process at run
  dsimp only at run
  split at run
  · obtain rfl := Option.some.inj run
    exact ⟨settled, .of_same (fun _ _ stored => stored) rfl⟩
  · rcases claim_cases received.txn f.chain with ⟨spents, fee, tried, accepted⟩ | ⟨fault, refused⟩
    · rw [accepted] at run
      obtain ⟨⟨queue, f₁⟩, looped, run⟩ := Option.bind_eq_some_iff.mp run
      obtain rfl := Option.some.inj run
      have waiting : Waiting cfg received.clock [] [received.txn] f :=
        fun hash txn stored result accepted => absurd accepted (settled hash txn stored result)
      have after : Settled cfg received.clock f₁ := by
        refine Waiting.workLoop noNames ?_ ?_ looped
        · exact exact.of_same rfl rfl
        · exact waiting.claimed noNames rfl rfl
      have orphans : f₁.orphans = f.orphans := (workLoop_same looped).1
      obtain ⟨inside, claims⟩ := workLoop_claims looped fun hash member => by
        rw [announce_chain, haveHash_claimed, List.mem_singleton.mp member]
        simp
      refine ⟨fun hash txn stored => ?_, .erased orphans fun hash => ?_⟩
      · rw [lookup_foldl_eraseOrphan] at stored
        rw [foldl_eraseOrphan_chain]
        split at stored
        · cases stored
        · exact after hash txn stored
      · have first := inside (cfg.prim.txnHash received.txn) List.mem_cons_self
        rw [claims, announce_chain, haveHash_claimed, Bool.or_eq_true, decide_eq_true_eq, or_assoc]
        exact or_congr_right ⟨fun either => either.elim (fun own => own ▸ first) id, .inr⟩
    · rw [refused] at run
      cases fault with
      | undefined => cases run
      | reject what =>
        obtain rfl := Option.some.inj run
        exact ⟨settled.addOrphan refused, .addOrphan received.txn⟩
      | error what =>
        obtain rfl := Option.some.inj run
        exact ⟨settled, .of_same (fun _ _ stored => stored) rfl⟩

/-! ### Runs -/

/-- A transaction is received while the block chain is in some state. -/
def receiveAt (cfg : Config) (listeners : List Nat) (now : Option TransactionFilter)
    (call : BlockChain × Received) : Option TransactionFilter :=
  now.bind fun f => process cfg listeners call.2 { f with chain := call.1 }

/-- **The store of orphans is exact and closed**, whatever else happens to the block chain between the calls. -/
theorem orphans_closed (cfg : Config) (listeners : List Nat) (chain : BlockChain)
    (calls : List (BlockChain × Received)) :
    AlongStates (receiveAt cfg listeners)
      (fun now => ∀ f ∈ now, Exact cfg f ∧
        (cfg.chain.adhereNames = false → ∀ (call : BlockChain × Received),
          Settled cfg call.2.clock { f with chain := call.1 } →
            ∀ f' ∈ receiveAt cfg listeners (some f) call,
              Settled cfg call.2.clock f' ∧ Adopts { f with chain := call.1 } f'))
      (some (new chain)) calls := by
  have each : ∀ (now : Option TransactionFilter) (call : BlockChain × Received), (∀ f ∈ now, Exact cfg f) → True →
      ∀ f' ∈ receiveAt cfg listeners now call, Exact cfg f' := by
    intro now call exact _ f' is
    obtain ⟨f, here, run⟩ := Option.bind_eq_some_iff.mp is
    have same : Exact cfg { f with chain := call.1 } := (exact f here).of_same rfl rfl
    exact exact_process same run
  have along : AlongSteps (receiveAt cfg listeners) (fun _ _ => True) (some (new chain)) calls :=
    AlongSteps.of_forall fun _ _ _ => trivial
  refine AlongStates.of_inv (fun now exact f here => ⟨exact f here, ?_⟩) each ?_ along
  · rintro f ⟨⟩
    exact Exact.new chain
  · intro noNames call settled f' run
    have same : Exact cfg { f with chain := call.1 } := (exact f here).of_same rfl rfl
    exact process_closed noNames same settled run

open Libcoin.Small in
/-- Three transactions in the order that makes orphans of the first two, one of them with two inputs from one
parent: the third has both of them claimed. -/
theorem orphans_closed_adopted : ∃ s f g, created 1 0 = .ok s ∧
    Run.final (receiveAt (config 1 0) []) (some (new s)) [(s, ⟨Small.clock, [], spend 12 [(11, 0), (11, 1)] [40]⟩),
      (s, ⟨Small.clock, [], spend 11 [(10, 0)] [20, 20]⟩)] = some f ∧
    f.orphansByPrev = [(11, 12), (11, 12), (10, 11)] ∧
    receiveAt (config 1 0) [] (some f) (s, ⟨Small.clock, [], spend 10 [(1, 0)] [45]⟩) = some g ∧
    g.chain.claims.confirmations.toList.map Prod.fst = [10, 11, 12] ∧
    Settled (config 1 0) Small.clock g ∧ Adopts { f with chain := s } g := by
  have run : (do
      let s ← (created 1 0).toOption
      let f ← Run.final (receiveAt (config 1 0) []) (some (new s))
        [(s, ⟨Small.clock, [], spend 12 [(11, 0), (11, 1)] [40]⟩), (s, ⟨Small.clock, [], spend 11 [(10, 0)] [20, 20]⟩)]
      let g ← receiveAt (config 1 0) [] (some f) (s, ⟨Small.clock, [], spend 10 [(1, 0)] [45]⟩)
      return decide (f.orphansByPrev = [(11, 12), (11, 12), (10, 11)] ∧
        g.chain.claims.confirmations.toList.map Prod.fst = [10, 11, 12] ∧
        ∀ entry ∈ f.orphans.toList, (tryClaim (config 1 0) Small.clock s entry.2 true).toOption = none)) =
          some true := by decide +kernel
  obtain ⟨s, done, run⟩ := Option.bind_eq_some_iff.mp run
  obtain ⟨f, received, run⟩ := Option.bind_eq_some_iff.mp run
  obtain ⟨g, adopted, run⟩ := Option.bind_eq_some_iff.mp run
  obtain ⟨orphans, claimed, refused⟩ := of_decide_eq_true (Option.some.inj run)
  obtain ⟨-, closed⟩ := (orphans_closed (config 1 0) [] s _).final f received
  have settled : Settled (config 1 0) Small.clock { f with chain := s } := by
    intro hash txn stored result accepted
    have none_yet := refused (hash, txn) (Std.ExtTreeMap.mem_toList_iff_getElem?_eq_some.mpr stored)
    rw [accepted] at none_yet
    cases none_yet
  obtain ⟨settled', adopts⟩ := closed rfl (s, ⟨Small.clock, [], spend 10 [(1, 0)] [45]⟩) settled g adopted
  exact ⟨s, f, g, toOption_eq_some.mp done, received, orphans, adopted, claimed, settled', adopts⟩

end TransactionFilter

end Libcoin
