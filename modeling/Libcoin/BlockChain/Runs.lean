/-
Runs of a block chain: blocks are appended, transactions claimed, and claims erased and purged.

* `ChainOp` and `chainStep` are the calls and what each leaves, whether it returns or throws.
* `append_claims`: an append leaves the claims, or ends with `settle`.
* `chainStep_inv` is the step for an invariant of the pool: it has to be kept by erasing, and by the
  insertion of a claim that meets a condition.
-/

import Libcoin.BlockChain.Flow
import Libcoin.Library.Run
import Libcoin.Pool.Selection

namespace Libcoin

open Exec
open Run (AlongStates AlongSteps)

/-- A call that changes a block chain. -/
inductive ChainOp
  | append (clock : Clock) (block : Block)
  | claim (clock : Clock) (txn : Transaction) (verify : Bool)
  | erase (hash : Uint256)
  | purge (before : Int)

namespace BlockChain

/-- What a call leaves. -/
def chainStep (cfg : Config) (s : BlockChain) : ChainOp → BlockChain
  | .append clock block => final (append cfg clock block s)
  | .claim clock txn verify => final (claim cfg clock txn verify s)
  | .erase hash => { s with claims := s.claims.erase hash }
  | .purge before => { s with claims := s.claims.purge before }

variable {cfg : Config} {clock : Clock} {s : BlockChain}

theorem final_claim (txn : Transaction) (verify : Bool) :
    final (claim cfg clock txn verify s) = afterClaim cfg clock verify s txn := by
  unfold claim afterClaim
  rw [bind_get]
  cases tried : tryClaim cfg clock s txn verify with
  | error fault => rfl
  | ok result => rfl

/-- A new chain has the genesis block on its trunk and in its tables, and nothing else. -/
theorem create_ok {genesis : Block} {unspentIndex : Bool} {purgeDepth : Int}
    (run : create cfg clock genesis unspentIndex purgeDepth = .ok s) :
    ∃ (tree : BlockTree Uint256) (start : BlockChain) (blk : Blk) (ledger : Ledger) (locator : List Uint256)
        (result : Txns × Hashes),
      BlockTree.empty.assign [refOf cfg genesis genesis.prevBlock] = .ok tree ∧
      start.ledger = Ledger.empty unspentIndex ∧ start.tree = tree ∧ start.purgeDepth = 0 ∧
      start.branches = (∅ : Map Uint256 Block).insert (cfg.prim.headerHash genesis.toBlockHeader) genesis ∧
      tree.blkOf (cfg.prim.headerHash genesis.toBlockHeader) = .ok blk ∧
      attach (start.setting cfg clock) blk (start.branches.getD blk.hash Block.null) ∅ ∅
        (Ledger.empty unspentIndex) = .ok result ledger ∧
      s = { tree := tree, invalidTree := tree, branches := ∅, ledger := ledger, claims := Claims.empty
            purgeDepth := purgeDepth, bestLocator := locator, calls := [] } := by
  unfold create at run
  obtain ⟨tree, assigned, run⟩ := bind_eq_ok.mp run
  dsimp only at run
  split at run
  · cases run
  · rename_i result s₁ attached
    obtain ⟨blk, unconfirmed, confirmed⟩ := result
    obtain ⟨found, branches, ledger, rfl, -, attached⟩ := attachBlock_ok attached
    split at run
    · cases run
    · rename_i done s₂ located
      obtain ⟨locator, rfl⟩ := updateBestLocator_ok located
      obtain rfl := Except.ok.inj run
      exact ⟨tree, _, blk, ledger, locator, _, assigned, rfl, rfl, rfl, rfl, found, attached, rfl⟩

/-! ### Runs of `append` -/

/-- What a call leaves when it returns or throws. Nothing is known after behaviour that is not defined. -/
def outcome : EStateM.Result Fault BlockChain Unit → Option BlockChain
  | .ok _ s => some s
  | .error .undefined _ => none
  | .error _ s => some s

/-- A block is offered at some time. -/
def offer (cfg : Config) (now : Option BlockChain) (call : Clock × Block) : Option BlockChain :=
  now.bind fun s => outcome (append cfg call.1 call.2 s)

/-- An invariant of `append`, over the calls of a run. -/
theorem offers_run {inv holds : BlockChain → Prop} {meets : BlockChain → Clock × Block → Prop}
    (gives : ∀ s, inv s → holds s)
    (preserved : ∀ s call s', inv s → meets s call → outcome (append cfg call.1 call.2 s) = some s' → inv s')
    {calls : List (Clock × Block)} (start : inv s)
    (along : AlongSteps (offer cfg) (fun now call => ∀ s ∈ now, meets s call) (some s) calls) :
    AlongStates (offer cfg) (fun now => ∀ s ∈ now, holds s) (some s) calls := by
  have given : ∀ now : Option BlockChain, (∀ s ∈ now, inv s) → ∀ s ∈ now, holds s :=
    fun now known s is => gives s (known s is)
  have kept : ∀ (now : Option BlockChain) call, (∀ s ∈ now, inv s) → (∀ s ∈ now, meets s call) →
      ∀ s' ∈ offer cfg now call, inv s' := by
    intro now call known met s' is
    obtain ⟨s, here, done⟩ := Option.bind_eq_some_iff.mp is
    exact preserved s call s' (known s here) (met s here) done
  refine AlongStates.of_inv given kept ?_ along
  rintro s' ⟨⟩
  exact start

/-- An append that comes to its end with these transactions left unconfirmed and confirmed. -/
def Settles (cfg : Config) (clock : Clock) (s : BlockChain) (block : Block) (unconfirmed : Txns)
    (confirmed : Hashes) (s' : BlockChain) : Prop :=
  ∃ prev prevHeight invalidTree tree changes s₁,
    Accepted cfg s block prev prevHeight invalidTree tree changes ∧ changes.inserted ≠ [] ∧
    reorganize cfg clock block prevHeight changes (grown cfg block invalidTree tree s) =
      .ok (unconfirmed, confirmed) s₁ ∧
    notify cfg (cfg.prim.headerHash block.toBlockHeader) changes.inserted s₁ = .ok () s'

theorem Settles.claims {block : Block} {unconfirmed : Txns} {confirmed : Hashes} {s' : BlockChain}
    (settles : Settles cfg clock s block unconfirmed confirmed s') : s'.claims = s.claims := by
  obtain ⟨prev, prevHeight, invalidTree, tree, changes, s₁, -, -, done, told⟩ := settles
  have first : s₁.claims = (grown cfg block invalidTree tree s).claims :=
    (reorganize_keeps ignores_claims _ _ _).ok done
  exact ((notify_keeps (fun _ _ => rfl) (fun _ _ => rfl) _ _).ok told).trans first

/-- An append leaves the claims as they are, or ends with `settle`. -/
theorem append_claims (block : Block) :
    (final (append cfg clock block s)).claims = s.claims ∨
      ∃ unconfirmed confirmed s', Settles cfg clock s block unconfirmed confirmed s' ∧
        final (append cfg clock block s) = settle cfg clock unconfirmed confirmed s' := by
  have ends : Outcome cfg clock s block (append cfg clock block s) := append_outcome block
  have kept : ∀ {prevHeight changes invalidTree tree fault s₁},
      reorganize cfg clock block prevHeight changes (grown cfg block invalidTree tree s) = .error fault s₁ →
        s₁.claims = s.claims := by
    intro prevHeight changes invalidTree tree fault s₁ failed
    have same : s₁.claims = (grown cfg block invalidTree tree s).claims :=
      (reorganize_keeps ignores_claims _ _ _).error failed
    exact same
  generalize append cfg clock block s = result at ends ⊢
  cases ends with
  | refused => exact .inl rfl
  | forbidden => exact .inl rfl
  | branched => exact .inl rfl
  | committed accepted moved done told =>
    exact .inr ⟨_, _, _, ⟨_, _, _, _, _, _, accepted, moved, done, told⟩, rfl⟩
  | undone accepted moved defined failed =>
    have same := kept failed
    exact .inl same
  | stuck accepted moved defined failed =>
    have same := kept failed
    exact .inl same
  | undefined accepted moved failed => exact .inl (kept failed)

/-! ### A claim that is accepted -/

/-- The value that an input brings in. -/
def inputValue (cfg : Config) (s : BlockChain) (input : Input) : Int :=
  match claimedCoin cfg s input with
  | .ok coin => coin.output.value
  | .error _ => 0

theorem refuseIf_ok {bad : Bool} {fault : Fault} {done : Unit} :
    refuseIf bad fault = .ok done ↔ bad = false := by
  cases bad with
  | true => simp [refuseIf]
  | false => simp [refuseIf]

/-- The loop over the inputs: every coin is found and not yet spent, and the values are added up. -/
theorem claimInputs_ok {txn : Transaction} {verify : Bool} {inputs : List Input} {idx : Nat}
    {valueIn valueIn' : Int} {op op' : NameOperation} {spents spents' : Finset Coin}
    (run : claimInputs cfg clock s txn verify inputs idx valueIn op spents = .ok (valueIn', op', spents'))
    (wrapped : wrap64 valueIn = valueIn) :
    valueIn' = wrap64 (valueIn + (inputs.map (inputValue cfg s)).sum) ∧
      spents' = spents ∪ (inputs.map Input.prevout).toFinset ∧
      (∀ input ∈ inputs, input.prevout ∉ s.claims.spents ∧ input.prevout ∉ spents ∧
        ∃ coin, claimedCoin cfg s input = .ok coin) ∧
      (inputs.map Input.prevout).Nodup := by
  induction inputs generalizing idx valueIn op spents with
  | nil =>
    obtain ⟨rfl, same⟩ := Prod.mk.inj (Except.ok.inj run)
    obtain ⟨-, rfl⟩ := Prod.mk.inj same
    refine ⟨?_, ?_, nofun, List.nodup_nil⟩
    · simp [wrapped]
    · simp
  | cons input inputs ih =>
    unfold claimInputs at run
    obtain ⟨_, unspent, run⟩ := bind_eq_ok.mp run
    have unspent := refuseIf_ok.mp unspent
    obtain ⟨coin, found, run⟩ := bind_eq_ok.mp run
    obtain ⟨op'', -, run⟩ := bind_eq_ok.mp run
    obtain ⟨_, -, run⟩ := bind_eq_ok.mp run
    obtain ⟨_, -, run⟩ := bind_eq_ok.mp run
    obtain ⟨total, spents_eq, rest, distinct⟩ := ih run (wrap64_wrap64 _)
    have value : inputValue cfg s input = coin.output.value := by
      unfold inputValue
      rw [found]
    rw [Bool.or_eq_false_iff, decide_eq_false_iff_not] at unspent
    have not_pooled : input.prevout ∉ s.claims.spents := of_decide_eq_false unspent.1
    refine ⟨?_, ?_, ?_, ?_⟩
    · rw [total, wrap64_add, List.map_cons, List.sum_cons, value, add_assoc]
    · rw [spents_eq, List.map_cons, List.toFinset_cons, Finset.insert_eq, Finset.union_assoc]
    · intro other member
      rcases List.mem_cons.mp member with rfl | later
      · exact ⟨not_pooled, unspent.2, coin, found⟩
      · obtain ⟨one, two, three⟩ := rest other later
        exact ⟨one, fun inside => two (Finset.mem_union_left _ inside), three⟩
    · rw [List.map_cons]
      refine List.nodup_cons.mpr ⟨fun again => ?_, distinct⟩
      obtain ⟨other, later, same⟩ := List.mem_map.mp again
      refine (rest other later).2.1 (Finset.mem_union_right _ ?_)
      rw [same]
      exact Finset.mem_singleton_self _

/-- The fee of a transaction: what its inputs bring in, without what its outputs take. -/
def ownFee (cfg : Config) (s : BlockChain) (txn : Transaction) : Int :=
  (txn.inputs.map (inputValue cfg s)).sum - (txn.outputs.map Output.value).sum

theorem getValueOut_eq (txn : Transaction) :
    txn.getValueOut = wrap64 (txn.outputs.map Output.value).sum := by
  have fold : ∀ (outputs : List Output) (sum : Int), wrap64 sum = sum →
      outputs.foldl (fun valueOut output => wrap64 (valueOut + output.value)) sum =
        wrap64 (sum + (outputs.map Output.value).sum) := by
    intro outputs
    induction outputs with
    | nil =>
      intro sum wrapped
      simp [wrapped]
    | cons output outputs ih =>
      intro sum wrapped
      rw [List.foldl_cons, ih _ (wrap64_wrap64 _), wrap64_add, List.map_cons, List.sum_cons, add_assoc]
  exact (fold txn.outputs 0 (by decide)).trans (by rw [zero_add])

/-- What `try_claim` says of a transaction that it accepts. -/
structure Claimable (cfg : Config) (s : BlockChain) (txn : Transaction) (spents : Finset Coin) (fee : Int) :
    Prop where
  fresh : s.claims.haveHash (cfg.prim.txnHash txn) = false
  not_coinbase : txn.isCoinBase = false
  fee_eq : fee = wrap64 (ownFee cfg s txn)
  fee_nonneg : 0 ≤ fee
  spents_eq : spents = (txn.inputs.map Input.prevout).toFinset
  unspent : ∀ input ∈ txn.inputs, input.prevout ∉ s.claims.spents
  found : ∀ input ∈ txn.inputs, ∃ coin, claimedCoin cfg s input = .ok coin
  distinct : (txn.inputs.map Input.prevout).Nodup

theorem tryClaim_ok {txn : Transaction} {verify : Bool} {spents : Finset Coin} {fee : Int}
    (run : tryClaim cfg clock s txn verify = .ok (spents, fee)) : Claimable cfg s txn spents fee := by
  unfold tryClaim at run
  split at run
  · cases run
  · rename_i fresh
    split at run
    · cases run
    · rename_i ordinary
      have body := mapError_eq_ok.mp run
      unfold tryClaimBody at body
      obtain ⟨⟨valueIn, op, spents'⟩, inputs, body⟩ := bind_eq_ok.mp body
      obtain ⟨_, positive, body⟩ := bind_eq_ok.mp body
      obtain ⟨_, -, body⟩ := bind_eq_ok.mp body
      obtain ⟨rfl, rfl⟩ := Prod.mk.inj (Except.ok.inj body)
      obtain ⟨total, spents_eq, each, distinct⟩ := claimInputs_ok inputs (by decide)
      have positive := of_decide_eq_false (refuseIf_ok.mp positive)
      refine ⟨Bool.eq_false_of_not_eq_true fresh, Bool.eq_false_of_not_eq_true ordinary, ?_,
        not_lt.mp positive, ?_,
        fun input member => (each input member).1, fun input member => (each input member).2.2, distinct⟩
      · rw [total, getValueOut_eq, zero_add]
        unfold ownFee wrap64
        rw [Int.bmod_sub_bmod, Int.sub_bmod_bmod]
      · rw [spents_eq, Finset.empty_union]

/-! ### Invariants of the pool -/

/-- A claim that is accepted meets the condition. -/
def ClaimMeets (meets : Claims → Transaction → Prop) (cfg : Config) (clock : Clock) (verify : Bool)
    (s : BlockChain) (txn : Transaction) : Prop :=
  ∀ spents fee, tryClaim cfg clock s txn verify = .ok (spents, fee) → meets s.claims txn

/-- All claims that are accepted in a call meet the condition: the one that is made, or those of the loop
at the end of `append`. -/
def ClaimsMeet (meets : Claims → Transaction → Prop) (cfg : Config) (s : BlockChain) : ChainOp → Prop
  | .append clock block => ∀ unconfirmed confirmed s', Settles cfg clock s block unconfirmed confirmed s' →
      AlongSteps (afterClaim cfg clock false) (ClaimMeets meets cfg clock false) (cleared clock confirmed s')
        (unconfirmed.toList.map Prod.snd)
  | .claim clock txn verify => ClaimMeets meets cfg clock verify s txn
  | .erase _ => True
  | .purge _ => True

variable {inv : Claims → Prop} {meets : Claims → Transaction → Prop}

section Pool

variable (erase : ∀ claims hash, inv claims → inv (claims.erase hash))
  (insert : ∀ claims now txn spents fee, inv claims → claims.haveHash (cfg.prim.txnHash txn) = false →
    meets claims txn → inv (claims.insert cfg.prim now txn spents fee 0))

include erase in
theorem eraseAll_inv (hashes : List Uint256) {claims : Claims} (start : inv claims) :
    inv (hashes.foldl Claims.erase claims) := by
  induction hashes generalizing claims with
  | nil => exact start
  | cons hash hashes ih => exact ih (erase claims hash start)

include insert in
theorem afterClaim_inv {txn : Transaction} {verify : Bool} (start : inv s.claims)
    (met : ClaimMeets meets cfg clock verify s txn) : inv (afterClaim cfg clock verify s txn).claims := by
  unfold afterClaim
  cases tried : tryClaim cfg clock s txn verify with
  | error fault => exact start
  | ok result => exact insert _ _ _ _ _ start (tryClaim_ok tried).fresh (met _ _ tried)

include erase insert in
theorem chainStep_inv (s : BlockChain) (op : ChainOp) (start : inv s.claims)
    (met : ClaimsMeet meets cfg s op) : inv (chainStep cfg s op).claims := by
  cases op with
  | append clock block =>
    show inv (final (append cfg clock block s)).claims
    have ends : (final (append cfg clock block s)).claims = s.claims ∨ _ := append_claims block
    rcases ends with same | ⟨unconfirmed, confirmed, s', settles, ends⟩
    · rw [same]
      exact start
    · rw [ends]
      have cleared_inv : inv (cleared clock confirmed s').claims := by
        refine eraseAll_inv erase _ (eraseAll_inv erase _ ?_)
        rw [settles.claims]
        exact start
      have turn : ∀ (s : BlockChain) txn, inv s.claims → ClaimMeets meets cfg clock false s txn →
          inv (afterClaim cfg clock false s txn).claims := fun s txn holds met => afterClaim_inv insert holds met
      have loop : AlongStates (afterClaim cfg clock false) (fun s => inv s.claims) (cleared clock confirmed s')
          (unconfirmed.toList.map Prod.snd) :=
        AlongStates.of_inv (fun _ holds => holds) turn cleared_inv (met _ _ _ settles)
      have last := loop.final
      rw [Run.final_eq_foldl] at last
      exact last
  | claim clock txn verify =>
    show inv (final (claim cfg clock txn verify s)).claims
    rw [final_claim]
    exact afterClaim_inv insert start met
  | erase hash => exact erase s.claims hash start
  | purge before => exact eraseAll_inv erase _ start

end Pool

end BlockChain

end Libcoin
