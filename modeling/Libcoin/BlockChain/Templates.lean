/-
What a miner gets from the pool: in which runs the selection can be mined, and in which its fee is the sum of the fees
of its transactions.
-/

import Libcoin.BlockChain.Runs
import Libcoin.Pool.Families

namespace Libcoin

open Exec
open Run (AlongStates AlongSteps)

namespace BlockChain

section Minable

variable {cfg : Config} {s : BlockChain}

/-- **The selection is a minable sequence** in every run that claims transactions before those that
spend them. -/
theorem transactions_minable {ops : List ChainOp} (start : s.claims = Claims.empty)
    (along : AlongSteps (chainStep cfg) (ClaimsMeet (Claims.Firstborn cfg.prim) cfg) s ops) :
    AlongStates (chainStep cfg) (fun s => Claims.Minable cfg.prim s.claims) s ops := by
  have first : Claims.Sized cfg.prim s.claims := by
    rw [start]
    exact ⟨Claims.family_empty _, Claims.covered_empty _ _⟩
  refine AlongStates.of_inv (fun s sized => Claims.Sized.minable sized) ?_ first along
  exact fun s op sized met => chainStep_inv (fun claims hash sized => sized.erase hash)
    (fun claims now txn spents fee sized fresh met => sized.insert fresh met) s op sized met

end Minable

open Libcoin.Small in
/-- A transaction is confirmed, another one spends it, and a reorganisation puts the first one back: it comes
last in the selection. -/
theorem transactions_order : ∃ s, created 1 0 = .ok s ∧
    ¬ AlongStates (chainStep (config 1 0)) (fun s => Claims.Minable prim s.claims) s
      [.append clock (mined 2 1 [coinbase 2 [50], spend 10 [(1, 0)] [45]]),
        .claim clock (spend 11 [(10, 0)] [30]) true,
        .append clock (mined 3 1 [coinbase 3 [50]]), .append clock (mined 4 3 [coinbase 4 [50]])] := by
  have run : (do
      let s ← (created 1 0).toOption
      let s := Run.final (chainStep (config 1 0)) s
        [.append clock (mined 2 1 [coinbase 2 [50], spend 10 [(1, 0)] [45]]),
          .claim clock (spend 11 [(10, 0)] [30]) true,
          .append clock (mined 3 1 [coinbase 3 [50]]), .append clock (mined 4 3 [coinbase 4 [50]])]
      let chosen ← s.claims.transactions prim 1000
      let parent ← s.claims.confirmations[(10 : Uint256)]?
      return (chosen.1, parent.txn)) =
        some ([spend 11 [(10, 0)] [30], spend 10 [(1, 0)] [45]], spend 10 [(1, 0)] [45]) := by decide +kernel
  obtain ⟨s, created, run⟩ := Option.bind_eq_some_iff.mp run
  obtain ⟨⟨txns, fee⟩, chosen, run⟩ := Option.bind_eq_some_iff.mp run
  obtain ⟨parent, found, run⟩ := Option.bind_eq_some_iff.mp run
  obtain ⟨rfl, pooled⟩ := Prod.mk.inj (Option.some.inj run)
  refine ⟨s, toOption_eq_some.mp created, fun along => ?_⟩
  obtain ⟨txns', fee', chosen', -, ordered, -⟩ := along.final 1000 (by decide)
  obtain ⟨rfl, -⟩ := Prod.mk.inj (Option.some.inj (chosen.symm.trans chosen'))
  have earlier := ordered [] _ _ rfl _ List.mem_cons_self parent found (by rw [pooled]; decide)
  cases earlier

open Libcoin.Small in
/-- The two claims in their order. -/
theorem transactions_minable_small : ∃ s, created 1 0 = .ok s ∧
    AlongStates (chainStep (config 1 0)) (fun s => Claims.Minable prim s.claims) s
      [.claim clock (spend 10 [(1, 0)] [45]) true, .claim clock (spend 11 [(10, 0)] [30]) true] := by
  have run : (do
      let s ← (created 1 0).toOption
      return (decide (Claims.Firstborn prim s.claims (spend 10 [(1, 0)] [45])),
        decide (Claims.Firstborn prim
          (chainStep (config 1 0) s (.claim clock (spend 10 [(1, 0)] [45]) true)).claims
          (spend 11 [(10, 0)] [30])))) = some (true, true) := by decide +kernel
  obtain ⟨s, done, run⟩ := Option.bind_eq_some_iff.mp run
  have created := toOption_eq_some.mp done
  obtain ⟨first, second⟩ := Prod.mk.inj (Option.some.inj run)
  obtain ⟨tree, start, blk, ledger, locator, result, -, -, -, -, -, -, -, same⟩ := create_ok created
  refine ⟨s, created, transactions_minable (by rw [same]) ⟨?_, ?_, trivial⟩⟩
  · exact fun _ _ _ => of_decide_eq_true first
  · exact fun _ _ _ => of_decide_eq_true second

/-! ### The fee -/

/-- A call that changes the pool. -/
inductive PoolOp
  | claim (clock : Clock) (txn : Transaction) (verify : Bool)
  | erase (hash : Uint256)
  | purge (before : Int)

def PoolOp.toChainOp : PoolOp → ChainOp
  | .claim clock txn verify => .claim clock txn verify
  | .erase hash => .erase hash
  | .purge before => .purge before

/-- The fees of the transactions at the time when they were claimed. -/
def feesAfter (cfg : Config) (s : BlockChain) (fees : Map Uint256 Int) : PoolOp → Map Uint256 Int
  | .claim clock txn verify =>
    match tryClaim cfg clock s txn verify with
    | .ok _ => fees.insert (cfg.prim.txnHash txn) (ownFee cfg s txn)
    | .error _ => fees
  | .erase _ => fees
  | .purge _ => fees

/-- A call, with the fees that are known. -/
def poolStep (cfg : Config) (now : BlockChain × Map Uint256 Int) (op : PoolOp) :
    BlockChain × Map Uint256 Int :=
  (chainStep cfg now.1 op.toChainOp, feesAfter cfg now.1 now.2 op)

/-- A claim that is accepted is claimed before those that spend it, spends pooled transactions only where
they have no fee, and has sums of values in `int64_t`. -/
def FeesMeet (cfg : Config) (now : BlockChain × Map Uint256 Int) : PoolOp → Prop
  | .claim clock txn verify => ∀ spents fee, tryClaim cfg clock now.1 txn verify = .ok (spents, fee) →
      -2 ^ 63 ≤ ownFee cfg now.1 txn ∧
        Claims.FreeParents cfg.prim now.1.claims txn (ownFee cfg now.1 txn)
  | .erase _ => True
  | .purge _ => True

/-- The fee that `transactions` reports is the sum of the fees of what it returns. -/
def FeeOnce (cfg : Config) (now : BlockChain × Map Uint256 Int) : Prop :=
  ∀ reserve, ∃ txns fee, now.1.claims.transactions cfg.prim reserve = some (txns, fee) ∧
    fee = (txns.map fun txn => now.2.getD (cfg.prim.txnHash txn) 0).sum

section Fees

variable {cfg : Config}

/-- The pooled fees are those that are known. -/
structure FeesKnown (cfg : Config) (now : BlockChain × Map Uint256 Int) : Prop where
  free : Claims.FeeFree cfg.prim now.1.claims
  known : ∀ (hash : Uint256) (claim : Claim), now.1.claims.confirmations[hash]? = some claim →
    now.2[hash]? = some claim.fee

theorem FeesKnown.once {now : BlockChain × Map Uint256 Int} (fees : FeesKnown cfg now) : FeeOnce cfg now := by
  intro reserve
  obtain ⟨txns, done, pooled⟩ := fees.free.transactions reserve
  refine ⟨txns, _, done, congrArg List.sum (List.map_congr_left fun txn member => ?_)⟩
  obtain ⟨claim, found, -⟩ := pooled txn member
  rw [Claims.fieldOf_pooled _ found, Map.getD_lookup, fees.known _ _ found]
  rfl

theorem FeesKnown.erase {s : BlockChain} {fees : Map Uint256 Int} (known : FeesKnown cfg (s, fees))
    (hash : Uint256) : FeesKnown cfg ({ s with claims := s.claims.erase hash }, fees) :=
  ⟨known.free.erase hash, fun other claim found => known.known other claim (Claims.lookup_of_erase found).2⟩

theorem FeesKnown.eraseAll {s : BlockChain} {fees : Map Uint256 Int} (known : FeesKnown cfg (s, fees))
    (hashes : List Uint256) :
    FeesKnown cfg ({ s with claims := hashes.foldl Claims.erase s.claims }, fees) := by
  induction hashes generalizing s with
  | nil => exact known
  | cons hash hashes ih => exact ih (known.erase hash)

theorem FeesKnown.step (now : BlockChain × Map Uint256 Int) (op : PoolOp) (known : FeesKnown cfg now)
    (met : FeesMeet cfg now op) : FeesKnown cfg (poolStep cfg now op) := by
  obtain ⟨s, fees⟩ := now
  cases op with
  | claim clock txn verify =>
    show FeesKnown cfg (final (claim cfg clock txn verify s), feesAfter cfg s fees (.claim clock txn verify))
    rw [final_claim]
    unfold afterClaim feesAfter
    cases tried : tryClaim cfg clock s txn verify with
    | error fault =>
      simp only [tried]
      exact known
    | ok result =>
      obtain ⟨spents, fee⟩ := result
      have claimable := tryClaim_ok tried
      have range : -2 ^ 63 ≤ ownFee cfg s txn ∧ Claims.FreeParents cfg.prim s.claims txn (ownFee cfg s txn) :=
        met spents fee tried
      obtain ⟨low, enters⟩ := range
      have total_nonneg : 0 ≤ Map.total Claim.fee s.claims.confirmations := known.free.total_nonneg
      have fits := enters.fits
      have fee_eq : fee = ownFee cfg s txn := by
        rw [claimable.fee_eq]
        exact wrap64_of_range low (by omega)
      have fee_nonneg := claimable.fee_nonneg
      simp only [tried]
      rw [← fee_eq] at enters fits ⊢
      have free : Claims.FeeFree cfg.prim s.claims := known.free
      refine ⟨free.insert claimable.fresh fee_nonneg enters, fun hash claim found => ?_⟩
      rcases Claims.lookup_of_insert claimable.fresh found with ⟨rfl, rfl⟩ | ⟨apart, old⟩
      · show (fees.insert (cfg.prim.txnHash txn) fee)[cfg.prim.txnHash txn]? = _
        rw [Map.lookup_insert_self]
        have range : wrap64 fee = fee := wrap64_of_range (by omega) (by omega)
        exact congrArg some (Claims.newClaim_fee_free range enters.free).symm
      · show (fees.insert (cfg.prim.txnHash txn) fee)[hash]? = _
        rw [Map.lookup_insert_of_ne _ _ (Ne.symm apart)]
        exact known.known hash claim old
  | erase hash => exact known.erase hash
  | purge before => exact known.eraseAll _

/-- **The fee counts every fee once** in every run whose claims spend pooled transactions without a fee
alone. -/
theorem transactions_fees {s : BlockChain} {ops : List PoolOp} (start : s.claims = Claims.empty)
    (along : AlongSteps (poolStep cfg) (FeesMeet cfg) (s, ∅) ops) :
    AlongStates (poolStep cfg) (FeeOnce cfg) (s, ∅) ops := by
  have first : FeesKnown cfg (s, ∅) := by
    refine ⟨?_, ?_⟩
    · show Claims.FeeFree cfg.prim s.claims
      rw [start]
      exact Claims.feeFree_empty _
    · show ∀ (hash : Uint256) (claim : Claim), s.claims.confirmations[hash]? = some claim → _
      rw [start]
      nofun
  exact AlongStates.of_inv (fun _ known => known.once) FeesKnown.step first along

end Fees

open Libcoin.Small in
/-- A claim with a fee of 5, and one with a fee of 1 that spends it: the selection reports 11. -/
theorem transactions_fee_twice : ∃ s, created 1 0 = .ok s ∧
    ¬ AlongStates (poolStep (config 1 0)) (FeeOnce (config 1 0)) (s, ∅)
      [.claim clock (spend 10 [(1, 0)] [45]) true, .claim clock (spend 11 [(10, 0)] [44]) true] := by
  have run : (do
      let s ← (created 1 0).toOption
      let last := Run.final (poolStep (config 1 0)) (s, ∅)
        [.claim clock (spend 10 [(1, 0)] [45]) true, .claim clock (spend 11 [(10, 0)] [44]) true]
      let chosen ← last.1.claims.transactions prim 1000
      return (chosen.2, (chosen.1.map fun txn => last.2.getD (prim.txnHash txn) 0).sum)) =
        some (11, 6) := by decide +kernel
  obtain ⟨s, created, run⟩ := Option.bind_eq_some_iff.mp run
  obtain ⟨⟨txns, fee⟩, chosen, run⟩ := Option.bind_eq_some_iff.mp run
  obtain ⟨reported, sum⟩ := Prod.mk.inj (Option.some.inj run)
  refine ⟨s, toOption_eq_some.mp created, fun along => ?_⟩
  obtain ⟨txns', fee', chosen', once⟩ := along.final 1000
  obtain ⟨rfl, rfl⟩ := Prod.mk.inj (Option.some.inj (chosen.symm.trans chosen'))
  rw [show fee = 11 from reported] at once
  exact absurd (once.trans sum) (by decide)

open Libcoin.Small in
/-- A claim without a fee, and one that spends it. -/
theorem transactions_fees_small : ∃ s, created 1 0 = .ok s ∧
    AlongStates (poolStep (config 1 0)) (FeeOnce (config 1 0)) (s, ∅)
      [.claim clock (spend 10 [(1, 0)] [50]) true, .claim clock (spend 11 [(10, 0)] [44]) true] := by
  have run : (do
      let s ← (created 1 0).toOption
      let s' := (poolStep (config 1 0) (s, ∅) (.claim clock (spend 10 [(1, 0)] [50]) true)).1
      let first := ownFee (config 1 0) s (spend 10 [(1, 0)] [50])
      let second := ownFee (config 1 0) s' (spend 11 [(10, 0)] [44])
      return (decide (-2 ^ 63 ≤ first ∧ Claims.FreeParents prim s.claims (spend 10 [(1, 0)] [50]) first),
        decide (-2 ^ 63 ≤ second ∧ Claims.FreeParents prim s'.claims (spend 11 [(10, 0)] [44]) second))) =
          some (true, true) := by decide +kernel
  obtain ⟨s, done, run⟩ := Option.bind_eq_some_iff.mp run
  have created := toOption_eq_some.mp done
  obtain ⟨first, second⟩ := Prod.mk.inj (Option.some.inj run)
  obtain ⟨tree, start, blk, ledger, locator, result, -, -, -, -, -, -, -, same⟩ := create_ok created
  refine ⟨s, created, transactions_fees (by rw [same]) ⟨?_, ?_, trivial⟩⟩
  · exact fun _ _ _ => of_decide_eq_true first
  · exact fun _ _ _ => of_decide_eq_true second

end BlockChain

end Libcoin
