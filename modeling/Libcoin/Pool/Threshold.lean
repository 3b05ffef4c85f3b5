/-
The fee threshold of the next block.

* `thresholdLoop` is the loop of `threshold`, with the claims that it looks at. Its iterator stays where it is.
* `reached` are the claims that a walk over the priorities would look at. `transactions_of_fits`: on a pool of
  independent claims that all fit, these are the claims of `transactions`, in the same order.
-/

import Libcoin.Pool.Selection
import Libcoin.Pool.Priorities

namespace Libcoin

namespace Claims

/-! ### The two walks -/

/-- The loop of `threshold`, with the hashes that it has looked up. A hash that is not in the map is undefined. -/
def thresholdLoop (confirmations : Map Uint256 Claim) :
    Nat → List Uint256 → Int → Int → List Uint256 → Option (Int × List Uint256)
  | 0, _, _, _, _ => none
  | _ + 1, [], fee, _, visited => some (fee, visited)
  | fuel + 1, hash :: hashes, fee, size, visited =>
    if size < maxBlockSize then
      match confirmations[hash]? with
      | none => none
      -- the body does not move the iterator
      | some claim =>
        thresholdLoop confirmations fuel (hash :: hashes) claim.fee (size + claim.size) (visited ++ [hash])
    else some (fee, visited)

/-- `threshold`: the fee, and the claims that were looked at. -/
def threshold (claims : Claims) (fuel : Nat) (headerAndCoinbase : Int) : Option (Int × List Uint256) :=
  thresholdLoop claims.confirmations fuel claims.priorities 0 headerAndCoinbase []

/-- The claims in the order of their priority, up to the one with which the size passes the limit. -/
def reached (confirmations : Map Uint256 Claim) : List Uint256 → Int → List Uint256
  | [], _ => []
  | hash :: hashes, size =>
    if size < maxBlockSize then hash :: reached confirmations hashes (size + fieldOf Claim.size confirmations hash)
    else []

/-- The fee of the last one of some claims, and nothing if there is none. -/
def lastFee (confirmations : Map Uint256 Claim) (hashes : List Uint256) : Int :=
  hashes.getLast?.elim 0 (fieldOf Claim.fee confirmations)

/-- All claims fit into a block. -/
def AllFit (claims : Claims) (headerAndCoinbase : Int) : Prop :=
  headerAndCoinbase + (claims.priorities.map (fieldOf Claim.size claims.confirmations)).sum < maxBlockSize

/-- The index has pooled claims, once each; their sizes are unsigned, and none depends on another. -/
structure Independent (prim : Primitives) (claims : Claims) : Prop where
  nodup : claims.priorities.Nodup
  pooled : ∀ hash ∈ claims.priorities, ∃ claim, claims.confirmations[hash]? = some claim
  keyed : ∀ (hash : Uint256) (claim : Claim), claims.confirmations[hash]? = some claim → prim.txnHash claim.txn = hash
  sizes : ∀ (hash : Uint256) (claim : Claim), claims.confirmations[hash]? = some claim → 0 ≤ claim.size
  alone : ∀ (hash : Uint256) (claim : Claim), claims.confirmations[hash]? = some claim → claim.depends = []

/-- A run of `threshold` walks over the claims: it looks at those that are reached, at each once, and has the fee of the
last one. If all fit this is the fee of the last claim that `transactions` returns. -/
structure Walks (prim : Primitives) (claims : Claims) (headerAndCoinbase fee : Int) (visited : List Uint256) :
    Prop where
  order : visited = reached claims.confirmations claims.priorities headerAndCoinbase
  once : visited.Nodup
  last : fee = lastFee claims.confirmations visited
  block : claims.AllFit headerAndCoinbase →
    ∃ txns total, claims.transactions prim headerAndCoinbase = some (txns, total) ∧
      fee = lastFee claims.confirmations (txns.map prim.txnHash)

/-- The walk ends at the first claim, as there is none or no room behind it. -/
def EndsAtFirst (claims : Claims) (headerAndCoinbase : Int) : Prop :=
  ∀ (hash : Uint256) (claim : Claim), claims.priorities.head? = some hash → claims.confirmations[hash]? = some claim →
    maxBlockSize ≤ headerAndCoinbase + claim.size

section Walk

variable {prim : Primitives} {claims : Claims} {confirmations : Map Uint256 Claim} {hash : Uint256}
  {hashes visited visited' : List Uint256} {fee fee' size : Int} {fuel : Nat}

/-- The loop only adds to what it has looked at. -/
theorem thresholdLoop_visited (run : thresholdLoop confirmations fuel hashes fee size visited = some (fee', visited')) :
    visited <+: visited' := by
  induction fuel generalizing fee size visited with
  | zero => cases run
  | succ fuel ih =>
    cases hashes with
    | nil =>
      cases run
      exact List.prefix_refl _
    | cons hash hashes =>
      unfold thresholdLoop at run
      split at run
      · split at run
        · cases run
        · exact (List.prefix_append _ _).trans (ih run)
      · cases run
        exact List.prefix_refl _

theorem thresholdLoop_done (late : maxBlockSize ≤ size) :
    thresholdLoop confirmations (fuel + 1) hashes fee size visited = some (fee, visited) := by
  cases hashes with
  | nil => rfl
  | cons hash hashes =>
    unfold thresholdLoop
    rw [if_neg (not_lt.mpr late)]

theorem thresholdLoop_turn {claim : Claim} (early : size < maxBlockSize) (stored : confirmations[hash]? = some claim) :
    thresholdLoop confirmations (fuel + 1) (hash :: hashes) fee size visited =
      thresholdLoop confirmations fuel (hash :: hashes) claim.fee (size + claim.size) (visited ++ [hash]) := by
  rw [thresholdLoop, if_pos early, stored]

/-- A loop with room behind the first claim looks at it twice, if it ends at all. -/
theorem thresholdLoop_twice {claim : Claim} (stored : confirmations[hash]? = some claim) (early : size < maxBlockSize)
    (room : size + claim.size < maxBlockSize)
    (run : thresholdLoop confirmations fuel (hash :: hashes) fee size [] = some (fee', visited')) :
    ¬visited'.Nodup := by
  intro once
  rcases fuel with _ | _ | fuel
  · cases run
  · rw [thresholdLoop_turn early stored] at run
    cases run
  · rw [thresholdLoop_turn early stored, thresholdLoop_turn room stored] at run
    have twice := once.sublist (thresholdLoop_visited run).sublist
    simp at twice

theorem reached_done (late : maxBlockSize ≤ size) : reached confirmations hashes size = [] := by
  cases hashes with
  | nil => rfl
  | cons hash hashes => rw [reached, if_neg (not_lt.mpr late)]

theorem Independent.sum_nonneg (independent : Independent prim claims) (hashes : List Uint256) :
    0 ≤ (hashes.map (fieldOf Claim.size claims.confirmations)).sum := by
  refine List.sum_nonneg fun size member => ?_
  obtain ⟨hash, -, rfl⟩ := List.mem_map.mp member
  unfold fieldOf
  cases stored : claims.confirmations[hash]? with
  | none => exact le_refl 0
  | some claim => exact independent.sizes hash claim stored

/-! ### All claims fit -/

/-- On independent claims that fit, the selection takes one after the other. -/
theorem selectAll_of_fits (independent : Independent prim claims) {hashes : List Uint256} {size total : Int}
    {selection : Selection} (nodup : hashes.Nodup)
    (pooled : ∀ hash ∈ hashes, ∃ claim, claims.confirmations[hash]? = some claim)
    (fresh : ∀ hash ∈ hashes, hash ∉ selection.inserted)
    (fits : size + (hashes.map (fieldOf Claim.size claims.confirmations)).sum < maxBlockSize) :
    ∃ txns total',
      selectAll prim claims.confirmations hashes size total selection = some (selection.txns ++ txns, total') ∧
        txns.map prim.txnHash = hashes := by
  induction hashes generalizing size total selection with
  | nil => exact ⟨[], total, by rw [selectAll, List.append_nil], rfl⟩
  | cons hash hashes ih =>
    obtain ⟨claim, stored⟩ := pooled hash List.mem_cons_self
    obtain ⟨absent, nodup⟩ := List.nodup_cons.mp nodup
    have own := independent.keyed hash claim stored
    rw [List.map_cons, List.sum_cons, fieldOf_pooled Claim.size stored] at fits
    have rest := independent.sum_nonneg hashes
    have inserts : insertClaim prim claims.confirmations (claims.confirmations.size + 1) claim selection =
        some (0 + claim.size, ⟨selection.txns ++ [claim.txn], selection.inserted ∪ {hash}⟩) := by
      rw [insertClaim, independent.alone hash claim stored, insertDepends, own]
      rfl
    obtain ⟨txns, total', run, hashed⟩ := @ih (size + (0 + claim.size)) (wrap64 (total + claim.fee))
      ⟨selection.txns ++ [claim.txn], selection.inserted ∪ {hash}⟩ nodup
      (fun other inside => pooled other (List.mem_cons_of_mem _ inside))
      (fun other inside => by
        rw [Finset.mem_union, Finset.mem_singleton, not_or]
        exact ⟨fresh other (List.mem_cons_of_mem _ inside), fun same => absent (same ▸ inside)⟩) (by omega)
    refine ⟨claim.txn :: txns, total', ?_, by rw [List.map_cons, own, hashed]⟩
    rw [selectAll, stored]
    dsimp only
    rw [if_neg (fresh hash List.mem_cons_self), if_neg (by omega), inserts]
    dsimp only [Option.bind_eq_bind, Option.bind_some]
    rw [run, List.append_assoc]
    rfl

/-- **If all of some independent claims fit, `transactions` returns all of them in the order of their priority.** -/
theorem transactions_of_fits (independent : Independent prim claims) {headerAndCoinbase : Int}
    (fits : claims.AllFit headerAndCoinbase) :
    ∃ txns total, claims.transactions prim headerAndCoinbase = some (txns, total) ∧
      txns.map prim.txnHash = claims.priorities :=
  selectAll_of_fits independent independent.nodup independent.pooled (fun hash _ => Finset.notMem_empty hash) fits

theorem reached_of_fits (independent : Independent prim claims) {hashes : List Uint256} {size : Int}
    (fits : size + (hashes.map (fieldOf Claim.size claims.confirmations)).sum < maxBlockSize) :
    reached claims.confirmations hashes size = hashes := by
  induction hashes generalizing size with
  | nil => rfl
  | cons hash hashes ih =>
    have all := independent.sum_nonneg (hash :: hashes)
    rw [List.map_cons, List.sum_cons] at fits all
    rw [reached, if_pos (by omega), ih (by omega)]

theorem reached_prefix {size : Int} : reached confirmations hashes size <+: hashes := by
  induction hashes generalizing size with
  | nil => exact List.prefix_refl _
  | cons hash hashes ih =>
    rw [reached]
    split
    · exact (List.prefix_cons_inj hash).mpr ih
    · exact List.nil_prefix

/-- The walk over the priorities is what the threshold should be. -/
theorem walks_reached (independent : Independent prim claims) (headerAndCoinbase : Int) :
    Walks prim claims headerAndCoinbase
      (lastFee claims.confirmations (reached claims.confirmations claims.priorities headerAndCoinbase))
      (reached claims.confirmations claims.priorities headerAndCoinbase) where
  order := rfl
  once := independent.nodup.sublist reached_prefix.sublist
  last := rfl
  block fits := by
    obtain ⟨txns, total, selected, hashed⟩ := transactions_of_fits independent fits
    exact ⟨txns, total, selected, by rw [hashed, reached_of_fits independent fits]⟩

/-- A loop that ends at the first claim makes the walk. -/
theorem threshold_of_endsAtFirst (independent : Independent prim claims) {headerAndCoinbase : Int}
    (ends : claims.EndsAtFirst headerAndCoinbase) :
    claims.threshold 2 headerAndCoinbase =
      some (lastFee claims.confirmations (reached claims.confirmations claims.priorities headerAndCoinbase),
        reached claims.confirmations claims.priorities headerAndCoinbase) := by
  unfold threshold
  unfold EndsAtFirst at ends
  have pooled := independent.pooled
  generalize claims.priorities = hashes at ends pooled ⊢
  cases hashes with
  | nil => rfl
  | cons hash hashes =>
    obtain ⟨claim, stored⟩ := pooled hash List.mem_cons_self
    have room := ends hash claim rfl stored
    by_cases late : maxBlockSize ≤ headerAndCoinbase
    · rw [thresholdLoop_done late, reached_done late]
      rfl
    · have early := not_le.mp late
      have size := fieldOf_pooled Claim.size stored
      rw [thresholdLoop_turn early stored, thresholdLoop_done room, reached, if_pos early, size, reached_done room]
      exact congrArg some (Prod.ext (fieldOf_pooled Claim.fee stored).symm rfl)

/-- **On independent claims the loop walks over the priorities exactly where the walk ends at the first claim.** -/
theorem threshold_walks_iff (independent : Independent prim claims) (headerAndCoinbase : Int) :
    (∃ fuel fee visited, claims.threshold fuel headerAndCoinbase = some (fee, visited) ∧
        Walks prim claims headerAndCoinbase fee visited) ↔ claims.EndsAtFirst headerAndCoinbase := by
  constructor
  · rintro ⟨fuel, fee, visited, run, walks⟩ hash claim head stored
    by_contra room
    have nonneg := independent.sizes hash claim stored
    obtain ⟨hashes, priorities⟩ : ∃ hashes, claims.priorities = hash :: hashes := List.head?_eq_some_iff.mp head
    rw [threshold, priorities] at run
    exact thresholdLoop_twice stored (by omega) (not_le.mp room) run walks.once
  · exact fun ends => ⟨2, _, _, threshold_of_endsAtFirst independent ends, walks_reached independent headerAndCoinbase⟩

/-- The conditions on the claims, checked on the entries of the map. -/
theorem Independent.of_entries (nodup : claims.priorities.Nodup)
    (pooled : claims.priorities.all claims.haveHash = true)
    (entries : ∀ entry ∈ claims.confirmations.toList,
      prim.txnHash entry.2.txn = entry.1 ∧ 0 ≤ entry.2.size ∧ entry.2.depends = []) : Independent prim claims where
  nodup := nodup
  pooled hash member := haveHash_iff.mp (List.all_eq_true.mp pooled hash member)
  keyed hash claim stored := (entries (hash, claim) (Map.mem_toList.mpr stored)).1
  sizes hash claim stored := (entries (hash, claim) (Map.mem_toList.mpr stored)).2.1
  alone hash claim stored := (entries (hash, claim) (Map.mem_toList.mpr stored)).2.2

end Walk

end Claims

namespace Small

/-- Two claims of one byte, with the fees 5 and 6. -/
def twoFees : Claims :=
  (Claims.empty.insert prim 1 (spend 2 [(1, 0)] [1]) ∅ 5 0).insert prim 1 (spend 3 [(1, 1)] [1]) ∅ 6 0

theorem twoFees_independent : Claims.Independent prim twoFees :=
  .of_entries (by decide) (by decide) (by decide)

/-- The first of them by priority. -/
theorem twoFees_first :
    twoFees.priorities = [3, 2] ∧ ∃ claim, twoFees.confirmations[(3 : Uint256)]? = some claim ∧ claim.size = 1 := by
  refine ⟨by decide, ?_⟩
  have known : (twoFees.confirmations[(3 : Uint256)]?).isSome = true := by decide
  obtain ⟨claim, stored⟩ := Option.isSome_iff_exists.mp known
  have size := Claims.fieldOf_pooled Claim.size stored
  exact ⟨claim, stored, size.symm.trans (by decide)⟩

end Small

namespace Claims

open Libcoin.Small

/-- With room for one byte the loop ends at the first claim. -/
theorem threshold_walks_iff_full :
    ∃ fuel fee visited, twoFees.threshold fuel 999999 = some (fee, visited) ∧ Walks prim twoFees 999999 fee visited :=
  (threshold_walks_iff twoFees_independent 999999).mpr fun hash claim head stored => by
    obtain ⟨order, first, stored', size⟩ := twoFees_first
    rw [order] at head
    obtain rfl := Option.some.inj head
    rw [stored'] at stored
    obtain rfl := Option.some.inj stored
    rw [size]
    decide

/-- With room for ten bytes both claims fit, and the block has both: its threshold is the fee of the second one. The
loop looks at the first one ten times. -/
theorem threshold_not_walks :
    twoFees.AllFit 999990 ∧
      twoFees.transactions prim 999990 = some ([spend 3 [(1, 1)] [1], spend 2 [(1, 0)] [1]], 11) ∧
      lastFee twoFees.confirmations [3, 2] = 5 ∧ twoFees.threshold 11 999990 = some (6, List.replicate 10 3) ∧
      ¬∃ fuel fee visited, twoFees.threshold fuel 999990 = some (fee, visited) ∧
        Walks prim twoFees 999990 fee visited := by
  refine ⟨show _ < _ by decide, by decide +kernel, by decide, by decide +kernel, ?_⟩
  rintro ⟨fuel, fee, visited, run, walks⟩
  obtain ⟨order, first, stored, size⟩ := twoFees_first
  rw [threshold, order] at run
  exact thresholdLoop_twice stored (by decide) (by rw [size]; decide) run walks.once

end Claims

end Libcoin
