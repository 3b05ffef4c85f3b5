/-
What `SelectCoinsMinConf` selects.

* `masked` is the sum of the values that a mask includes. `Trial.Right` is the invariant of the search: the sums are
  those of the masks, and the best one is enough (`approximate_best`).
* `takeCoins_spec` says what the loop over the coins has found. `ExactSelection` is what is expected of a selection.
-/

import Libcoin.Wallet.CoinSelection

namespace Libcoin

open Exec

namespace TxWallet

/-! ### Masks -/

/-- The sum of the values that a mask includes. -/
def masked : List Int → List Bool → Int
  | value :: values, included :: mask => (if included then value else 0) + masked values mask
  | _, _ => 0

section Masks

variable {values : List Int} {mask : List Bool} {i : Nat} {value : Int}

theorem masked_bounds (nonneg : ∀ value ∈ values, 0 ≤ value) :
    0 ≤ masked values mask ∧ masked values mask ≤ values.sum := by
  induction values generalizing mask with
  | nil => exact ⟨le_refl 0, le_refl 0⟩
  | cons value values ih =>
    obtain ⟨first, rest⟩ := List.forall_mem_cons.mp nonneg
    have total : 0 ≤ values.sum := List.sum_nonneg rest
    cases mask with
    | nil => exact ⟨le_refl 0, by rw [List.sum_cons]; exact add_nonneg first total⟩
    | cons included mask =>
      have bounds := @ih mask rest
      rw [masked, List.sum_cons]
      split <;> omega

theorem masked_set (there : values[i]? = some value) (out : mask[i]? = some false) :
    masked values (mask.set i true) = masked values mask + value := by
  induction values generalizing mask i with
  | nil => cases there
  | cons first values ih =>
    cases mask with
    | nil => cases out
    | cons included mask =>
      cases i with
      | zero =>
        obtain rfl := Option.some.inj there
        obtain rfl := Option.some.inj out
        simp only [List.set_cons_zero, masked, if_true, Bool.false_eq_true, if_false]
        omega
      | succ i =>
        simp only [List.set_cons_succ, masked, ih there out]
        omega

theorem set_back (out : mask[i]? = some false) : (mask.set i true).set i false = mask := by
  obtain ⟨inside, same⟩ := List.getElem?_eq_some_iff.mp out
  rw [List.set_set, ← same, List.set_getElem_self]

theorem masked_none (values : List Int) (size : Nat) : masked values (List.replicate size false) = 0 := by
  induction size generalizing values with
  | zero => cases values <;> rfl
  | succ size ih =>
    cases values with
    | nil => rfl
    | cons value values => rw [List.replicate_succ, masked, ih]; rfl

theorem masked_all (values : List Int) : masked values (List.replicate values.length true) = values.sum := by
  induction values with
  | nil => rfl
  | cons value values ih => rw [List.length_cons, List.replicate_succ, masked, ih, List.sum_cons, if_pos rfl]

end Masks

/-! ### The search -/

/-- The best sum is that of its mask, and it is enough. -/
structure Trial.Best (values : List Int) (nTargetValue : Int) (trial : Trial) : Prop where
  bestSize : trial.bestIncluded.length = values.length
  best : trial.best = masked values trial.bestIncluded
  enough : nTargetValue ≤ trial.best

/-- Within a repetition the other sum is that of its mask as well. -/
structure Trial.Right (values : List Int) (nTargetValue : Int) (trial : Trial) : Prop
    extends Trial.Best values nTargetValue trial where
  size : trial.included.length = values.length
  total : trial.total = masked values trial.included

section Search

variable {values : List Int} {nTargetValue : Int} {trial : Trial}

/-- A coin that is not included may be added. No other coin is included or taken out. -/
theorem Trial.Right.add (right : trial.Right values nTargetValue) (nonneg : ∀ value ∈ values, 0 ≤ value)
    (small : values.sum < 2 ^ 63) {i : Nat} {value : Int} (there : values[i]? = some value)
    (out : trial.included[i]? = some false) :
    (trial.add nTargetValue i value).Right values nTargetValue ∧
      ∀ j ≠ i, (trial.add nTargetValue i value).included[j]? = trial.included[j]? := by
  have more := masked_set there out
  have bounds := @masked_bounds values trial.included nonneg
  have bounds' := @masked_bounds values (trial.included.set i true) nonneg
  have sum : wrap64 (trial.total + value) = masked values (trial.included.set i true) := by
    rw [right.total, ← more]
    exact wrap64_of_range (by omega) (by omega)
  have back : wrap64 (masked values (trial.included.set i true) - value) = masked values trial.included := by
    rw [more, Int.add_sub_cancel]
    exact wrap64_of_range (by omega) (by omega)
  unfold Trial.add
  dsimp only
  rw [sum]
  by_cases reached : nTargetValue ≤ masked values (trial.included.set i true)
  · rw [if_pos reached, back, set_back out]
    refine ⟨⟨⟨?_, ?_, ?_⟩, right.size, rfl⟩, fun j _ => rfl⟩
    · dsimp only
      split
      · rw [List.length_set, right.size]
      · exact right.bestSize
    · dsimp only
      split
      · rfl
      · exact right.best
    · dsimp only
      split
      · exact reached
      · exact right.enough
  · rw [if_neg reached]
    refine ⟨⟨⟨right.bestSize, right.best, right.enough⟩, ?_, rfl⟩, fun j other => List.getElem?_set_ne other.symm⟩
    rw [List.length_set, right.size]

theorem drop_cons {i : Nat} {value : Int} {rest : List Int} (suffix : values.drop i = value :: rest) :
    values[i]? = some value ∧ values.drop (i + 1) = rest ∧ i < values.length := by
  have there : values[i]? = some value := by
    rw [← Nat.add_zero i, ← List.getElem?_drop, suffix]
    rfl
  refine ⟨there, ?_, (List.getElem?_eq_some_iff.mp there).1⟩
  rw [← List.tail_drop, suffix, List.tail_cons]

/-- Before the first pass comes to a coin it is not included. -/
theorem passRandom_right (rand : Nat → Nat) (nonneg : ∀ value ∈ values, 0 ≤ value) (small : values.sum < 2 ^ 63)
    {rest : List Int} {i : Nat} (suffix : values.drop i = rest) (used : Nat) (right : trial.Right values nTargetValue)
    (ahead : ∀ j, i ≤ j → j < values.length → trial.included[j]? = some false) :
    (passRandom rand nTargetValue rest i used trial).Right values nTargetValue := by
  induction rest generalizing i used trial with
  | nil => exact right
  | cons value rest ih =>
    obtain ⟨there, suffix, inside⟩ := drop_cons suffix
    rw [passRandom]
    by_cases bit : rand used % 2 = 1
    · rw [if_pos bit]
      obtain ⟨right', others⟩ := right.add nonneg small there (ahead i le_rfl inside)
      exact ih suffix _ right' fun j later within => by
        rw [others j (by omega)]
        exact ahead j (by omega) within
    · rw [if_neg bit]
      exact ih suffix _ right fun j later within => ahead j (by omega) within

theorem passRest_right (nonneg : ∀ value ∈ values, 0 ≤ value) (small : values.sum < 2 ^ 63) {rest : List Int} {i : Nat}
    (suffix : values.drop i = rest) (right : trial.Right values nTargetValue) :
    (passRest nTargetValue rest i trial).Right values nTargetValue := by
  induction rest generalizing i trial with
  | nil => exact right
  | cons value rest ih =>
    obtain ⟨there, suffix, inside⟩ := drop_cons suffix
    rw [passRest]
    by_cases out : trial.included.getD i false = true
    · rw [if_pos out]
      exact ih suffix right
    · have within : i < trial.included.length := right.size.symm ▸ inside
      have absent : trial.included[i]? = some false := by
        rw [List.getD_eq_getElem?_getD, List.getElem?_eq_getElem within, Option.getD_some, Bool.not_eq_true] at out
        rw [List.getElem?_eq_getElem within, out]
      rw [if_neg out]
      exact ih suffix (right.add nonneg small there absent).1

theorem repetition_best (rand : Nat → Nat) (nonneg : ∀ value ∈ values, 0 ≤ value) (small : values.sum < 2 ^ 63)
    (used : Nat) (best : trial.Best values nTargetValue) :
    (repetition rand nTargetValue values used trial).Best values nTargetValue := by
  have start : Trial.Right values nTargetValue
      { trial with total := 0, included := List.replicate values.length false, reached := false } :=
    ⟨⟨best.bestSize, best.best, best.enough⟩, List.length_replicate, (masked_none values _).symm⟩
  have first := passRandom_right rand nonneg small List.drop_zero used start fun j _ within => by
    rw [List.getElem?_replicate, if_pos within]
  unfold repetition
  dsimp only
  split
  · exact first.toBest
  · exact (passRest_right nonneg small List.drop_zero first).toBest

/-- **The best subset has the best sum, which is enough**, whatever the random bits are. -/
theorem approximate_best (rand : Nat → Nat) (nonneg : ∀ value ∈ values, 0 ≤ value) (small : values.sum < 2 ^ 63)
    (turns used : Nat) (best : trial.Best values nTargetValue) :
    (approximate rand nTargetValue values turns used trial).Best values nTargetValue := by
  induction turns generalizing used trial with
  | zero => exact best
  | succ turns ih =>
    rw [approximate]
    split
    · exact best
    · exact ih _ (repetition_best rand nonneg small used best)

end Search

/-! ### What is expected of a selection -/

/-- The value of some coins. -/
def totalOf (coins : List OwnCoin) : Int := (coins.map Prod.fst).sum

/-- The coins below a cent more than the target. -/
def lowerCoins (nTargetValue : Int) (coins : List OwnCoin) : List OwnCoin :=
  coins.filter fun coin => decide (coin.1 < nTargetValue + cent)

/-- Some of the coins are selected, each once, and their value is returned. It is enough, and it is the target if a coin
has this value or the lower coins have it together. -/
structure Selected (coins : List OwnCoin) (nTargetValue : Int) (result : List (Uint256 × Nat) × Int) : Prop where
  picked : ∃ picked : List OwnCoin, picked.Subperm coins ∧ result.1 = picked.map Prod.snd ∧ result.2 = totalOf picked
  once : result.1.Nodup
  enough : nTargetValue ≤ result.2
  exact : (∃ coin ∈ coins, coin.1 = nTargetValue) ∨ totalOf (lowerCoins nTargetValue coins) = nTargetValue →
    result.2 = nTargetValue

/-- There is a selection exactly if all coins together are enough. -/
structure ExactSelection (coins : List OwnCoin) (nTargetValue : Int) (result : Option (List (Uint256 × Nat) × Int)) :
    Prop where
  complete : result.isSome = true ↔ nTargetValue ≤ totalOf coins
  selected : ∀ r, result = some r → Selected coins nTargetValue r

/-- Coins that a wallet can have: each once, of a positive value, and a small one together. -/
structure SmallCoins (coins : List OwnCoin) : Prop where
  once : (coins.map Prod.snd).Nodup
  positive : ∀ coin ∈ coins, 0 < coin.1
  small : totalOf coins + 2 * cent < 2 ^ 63

section Coins

variable {coins picked : List OwnCoin} {nTargetValue : Int} {coin : OwnCoin}

theorem totalOf_nonneg (positive : ∀ coin ∈ coins, 0 < coin.1) : 0 ≤ totalOf coins := by
  refine List.sum_nonneg fun value member => ?_
  obtain ⟨coin, inside, rfl⟩ := List.mem_map.mp member
  exact (positive coin inside).le

theorem exists_others (subset : picked.Subperm coins) : ∃ others, coins.Perm (picked ++ others) := by
  obtain ⟨kept, perm, sublist⟩ := subset
  obtain ⟨others, split⟩ := sublist.exists_perm_append
  exact ⟨others, split.trans (perm.append_right others)⟩

theorem totalOf_le (positive : ∀ coin ∈ coins, 0 < coin.1) (subset : picked.Subperm coins) :
    totalOf picked ≤ totalOf coins := by
  obtain ⟨others, perm⟩ := exists_others subset
  have split : totalOf coins = totalOf picked + totalOf others := by
    unfold totalOf
    rw [(perm.map Prod.fst).sum_eq, List.map_append, List.sum_append]
  have rest : 0 ≤ totalOf others :=
    totalOf_nonneg fun coin member => positive coin (perm.mem_iff.mpr (List.mem_append_right _ member))
  omega

theorem le_totalOf (positive : ∀ coin ∈ coins, 0 < coin.1) (member : coin ∈ coins) : coin.1 ≤ totalOf coins := by
  have alone := totalOf_le positive (List.singleton_subperm_iff.mpr member)
  have single : totalOf [coin] = coin.1 := Int.add_zero coin.1
  omega

theorem chosen_eq (positive : ∀ coin ∈ coins, 0 < coin.1) (small : totalOf coins < 2 ^ 63) :
    chosen coins = (coins.map Prod.snd, totalOf coins) := by
  suffices sums : ∀ (value : Int), 0 ≤ value → value + totalOf coins < 2 ^ 63 →
      coins.foldl (fun nValueRet coin => wrap64 (nValueRet + coin.1)) value = value + totalOf coins by
    rw [chosen, sums 0 le_rfl (by omega), Int.zero_add]
  clear small
  induction coins with
  | nil => exact fun value _ _ => (Int.add_zero value).symm
  | cons first coins ih =>
    intro value nonneg fits
    obtain ⟨here, others⟩ := List.forall_mem_cons.mp positive
    have rest := totalOf_nonneg others
    have split : totalOf (first :: coins) = first.1 + totalOf coins := by
      rw [totalOf, List.map_cons, List.sum_cons]
      rfl
    rw [split] at fits ⊢
    rw [List.foldl_cons, wrap64_of_range (by omega) (by omega), ih others _ (by omega) (by omega)]
    omega

/-- What is selected of the coins, where it is enough. -/
theorem Selected.of_picked (ok : SmallCoins coins) (subset : picked.Subperm coins)
    (enough : nTargetValue ≤ totalOf picked)
    (exact : (∃ coin ∈ coins, coin.1 = nTargetValue) ∨ totalOf (lowerCoins nTargetValue coins) = nTargetValue →
      totalOf picked = nTargetValue) : Selected coins nTargetValue (chosen picked) := by
  have least := totalOf_le ok.positive subset
  have small := ok.small
  unfold cent at small
  rw [chosen_eq (fun coin member => ok.positive coin (subset.subset member)) (by omega)]
  obtain ⟨others, perm⟩ := exists_others subset
  have distinct := (perm.map Prod.snd).nodup_iff.mp ok.once
  rw [List.map_append] at distinct
  exact ⟨⟨picked, subset, rfl, rfl⟩, (List.nodup_append.mp distinct).1, enough, exact⟩

end Coins

/-! ### The loop over the coins -/

/-- What has been found of the coins so far: the lower ones with their value, and one of the others, if there is one. -/
structure Taken (nTargetValue : Int) (coins : List OwnCoin) (found : Gathered) : Prop where
  values : found.values = lowerCoins nTargetValue coins
  totalLower : found.totalLower = totalOf (lowerCoins nTargetValue coins)
  none : found.lowestLarger = none → lowerCoins nTargetValue coins = coins
  some : ∀ coin, found.lowestLarger = some coin → coin ∈ coins ∧ nTargetValue + cent ≤ coin.1

section Loop

variable {nTargetValue : Int}

theorem lowerCoins_append (first second : List OwnCoin) :
    lowerCoins nTargetValue (first ++ second) = lowerCoins nTargetValue first ++ lowerCoins nTargetValue second :=
  List.filter_append first second

theorem lowerCoins_subperm (nTargetValue : Int) (coins : List OwnCoin) :
    (lowerCoins nTargetValue coins).Subperm coins :=
  List.filter_sublist.subperm

/-- One turn of the loop, for a coin that does not have the value. -/
theorem takeCoins_turn (fits : nTargetValue + cent < 2 ^ 63) (positive : 0 < nTargetValue) {done : List OwnCoin}
    (rest : List OwnCoin) {coin : OwnCoin} (each : ∀ other ∈ done ++ [coin], 0 < other.1)
    (small : totalOf (done ++ [coin]) + 2 * cent < 2 ^ 63) (other : coin.1 ≠ nTargetValue) {found : Gathered}
    (taken : Taken nTargetValue done found) :
    ∃ next, takeCoins nTargetValue (coin :: rest) found = takeCoins nTargetValue rest next ∧
      Taken nTargetValue (done ++ [coin]) next := by
  have unit : cent = 1000000 := rfl
  have value := each coin (List.mem_append_right _ List.mem_cons_self)
  have most := le_totalOf each (List.mem_append_right done List.mem_cons_self)
  have limit : wrap64 (nTargetValue + cent) = nTargetValue + cent := wrap64_of_range (by omega) fits
  rw [takeCoins, if_neg other, limit]
  by_cases low : coin.1 < nTargetValue + cent
  · have lower : lowerCoins nTargetValue (done ++ [coin]) = lowerCoins nTargetValue done ++ [coin] := by
      rw [lowerCoins_append]
      exact congrArg _ (List.filter_cons_of_pos (decide_eq_true low))
    have sum : totalOf (lowerCoins nTargetValue (done ++ [coin])) =
        totalOf (lowerCoins nTargetValue done) + coin.1 := by
      rw [lower, totalOf, List.map_append, List.sum_append]
      exact congrArg _ (Int.add_zero coin.1)
    have nonneg := totalOf_nonneg fun c member => each c (List.mem_append_left [coin]
      ((lowerCoins_subperm nTargetValue done).subset member))
    have least := totalOf_le each (lowerCoins_subperm nTargetValue (done ++ [coin]))
    rw [if_pos low]
    refine ⟨_, rfl, ?_, ?_, fun none => ?_, fun c some => ?_⟩
    · dsimp only
      rw [taken.values, lower]
    · dsimp only
      rw [taken.totalLower, sum]
      exact wrap64_of_range (by omega) (by omega)
    · rw [lower, taken.none none]
    · exact ⟨List.mem_append_left _ (taken.some c some).1, (taken.some c some).2⟩
  · have lower : lowerCoins nTargetValue (done ++ [coin]) = lowerCoins nTargetValue done := by
      rw [lowerCoins_append]
      exact (congrArg _ (List.filter_cons_of_neg (by simpa using low))).trans (List.append_nil _)
    have values := taken.values
    have totalLower := taken.totalLower
    rw [← lower] at values totalLower
    rw [if_neg low]
    by_cases less : coin.1 < found.lowestLarger.elim (2 ^ 63 - 1) Prod.fst
    · rw [if_pos less]
      refine ⟨_, rfl, values, totalLower, nofun, fun c some => ?_⟩
      obtain rfl := Option.some.inj some
      exact ⟨List.mem_append_right _ List.mem_cons_self, not_lt.mp low⟩
    · rw [if_neg less]
      refine ⟨_, rfl, values, totalLower, fun none => ?_, fun c some => ?_⟩
      · rw [none] at less
        simp only [Option.elim_none] at less
        omega
      · exact ⟨List.mem_append_left _ (taken.some c some).1, (taken.some c some).2⟩

/-- **The loop ends with a coin of the value, or has found all there is.** -/
theorem takeCoins_spec (fits : nTargetValue + cent < 2 ^ 63) (positive : 0 < nTargetValue) {done rest : List OwnCoin}
    (each : ∀ coin ∈ done ++ rest, 0 < coin.1) (small : totalOf (done ++ rest) + 2 * cent < 2 ^ 63) {found : Gathered}
    (taken : Taken nTargetValue done found) :
    (∃ coin ∈ rest, takeCoins nTargetValue rest found = .inl coin ∧ coin.1 = nTargetValue) ∨
      ∃ found', takeCoins nTargetValue rest found = .inr found' ∧ Taken nTargetValue (done ++ rest) found' ∧
        ∀ coin ∈ rest, coin.1 ≠ nTargetValue := by
  induction rest generalizing done found with
  | nil => exact .inr ⟨found, rfl, (List.append_nil done).symm ▸ taken, nofun⟩
  | cons coin rest ih =>
    by_cases same : coin.1 = nTargetValue
    · exact .inl ⟨coin, List.mem_cons_self, by rw [takeCoins, if_pos same], same⟩
    · rw [List.append_cons] at each small ⊢
      have first : (done ++ [coin]).Subperm (done ++ [coin] ++ rest) := (List.sublist_append_left _ _).subperm
      have part := totalOf_le each first
      obtain ⟨next, turn, taken⟩ := takeCoins_turn fits positive rest
        (fun c member => each c (List.mem_append_left _ member)) (by omega) same taken
      rw [turn]
      rcases ih each small taken with ⟨c, member, done, value⟩ | ⟨found', done, taken, others⟩
      · exact .inl ⟨c, List.mem_cons_of_mem _ member, done, value⟩
      · exact .inr ⟨found', done, taken, List.forall_mem_cons.mpr ⟨same, others⟩⟩

end Loop

/-! ### After the loop -/

section Finish

variable {coins : List OwnCoin} {nTargetValue : Int} {found : Gathered}

/-- The coins of a mask. -/
def included (coins : List OwnCoin) (mask : List Bool) : List OwnCoin :=
  (coins.zip mask).filterMap fun (coin, included) => if included then some coin else none

theorem included_spec (coins : List OwnCoin) (mask : List Bool) :
    (included coins mask).Sublist coins ∧ totalOf (included coins mask) = masked (coins.map Prod.fst) mask := by
  induction coins generalizing mask with
  | nil => exact ⟨List.Sublist.slnil, rfl⟩
  | cons coin coins ih =>
    cases mask with
    | nil => exact ⟨List.nil_sublist _, rfl⟩
    | cons bit mask =>
      obtain ⟨sublist, sum⟩ := ih mask
      cases bit with
      | false =>
        refine ⟨sublist.cons coin, ?_⟩
        rw [List.map_cons, masked, ← sum]
        exact (Int.zero_add _).symm
      | true =>
        refine ⟨sublist.cons_cons coin, ?_⟩
        rw [List.map_cons, masked, ← sum]
        rfl

/-- A selection that is enough is exact if it meets the target where the lower coins do. No coin has the value. -/
theorem ExactSelection.of_picked {picked : List OwnCoin} (ok : SmallCoins coins) (subset : picked.Subperm coins)
    (others : ∀ coin ∈ coins, coin.1 ≠ nTargetValue) (enough : nTargetValue ≤ totalOf picked)
    (exact : totalOf (lowerCoins nTargetValue coins) = nTargetValue → totalOf picked = nTargetValue) :
    ExactSelection coins nTargetValue (some (chosen picked)) := by
  have least := totalOf_le ok.positive subset
  refine ⟨iff_of_true rfl (by omega), fun r same => ?_⟩
  obtain rfl := Option.some.inj same
  refine .of_picked ok subset enough ?_
  rintro (⟨coin, member, same⟩ | sum)
  · exact absurd same (others coin member)
  · exact exact sum

/-- The best subset is a selection of the lower coins. -/
theorem approximate_exact (chance : Chance) (ok : SmallCoins coins) (taken : Taken nTargetValue coins found)
    (others : ∀ coin ∈ coins, coin.1 ≠ nTargetValue) (apart : totalOf (lowerCoins nTargetValue coins) ≠ nTargetValue)
    {raised : Int} (more : nTargetValue ≤ raised) (most : raised ≤ found.totalLower) :
    let sorted := sortCoins chance.address found.values
    ExactSelection coins nTargetValue (some (chosen (included sorted
      (approximate chance.rand raised (sorted.map Prod.fst) 1000 0
        { total := 0, included := [], reached := false, best := found.totalLower
          bestIncluded := List.replicate sorted.length true }).bestIncluded))) := by
  intro sorted
  have perm : sorted.Perm (lowerCoins nTargetValue coins) := by
    rw [← taken.values]
    exact List.mergeSort_perm _ _
  have subset : sorted.Subperm coins := perm.subperm.trans (lowerCoins_subperm nTargetValue coins)
  have least := totalOf_le ok.positive subset
  have sum : totalOf sorted = found.totalLower := by
    rw [taken.totalLower]
    exact (perm.map Prod.fst).sum_eq
  have unit : cent = 1000000 := rfl
  have small := ok.small
  have nonneg : ∀ value ∈ sorted.map Prod.fst, 0 ≤ value := by
    intro value member
    obtain ⟨coin, inside, rfl⟩ := List.mem_map.mp member
    exact (ok.positive coin (subset.subset inside)).le
  have start : Trial.Best (sorted.map Prod.fst) raised
      { total := 0, included := [], reached := false, best := found.totalLower
        bestIncluded := List.replicate sorted.length true } := by
    refine ⟨by rw [List.length_replicate, List.length_map], ?_, most⟩
    rw [show sorted.length = (sorted.map Prod.fst).length from (List.length_map Prod.fst).symm, masked_all]
    exact sum.symm
  have best := approximate_best chance.rand nonneg (show totalOf sorted < 2 ^ 63 by omega) 1000 0 start
  generalize approximate _ _ _ _ _ _ = trial at best ⊢
  obtain ⟨sublist, same⟩ := included_spec sorted trial.bestIncluded
  refine .of_picked ok (sublist.subperm.trans subset) others ?_ fun exact => absurd exact apart
  rw [same, ← best.best]
  exact more.trans best.enough

/-- **What comes after the loop selects exactly.** -/
theorem finish_exact (chance : Chance) (ok : SmallCoins coins) (fits : nTargetValue + cent < 2 ^ 63)
    (positive : 0 < nTargetValue) (taken : Taken nTargetValue coins found)
    (others : ∀ coin ∈ coins, coin.1 ≠ nTargetValue) :
    ExactSelection coins nTargetValue (finish chance nTargetValue found) := by
  have unit : cent = 1000000 := rfl
  have limit : wrap64 (nTargetValue + cent) = nTargetValue + cent := wrap64_of_range (by omega) fits
  have subset := lowerCoins_subperm nTargetValue coins
  have lower := taken.totalLower
  unfold finish
  rw [limit]
  by_cases all : found.totalLower = nTargetValue ∨ found.totalLower = nTargetValue + cent
  · rw [if_pos all, taken.values]
    exact .of_picked ok subset others (by omega) id
  · have apart : totalOf (lowerCoins nTargetValue coins) ≠ nTargetValue := fun same => all (.inl (lower.trans same))
    have larger (coin : OwnCoin) (some : found.lowestLarger = some coin) :
        ExactSelection coins nTargetValue (.some (chosen [coin])) := by
      obtain ⟨member, more⟩ := taken.some coin some
      have single : totalOf [coin] = coin.1 := Int.add_zero coin.1
      exact .of_picked ok (List.singleton_subperm_iff.mpr member) others (by omega) fun sum => absurd sum apart
    have exact : wrap64 nTargetValue = nTargetValue := wrap64_of_range (by omega) (by omega)
    rw [if_neg all]
    by_cases short : found.totalLower < wrap64 (nTargetValue + found.lowestLarger.elim 0 fun _ => cent)
    · rw [if_pos short]
      cases some : found.lowestLarger with
      | none =>
        rw [some, Option.elim_none, Int.add_zero, exact, lower, taken.none some] at short
        exact ⟨iff_of_false nofun (not_le.mpr short), nofun⟩
      | some coin => exact larger coin some
    · have enough : nTargetValue ≤ found.totalLower := by
        cases some : found.lowestLarger with
        | none =>
          rw [some, Option.elim_none, Int.add_zero, exact] at short
          exact not_lt.mp short
        | some coin =>
          rw [some, Option.elim_some, limit] at short
          omega
      rw [if_neg short]
      dsimp only
      obtain ⟨raised, same, more, most⟩ : ∃ raised,
          (if nTargetValue + cent ≤ found.totalLower then nTargetValue + cent else nTargetValue) = raised ∧
            nTargetValue ≤ raised ∧ raised ≤ found.totalLower := by
        refine ⟨_, rfl, ?_, ?_⟩ <;> split <;> omega
      have best := approximate_exact chance ok taken others apart more most
      rw [same]
      cases some : found.lowestLarger with
      | none => exact best
      | some coin =>
        dsimp only
        split
        · exact larger coin some
        · exact best

/-- **`SelectCoinsMinConf` on a list of coins is exact.** -/
theorem select_exact (chance : Chance) (ok : SmallCoins coins) (fits : nTargetValue + cent < 2 ^ 63)
    (positive : 0 < nTargetValue) : ExactSelection coins nTargetValue (select chance nTargetValue coins) := by
  have start : Taken nTargetValue [] Gathered.none := ⟨rfl, rfl, fun _ => rfl, nofun⟩
  unfold select
  rcases @takeCoins_spec nTargetValue fits positive [] coins ok.positive ok.small _ start with
    ⟨coin, member, done, value⟩ | ⟨found, done, taken, others⟩
  · rw [done]
    have most := le_totalOf ok.positive member
    have single : totalOf [coin] = coin.1 := Int.add_zero coin.1
    refine ⟨iff_of_true rfl (by omega), fun r same => ?_⟩
    obtain rfl := Option.some.inj same
    exact .of_picked ok (List.singleton_subperm_iff.mpr member) (by omega) fun _ => by omega
  · rw [done]
    exact finish_exact chance ok fits positive taken others

/-- Where a cent more than the target is not an `int64_t`, the limit is below every coin, and all of them are larger. -/
theorem takeCoins_overflow (wide : 2 ^ 63 ≤ nTargetValue + cent) (bounded : nTargetValue < 2 ^ 63)
    (each : ∀ coin ∈ coins, 0 < coin.1 ∧ coin.1 < nTargetValue) :
    ∃ lowestLarger, takeCoins nTargetValue coins found = .inr { found with lowestLarger := lowestLarger } ∧
      (found.lowestLarger.isSome = true ∨ coins ≠ [] → lowestLarger.isSome = true) := by
  have unit : cent = 1000000 := rfl
  have limit : wrap64 (nTargetValue + cent) < 0 := by
    have spec := wrap64_spec (nTargetValue + cent)
    omega
  induction coins generalizing found with
  | nil => exact ⟨found.lowestLarger, rfl, fun some => some.resolve_right fun apart => apart rfl⟩
  | cons coin coins ih =>
    obtain ⟨⟨positive, less⟩, others⟩ := List.forall_mem_cons.mp each
    rw [takeCoins, if_neg less.ne, if_neg (by omega)]
    by_cases smaller : coin.1 < found.lowestLarger.elim (2 ^ 63 - 1) Prod.fst
    · rw [if_pos smaller]
      obtain ⟨lowestLarger, done, some⟩ := @ih { found with lowestLarger := .some coin } others
      exact ⟨lowestLarger, done, fun _ => some (.inl rfl)⟩
    · rw [if_neg smaller]
      obtain ⟨lowestLarger, done, some⟩ := @ih found others
      refine ⟨lowestLarger, done, fun _ => some (.inl ?_)⟩
      cases here : found.lowestLarger with
      | none =>
        rw [here, Option.elim_none] at smaller
        omega
      | some _ => rfl

theorem finish_isSome (chance : Chance) {coin : OwnCoin} (larger : found.lowestLarger = some coin) :
    (finish chance nTargetValue found).isSome = true := by
  unfold finish
  dsimp only
  rw [larger]
  generalize (if wrap64 (nTargetValue + cent) ≤ found.totalLower then wrap64 (nTargetValue + cent) else nTargetValue) =
    raised
  split
  · rfl
  · split
    · rfl
    · dsimp only
      split <;> rfl

/-- **There a coin is selected that is not enough.** -/
theorem select_overflow (chance : Chance) (ok : SmallCoins coins) (positive : 0 < nTargetValue)
    (bounded : nTargetValue < 2 ^ 63) (wide : 2 ^ 63 ≤ nTargetValue + cent) (any : coins ≠ []) :
    (select chance nTargetValue coins).isSome = true ∧ totalOf coins < nTargetValue := by
  have unit : cent = 1000000 := rfl
  have small := ok.small
  have limit : wrap64 (nTargetValue + cent) < 0 := by
    have spec := wrap64_spec (nTargetValue + cent)
    omega
  have short : totalOf coins < nTargetValue := by omega
  refine ⟨?_, short⟩
  have each : ∀ coin ∈ coins, 0 < coin.1 ∧ coin.1 < nTargetValue := fun coin member =>
    ⟨ok.positive coin member, (le_totalOf ok.positive member).trans_lt short⟩
  obtain ⟨lowestLarger, done, some⟩ := @takeCoins_overflow coins nTargetValue Gathered.none wide bounded each
  obtain ⟨coin, rfl⟩ := Option.isSome_iff_exists.mp (some (.inr any))
  unfold select
  rw [done]
  exact finish_isSome chance rfl

end Finish

/-! ### `SelectCoinsMinConf` -/

section Calls

variable {coins coins' : List OwnCoin} {nTargetValue : Int}

theorem totalOf_perm (perm : coins.Perm coins') : totalOf coins = totalOf coins' :=
  (perm.map Prod.fst).sum_eq

theorem lowerCoins_perm (perm : coins.Perm coins') :
    (lowerCoins nTargetValue coins).Perm (lowerCoins nTargetValue coins') :=
  perm.filter _

theorem SmallCoins.of_perm (perm : coins.Perm coins') (ok : SmallCoins coins) : SmallCoins coins' where
  once := (perm.map Prod.snd).nodup_iff.mp ok.once
  positive := fun coin member => ok.positive coin (perm.mem_iff.mpr member)
  small := totalOf_perm perm ▸ ok.small

/-- What is expected does not depend on the order of the coins. -/
theorem ExactSelection.of_perm (perm : coins.Perm coins') {result : Option (List (Uint256 × Nat) × Int)}
    (exact : ExactSelection coins nTargetValue result) : ExactSelection coins' nTargetValue result := by
  refine ⟨?_, fun r same => ?_⟩
  · rw [exact.complete, totalOf_perm perm]
  · obtain ⟨⟨picked, subset, outpoints, sum⟩, once, enough, met⟩ := exact.selected r same
    refine ⟨⟨picked, subset.trans perm.subperm, outpoints, sum⟩, once, enough, fun exists_or => met ?_⟩
    rcases exists_or with ⟨coin, member, value⟩ | lower
    · exact .inl ⟨coin, perm.mem_iff.mpr member, value⟩
    · exact .inr ((totalOf_perm (lowerCoins_perm perm)).trans lower)

/-- **A selection of a list of coins is exact unless a cent more than the target is too much for an `int64_t`.** -/
theorem select_exact_iff (chance : Chance) (ok : SmallCoins coins) (positive : 0 < nTargetValue)
    (bounded : nTargetValue < 2 ^ 63) :
    ExactSelection coins nTargetValue (select chance nTargetValue coins) ↔
      coins = [] ∨ nTargetValue + cent < 2 ^ 63 := by
  constructor
  · intro exact
    by_contra apart
    obtain ⟨any, wide⟩ := not_or.mp apart
    obtain ⟨found, short⟩ := select_overflow chance ok positive bounded (not_lt.mp wide) any
    exact absurd (exact.complete.mp found) (not_le.mpr short)
  · rintro (rfl | fits)
    · rw [select_nil chance positive bounded]
      exact ⟨iff_of_false nofun (not_le.mpr positive), nofun⟩
    · exact select_exact chance ok fits positive

theorem ownCoins_positive (w : TxWallet) {entry : WalletEntry} {coin : OwnCoin} (member : coin ∈ w.ownCoins entry) :
    0 < coin.1 ∧ coin.2.1 = entry.1 := by
  obtain ⟨⟨output, i⟩, -, here⟩ := List.mem_filterMap.mp member
  dsimp only at here
  split at here
  · cases here
  · rename_i kept
    obtain rfl := Option.some.inj here
    simp only [Bool.or_eq_true, decide_eq_true_eq, not_or, not_le] at kept
    exact ⟨kept.2, rfl⟩

theorem ownCoins_once (w : TxWallet) (entry : WalletEntry) : ((w.ownCoins entry).map Prod.snd).Nodup := by
  have ordered : ((w.ownCoins entry).map Prod.snd).Sublist
      (entry.2.outputs.zipIdx.map fun output => (entry.1, output.2)) := by
    unfold ownCoins
    induction entry.2.outputs.zipIdx with
    | nil => exact List.Sublist.slnil
    | cons output rest ih =>
      rw [List.filterMap_cons, List.map_cons]
      split
      · exact ih.cons _
      · rename_i coin here
        dsimp only at here
        split at here
        · cases here
        · obtain rfl := Option.some.inj here
          exact ih.cons_cons _
  refine ordered.nodup ?_
  have indices : (entry.2.outputs.zipIdx.map Prod.snd).Nodup := by
    rw [List.zipIdx_map_snd]
    exact List.nodup_range'
  rw [show (entry.2.outputs.zipIdx.map fun output => (entry.1, output.2)) =
    (entry.2.outputs.zipIdx.map Prod.snd).map (Prod.mk entry.1) from (List.map_map ..).symm]
  exact indices.map fun _ _ same => (Prod.mk.inj same).2

/-- The coins of a wallet are positive and each is there once. -/
theorem ownCoins_small (w : TxWallet) (considered : WalletEntry → Bool) :
    let coins := (w.mapWallet.toList.filter considered).flatMap w.ownCoins
    (coins.map Prod.snd).Nodup ∧ ∀ coin ∈ coins, 0 < coin.1 := by
  intro coins
  constructor
  · rw [List.map_flatMap]
    refine List.nodup_flatMap.mpr ⟨fun entry _ => ownCoins_once w entry, ?_⟩
    have apart := w.mapWallet.toList_sorted.sublist (List.filter_sublist (p := considered))
    refine apart.imp fun {first second} less => ?_
    refine List.disjoint_left.mpr fun outpoint member member' => ?_
    obtain ⟨coin, here, rfl⟩ := List.mem_map.mp member
    obtain ⟨coin', there, same⟩ := List.mem_map.mp member'
    have key := (ownCoins_positive w here).2
    rw [← same, (ownCoins_positive w there).2] at key
    exact less.ne key.symm
  · intro coin member
    obtain ⟨entry, -, inside⟩ := List.mem_flatMap.mp member
    exact (ownCoins_positive w inside).1

variable {cfg : Config} {clock : Clock} {s : BlockChain} {w : TxWallet} {nConfMine nConfTheirs : Int}

/-- **When `SelectCoinsMinConf` is exact**: for the coins of the transactions that pass its tests, in any order and with
any random bits, if there are none or if a cent more than the target is not too much for an `int64_t`. -/
theorem selectCoinsMinConf_exact_iff (chance : Chance) (considered : WalletEntry → Bool)
    (tested : ∀ entry ∈ w.mapWallet.toList,
      eligible cfg clock s w nConfMine nConfTheirs entry.2 = .ok (considered entry))
    (small : totalOf ((w.mapWallet.toList.filter considered).flatMap w.ownCoins) + 2 * cent < 2 ^ 63)
    (positive : 0 < nTargetValue) (bounded : nTargetValue < 2 ^ 63) :
    let coins := (w.mapWallet.toList.filter considered).flatMap w.ownCoins
    (∃ result, selectCoinsMinConf cfg clock s w chance nTargetValue nConfMine nConfTheirs = .ok result ∧
      ExactSelection coins nTargetValue result) ↔ coins = [] ∨ nTargetValue + cent < 2 ^ 63 := by
  intro coins
  obtain ⟨once, each⟩ := ownCoins_small w considered
  have perm : (((chance.shuffle w.mapWallet.toList).filter considered).flatMap w.ownCoins).Perm coins :=
    ((chance.shuffle_perm w.mapWallet.toList).filter considered).flatMap_right _
  have ok : SmallCoins coins := ⟨once, each, small⟩
  have shuffled := @select_exact_iff _ nTargetValue chance (ok.of_perm perm.symm) positive bounded
  rw [selectCoinsMinConf_eq chance considered tested]
  constructor
  · rintro ⟨result, same, exact⟩
    obtain rfl := Except.ok.inj same
    refine (shuffled.mp (exact.of_perm perm.symm)).imp_left fun none => ?_
    rw [none] at perm
    exact perm.nil_eq.symm
  · intro holds
    refine ⟨_, rfl, (shuffled.mpr (holds.imp_left fun none => ?_)).of_perm perm⟩
    rw [none] at perm
    exact perm.eq_nil

end Calls

open Libcoin.Small

/-- A wallet with a payment of 50 in the genesis block. -/
theorem exists_fifty : ∃ s, created 1 0 = .ok s ∧
    (∀ entry ∈ (purse 1).mapWallet.toList,
      eligible (config 1 0) clock s (purse 1) 0 0 entry.2 = .ok ((fun _ => true) entry)) ∧
    ((purse 1).mapWallet.toList.filter fun _ => true).flatMap (purse 1).ownCoins = [(50, (20, 0))] := by
  have run : (created 1 0).toOption.map (fun s => (eligible (config 1 0) clock s (purse 1) 0 0 (payment 1)).toOption) =
      some (some true) := by decide +kernel
  obtain ⟨s, ran, passed⟩ := Option.map_eq_some_iff.mp run
  have stored : (purse 1).mapWallet.toList = [(20, payment 1)] := by decide +kernel
  refine ⟨s, toOption_eq_some.mp ran, fun entry member => ?_, by rw [stored]; decide +kernel⟩
  rw [stored, List.mem_singleton] at member
  rw [member]
  exact toOption_eq_some.mp passed

/-- A wallet with a payment of three coins in the genesis block, two of them small. -/
def threeCoins : TxWallet :=
  { purse 1 with
    mapWallet := (∅ : Map Uint256 CWalletTx).insert 20
      { payment 1 with outputs := [⟨50, [1]⟩, ⟨30, [1]⟩, ⟨5000000, [1]⟩] } }

/-- The two small coins are less than a cent above the target, which the greater one is not needed for. -/
theorem selectCoinsMinConf_exact_iff_fifty : ∃ s, created 1 0 = .ok s ∧ ∀ chance : Chance,
    ∃ result, selectCoinsMinConf (config 1 0) clock s threeCoins chance 70 0 0 = .ok result ∧
      ExactSelection [(50, (20, 0)), (30, (20, 1)), (5000000, (20, 2))] 70 result := by
  have run : (created 1 0).toOption.map (fun s => (threeCoins.mapWallet.toList.map fun entry =>
      (eligible (config 1 0) clock s threeCoins 0 0 entry.2).toOption)) = some [some true] := by decide +kernel
  obtain ⟨s, ran, passed⟩ := Option.map_eq_some_iff.mp run
  have tested (entry : WalletEntry) (member : entry ∈ threeCoins.mapWallet.toList) :
      eligible (config 1 0) clock s threeCoins 0 0 entry.2 = .ok ((fun _ => true) entry) := by
    have passed := passed ▸ List.mem_map_of_mem (f := fun entry : WalletEntry =>
      (eligible (config 1 0) clock s threeCoins 0 0 entry.2).toOption) member
    exact toOption_eq_some.mp (List.mem_singleton.mp passed)
  have coins : (threeCoins.mapWallet.toList.filter fun _ => true).flatMap threeCoins.ownCoins =
      [(50, (20, 0)), (30, (20, 1)), (5000000, (20, 2))] := by decide +kernel
  refine ⟨s, toOption_eq_some.mp ran, fun chance => ?_⟩
  have exact := @selectCoinsMinConf_exact_iff 70 (config 1 0) clock s threeCoins 0 0 chance (fun _ => true) tested
    (by rw [coins]; decide) (by decide) (by decide)
  rw [coins] at exact
  exact exact.mpr (.inr (by decide))

/-- The payment is selected for the greatest target there is. -/
theorem selectCoinsMinConf_not_exact : ∃ s, created 1 0 = .ok s ∧
    (∀ entry ∈ (purse 1).mapWallet.toList,
      eligible (config 1 0) clock s (purse 1) 0 0 entry.2 = .ok ((fun _ => true) entry)) ∧
    ((purse 1).mapWallet.toList.filter fun _ => true).flatMap (purse 1).ownCoins = [(50, (20, 0))] ∧
    ∀ chance : Chance, ∃ r,
      selectCoinsMinConf (config 1 0) clock s (purse 1) chance (2 ^ 63 - 1) 0 0 = .ok (some r) ∧
        ¬ExactSelection [(50, (20, 0))] (2 ^ 63 - 1) (some r) := by
  obtain ⟨s, ran, tested, coins⟩ := exists_fifty
  refine ⟨s, ran, tested, coins, fun chance => ?_⟩
  obtain ⟨once, each⟩ := ownCoins_small (purse 1) fun _ => true
  have perm : (((chance.shuffle (purse 1).mapWallet.toList).filter fun _ => true).flatMap (purse 1).ownCoins).Perm
      (((purse 1).mapWallet.toList.filter fun _ => true).flatMap (purse 1).ownCoins) :=
    ((chance.shuffle_perm (purse 1).mapWallet.toList).filter fun _ => true).flatMap_right _
  rw [coins] at once each perm
  have ok : SmallCoins [(50, (20, 0))] := ⟨once, each, by decide⟩
  have any : ((chance.shuffle (purse 1).mapWallet.toList).filter fun _ => true).flatMap (purse 1).ownCoins ≠ [] := by
    intro none
    rw [none] at perm
    cases perm.nil_eq
  obtain ⟨found, -⟩ := @select_overflow _ (2 ^ 63 - 1) chance (ok.of_perm perm.symm) (by decide) (by decide)
    (by decide) any
  obtain ⟨r, selected⟩ := Option.isSome_iff_exists.mp found
  refine ⟨r, by rw [selectCoinsMinConf_eq chance (fun _ => true) tested, selected], fun exact => ?_⟩
  exact absurd (exact.complete.mp rfl) (by decide)

end TxWallet

end Libcoin
