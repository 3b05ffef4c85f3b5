/-
The selection of claims for a block, on a pool whose dependencies go back to older claims.

* `Ranked` is a pool of this kind, and `Good` a selection without duplicates in which every claim comes
  after the claims it depends on.
* `selectAll_spec` and `transactions_spec` are the loop over the priorities and the whole selection.
-/

import Libcoin.Pool.Claims
import Mathlib.Data.Finset.Card
import Mathlib.Algebra.Order.BigOperators.Group.List

namespace Libcoin

namespace Claims

section Selection

variable {prim : Primitives} {confirmations : Map Uint256 Claim} {rank : Uint256 → Nat}

/-- The claims are stored under the hashes of their transactions, and a claim depends on older ones. -/
structure Ranked (prim : Primitives) (confirmations : Map Uint256 Claim) (rank : Uint256 → Nat) : Prop where
  keyed : ∀ hash claim, confirmations[hash]? = some claim → prim.txnHash claim.txn = hash
  older : ∀ hash claim, confirmations[hash]? = some claim → ∀ parent ∈ claim.depends,
    confirmations[parent]?.isSome = true → rank parent < rank hash

/-- A selection without duplicates, of pooled transactions in the order of their dependencies. -/
structure Good (prim : Primitives) (confirmations : Map Uint256 Claim) (selection : Selection) : Prop where
  inserted : ∀ hash, hash ∈ selection.inserted ↔ hash ∈ selection.txns.map prim.txnHash
  nodup : (selection.txns.map prim.txnHash).Nodup
  pooled : ∀ txn ∈ selection.txns, ∃ claim, confirmations[prim.txnHash txn]? = some claim ∧ claim.txn = txn
  ordered : ∀ before txn after, selection.txns = before ++ txn :: after →
    ∀ claim, confirmations[prim.txnHash txn]? = some claim → ∀ parent ∈ claim.depends,
      confirmations[parent]?.isSome = true → parent ∈ before.map prim.txnHash

/-- A selection that has grown by some transactions, all of a rank below a bound. -/
structure Grew (prim : Primitives) (confirmations : Map Uint256 Claim) (rank : Uint256 → Nat) (bound : Nat)
    (selection selection' : Selection) (added : List Transaction) : Prop where
  good : Good prim confirmations selection'
  txns : selection'.txns = selection.txns ++ added
  below : ∀ txn ∈ added, rank (prim.txnHash txn) < bound

/-- A member of a pooled claim, and 0 for what is not pooled. -/
def fieldOf (field : Claim → Int) (confirmations : Map Uint256 Claim) (hash : Uint256) : Int :=
  confirmations[hash]?.elim 0 field

theorem fieldOf_pooled (field : Claim → Int) {hash : Uint256} {claim : Claim}
    (pooled : confirmations[hash]? = some claim) : fieldOf field confirmations hash = field claim := by
  unfold fieldOf
  rw [pooled]
  rfl

/-- What each claim has covers its own transaction and what the claims it depends on have. -/
structure Covered (confirmations : Map Uint256 Claim) (weigh : Transaction → Int) (cover : Uint256 → Int) :
    Prop where
  missing : ∀ hash, confirmations[hash]? = none → cover hash = 0
  nonneg : ∀ hash, 0 ≤ cover hash
  covers : ∀ (hash : Uint256) (claim : Claim), confirmations[hash]? = some claim →
    weigh claim.txn + (claim.depends.map cover).sum ≤ cover hash

/-- The claims of lower rank than a hash. -/
def belowOf (confirmations : Map Uint256 Claim) (rank : Uint256 → Nat) (hash : Uint256) : Finset Uint256 :=
  confirmations.keys.toFinset.filter fun other => rank other < rank hash

theorem belowOf_lt {hash parent : Uint256} (older : rank parent < rank hash)
    (pooled : confirmations[parent]?.isSome = true) :
    (belowOf confirmations rank parent).card < (belowOf confirmations rank hash).card := by
  refine Finset.card_lt_card (Finset.ssubset_iff_of_subset ?_ |>.mpr ⟨parent, ?_, ?_⟩)
  · intro other member
    obtain ⟨stored, lower⟩ := Finset.mem_filter.mp member
    exact Finset.mem_filter.mpr ⟨stored, lower.trans older⟩
  · refine Finset.mem_filter.mpr ⟨List.mem_toFinset.mpr ?_, older⟩
    rw [Std.ExtTreeMap.mem_keys, Std.ExtTreeMap.mem_iff_isSome_getElem?]
    exact pooled
  · intro member
    exact lt_irrefl _ (Finset.mem_filter.mp member).2

theorem belowOf_le (hash : Uint256) : (belowOf confirmations rank hash).card ≤ confirmations.size := by
  refine (Finset.card_filter_le _ _).trans ((List.toFinset_card_le _).trans ?_)
  rw [Std.ExtTreeMap.length_keys]

/-! ### One claim with what it depends on -/

/-- An insertion succeeds, counts the sizes of the claims it adds, and stays below what covers them. -/
def Inserts (prim : Primitives) (confirmations : Map Uint256 Claim) (rank : Uint256 → Nat) (bound : Nat)
    (selection : Selection) (start : Int) (within : (Uint256 → Int) → Int) (wanted : Uint256 → Prop)
    (result : Option (Int × Selection)) : Prop :=
  ∃ added selection',
    result = some (start + (added.map fun txn => fieldOf Claim.size confirmations (prim.txnHash txn)).sum,
      selection') ∧
    Grew prim confirmations rank bound selection selection' added ∧
    (∀ hash, wanted hash → hash ∈ selection'.inserted) ∧
    ∀ weigh cover, Covered confirmations weigh cover → (added.map weigh).sum ≤ within cover

theorem Grew.inserted {bound : Nat} {selection selection' : Selection} {added : List Transaction}
    (grew : Grew prim confirmations rank bound selection selection' added)
    (good : Good prim confirmations selection) {hash : Uint256} (member : hash ∈ selection.inserted) :
    hash ∈ selection'.inserted := by
  rw [grew.good.inserted, grew.txns, List.map_append, List.mem_append]
  exact .inl ((good.inserted hash).mp member)

/-- The loop over the claims that a claim depends on. -/
theorem insertDepends_spec {recursion : Claim → Selection → Option (Int × Selection)} {bound : Nat}
    (inserts : ∀ parent claim selection, confirmations[parent]? = some claim → rank parent < bound →
      parent ∉ selection.inserted → Good prim confirmations selection →
      Inserts prim confirmations rank bound selection 0 (fun cover => cover parent) (· = parent)
        (recursion claim selection))
    (parents : List Uint256)
    (older : ∀ parent ∈ parents, confirmations[parent]?.isSome = true → rank parent < bound) (start : Int)
    (selection : Selection) (good : Good prim confirmations selection) :
    Inserts prim confirmations rank bound selection start (fun cover => (parents.map cover).sum)
      (fun hash => hash ∈ parents ∧ confirmations[hash]?.isSome = true)
      (insertDepends recursion confirmations parents start selection) := by
  induction parents generalizing start selection with
  | nil =>
    refine ⟨[], selection, ?_, ⟨good, (List.append_nil _).symm, nofun⟩, nofun, fun _ _ _ => le_rfl⟩
    simp [insertDepends]
  | cons parent parents ih =>
    have older_rest := fun other member => older other (List.mem_cons_of_mem parent member)
    -- a parent that is skipped adds nothing, and what covers it is not negative
    have skip : parent ∈ selection.inserted ∨ confirmations[parent]? = none →
        Inserts prim confirmations rank bound selection start (fun cover => ((parent :: parents).map cover).sum)
          (fun hash => hash ∈ parent :: parents ∧ confirmations[hash]?.isSome = true)
          (insertDepends recursion confirmations parents start selection) := by
      intro skipped
      obtain ⟨added, selection', result, grew, wanted, within⟩ := ih older_rest start selection good
      refine ⟨added, selection', result, grew, fun hash asked => ?_, fun weigh cover covered => ?_⟩
      · rcases List.mem_cons.mp asked.1 with rfl | later
        · rcases skipped with before | missing
          · exact grew.inserted good before
          · rw [missing] at asked
            cases asked.2
        · exact wanted hash ⟨later, asked.2⟩
      · have rest : (added.map weigh).sum ≤ (parents.map cover).sum := within weigh cover covered
        have nonneg := covered.nonneg parent
        simp only [List.map_cons, List.sum_cons]
        omega
    unfold insertDepends
    by_cases before : parent ∈ selection.inserted
    · rw [if_pos before]
      exact skip (.inl before)
    · rw [if_neg before]
      cases pooled : confirmations[parent]? with
      | none => exact skip (.inr pooled)
      | some claim =>
        have lower := older parent List.mem_cons_self (by rw [pooled]; rfl)
        obtain ⟨added, middle, one, grew, wanted, within⟩ :=
          inserts parent claim selection pooled lower before good
        obtain ⟨added', selection', two, grew', wanted', within'⟩ :=
          ih older_rest (start + (added.map fun txn =>
            fieldOf Claim.size confirmations (prim.txnHash txn)).sum) middle grew.good
        refine ⟨added ++ added', selection', ?_, ⟨grew'.good, ?_, ?_⟩, ?_, ?_⟩
        · show (recursion claim selection >>= fun result =>
            insertDepends recursion confirmations parents (start + result.1) result.2) = _
          rw [one]
          show insertDepends recursion confirmations parents (start + (0 + _)) middle = _
          rw [zero_add, two, List.map_append, List.sum_append, add_assoc]
        · rw [grew'.txns, grew.txns, List.append_assoc]
        · intro txn member
          exact (List.mem_append.mp member).elim (grew.below txn) (grew'.below txn)
        · intro hash asked
          rcases List.mem_cons.mp asked.1 with rfl | later
          · exact grew'.inserted grew.good (wanted hash rfl)
          · exact wanted' hash ⟨later, asked.2⟩
        · intro weigh cover covered
          have first : (added.map weigh).sum ≤ cover parent := within weigh cover covered
          have rest : (added'.map weigh).sum ≤ (parents.map cover).sum := within' weigh cover covered
          simp only [List.map_append, List.sum_append, List.map_cons, List.sum_cons]
          omega

theorem Inserts.mono {bound bound' : Nat} (le : bound ≤ bound') {selection : Selection} {start : Int}
    {within : (Uint256 → Int) → Int} {wanted : Uint256 → Prop} {result : Option (Int × Selection)}
    (inserts : Inserts prim confirmations rank bound selection start within wanted result) :
    Inserts prim confirmations rank bound' selection start within wanted result := by
  obtain ⟨added, selection', done, grew, rest⟩ := inserts
  exact ⟨added, selection', done, ⟨grew.good, grew.txns, fun txn member =>
    (grew.below txn member).trans_le le⟩, rest⟩

/-- A claim enters a good selection that has all it depends on. -/
theorem Good.append (ranked : Ranked prim confirmations rank) {selection : Selection}
    (good : Good prim confirmations selection) {hash : Uint256} {claim : Claim}
    (pooled : confirmations[hash]? = some claim) (fresh : hash ∉ selection.inserted)
    (ready : ∀ parent, parent ∈ claim.depends ∧ confirmations[parent]?.isSome = true →
      parent ∈ selection.inserted) :
    Good prim confirmations
      { txns := selection.txns ++ [claim.txn]
        inserted := selection.inserted ∪ {prim.txnHash claim.txn} } := by
  have key := ranked.keyed hash claim pooled
  refine ⟨fun other => ?_, ?_, fun txn member => ?_,
    fun before txn after split other found parent depends stored => ?_⟩
  · rw [Finset.mem_union, Finset.mem_singleton, List.map_append, List.mem_append, List.map_singleton,
      List.mem_singleton, good.inserted]
  · rw [List.map_append, List.map_singleton, key]
    refine List.nodup_append.mpr ⟨good.nodup, List.nodup_singleton _, fun one first two second same => ?_⟩
    rw [List.mem_singleton.mp second] at same
    rw [same] at first
    exact fresh ((good.inserted hash).mpr first)
  · rcases List.mem_append.mp member with old | new
    · exact good.pooled txn old
    · rw [List.mem_singleton.mp new, key]
      exact ⟨claim, pooled, rfl⟩
  · rcases List.eq_nil_or_concat' after with rfl | ⟨rest, last, rfl⟩
    · obtain ⟨rfl, same⟩ := List.append_inj' split rfl
      obtain rfl : claim.txn = txn := (List.cons.inj same).1
      rw [key, pooled] at found
      obtain rfl := Option.some.inj found
      exact (good.inserted parent).mp (ready parent ⟨depends, stored⟩)
    · rw [← List.cons_append, ← List.append_assoc] at split
      obtain ⟨same, -⟩ := List.append_inj' split rfl
      exact good.ordered before txn rest same other found parent depends stored

/-- **The recursion ends, and keeps the order.** It needs no more depth than there are older claims. -/
theorem insertClaim_spec (ranked : Ranked prim confirmations rank) (depth : Nat) (hash : Uint256)
    (claim : Claim) (selection : Selection) (pooled : confirmations[hash]? = some claim)
    (enough : (belowOf confirmations rank hash).card < depth) (fresh : hash ∉ selection.inserted)
    (good : Good prim confirmations selection) :
    Inserts prim confirmations rank (rank hash + 1) selection 0 (fun cover => cover hash) (· = hash)
      (insertClaim prim confirmations depth claim selection) := by
  induction depth generalizing hash claim selection with
  | zero => omega
  | succ depth ih =>
    have older := ranked.older hash claim pooled
    have inserts : ∀ parent claim' selection', confirmations[parent]? = some claim' →
        rank parent < rank hash → parent ∉ selection'.inserted → Good prim confirmations selection' →
        Inserts prim confirmations rank (rank hash) selection' 0 (fun cover => cover parent) (· = parent)
          (insertClaim prim confirmations depth claim' selection') := by
      intro parent claim' selection' stored lower new good'
      have less : (belowOf confirmations rank parent).card < (belowOf confirmations rank hash).card :=
        belowOf_lt lower (by rw [stored]; rfl)
      exact (ih parent claim' selection' stored (by omega) new good').mono lower
    obtain ⟨added, middle, done, grew, wanted, within⟩ :=
      insertDepends_spec inserts claim.depends older 0 selection good
    have key := ranked.keyed hash claim pooled
    have still_fresh : hash ∉ middle.inserted := by
      rw [grew.good.inserted, grew.txns, List.map_append, List.mem_append, ← good.inserted]
      rintro (old | new)
      · exact fresh old
      · obtain ⟨txn, member, same⟩ := List.mem_map.mp new
        have lower := grew.below txn member
        rw [same] at lower
        exact lt_irrefl _ lower
    refine ⟨added ++ [claim.txn], _, ?_, ⟨grew.good.append ranked pooled still_fresh wanted, ?_, ?_⟩, ?_, ?_⟩
    · show (insertDepends _ confirmations claim.depends 0 selection >>= _) = _
      rw [done]
      show some (_ + claim.size, _) = _
      rw [List.map_append, List.sum_append, List.map_singleton, List.sum_singleton, key, add_assoc]
      rw [fieldOf_pooled _ pooled]
    · rw [grew.txns, List.append_assoc]
    · intro txn member
      rcases List.mem_append.mp member with old | new
      · exact (grew.below txn old).trans (Nat.lt_succ_self _)
      · rw [List.mem_singleton.mp new, key]
        exact Nat.lt_succ_self _
    · rintro other rfl
      rw [Finset.mem_union, Finset.mem_singleton]
      exact .inr key.symm
    · intro weigh cover covered
      have below : (added.map weigh).sum ≤ (claim.depends.map cover).sum := within weigh cover covered
      have own := covered.covers hash claim pooled
      show ((added ++ [claim.txn]).map weigh).sum ≤ cover hash
      rw [List.map_append, List.sum_append, List.map_singleton, List.sum_singleton]
      omega

/-! ### The loop over the priorities -/

/-- Each insertion that the loop can make keeps a relation between a selection, its size and its fee. -/
def Kept (prim : Primitives) (confirmations : Map Uint256 Claim) (rank : Uint256 → Nat)
    (kept : Selection → Int → Int → Prop) : Prop :=
  ∀ hash claim selection size fee added selection', confirmations[hash]? = some claim →
    Good prim confirmations selection → kept selection size fee → size + claim.size < maxBlockSize →
    Grew prim confirmations rank (rank hash + 1) selection selection' added →
    hash ∉ selection.inserted → hash ∈ selection'.inserted →
    (∀ weigh cover, Covered confirmations weigh cover → (added.map weigh).sum ≤ cover hash) →
    kept selection' (size + (added.map fun txn => fieldOf Claim.size confirmations (prim.txnHash txn)).sum)
      (wrap64 (fee + claim.fee))

/-- What each insertion keeps holds of the whole selection, which ends. -/
theorem selectAll_spec (ranked : Ranked prim confirmations rank) {kept : Selection → Int → Int → Prop}
    (keeps : Kept prim confirmations rank kept)
    (hashes : List Uint256) (size fee : Int) (selection : Selection)
    (good : Good prim confirmations selection) (start : kept selection size fee) :
    ∃ selection' size' fee',
      selectAll prim confirmations hashes size fee selection = some (selection'.txns, fee') ∧
        Good prim confirmations selection' ∧ kept selection' size' fee' := by
  induction hashes generalizing size fee selection with
  | nil => exact ⟨selection, size, fee, rfl, good, start⟩
  | cons hash hashes ih =>
    unfold selectAll
    cases pooled : confirmations[hash]? with
    | none => exact ih size fee selection good start
    | some claim =>
      dsimp only
      by_cases before : hash ∈ selection.inserted
      · rw [if_pos before]
        exact ih size fee selection good start
      · rw [if_neg before]
        by_cases full : maxBlockSize ≤ size + claim.size
        · rw [if_pos full]
          exact ⟨selection, size, fee, rfl, good, start⟩
        · rw [if_neg full]
          have enough : (belowOf confirmations rank hash).card < confirmations.size + 1 :=
            Nat.lt_succ_of_le (belowOf_le hash)
          obtain ⟨added, selection', done, grew, wanted, within⟩ :=
            insertClaim_spec ranked _ hash claim selection pooled enough before good
          rw [done, zero_add]
          exact ih _ _ _ grew.good (keeps hash claim selection size fee added selection' pooled good start
            (not_le.mp full) grew before (wanted hash rfl) within)

theorem good_nothing : Good prim confirmations { txns := [], inserted := ∅ } :=
  ⟨fun hash => by simp, List.nodup_nil, nofun, fun before txn after split => by
    simp at split⟩

/-- What covers a claim covers its own transaction. -/
theorem Covered.own {weigh : Transaction → Int} {cover : Uint256 → Int}
    (covered : Covered confirmations weigh cover) {hash : Uint256} {claim : Claim}
    (pooled : confirmations[hash]? = some claim) : weigh claim.txn ≤ cover hash := by
  have covers := covered.covers hash claim pooled
  have nonneg : 0 ≤ (claim.depends.map cover).sum := by
    refine List.sum_nonneg fun value member => ?_
    obtain ⟨parent, -, rfl⟩ := List.mem_map.mp member
    exact covered.nonneg parent
  omega

/-- The transactions that were added come from the pool. -/
theorem Grew.pooled {bound : Nat} {selection selection' : Selection} {added : List Transaction}
    (grew : Grew prim confirmations rank bound selection selection' added) {txn : Transaction}
    (member : txn ∈ added) : ∃ claim, confirmations[prim.txnHash txn]? = some claim ∧ claim.txn = txn := by
  refine grew.good.pooled txn ?_
  rw [grew.txns]
  exact List.mem_append_right _ member

/-- **The selection fits into a block**, if sizes cover what claims depend on. -/
theorem transactions_room (ranked : Ranked prim confirmations rank)
    (covered : Covered confirmations prim.txnSize (fieldOf Claim.size confirmations)) {claims : Claims}
    (same : claims.confirmations = confirmations) {reserve : Int} (room : reserve < maxBlockSize) :
    ∃ selection fee, transactions prim claims reserve = some (selection.txns, fee) ∧
      Good prim confirmations selection ∧ reserve + (selection.txns.map prim.txnSize).sum < maxBlockSize := by
  let kept : Selection → Int → Int → Prop := fun selection size _ =>
    reserve + (selection.txns.map prim.txnSize).sum ≤ size ∧
      reserve + (selection.txns.map prim.txnSize).sum < maxBlockSize
  have start : kept { txns := [], inserted := ∅ } reserve 0 := by
    refine ⟨?_, ?_⟩
    · simp
    · simpa using room
  have keeps : Kept prim confirmations rank kept := by
    rintro hash claim selection size fee added selection' pooled - ⟨counted, -⟩ small grew - - within
    have covers : (added.map prim.txnSize).sum ≤ fieldOf Claim.size confirmations hash := within _ _ covered
    have each : (added.map prim.txnSize).sum ≤
        (added.map fun txn => fieldOf Claim.size confirmations (prim.txnHash txn)).sum := by
      refine List.sum_le_sum fun txn member => ?_
      obtain ⟨other, stored, rfl⟩ := grew.pooled member
      exact covered.own stored
    rw [fieldOf_pooled _ pooled] at covers
    show reserve + (selection'.txns.map prim.txnSize).sum ≤ _ ∧
      reserve + (selection'.txns.map prim.txnSize).sum < _
    rw [grew.txns, List.map_append, List.sum_append]
    omega
  obtain ⟨selection, size, fee, done, good, -, fits⟩ :=
    selectAll_spec ranked keeps claims.priorities reserve 0 _ good_nothing start
  refine ⟨selection, fee, ?_, good, fits⟩
  unfold transactions
  rw [same]
  exact done

/-- **The fee is counted once**, if claims depend on claims without a fee alone. -/
theorem transactions_fee (ranked : Ranked prim confirmations rank)
    (covered : Covered confirmations (fun txn =>
      fieldOf Claim.fee confirmations (prim.txnHash txn)) (fieldOf Claim.fee confirmations))
    {claims : Claims} (same : claims.confirmations = confirmations) (reserve : Int) :
    ∃ selection, transactions prim claims reserve =
        some (selection.txns, wrap64 (selection.txns.map fun txn =>
          fieldOf Claim.fee confirmations (prim.txnHash txn)).sum) ∧
      Good prim confirmations selection := by
  let kept : Selection → Int → Int → Prop := fun selection _ fee =>
    fee = wrap64 (selection.txns.map fun txn => fieldOf Claim.fee confirmations (prim.txnHash txn)).sum
  have keeps : Kept prim confirmations rank kept := by
    rintro hash claim selection size fee added selection' pooled good total - grew fresh inserted within
    have below : (added.map fun txn => fieldOf Claim.fee confirmations (prim.txnHash txn)).sum ≤
      fieldOf Claim.fee confirmations hash :=
      within _ _ covered
    -- the claim itself is among those that were added
    have own : hash ∈ added.map prim.txnHash := by
      rw [grew.good.inserted, grew.txns, List.map_append, List.mem_append, ← good.inserted] at inserted
      exact inserted.resolve_left fresh
    have above : fieldOf Claim.fee confirmations hash ≤ (added.map fun txn =>
      fieldOf Claim.fee confirmations (prim.txnHash txn)).sum := by
      have member : fieldOf Claim.fee confirmations hash ∈ (added.map prim.txnHash).map
        (fieldOf Claim.fee confirmations) :=
        List.mem_map_of_mem own
      rw [List.map_map] at member
      refine List.single_le_sum (fun value inside => ?_) _ member
      obtain ⟨txn, -, rfl⟩ := List.mem_map.mp inside
      exact covered.nonneg _
    have fee_eq : fieldOf Claim.fee confirmations hash = claim.fee := fieldOf_pooled _ pooled
    show wrap64 (fee + claim.fee) = wrap64 (selection'.txns.map _).sum
    rw [show fee = _ from total, wrap64_add, grew.txns, List.map_append, List.sum_append]
    congr 1
    omega
  obtain ⟨selection, size, fee, done, good, total⟩ :=
    selectAll_spec ranked keeps claims.priorities reserve 0 _ good_nothing rfl
  refine ⟨selection, ?_, good⟩
  unfold transactions
  rw [same, ← show fee = _ from total]
  exact done

end Selection

end Claims

end Libcoin
