/-
What the pool keeps about claims and the claims they spend.

* `newClaim_depends`, `newClaim_size` and `newClaim_fee` say what the loop of `insert` over the inputs
  gathers.
* `Family` is the invariant: dependencies go back to older claims, every pooled parent is recorded, and
  the size of a claim covers its parents. Erasing keeps it (`Family.erase`); inserting keeps it when no
  pooled claim spends what is inserted (`Family.insert`).
* `FeeFree` is the invariant that claims depend on claims without a fee alone.
-/

import Libcoin.Pool.Selection
import Libcoin.Pool.Priorities

namespace Libcoin

namespace Claims

section Gather

variable {prim : Primitives} {now : Int} {claims : Claims} {txn : Transaction} {fee ts : Int}

theorem wrapU32_add (a b : Int) : wrapU32 (wrapU32 a + b) = wrapU32 (a + b) := Int.emod_add_emod _ _ _

theorem foldl_addParent_txn (confirmations : Map Uint256 Claim) (inputs : List Input) (claim : Claim) :
    (inputs.foldl (addParent confirmations) claim).txn = claim.txn := by
  induction inputs generalizing claim with
  | nil => rfl
  | cons input inputs ih =>
    rw [List.foldl_cons, ih]
    unfold addParent
    cases confirmations[input.prevout.hash]? with
    | none => rfl
    | some parent => rfl

/-- The hashes that the inputs name, as far as they are pooled. -/
def parentsOf (confirmations : Map Uint256 Claim) (inputs : List Input) : List Uint256 :=
  (inputs.map fun input => input.prevout.hash).filter fun hash => confirmations[hash]?.isSome

theorem parentsOf_cons (confirmations : Map Uint256 Claim) (input : Input) (inputs : List Input) :
    parentsOf confirmations (input :: inputs) =
      (if confirmations[input.prevout.hash]?.isSome then [input.prevout.hash] else []) ++
        parentsOf confirmations inputs := by
  unfold parentsOf
  rw [List.map_cons, List.filter_cons]
  split <;> rfl

theorem foldl_addParent_depends (confirmations : Map Uint256 Claim) (inputs : List Input) (claim : Claim) :
    (inputs.foldl (addParent confirmations) claim).depends =
      claim.depends ++ parentsOf confirmations inputs := by
  induction inputs generalizing claim with
  | nil => exact (List.append_nil _).symm
  | cons input inputs ih =>
    rw [List.foldl_cons, ih, parentsOf_cons, ← List.append_assoc]
    unfold addParent
    cases confirmations[input.prevout.hash]? with
    | none => simp
    | some parent => simp

/-- A sum that wraps is gathered over the parents. -/
theorem foldl_addParent_field {field : Claim → Int} {wrap : Int → Int} (add : ∀ a b, wrap (wrap a + b) = wrap (a + b))
    {confirmations : Map Uint256 Claim}
    (joined : ∀ (claim : Claim) (input : Input) (parent : Claim), confirmations[input.prevout.hash]? = some parent →
      field (addParent confirmations claim input) = wrap (field claim + field parent))
    (inputs : List Input) (claim : Claim) (wrapped : wrap (field claim) = field claim) :
    field (inputs.foldl (addParent confirmations) claim) =
      wrap (field claim + ((parentsOf confirmations inputs).map (fieldOf field confirmations)).sum) := by
  induction inputs generalizing claim with
  | nil =>
    rw [List.foldl_nil, ← wrapped]
    simp [parentsOf, wrapped]
  | cons input inputs ih =>
    rw [List.foldl_cons, parentsOf_cons]
    cases pooled : confirmations[input.prevout.hash]? with
    | none =>
      have same : addParent confirmations claim input = claim := by
        unfold addParent
        rw [pooled]
      rw [same, ih claim wrapped]
      simp
    | some parent =>
      have added := joined claim input parent pooled
      have again : wrap (wrap (field claim + field parent)) = wrap (field claim + field parent) := by
        simpa only [add_zero] using add (field claim + field parent) 0
      rw [ih _ (by rw [added, again]), added, add]
      simp [fieldOf_pooled _ pooled, add_assoc]

@[simp] theorem newClaim_txn : (newClaim prim now claims txn fee ts).txn = txn :=
  foldl_addParent_txn _ _ _

@[simp] theorem newClaim_depends :
    (newClaim prim now claims txn fee ts).depends = parentsOf claims.confirmations txn.inputs :=
  (foldl_addParent_depends _ _ _).trans (List.nil_append _)

theorem newClaim_size :
    (newClaim prim now claims txn fee ts).size = wrapU32 (prim.txnSize txn +
      ((parentsOf claims.confirmations txn.inputs).map (fieldOf Claim.size claims.confirmations)).sum) := by
  refine (foldl_addParent_field wrapU32_add (fun claim input parent pooled => ?_) _ _
    (Int.emod_emod_of_dvd _ (dvd_refl _))).trans (wrapU32_add _ _)
  unfold addParent
  rw [pooled]

theorem newClaim_fee (range : wrap64 fee = fee) :
    (newClaim prim now claims txn fee ts).fee = wrap64 (fee +
      ((parentsOf claims.confirmations txn.inputs).map (fieldOf Claim.fee claims.confirmations)).sum) := by
  refine foldl_addParent_field wrap64_add (fun claim input parent pooled => ?_) _ _ range
  unfold addParent
  rw [pooled]

theorem mem_parentsOf {confirmations : Map Uint256 Claim} {inputs : List Input} {hash : Uint256} :
    hash ∈ parentsOf confirmations inputs ↔
      (∃ input ∈ inputs, input.prevout.hash = hash) ∧ confirmations[hash]?.isSome = true := by
  unfold parentsOf
  rw [List.mem_filter, List.mem_map]

end Gather

/-! ### The invariant -/

/-- What the pool keeps about claims and the claims they spend. -/
structure Family (prim : Primitives) (claims : Claims) : Prop where
  ranked : ∃ rank, Ranked prim claims.confirmations rank
  /-- A claim depends on what its inputs name, and on all of it that is pooled. -/
  named : ∀ (hash : Uint256) (claim : Claim), claims.confirmations[hash]? = some claim →
    ∀ parent ∈ claim.depends, ∃ input ∈ claim.txn.inputs, input.prevout.hash = parent
  linked : ∀ (hash : Uint256) (claim : Claim), claims.confirmations[hash]? = some claim →
    ∀ input ∈ claim.txn.inputs, input.prevout.hash ≠ hash →
      claims.confirmations[input.prevout.hash]?.isSome = true → input.prevout.hash ∈ claim.depends

/-- No pooled claim spends an output of the transaction. -/
def Childless (prim : Primitives) (claims : Claims) (txn : Transaction) : Prop :=
  ∀ (hash : Uint256) (claim : Claim), claims.confirmations[hash]? = some claim →
    ∀ input ∈ claim.txn.inputs, input.prevout.hash ≠ prim.txnHash txn

/-- The size of a new claim, with the sizes of the claims that it spends, is one of `unsigned int`. -/
def SizeFits (prim : Primitives) (claims : Claims) (txn : Transaction) : Prop :=
  0 ≤ prim.txnSize txn ∧
    prim.txnSize txn + ((parentsOf claims.confirmations txn.inputs).map
      (fieldOf Claim.size claims.confirmations)).sum < 2 ^ 32

instance (prim : Primitives) (claims : Claims) (txn : Transaction) : Decidable (Childless prim claims txn) :=
  have all : (∀ entry ∈ claims.confirmations.toList, ∀ input ∈ entry.2.txn.inputs,
        input.prevout.hash ≠ prim.txnHash txn) ↔ Childless prim claims txn :=
    ⟨fun all hash claim found => all (hash, claim) (Map.mem_toList.mpr found),
      fun all entry member => all entry.1 entry.2 (Map.mem_toList.mp member)⟩
  decidable_of_iff _ all

instance (prim : Primitives) (claims : Claims) (txn : Transaction) : Decidable (SizeFits prim claims txn) :=
  inferInstanceAs (Decidable (_ ∧ _))

theorem family_empty (prim : Primitives) : Family prim empty :=
  ⟨⟨fun _ => 0, nofun, nofun⟩, nofun, nofun⟩

theorem covered_empty (weigh : Transaction → Int) (field : Claim → Int) :
    Covered empty.confirmations weigh (fieldOf field empty.confirmations) :=
  ⟨fun _ _ => rfl, fun _ => le_rfl, nofun⟩

section Step

variable {prim : Primitives} {claims : Claims}

theorem isSome_of_erase {hash other : Uint256}
    (stored : (claims.erase hash).confirmations[other]?.isSome = true) :
    claims.confirmations[other]?.isSome = true := by
  obtain ⟨claim, found⟩ := Option.isSome_iff_exists.mp stored
  rw [(lookup_of_erase found).2]
  rfl

theorem Family.erase (family : Family prim claims) (hash : Uint256) : Family prim (claims.erase hash) := by
  obtain ⟨rank, ranked⟩ := family.ranked
  refine ⟨⟨rank, fun other claim found => ?_, fun other claim found parent depends stored => ?_⟩,
    fun other claim found => ?_, fun other claim found input member apart stored => ?_⟩
  · exact ranked.keyed other claim (lookup_of_erase found).2
  · exact ranked.older other claim (lookup_of_erase found).2 parent depends (isSome_of_erase stored)
  · exact family.named other claim (lookup_of_erase found).2
  · exact family.linked other claim (lookup_of_erase found).2 input member apart (isSome_of_erase stored)

theorem fieldOf_erase (field : Claim → Int) (hash other : Uint256) :
    fieldOf field (claims.erase hash).confirmations other =
      if hash = other then 0 else fieldOf field claims.confirmations other := by
  unfold fieldOf
  rw [lookup_erase]
  split_ifs <;> rfl

/-- A field that covers the claims still does when one of them is erased. -/
theorem covered_erase {weigh : Transaction → Int} {field : Claim → Int}
    (covered : Covered claims.confirmations weigh (fieldOf field claims.confirmations)) (hash : Uint256) :
    Covered (claims.erase hash).confirmations weigh (fieldOf field (claims.erase hash).confirmations) := by
  have less : ∀ other, fieldOf field (claims.erase hash).confirmations other ≤
      fieldOf field claims.confirmations other := by
    intro other
    rw [fieldOf_erase]
    split_ifs with same
    · exact covered.nonneg other
    · exact le_rfl
  refine ⟨fun other missing => ?_, fun other => ?_, fun other claim found => ?_⟩
  · unfold fieldOf
    rw [missing]
    rfl
  · rw [fieldOf_erase]
    split_ifs with same
    · exact le_rfl
    · exact covered.nonneg other
  · have kept := (lookup_of_erase found).2
    have covers := covered.covers other claim kept
    have below : (claim.depends.map (fieldOf field (claims.erase hash).confirmations)).sum ≤
        (claim.depends.map (fieldOf field claims.confirmations)).sum :=
      List.sum_le_sum fun parent _ => less parent
    rw [fieldOf_pooled _ kept] at covers
    rw [fieldOf_pooled _ found]
    omega

variable {now : Int} {txn : Transaction} {spents : Finset Coin} {fee ts : Int}

/-- A key of the pool after an insertion is new or an old one. -/
theorem lookup_of_insert (fresh : claims.haveHash (prim.txnHash txn) = false) {hash : Uint256} {claim : Claim}
    (found : (claims.insert prim now txn spents fee ts).confirmations[hash]? = some claim) :
    hash = prim.txnHash txn ∧ claim = newClaim prim now claims txn fee ts ∨
      hash ≠ prim.txnHash txn ∧ claims.confirmations[hash]? = some claim := by
  rw [lookup_insert] at found
  split_ifs at found with same
  · rw [lookup_of_not_have fresh] at found
    exact .inl ⟨same.symm, (Option.some.inj found).symm⟩
  · exact .inr ⟨Ne.symm same, found⟩

theorem isSome_of_insert {hash : Uint256} (apart : hash ≠ prim.txnHash txn)
    (stored : (claims.insert prim now txn spents fee ts).confirmations[hash]?.isSome = true) :
    claims.confirmations[hash]?.isSome = true := by
  rwa [lookup_insert, if_neg (Ne.symm apart)] at stored

/-- **A claim that nothing spends yet enters the pool.** -/
theorem Family.insert (family : Family prim claims) (fresh : claims.haveHash (prim.txnHash txn) = false)
    (childless : Childless prim claims txn) :
    Family prim (claims.insert prim now txn spents fee ts) := by
  obtain ⟨rank, ranked⟩ := family.ranked
  let top := ((claims.confirmations.keys.map rank).sum)
  have below_top : ∀ hash, claims.confirmations[hash]?.isSome = true → rank hash ≤ top := by
    intro hash stored
    refine List.single_le_sum (fun _ _ => Nat.zero_le _) _ (List.mem_map_of_mem ?_)
    rw [Std.ExtTreeMap.mem_keys, Std.ExtTreeMap.mem_iff_isSome_getElem?]
    exact stored
  have apart_of_depends : ∀ (hash : Uint256) (claim : Claim), claims.confirmations[hash]? = some claim →
      ∀ parent ∈ claim.depends, parent ≠ prim.txnHash txn := by
    rintro hash claim found parent depends rfl
    obtain ⟨input, member, same⟩ := family.named hash claim found _ depends
    exact childless hash claim found input member same
  refine ⟨⟨fun hash => if hash = prim.txnHash txn then top + 1 else rank hash, ?_, ?_⟩, ?_, ?_⟩
  · intro hash claim found
    rcases lookup_of_insert fresh found with ⟨rfl, rfl⟩ | ⟨apart, old⟩
    · rw [newClaim_txn]
    · exact ranked.keyed hash claim old
  · intro hash claim found parent depends stored
    rcases lookup_of_insert fresh found with ⟨rfl, rfl⟩ | ⟨apart, old⟩
    · rw [newClaim_depends, mem_parentsOf] at depends
      have new : parent ≠ prim.txnHash txn := by
        rintro rfl
        rw [lookup_of_not_have fresh] at depends
        cases depends.2
      rw [if_neg new, if_pos rfl]
      exact Nat.lt_succ_of_le (below_top parent depends.2)
    · have new := apart_of_depends hash claim old parent depends
      rw [if_neg new, if_neg apart]
      exact ranked.older hash claim old parent depends (isSome_of_insert new stored)
  · intro hash claim found parent depends
    rcases lookup_of_insert fresh found with ⟨rfl, rfl⟩ | ⟨apart, old⟩
    · rw [newClaim_depends, mem_parentsOf] at depends
      rw [newClaim_txn]
      exact depends.1
    · exact family.named hash claim old parent depends
  · intro hash claim found input member other stored
    rcases lookup_of_insert fresh found with ⟨rfl, rfl⟩ | ⟨apart, old⟩
    · rw [newClaim_txn] at member
      rw [newClaim_depends, mem_parentsOf]
      exact ⟨⟨input, member, rfl⟩, isSome_of_insert other stored⟩
    · have new := childless hash claim old input member
      exact family.linked hash claim old input member other (isSome_of_insert new stored)

theorem fieldOf_insert (field : Claim → Int) {hash : Uint256} (apart : hash ≠ prim.txnHash txn) :
    fieldOf field (claims.insert prim now txn spents fee ts).confirmations hash =
      fieldOf field claims.confirmations hash := by
  unfold fieldOf
  rw [lookup_insert, if_neg (Ne.symm apart)]

/-- The field of a new claim covers its own weight and what its parents have. -/
theorem covered_insert {weigh : Transaction → Int} {field : Claim → Int} (family : Family prim claims)
    (covered : Covered claims.confirmations weigh (fieldOf field claims.confirmations))
    (fresh : claims.haveHash (prim.txnHash txn) = false) (childless : Childless prim claims txn)
    (nonneg : 0 ≤ weigh txn)
    (gathers : weigh txn +
        ((parentsOf claims.confirmations txn.inputs).map (fieldOf field claims.confirmations)).sum ≤
      field (newClaim prim now claims txn fee ts)) :
    Covered (claims.insert prim now txn spents fee ts).confirmations weigh
      (fieldOf field (claims.insert prim now txn spents fee ts).confirmations) := by
  have new_field : fieldOf field (claims.insert prim now txn spents fee ts).confirmations (prim.txnHash txn) =
      field (newClaim prim now claims txn fee ts) := fieldOf_pooled _ (lookup_inserted fresh)
  have parents_nonneg : 0 ≤
      ((parentsOf claims.confirmations txn.inputs).map (fieldOf field claims.confirmations)).sum := by
    refine List.sum_nonneg fun value member => ?_
    obtain ⟨hash, -, rfl⟩ := List.mem_map.mp member
    exact covered.nonneg hash
  refine ⟨fun hash missing => ?_, fun hash => ?_, fun hash claim found => ?_⟩
  · unfold fieldOf
    rw [missing]
    rfl
  · by_cases new : hash = prim.txnHash txn
    · rw [new, new_field]
      omega
    · rw [fieldOf_insert field new]
      exact covered.nonneg hash
  · rcases lookup_of_insert fresh found with ⟨rfl, rfl⟩ | ⟨apart, old⟩
    · have kept : (parentsOf claims.confirmations txn.inputs).map
            (fieldOf field (claims.insert prim now txn spents fee ts).confirmations) =
          (parentsOf claims.confirmations txn.inputs).map (fieldOf field claims.confirmations) := by
        refine List.map_congr_left fun hash member => fieldOf_insert field ?_
        rintro rfl
        have stored := (mem_parentsOf.mp member).2
        rw [lookup_of_not_have fresh] at stored
        cases stored
      rw [newClaim_txn, newClaim_depends, kept, new_field]
      exact gathers
    · have kept : claim.depends.map
            (fieldOf field (claims.insert prim now txn spents fee ts).confirmations) =
          claim.depends.map (fieldOf field claims.confirmations) := by
        refine List.map_congr_left fun hash member => fieldOf_insert field ?_
        obtain ⟨input, inside, named⟩ := family.named _ claim old hash member
        exact named ▸ childless _ claim old input inside
      rw [kept, fieldOf_insert field apart]
      exact covered.covers hash claim old

end Step

/-! ### What is selected -/

section Selected

variable {prim : Primitives} {claims : Claims}

/-- A sequence of transactions for a block can be had for every reserve: it has no transaction twice,
every transaction comes after the pooled ones that it spends, and it leaves room for the reserve. -/
def Minable (prim : Primitives) (claims : Claims) : Prop :=
  ∀ reserve, reserve < maxBlockSize → ∃ txns fee, transactions prim claims reserve = some (txns, fee) ∧
    txns.Nodup ∧
    (∀ before txn after, txns = before ++ txn :: after → ∀ input ∈ txn.inputs, ∀ parent : Claim,
      claims.confirmations[input.prevout.hash]? = some parent → parent.txn ≠ txn → parent.txn ∈ before) ∧
    reserve + (txns.map prim.txnSize).sum < maxBlockSize

/-- The families of the pool, with sizes that cover them. -/
structure Sized (prim : Primitives) (claims : Claims) : Prop extends Family prim claims where
  sizes : Covered claims.confirmations prim.txnSize (fieldOf Claim.size claims.confirmations)

theorem Sized.minable (sized : Sized prim claims) : Minable prim claims := by
  intro reserve room
  obtain ⟨rank, ranked⟩ := sized.ranked
  obtain ⟨selection, fee, done, good, fits⟩ := transactions_room ranked sized.sizes rfl room
  refine ⟨selection.txns, fee, done, good.nodup.of_map _, ?_, fits⟩
  intro before txn after split input member parent found other
  have inside : txn ∈ selection.txns := by
    rw [split]
    exact List.mem_append_right _ List.mem_cons_self
  obtain ⟨claim, own, rfl⟩ := good.pooled txn inside
  have apart : input.prevout.hash ≠ prim.txnHash claim.txn := by
    intro same
    rw [same, own] at found
    exact other (congrArg Claim.txn (Option.some.inj found)).symm
  have stored : claims.confirmations[input.prevout.hash]?.isSome = true := by
    rw [found]
    rfl
  have depends := sized.linked _ claim own input member apart stored
  obtain ⟨txn', earlier, same⟩ := List.mem_map.mp (good.ordered before _ after split claim own _ depends stored)
  obtain ⟨claim', own', rfl⟩ := good.pooled txn' (by
    rw [split]
    exact List.mem_append_left _ earlier)
  rw [same, found] at own'
  rw [Option.some.inj own']
  exact earlier

theorem Sized.erase (sized : Sized prim claims) (hash : Uint256) : Sized prim (claims.erase hash) :=
  ⟨sized.toFamily.erase hash, covered_erase sized.sizes hash⟩

/-- What is asked of a transaction that enters the pool: it comes before those that spend it, and its size
with those of its parents is one of `unsigned int`. -/
structure Firstborn (prim : Primitives) (claims : Claims) (txn : Transaction) : Prop where
  childless : Childless prim claims txn
  fits : SizeFits prim claims txn

instance (prim : Primitives) (claims : Claims) (txn : Transaction) : Decidable (Firstborn prim claims txn) :=
  decidable_of_iff (Childless prim claims txn ∧ SizeFits prim claims txn)
    ⟨fun both => ⟨both.1, both.2⟩, fun firstborn => ⟨firstborn.childless, firstborn.fits⟩⟩

theorem Sized.insert (sized : Sized prim claims) {now : Int} {txn : Transaction} {spents : Finset Coin}
    {fee ts : Int} (fresh : claims.haveHash (prim.txnHash txn) = false) (firstborn : Firstborn prim claims txn) :
    Sized prim (claims.insert prim now txn spents fee ts) := by
  refine ⟨sized.toFamily.insert fresh firstborn.childless, ?_⟩
  obtain ⟨nonneg, small⟩ := firstborn.fits
  refine covered_insert sized.toFamily sized.sizes fresh firstborn.childless nonneg ?_
  have parents : 0 ≤ ((parentsOf claims.confirmations txn.inputs).map
      (fieldOf Claim.size claims.confirmations)).sum := by
    refine List.sum_nonneg fun value member => ?_
    obtain ⟨hash, -, rfl⟩ := List.mem_map.mp member
    exact sized.sizes.nonneg hash
  rw [newClaim_size]
  exact (Int.emod_eq_of_lt (by omega) small).ge

/-! ### Fees -/

/-- Claims depend on claims without a fee alone, and the fees of the pool add up in `int64_t`. -/
structure FeeFree (prim : Primitives) (claims : Claims) : Prop extends Family prim claims where
  nonneg : ∀ (hash : Uint256) (claim : Claim), claims.confirmations[hash]? = some claim → 0 ≤ claim.fee
  free : ∀ (hash : Uint256) (claim : Claim), claims.confirmations[hash]? = some claim →
    ∀ parent ∈ claim.depends, fieldOf Claim.fee claims.confirmations parent = 0
  fits : Map.total Claim.fee claims.confirmations < 2 ^ 63

theorem feeFree_empty (prim : Primitives) : FeeFree prim empty :=
  ⟨family_empty prim, nofun, nofun, by decide⟩

theorem FeeFree.fee_nonneg (freed : FeeFree prim claims) (hash : Uint256) :
    0 ≤ fieldOf Claim.fee claims.confirmations hash := by
  unfold fieldOf
  cases found : claims.confirmations[hash]? with
  | none => exact le_rfl
  | some claim => exact freed.nonneg hash claim found

/-- The selection reports the sum of the fees that the claims were given. -/
theorem FeeFree.transactions (freed : FeeFree prim claims) (reserve : Int) :
    ∃ txns, Claims.transactions prim claims reserve =
        some (txns, (txns.map fun txn => fieldOf Claim.fee claims.confirmations (prim.txnHash txn)).sum) ∧
      ∀ txn ∈ txns, ∃ claim, claims.confirmations[prim.txnHash txn]? = some claim ∧ claim.txn = txn := by
  obtain ⟨rank, ranked⟩ := freed.ranked
  have covered : Covered claims.confirmations
      (fun txn => fieldOf Claim.fee claims.confirmations (prim.txnHash txn))
      (fieldOf Claim.fee claims.confirmations) := by
    refine ⟨fun hash missing => ?_, freed.fee_nonneg, fun hash claim found => ?_⟩
    · unfold fieldOf
      rw [missing]
      rfl
    · have parents : (claim.depends.map (fieldOf Claim.fee claims.confirmations)).sum = 0 := by
        refine List.sum_eq_zero fun value member => ?_
        obtain ⟨parent, depends, rfl⟩ := List.mem_map.mp member
        exact freed.free hash claim found parent depends
      rw [ranked.keyed hash claim found, parents, add_zero]
  obtain ⟨selection, done, good⟩ := transactions_fee ranked covered rfl reserve
  refine ⟨selection.txns, ?_, good.pooled⟩
  have above : 0 ≤ (selection.txns.map fun txn =>
      fieldOf Claim.fee claims.confirmations (prim.txnHash txn)).sum := by
    refine List.sum_nonneg fun value member => ?_
    obtain ⟨txn, -, rfl⟩ := List.mem_map.mp member
    exact freed.fee_nonneg _
  have below : (selection.txns.map fun txn =>
      fieldOf Claim.fee claims.confirmations (prim.txnHash txn)).sum ≤
        Map.total Claim.fee claims.confirmations := by
    have bound := Map.sum_le_total freed.nonneg good.nodup
    rw [List.map_map] at bound
    exact bound
  have fits := freed.fits
  rw [done, wrap64_of_range (by omega) (by omega)]

theorem FeeFree.erase (freed : FeeFree prim claims) (hash : Uint256) : FeeFree prim (claims.erase hash) := by
  refine ⟨freed.toFamily.erase hash, fun other claim found => ?_, fun other claim found parent depends => ?_, ?_⟩
  · exact freed.nonneg other claim (lookup_of_erase found).2
  · rw [fieldOf_erase]
    split_ifs with same
    · rfl
    · exact freed.free other claim (lookup_of_erase found).2 parent depends
  · cases found : claims.confirmations[hash]? with
    | none =>
      rw [erase_absent found]
      exact freed.fits
    | some claim =>
      rw [erase_pooled found]
      have less := Map.total_erase found Claim.fee
      have positive := freed.nonneg hash claim found
      have fits := freed.fits
      show Map.total Claim.fee (claims.confirmations.erase hash) < 2 ^ 63
      omega

/-- What is asked of a transaction that enters the pool with a fee: it comes before those that spend it, it
spends pooled transactions only where they have no fee, and the fees still add up. -/
structure FreeParents (prim : Primitives) (claims : Claims) (txn : Transaction) (fee : Int) : Prop where
  childless : Childless prim claims txn
  free : ∀ input ∈ txn.inputs, fieldOf Claim.fee claims.confirmations input.prevout.hash = 0
  fits : Map.total Claim.fee claims.confirmations + fee < 2 ^ 63

instance (prim : Primitives) (claims : Claims) (txn : Transaction) (fee : Int) :
    Decidable (FreeParents prim claims txn fee) :=
  decidable_of_iff (Childless prim claims txn ∧
      (∀ input ∈ txn.inputs, fieldOf Claim.fee claims.confirmations input.prevout.hash = 0) ∧
      Map.total Claim.fee claims.confirmations + fee < 2 ^ 63)
    ⟨fun all => ⟨all.1, all.2.1, all.2.2⟩, fun enters => ⟨enters.childless, enters.free, enters.fits⟩⟩

theorem newClaim_fee_free {now : Int} {txn : Transaction} {fee ts : Int} (range : wrap64 fee = fee)
    (free : ∀ input ∈ txn.inputs, fieldOf Claim.fee claims.confirmations input.prevout.hash = 0) :
    (newClaim prim now claims txn fee ts).fee = fee := by
  rw [newClaim_fee range]
  have parents : ((parentsOf claims.confirmations txn.inputs).map
    (fieldOf Claim.fee claims.confirmations)).sum = 0 := by
    refine List.sum_eq_zero fun value member => ?_
    obtain ⟨parent, inside, rfl⟩ := List.mem_map.mp member
    obtain ⟨⟨input, input_mem, rfl⟩, -⟩ := mem_parentsOf.mp inside
    exact free input input_mem
  rw [parents, add_zero, range]

theorem FeeFree.total_nonneg (freed : FeeFree prim claims) : 0 ≤ Map.total Claim.fee claims.confirmations := by
  refine List.sum_nonneg fun value member => ?_
  obtain ⟨entry, inside, rfl⟩ := List.mem_map.mp member
  exact freed.nonneg _ _ (Map.mem_toList.mp inside)

theorem FeeFree.insert (freed : FeeFree prim claims) {now : Int} {txn : Transaction} {spents : Finset Coin}
    {fee ts : Int} (fresh : claims.haveHash (prim.txnHash txn) = false) (positive : 0 ≤ fee)
    (enters : FreeParents prim claims txn fee) : FeeFree prim (claims.insert prim now txn spents fee ts) := by
  have total_nonneg := freed.total_nonneg
  have fits := enters.fits
  have new_fee : (newClaim prim now claims txn fee ts).fee = fee :=
    newClaim_fee_free (wrap64_of_range (by omega) (by omega)) enters.free
  refine ⟨freed.toFamily.insert fresh enters.childless, fun hash claim found => ?_,
    fun hash claim found parent depends => ?_, ?_⟩
  · rcases lookup_of_insert fresh found with ⟨rfl, rfl⟩ | ⟨apart, old⟩
    · rw [new_fee]
      exact positive
    · exact freed.nonneg hash claim old
  · rcases lookup_of_insert fresh found with ⟨rfl, rfl⟩ | ⟨apart, old⟩
    · rw [newClaim_depends] at depends
      obtain ⟨⟨input, inside, rfl⟩, stored⟩ := mem_parentsOf.mp depends
      have new : input.prevout.hash ≠ prim.txnHash txn := by
        intro same
        rw [same, lookup_of_not_have fresh] at stored
        cases stored
      rw [fieldOf_insert _ new]
      exact enters.free input inside
    · obtain ⟨input, inside, named⟩ := freed.named _ claim old parent depends
      rw [fieldOf_insert _ (named ▸ enters.childless _ claim old input inside)]
      exact freed.free hash claim old parent depends
  · show Map.total Claim.fee (claims.confirmations.insertNew _ _) < 2 ^ 63
    rw [Map.insertNew_of_fresh (lookup_of_not_have fresh), Map.total_insert (lookup_of_not_have fresh), new_fee]
    omega

end Selected

end Claims

end Libcoin
