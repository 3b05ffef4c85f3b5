/-
The index of the claims by priority.

* `Claim.rank` is the order that the comparison means: fee rate first, then the number of spendables.
  Where no product leaves `int64_t` the comparison is that order (`before_iff`).
* `Indexed` is the invariant: the index is sorted by rank and has exactly the pooled hashes.
-/

import Libcoin.Pool.Claims
import Libcoin.Ledger.Attach
import Libcoin.Library.Run
import Mathlib.Data.Prod.Lex
import Mathlib.Algebra.Order.Field.Rat
import Mathlib.Algebra.Order.Field.Basic

namespace Libcoin

open Run

/-- A call that changes the claims. -/
inductive ClaimsOp
  | insert (now : Int) (txn : Transaction) (spents : Finset Coin) (fee ts : Int)
  | erase (hash : Uint256)
  | purge (before : Int)

namespace Claim

/-- The priority of a claim: its fee rate, negated, and its number of spendables. -/
def rank (claim : Claim) : ℚ ×ₗ ℤ := toLex (-(claim.fee / claim.size : ℚ), claim.deltaSpendables)

/-- The fee rates are equal as cross products, and so are the numbers of spendables. -/
def Tied (l r : Claim) : Prop :=
  l.fee * r.size = r.fee * l.size ∧ l.deltaSpendables = r.deltaSpendables

instance (l r : Claim) : Decidable (l.Tied r) := inferInstanceAs (Decidable (_ ∧ _))

/-- The product that the comparison computes is one of `int64_t`. -/
def Fits (l r : Claim) : Prop := -2 ^ 63 ≤ l.fee * r.size ∧ l.fee * r.size < 2 ^ 63

instance (l r : Claim) : Decidable (l.Fits r) := inferInstanceAs (Decidable (_ ∧ _))

section Compare

variable {l r : Claim} (l_size : 0 < l.size) (r_size : 0 < r.size)

include l_size r_size

theorem rate_lt : (l.fee / l.size : ℚ) < r.fee / r.size ↔ l.fee * r.size < r.fee * l.size := by
  have l_pos : (0 : ℚ) < l.size := by exact_mod_cast l_size
  have r_pos : (0 : ℚ) < r.size := by exact_mod_cast r_size
  rw [div_lt_div_iff₀ l_pos r_pos]
  exact_mod_cast Iff.rfl

theorem rate_eq : (l.fee / l.size : ℚ) = r.fee / r.size ↔ l.fee * r.size = r.fee * l.size := by
  have l_ne : (l.size : ℚ) ≠ 0 := by exact_mod_cast l_size.ne'
  have r_ne : (r.size : ℚ) ≠ 0 := by exact_mod_cast r_size.ne'
  rw [div_eq_div_iff l_ne r_ne]
  exact_mod_cast Iff.rfl

theorem rank_eq : l.rank = r.rank ↔ l.Tied r := by
  unfold rank Tied
  rw [toLex_inj, Prod.mk.injEq, neg_inj, rate_eq l_size r_size]

theorem before_iff (l_fits : l.Fits r) (r_fits : r.Fits l) : l.before r = true ↔ l.rank < r.rank := by
  unfold before rank
  rw [Prod.Lex.toLex_lt_toLex, neg_lt_neg_iff, neg_inj, rate_lt r_size l_size, rate_eq l_size r_size,
    wrap64_of_range l_fits.1 l_fits.2, wrap64_of_range r_fits.1 r_fits.2]
  split_ifs with more less
  · exact iff_of_true rfl (.inl more)
  · refine iff_of_false (by simp) ?_
    rintro (more' | ⟨same, -⟩)
    · exact more more'
    · omega
  · rw [decide_eq_true_iff]
    constructor
    · exact fun delta => .inr ⟨by omega, delta⟩
    · rintro (more' | ⟨-, delta⟩)
      · exact absurd more' more
      · exact delta

end Compare

end Claim

namespace Claims

/-- The sizes of pooled claims are positive and their products stay in `int64_t`. -/
structure InRange (claims : Claims) : Prop where
  sizes : ∀ (hash : Uint256) (claim : Claim), claims.confirmations[hash]? = some claim → 0 < claim.size
  fits : ∀ (hash : Uint256) (l : Claim) (other : Uint256) (r : Claim),
    claims.confirmations[hash]? = some l → claims.confirmations[other]? = some r → l.Fits r

theorem inRange_iff {claims : Claims} :
    claims.InRange ↔ ∀ entry ∈ claims.confirmations.toList,
      0 < entry.2.size ∧ ∀ other ∈ claims.confirmations.toList, entry.2.Fits other.2 := by
  constructor
  · intro inRange entry member
    have found := Map.mem_toList.mp member
    exact ⟨inRange.sizes _ _ found,
      fun other member' => inRange.fits _ _ _ _ found (Map.mem_toList.mp member')⟩
  · intro all
    exact ⟨fun hash claim found => (all (hash, claim) (Map.mem_toList.mpr found)).1,
      fun hash l other r l_found r_found => (all (hash, l) (Map.mem_toList.mpr l_found)).2 (other, r)
        (Map.mem_toList.mpr r_found)⟩

instance (claims : Claims) : Decidable claims.InRange := decidable_of_iff' _ inRange_iff

/-- The index has the hash of every claim once, and nothing else. -/
structure Exact (claims : Claims) : Prop where
  nodup : claims.priorities.Nodup
  mem : ∀ hash, hash ∈ claims.priorities ↔ claims.haveHash hash = true

def rankOf (confirmations : Map Uint256 Claim) (hash : Uint256) : ℚ ×ₗ ℤ :=
  (confirmations[hash]?).elim (toLex (0, 0)) Claim.rank

theorem rankOf_of_lookup {confirmations : Map Uint256 Claim} {hash : Uint256} {claim : Claim}
    (found : confirmations[hash]? = some claim) : rankOf confirmations hash = claim.rank := by
  unfold rankOf
  rw [found]
  rfl

/-- The invariant behind `Exact`. -/
structure Indexed (claims : Claims) : Prop where
  sorted : OrderedSet.Sorted (rankOf claims.confirmations) claims.priorities
  mem : ∀ hash, hash ∈ claims.priorities ↔ claims.haveHash hash = true

theorem Indexed.exact {claims : Claims} (indexed : claims.Indexed) : claims.Exact :=
  ⟨indexed.sorted.nodup, indexed.mem⟩

theorem haveHash_iff {claims : Claims} {hash : Uint256} :
    claims.haveHash hash = true ↔ ∃ claim, claims.confirmations[hash]? = some claim :=
  Option.isSome_iff_exists

theorem lookup_of_not_have {claims : Claims} {hash : Uint256} (missing : claims.haveHash hash = false) :
    claims.confirmations[hash]? = none :=
  Option.not_isSome_iff_eq_none.mp (Bool.eq_false_iff.mp missing)

/-- The comparison of pooled hashes is the order of their ranks. -/
theorem InRange.before_iff {claims : Claims} (inRange : claims.InRange) {lhs rhs : Uint256}
    (l_have : claims.haveHash lhs = true) (r_have : claims.haveHash rhs = true) :
    before claims.confirmations lhs rhs = true ↔
      rankOf claims.confirmations lhs < rankOf claims.confirmations rhs := by
  obtain ⟨l, l_found⟩ := haveHash_iff.mp l_have
  obtain ⟨r, r_found⟩ := haveHash_iff.mp r_have
  rw [rankOf_of_lookup l_found, rankOf_of_lookup r_found]
  unfold before
  rw [l_found, r_found]
  exact Claim.before_iff (inRange.sizes lhs l l_found) (inRange.sizes rhs r r_found)
    (inRange.fits lhs l rhs r l_found r_found) (inRange.fits rhs r lhs l r_found l_found)

theorem InRange.agrees {claims : Claims} (inRange : claims.InRange) {hash : Uint256}
    (pooled : claims.haveHash hash = true) {hashes : List Uint256}
    (known : ∀ other ∈ hashes, claims.haveHash other = true) :
    OrderedSet.Agrees (before claims.confirmations) (rankOf claims.confirmations) hash hashes :=
  fun other member =>
    ⟨inRange.before_iff (known other member) pooled, inRange.before_iff pooled (known other member)⟩

/-! ### Erasing -/

theorem lookup_erase {claims : Claims} {hash other : Uint256} :
    (claims.erase hash).confirmations[other]? =
      if hash = other then none else claims.confirmations[other]? := by
  unfold erase
  cases found : claims.confirmations[hash]? with
  | none =>
    by_cases same : hash = other
    · rw [if_pos same, ← same, found]
    · rw [if_neg same]
  | some claim => exact Map.lookup_erase _ _ _

theorem lookup_of_erase {claims : Claims} {hash other : Uint256} {claim : Claim}
    (found : (claims.erase hash).confirmations[other]? = some claim) :
    hash ≠ other ∧ claims.confirmations[other]? = some claim := by
  rw [lookup_erase] at found
  split_ifs at found with same
  exact ⟨same, found⟩

theorem InRange.erase {claims : Claims} (inRange : claims.InRange) (hash : Uint256) :
    (claims.erase hash).InRange where
  sizes _ _ found := inRange.sizes _ _ (lookup_of_erase found).2
  fits _ _ _ _ l_found r_found :=
    inRange.fits _ _ _ _ (lookup_of_erase l_found).2 (lookup_of_erase r_found).2

theorem Indexed.erase {claims : Claims} (indexed : claims.Indexed) (inRange : claims.InRange)
    (hash : Uint256) : (claims.erase hash).Indexed := by
  cases found : claims.confirmations[hash]? with
  | none => rwa [erase_absent found]
  | some claim =>
    have pooled : claims.haveHash hash = true := haveHash_iff.mpr ⟨claim, found⟩
    have agrees := inRange.agrees pooled fun other member => (indexed.mem other).mp member
    have erased : (claims.erase hash).priorities =
        OrderedSet.erase (before claims.confirmations) hash claims.priorities := by
      rw [erase_pooled found]
    have member : ∀ other, other ∈ (claims.erase hash).priorities ↔
        other ∈ claims.priorities ∧ hash ≠ other := by
      intro other
      rw [erased, OrderedSet.mem_erase agrees]
      refine and_congr_right fun other_mem => ⟨fun apart same => apart (same ▸ rfl), fun apart same => ?_⟩
      exact apart (indexed.sorted.eq_of_rank other_mem ((indexed.mem hash).mpr pooled) same).symm
    constructor
    · have sorted := indexed.sorted.erase (before claims.confirmations) hash
      rw [← erased] at sorted
      refine List.Pairwise.imp_of_mem (fun {x y} x_mem y_mem less => ?_) sorted
      unfold rankOf
      rw [lookup_erase, lookup_erase, if_neg ((member x).mp x_mem).2, if_neg ((member y).mp y_mem).2]
      exact less
    · intro other
      rw [member, indexed.mem]
      unfold haveHash
      rw [lookup_erase]
      by_cases same : hash = other
      · rw [if_pos same]
        exact iff_of_false (fun both => both.2 same) (by simp)
      · rw [if_neg same]
        exact and_iff_left same

theorem Indexed.eraseAll {claims : Claims} (indexed : claims.Indexed) (inRange : claims.InRange)
    (hashes : List Uint256) : (hashes.foldl Claims.erase claims).Indexed := by
  induction hashes generalizing claims with
  | nil => exact indexed
  | cons hash hashes ih => exact ih (indexed.erase inRange hash) (inRange.erase hash)

/-! ### Inserting -/

section Insert

variable (prim : Primitives)

/-- No pooled claim has the rank of the claim that is inserted. Inserting a pooled hash changes nothing. -/
def Untied (claims : Claims) : ClaimsOp → Prop
  | .insert now txn _ fee ts =>
    claims.haveHash (prim.txnHash txn) = true ∨
      ∀ (hash : Uint256) (claim : Claim), claims.confirmations[hash]? = some claim →
        ¬ claim.Tied (newClaim prim now claims txn fee ts)
  | _ => True

instance (claims : Claims) (op : ClaimsOp) : Decidable (Untied prim claims op) :=
  match op with
  | .insert now txn _ fee ts =>
    have all : (∀ entry ∈ claims.confirmations.toList,
          ¬ entry.2.Tied (newClaim prim now claims txn fee ts)) ↔
        ∀ (hash : Uint256) (claim : Claim), claims.confirmations[hash]? = some claim →
          ¬ claim.Tied (newClaim prim now claims txn fee ts) :=
      ⟨fun all hash claim found => all (hash, claim) (Map.mem_toList.mpr found),
        fun all entry member => all entry.1 entry.2 (Map.mem_toList.mp member)⟩
    have := decidable_of_iff _ all
    inferInstanceAs (Decidable (_ ∨ _))
  | .erase _ => inferInstanceAs (Decidable True)
  | .purge _ => inferInstanceAs (Decidable True)

/-- One call. -/
def apply (claims : Claims) : ClaimsOp → Claims
  | .insert now txn spents fee ts => claims.insert prim now txn spents fee ts
  | .erase hash => claims.erase hash
  | .purge before => claims.purge before

variable {prim} {now : Int} {claims : Claims} {txn : Transaction} {spents : Finset Coin} {fee ts : Int}

theorem lookup_insert (other : Uint256) :
    (claims.insert prim now txn spents fee ts).confirmations[other]? =
      if prim.txnHash txn = other then
        some ((claims.confirmations[prim.txnHash txn]?).getD (newClaim prim now claims txn fee ts))
      else claims.confirmations[other]? :=
  Map.lookup_insertNew _ _ _ _

theorem insert_of_have (indexed : claims.Indexed) (inRange : claims.InRange)
    (pooled : claims.haveHash (prim.txnHash txn) = true) :
    (claims.insert prim now txn spents fee ts).confirmations = claims.confirmations ∧
      (claims.insert prim now txn spents fee ts).priorities = claims.priorities := by
  have same : claims.confirmations.insertNew (prim.txnHash txn)
      (newClaim prim now claims txn fee ts) = claims.confirmations := if_pos pooled
  refine ⟨same, ?_⟩
  change OrderedSet.insert (before (claims.confirmations.insertNew _ _)) _ _ = _
  rw [same]
  exact OrderedSet.insert_tied indexed.sorted
    (inRange.agrees pooled fun other member => (indexed.mem other).mp member)
    ⟨prim.txnHash txn, (indexed.mem _).mpr pooled, rfl⟩

/-- What the insertion of a new claim does to the ranks: those of the old hashes stay. -/
theorem rankOf_insert (fresh : claims.haveHash (prim.txnHash txn) = false) {other : Uint256}
    (known : claims.haveHash other = true) :
    rankOf (claims.insert prim now txn spents fee ts).confirmations other =
      rankOf claims.confirmations other := by
  have apart : prim.txnHash txn ≠ other := by
    rintro rfl
    rw [fresh] at known
    cases known
  unfold rankOf
  rw [lookup_insert, if_neg apart]

theorem lookup_inserted (fresh : claims.haveHash (prim.txnHash txn) = false) :
    (claims.insert prim now txn spents fee ts).confirmations[prim.txnHash txn]? =
      some (newClaim prim now claims txn fee ts) := by
  rw [lookup_insert, if_pos rfl, lookup_of_not_have fresh, Option.getD_none]

theorem haveHash_insert (other : Uint256) :
    (claims.insert prim now txn spents fee ts).haveHash other =
      (decide (other = prim.txnHash txn) || claims.haveHash other) := by
  unfold haveHash
  rw [lookup_insert]
  by_cases same : prim.txnHash txn = other
  · simp [same]
  · simp [if_neg same, Ne.symm same]

/-- A new claim is indexed if no pooled one has its rank; otherwise its hash does not enter the index. -/
theorem Indexed.insert (indexed : claims.Indexed) (fresh : claims.haveHash (prim.txnHash txn) = false)
    (inRange : (claims.insert prim now txn spents fee ts).InRange) :
    ((∀ (hash : Uint256) (claim : Claim), claims.confirmations[hash]? = some claim →
        ¬ claim.Tied (newClaim prim now claims txn fee ts)) →
      (claims.insert prim now txn spents fee ts).Indexed) ∧
    ((∃ (hash : Uint256) (claim : Claim), claims.confirmations[hash]? = some claim ∧
        claim.Tied (newClaim prim now claims txn fee ts)) →
      (claims.insert prim now txn spents fee ts).priorities = claims.priorities) := by
  have old : ∀ other ∈ claims.priorities, claims.haveHash other = true :=
    fun other member => (indexed.mem other).mp member
  have kept : ∀ other ∈ claims.priorities,
      (claims.insert prim now txn spents fee ts).haveHash other = true := fun other member => by
    rw [haveHash_insert, old other member, Bool.or_true]
  have pooled : (claims.insert prim now txn spents fee ts).haveHash (prim.txnHash txn) = true := by
    rw [haveHash_insert, decide_eq_true rfl, Bool.true_or]
  have agrees := inRange.agrees pooled kept
  have sorted : OrderedSet.Sorted (rankOf (claims.insert prim now txn spents fee ts).confirmations)
      claims.priorities :=
    indexed.sorted.imp_of_mem fun {x y} x_mem y_mem less => by
      rwa [rankOf_insert fresh (old x x_mem), rankOf_insert fresh (old y y_mem)]
  have is_new : rankOf (claims.insert prim now txn spents fee ts).confirmations (prim.txnHash txn) =
      (newClaim prim now claims txn fee ts).rank := rankOf_of_lookup (lookup_inserted fresh)
  have size : 0 < (newClaim prim now claims txn fee ts).size :=
    inRange.sizes (prim.txnHash txn) _ (lookup_inserted fresh)
  have tied_iff : ∀ (hash : Uint256) (claim : Claim), claims.confirmations[hash]? = some claim →
      (rankOf (claims.insert prim now txn spents fee ts).confirmations hash =
          rankOf (claims.insert prim now txn spents fee ts).confirmations (prim.txnHash txn) ↔
        claim.Tied (newClaim prim now claims txn fee ts)) := by
    intro hash claim found
    have known : claims.haveHash hash = true := haveHash_iff.mpr ⟨claim, found⟩
    have apart : prim.txnHash txn ≠ hash := by
      rintro rfl
      rw [fresh] at known
      cases known
    have claim_size : 0 < claim.size := by
      refine inRange.sizes hash claim ?_
      rw [lookup_insert, if_neg apart, found]
    rw [is_new, rankOf_insert fresh known, rankOf_of_lookup found, Claim.rank_eq claim_size size]
  constructor
  · intro untied
    obtain ⟨sorted', perm⟩ := OrderedSet.insert_untied sorted agrees fun other member same => by
      obtain ⟨claim, found⟩ := haveHash_iff.mp (old other member)
      exact untied other claim found ((tied_iff other claim found).mp same)
    refine ⟨sorted', fun other => ?_⟩
    rw [haveHash_insert, Bool.or_eq_true, decide_eq_true_iff, ← indexed.mem]
    exact (perm.mem_iff (a := other)).trans List.mem_cons
  · rintro ⟨hash, claim, found, tied⟩
    exact OrderedSet.insert_tied sorted agrees
      ⟨hash, (indexed.mem hash).mpr (haveHash_iff.mpr ⟨claim, found⟩), (tied_iff hash claim found).mpr tied⟩

end Insert

/-! ### Runs -/

section Runs

variable {prim : Primitives} {claims : Claims} {op : ClaimsOp}

theorem Indexed.apply (indexed : claims.Indexed) (inRange : claims.InRange)
    (inRange' : (apply prim claims op).InRange) (untied : Untied prim claims op) :
    (apply prim claims op).Indexed := by
  cases op with
  | insert now txn spents fee ts =>
    cases pooled : claims.haveHash (prim.txnHash txn) with
    | true =>
      have kept : (claims.insert prim now txn spents fee ts).confirmations = claims.confirmations ∧
          (claims.insert prim now txn spents fee ts).priorities = claims.priorities :=
        insert_of_have indexed inRange pooled
      obtain ⟨confirmations, priorities⟩ := kept
      constructor
      · change OrderedSet.Sorted (rankOf (claims.insert prim now txn spents fee ts).confirmations)
          (claims.insert prim now txn spents fee ts).priorities
        rw [confirmations, priorities]
        exact indexed.sorted
      · intro hash
        change hash ∈ (claims.insert prim now txn spents fee ts).priorities ↔
          (claims.insert prim now txn spents fee ts).confirmations[hash]?.isSome = true
        rw [confirmations, priorities]
        exact indexed.mem hash
    | false =>
      refine (indexed.insert pooled inRange').1 (untied.resolve_left ?_)
      rw [pooled]
      exact Bool.false_ne_true
  | erase hash => exact indexed.erase inRange hash
  | purge before => exact indexed.eraseAll inRange _

/-- An index that is exact after a call says that the call met the condition. -/
theorem Indexed.untied (indexed : claims.Indexed) (inRange' : (Claims.apply prim claims op).InRange)
    (exact' : (Claims.apply prim claims op).Exact) : Untied prim claims op := by
  cases op with
  | insert now txn spents fee ts =>
    cases pooled : claims.haveHash (prim.txnHash txn) with
    | true => exact .inl pooled
    | false =>
      refine .inr fun hash claim found tied => ?_
      have same := (indexed.insert pooled inRange').2 ⟨hash, claim, found, tied⟩
      have now_pooled : prim.txnHash txn ∈ (claims.insert prim now txn spents fee ts).priorities := by
        refine (exact'.mem _).mpr ?_
        change (claims.insert prim now txn spents fee ts).haveHash _ = true
        rw [haveHash_insert, decide_eq_true rfl, Bool.true_or]
      rw [same, indexed.mem, pooled] at now_pooled
      exact Bool.false_ne_true now_pooled
  | erase hash => trivial
  | purge before => trivial

theorem indexed_empty : empty.Indexed :=
  ⟨List.Pairwise.nil, fun hash => by simp [empty, haveHash]⟩

/-- **The index is exact as long as no two claims tie.** Where the products of fees and sizes stay in
`int64_t`, the index has every pooled hash exactly once in all states of a run if and only if no claim is
inserted beside one of the same fee rate and the same number of spendables. -/
theorem exact_iff_untied (ops : List ClaimsOp) (inRange : AlongStates (apply prim) InRange empty ops) :
    AlongStates (apply prim) Exact empty ops ↔ AlongSteps (apply prim) (Untied prim) empty ops := by
  have start := indexed_empty
  generalize empty = claims at inRange start
  induction ops generalizing claims with
  | nil => exact iff_of_true start.exact trivial
  | cons op ops ih =>
    obtain ⟨now, later⟩ := inRange
    constructor
    · rintro ⟨-, exact'⟩
      have untied := start.untied later.first exact'.first
      exact ⟨untied, (ih _ later (start.apply now later.first untied)).mp exact'⟩
    · rintro ⟨untied, rest⟩
      exact ⟨start.exact, (ih _ later (start.apply now later.first untied)).mpr rest⟩

end Runs

open Libcoin.Small in
/-- Two claims of different rates: both stay in the index. -/
theorem exact_iff_untied_rates :
    AlongStates (apply prim) Exact empty
        [.insert 1 (spend 2 [(1, 0)] [1]) ∅ 5 0, .insert 1 (spend 3 [(1, 1)] [1]) ∅ 6 0] :=
  (exact_iff_untied _ (by decide)).mpr (by decide)

open Libcoin.Small in
/-- Two claims of the same size, with the same fee and the same number of outputs: the second one does
not enter the index, and when it is erased the first one leaves it. -/
theorem not_exact_of_tie :
    ¬ (((empty.insert prim 1 (spend 2 [(1, 0)] [1]) ∅ 5 0).insert prim 1 (spend 3 [(1, 1)] [1]) ∅ 5 0).Exact) ∧
      (((empty.insert prim 1 (spend 2 [(1, 0)] [1]) ∅ 5 0).insert prim 1
        (spend 3 [(1, 1)] [1]) ∅ 5 0).erase 3).haveHash 2 = true ∧
      (((empty.insert prim 1 (spend 2 [(1, 0)] [1]) ∅ 5 0).insert prim 1
        (spend 3 [(1, 1)] [1]) ∅ 5 0).erase 3).priorities = [] := by
  refine ⟨fun exact' => ?_, by decide, by decide⟩
  have pooled := (exact'.mem 3).mpr (by decide)
  revert pooled
  decide

end Claims

end Libcoin
