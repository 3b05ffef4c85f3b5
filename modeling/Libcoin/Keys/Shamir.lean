/-
`Shamir`: a secret that is split into shares, and recovered from some of them.

* `split` counts its shares with one byte, which never gets past 255 (`splitLoop_never`).
* `recover` interpolates at zero. All remainders have the sign of what is divided, so that with an even number of
  shares every term is negative or zero (`recoverTerm_spec`), and the result can be the secret less the order. The
  sign is then dropped.
-/

import Libcoin.Keys.BigNum
import Libcoin.Library.Interpolation
import Libcoin.Library.OrderedMap
import Mathlib.Data.ZMod.Basic
import Mathlib.Algebra.Field.ZMod
import Mathlib.Data.Int.GCD
import Mathlib.Tactic.NormNum.Prime

namespace Libcoin

/-! ### Big numbers -/

/-- `ModPow`. -/
def modPow (a : Int) (p : Nat) (m : Int) : Int := a ^ p % m

/-- `ModInverse`, which throws where there is no inverse. -/
def modInverse (a n : Int) : Option Int := if Int.gcd a n = 1 then some (Int.gcdA a n % n) else none

/-- The members of `Shamir`: both numbers are bytes. -/
structure Shamir where
  shares : Nat
  quorum : Nat
  order : Int
  shares_lt : shares < 256
  quorum_lt : quorum < 256

namespace Shamir

/-- The loop of `split` over the coefficients, without the first one. -/
def shareLoop (order : Int) (x : Nat) : List Int → Nat → Int → Int
  | [], _, accum => accum
  | coef :: coefs, i, accum => shareLoop order x coefs (i + 1) ((accum + coef * modPow x i order).tmod order)

/-- The loop of `split` over the shares, which are counted with one byte. -/
def splitLoop (shamir : Shamir) (secret : Uint256) (coefs : List Int) : Nat → Nat → Map Nat Uint256 →
    Option (Map Nat Uint256)
  | 0, _, _ => none
  | fuel + 1, x, shares =>
    if x ≤ shamir.shares then
      let accum := shareLoop shamir.order x coefs 1 secret.val
      splitLoop shamir secret coefs fuel ((x + 1) % 256) (shares.insert x (getuint256 accum))
    else some shares

/-- `split`, with the coefficients that `rnd` gives. -/
def split (shamir : Shamir) (secret : Uint256) (coefs : List Int) (fuel : Nat) : Option (Map Nat Uint256) :=
  splitLoop shamir secret coefs fuel 1 ∅

/-- The loop of `recover` over the other shares, and what it adds for one share. -/
def recoverTerm (order : Int) (shares : List (Nat × Uint256)) (formula : Nat × Uint256) : Option Int := do
  let others := shares.filter fun count => !decide (count.1 = formula.1)
  let numerator := others.foldl (fun numerator count => (-(count.1 : Int) * numerator).tmod order) 1
  let denominator := others.foldl
    (fun denominator count => (((formula.1 : Int) - count.1) * denominator).tmod order) 1
  let inverse ← modInverse denominator order
  return formula.2.val * numerator * inverse

/-- The loop of `recover` over the shares. -/
def recoverLoop (order : Int) (shares : List (Nat × Uint256)) : List (Nat × Uint256) → Int → Option Int
  | [], accum => some accum
  | formula :: rest, accum => do
    let term ← recoverTerm order shares formula
    recoverLoop order shares rest ((order + accum + term).tmod order)

/-- `recover`. There is no result where it throws. -/
def recover (shamir : Shamir) (shares : Map Nat Uint256) : Option Uint256 :=
  (recoverLoop shamir.order shares.toList shares.toList 0).map getuint256

/-! ### Remainders -/

section Remainders

variable {p : Nat}

theorem cast_tmod (a : Int) : ((a.tmod p : Int) : ZMod p) = a := by
  have split := Int.mul_tdiv_add_tmod a p
  have cast := congrArg (Int.cast : Int → ZMod p) split
  push_cast at cast
  rwa [ZMod.natCast_self, zero_mul, zero_add] at cast

/-- A remainder has the sign of what is divided. -/
theorem tmod_sign {e a : Int} (sign : 0 ≤ e * a) : 0 ≤ e * a.tmod p := by
  rcases lt_trichotomy a 0 with negative | rfl | positive
  · have remainder := Int.tmod_nonneg p (neg_nonneg.mpr negative.le)
    rw [Int.neg_tmod] at remainder
    exact mul_nonneg_of_nonpos_of_nonpos (nonpos_of_mul_nonneg_left sign negative) (neg_nonneg.mp remainder)
  · simp
  · exact mul_nonneg (nonneg_of_mul_nonneg_left sign positive) (Int.tmod_nonneg p positive.le)

/-- A product that is reduced after every factor. -/
theorem cast_foldl_tmod {A : Type} (factor : A → Int) (xs : List A) (start : Int) :
    ((xs.foldl (fun product x => (factor x * product).tmod p) start : Int) : ZMod p) =
      (xs.map fun x => (factor x : ZMod p)).prod * start := by
  induction xs generalizing start with
  | nil => simp
  | cons x xs ih =>
    rw [List.foldl_cons, ih, cast_tmod, List.map_cons, List.prod_cons]
    push_cast
    ring

/-- Factors that are not positive turn the sign, one by one. -/
theorem foldl_tmod_sign {A : Type} {factor : A → Int} (xs : List A) (negative : ∀ x ∈ xs, factor x ≤ 0)
    {e start : Int}
    (sign : 0 ≤ e * start) :
    0 ≤ (-1) ^ xs.length * e * xs.foldl (fun product x => (factor x * product).tmod p) start := by
  induction xs generalizing start e with
  | nil => simpa using sign
  | cons x xs ih =>
    have turned : 0 ≤ -e * (factor x * start) := by
      have less := negative x List.mem_cons_self
      nlinarith
    have rest := ih (fun y member => negative y (List.mem_cons_of_mem _ member)) (tmod_sign (p := p) turned)
    rw [List.foldl_cons, List.length_cons, pow_succ]
    linarith

theorem modInverse_spec [Fact p.Prime] {a : Int} (unit : (a : ZMod p) ≠ 0) :
    ∃ inverse, modInverse a p = some inverse ∧ 0 ≤ inverse ∧ (inverse : ZMod p) = (a : ZMod p)⁻¹ := by
  have prime : p.Prime := Fact.out
  have coprime : Int.gcd a p = 1 := by
    rw [Int.gcd_comm]
    refine (Nat.Prime.coprime_iff_not_dvd prime).mpr fun divides => unit ?_
    exact (ZMod.intCast_zmod_eq_zero_iff_dvd a p).mpr (Int.natCast_dvd.mpr divides)
  refine ⟨Int.gcdA a p % p, ?_, Int.emod_nonneg _ (by exact_mod_cast prime.ne_zero), ?_⟩
  · unfold modInverse
    rw [if_pos coprime]
  · have bezout := congrArg (Int.cast : Int → ZMod p) (Int.gcd_eq_gcd_ab a p)
    push_cast [coprime] at bezout
    rw [ZMod.natCast_self, zero_mul, add_zero] at bezout
    rw [ZMod.intCast_mod]
    exact eq_inv_of_mul_eq_one_right bezout.symm

end Remainders

/-! ### Splitting -/

section Splitting

variable {p : Nat}

theorem shareLoop_cast [Fact p.Prime] (x : Nat) (coefs : List Int) (i : Nat) (accum : Int) :
    ((shareLoop p x coefs i accum : Int) : ZMod p) =
      accum + (x : ZMod p) ^ i * (Interpolation.ofCoefficients (coefs.map (Int.cast : Int → ZMod p))).eval
        (x : ZMod p) := by
  induction coefs generalizing i accum with
  | nil => simp [shareLoop, Interpolation.ofCoefficients]
  | cons coef coefs ih =>
    rw [shareLoop, ih, cast_tmod, modPow, List.map_cons, Interpolation.eval_ofCoefficients_cons, Int.cast_add,
      Int.cast_mul, ZMod.intCast_mod, Int.cast_pow, Int.cast_natCast]
    ring

theorem shareLoop_range (positive : 0 < p) (x : Nat) {coefs : List Int} (known : ∀ coef ∈ coefs, 0 ≤ coef) (i : Nat)
    {accum : Int} (low : 0 ≤ accum) (high : accum < p) :
    0 ≤ shareLoop p x coefs i accum ∧ shareLoop p x coefs i accum < p := by
  induction coefs generalizing i accum with
  | nil => exact ⟨low, high⟩
  | cons coef coefs ih =>
    have power : 0 ≤ modPow x i p := Int.emod_nonneg _ (by omega)
    have next : 0 ≤ accum + coef * modPow x i p :=
      add_nonneg low (mul_nonneg (known coef List.mem_cons_self) power)
    exact ih (fun other member => known other (List.mem_cons_of_mem _ member)) _ (Int.tmod_nonneg _ next)
      (Int.tmod_lt_of_pos _ (by exact_mod_cast positive))

/-- Coefficients that are zero add nothing. -/
theorem shareLoop_zeros (x count i : Nat) {accum : Int} (low : 0 ≤ accum) (high : accum < p) :
    shareLoop p x (List.replicate count 0) i accum = accum := by
  induction count generalizing i with
  | zero => rfl
  | succ count ih =>
    rw [List.replicate_succ, shareLoop, zero_mul, add_zero, Int.tmod_eq_of_lt low high]
    exact ih (i + 1)

variable {shamir : Shamir} {secret : Uint256} {coefs : List Int}

/-- The share with a number. -/
def shareOf (shamir : Shamir) (secret : Uint256) (coefs : List Int) (x : Nat) : Uint256 :=
  getuint256 (shareLoop shamir.order x coefs 1 secret.val)

/-- With fewer than 255 shares the loop ends. -/
theorem splitLoop_ends (few : shamir.shares < 255) {fuel x : Nat} (inside : x ≤ shamir.shares + 1)
    (enough : shamir.shares + 1 < fuel + x) (shares : Map Nat Uint256) :
    ∃ dealt, splitLoop shamir secret coefs fuel x shares = some dealt := by
  induction fuel generalizing x shares with
  | zero => omega
  | succ fuel ih =>
    unfold splitLoop
    by_cases more : x ≤ shamir.shares
    · rw [if_pos more, Nat.mod_eq_of_lt (by omega)]
      exact ih (by omega) (by omega) _
    · rw [if_neg more]
      exact ⟨shares, rfl⟩

/-- The shares that are dealt when the loop has ended. -/
theorem splitLoop_dealt (few : shamir.shares < 255) {fuel x : Nat} (inside : x ≤ shamir.shares + 1)
    {shares dealt : Map Nat Uint256} (run : splitLoop shamir secret coefs fuel x shares = some dealt) (y : Nat) :
    dealt[y]? = if x ≤ y ∧ y ≤ shamir.shares then some (shareOf shamir secret coefs y) else shares[y]? := by
  induction fuel generalizing x shares with
  | zero => cases run
  | succ fuel ih =>
    unfold splitLoop at run
    by_cases more : x ≤ shamir.shares
    · rw [if_pos more, Nat.mod_eq_of_lt (by omega)] at run
      rw [ih (by omega) run, Map.lookup_insert]
      by_cases later : x + 1 ≤ y ∧ y ≤ shamir.shares
      · rw [if_pos later, if_pos ⟨by omega, later.2⟩]
      · rw [if_neg later]
        by_cases here : x = y
        · rw [if_pos here, if_pos ⟨here.le, here ▸ more⟩, ← here]
          rfl
        · rw [if_neg here, if_neg (by omega)]
    · rw [if_neg more] at run
      obtain rfl := Option.some.inj run
      rw [if_neg (by omega)]

theorem split_dealt (few : shamir.shares < 255) {fuel : Nat} {dealt : Map Nat Uint256}
    (run : shamir.split secret coefs fuel = some dealt) (y : Nat) :
    dealt[y]? = if 1 ≤ y ∧ y ≤ shamir.shares then some (shareOf shamir secret coefs y) else none := by
  rw [splitLoop_dealt few (Nat.succ_le_succ (Nat.zero_le _)) run, Map.lookup_empty]

/-- With 255 shares the loop does not end: the counter starts over at zero. -/
theorem splitLoop_never (all : shamir.shares = 255) {x : Nat} (byte : x < 256) (fuel : Nat)
    (shares : Map Nat Uint256) :
    splitLoop shamir secret coefs fuel x shares = none := by
  induction fuel generalizing x shares with
  | zero => rfl
  | succ fuel ih =>
    unfold splitLoop
    rw [if_pos (by omega)]
    exact ih (Nat.mod_lt _ (by decide)) _

end Splitting

/-! ### Recovering -/

section Recovering

variable {p : Nat} [Fact p.Prime] {shares : List (Nat × Uint256)}

/-- Shares under different numbers, none of which is a multiple of the order. -/
structure Numbered (p : Nat) (shares : List (Nat × Uint256)) : Prop where
  distinct : (shares.map Prod.fst).Nodup
  unit : ∀ share ∈ shares, 0 < share.1 ∧ share.1 < p

/-- The other shares. -/
def others (shares : List (Nat × Uint256)) (formula : Nat × Uint256) : List (Nat × Uint256) :=
  shares.filter fun count => !decide (count.1 = formula.1)

theorem natCast_ne_zero {n : Nat} (positive : 0 < n) (small : n < p) : (n : ZMod p) ≠ 0 := fun zero =>
  absurd (Nat.le_of_dvd positive ((ZMod.natCast_eq_zero_iff n p).mp zero)) (not_le.mpr small)

theorem natCast_sub_ne_zero {n m : Nat} (small : n < p) (small' : m < p) (different : n ≠ m) :
    (n : ZMod p) - m ≠ 0 := by
  intro zero
  have same : n % p = m % p := (ZMod.natCast_eq_natCast_iff' n m p).mp (sub_eq_zero.mp zero)
  rw [Nat.mod_eq_of_lt small, Nat.mod_eq_of_lt small'] at same
  exact different same

omit [Fact p.Prime] in
theorem length_others {formula : Nat × Uint256} (numbered : Numbered p shares) (member : formula ∈ shares) :
    (others shares formula).length + 1 = shares.length := by
  have once : shares.countP (fun count => decide (count.1 = formula.1)) = 1 := by
    have counted : (shares.map Prod.fst).count formula.1 = 1 :=
      List.count_eq_one_of_mem numbered.distinct (List.mem_map_of_mem member)
    rw [List.count, List.countP_map] at counted
    rw [← counted]
    refine List.countP_congr fun count _ => ?_
    simp
  have split := List.length_eq_countP_add_countP (l := shares) (fun count => decide (count.1 = formula.1))
  rw [once] at split
  rw [others, ← List.countP_eq_length_filter, split, Nat.add_comm]
  congr 1
  refine List.countP_congr fun count _ => ?_
  simp

/-- **What is added for one share**: its part of the interpolation, with the sign of the number of the others. -/
theorem recoverTerm_spec (numbered : Numbered p shares) {formula : Nat × Uint256} (member : formula ∈ shares) :
    ∃ term, recoverTerm p shares formula = some term ∧
      (term : ZMod p) = (formula.2.val : ZMod p) * ((others shares formula).map fun count =>
        -(count.1 : ZMod p)).prod *
        (((others shares formula).map fun count => (formula.1 : ZMod p) - count.1).prod)⁻¹ ∧
      0 ≤ (-1) ^ (others shares formula).length * term ∧
      (Odd (others shares formula).length → term ≤ -(formula.2.val : Int)) := by
  generalize rest_eq : others shares formula = rest
  have inside : ∀ count ∈ rest, 0 < count.1 ∧ count.1 < p ∧ count.1 ≠ formula.1 := by
    intro count among
    rw [← rest_eq] at among
    obtain ⟨listed, different⟩ := List.mem_filter.mp among
    obtain ⟨positive, small⟩ := numbered.unit count listed
    exact ⟨positive, small, of_decide_eq_false (Bool.not_eq_true' _ ▸ different)⟩
  have numerator := cast_foldl_tmod (p := p) (fun count : Nat × Uint256 => -(count.1 : Int)) rest 1
  have denominator := cast_foldl_tmod (p := p) (fun count : Nat × Uint256 => (formula.1 : Int) - count.1) rest 1
  have sign := @foldl_tmod_sign p _ (fun count : Nat × Uint256 => -(count.1 : Int)) rest (fun count _ => by omega) 1 1
    (by decide)
  have run : recoverTerm p shares formula = (modInverse (rest.foldl
      (fun denominator count => (((formula.1 : Int) - count.1) * denominator).tmod p) 1) p).bind fun inverse =>
        some (formula.2.val * rest.foldl (fun numerator count =>
          (-(count.1 : Int) * numerator).tmod p) 1 * inverse) := by
    rw [← rest_eq]
    rfl
  generalize rest.foldl (fun numerator count => (-(count.1 : Int) * numerator).tmod p) 1 = above at numerator sign run
  generalize rest.foldl (fun denominator count => (((formula.1 : Int) - count.1) * denominator).tmod p) 1 = below
    at denominator run
  push_cast at numerator denominator
  rw [mul_one] at numerator denominator sign
  have unit : (below : ZMod p) ≠ 0 := by
    rw [denominator, Ne, List.prod_eq_zero_iff]
    intro zero
    obtain ⟨count, among, zero⟩ := List.mem_map.mp zero
    obtain ⟨-, small, different⟩ := inside count among
    exact natCast_sub_ne_zero (numbered.unit formula member).2 small different.symm zero
  have nonzero : (above : ZMod p) ≠ 0 := by
    rw [numerator, Ne, List.prod_eq_zero_iff]
    intro zero
    obtain ⟨count, among, zero⟩ := List.mem_map.mp zero
    obtain ⟨positive, small, -⟩ := inside count among
    exact natCast_ne_zero positive small (neg_eq_zero.mp zero)
  obtain ⟨inverse, found, low, inverts⟩ := modInverse_spec unit
  have value : (0 : Int) ≤ formula.2.val := Int.natCast_nonneg _
  refine ⟨formula.2.val * above * inverse, ?_, ?_, ?_, ?_⟩
  · rw [run, found]
    rfl
  · push_cast
    rw [numerator, inverts, denominator]
  · have product := mul_nonneg (mul_nonneg value low) sign
    linarith
  · intro odd
    rw [odd.neg_one_pow] at sign
    have negative : above ≤ -1 := by
      have apart : above ≠ 0 := fun zero => nonzero (by rw [zero, Int.cast_zero])
      omega
    have positive : 1 ≤ inverse := by
      have apart : inverse ≠ 0 := by
        rintro rfl
        rw [Int.cast_zero] at inverts
        exact inv_ne_zero unit inverts.symm
      omega
    have product : 1 ≤ -above * inverse := by nlinarith
    nlinarith

/-- What `recover` adds for a share. -/
def termOf (p : Nat) (shares : List (Nat × Uint256)) (formula : Nat × Uint256) : Int :=
  (recoverTerm p shares formula).getD 0

/-- The sum of some terms, reduced after every one of them. -/
def reducedSum (p : Nat) (terms : List Int) (start : Int) : Int :=
  terms.foldl (fun accum term => (p + accum + term).tmod p) start

theorem recoverLoop_eq (numbered : Numbered p shares) {rest : List (Nat × Uint256)}
    (inside : ∀ share ∈ rest, share ∈ shares)
    (accum : Int) : recoverLoop p shares rest accum = some (reducedSum p (rest.map (termOf p shares)) accum) := by
  induction rest generalizing accum with
  | nil => rfl
  | cons share rest ih =>
    obtain ⟨term, run, -⟩ := recoverTerm_spec numbered (inside share List.mem_cons_self)
    have same : termOf p shares share = term := by
      rw [termOf, run, Option.getD_some]
    rw [recoverLoop, run, List.map_cons, same]
    exact ih (fun other member => inside other (List.mem_cons_of_mem _ member)) _

theorem cast_reducedSum (terms : List Int) (start : Int) :
    ((reducedSum p terms start : Int) : ZMod p) = start + (terms.map (Int.cast : Int → ZMod p)).sum := by
  induction terms generalizing start with
  | nil => simp [reducedSum]
  | cons term terms ih =>
    show ((reducedSum p terms ((p + start + term).tmod p) : Int) : ZMod p) = _
    rw [ih, cast_tmod, List.map_cons, List.sum_cons]
    push_cast
    rw [ZMod.natCast_self]
    ring

omit [Fact p.Prime] in
theorem reducedSum_range (positive : 0 < p) (terms : List Int) {start : Int} (low : -(p : Int) < start)
    (high : start < p) : -(p : Int) < reducedSum p terms start ∧ reducedSum p terms start < p := by
  induction terms generalizing start with
  | nil => exact ⟨low, high⟩
  | cons term terms ih =>
    have order : (0 : Int) < p := by exact_mod_cast positive
    exact ih (Int.lt_tmod_of_pos _ order) (Int.tmod_lt_of_pos _ order)

omit [Fact p.Prime] in
theorem reducedSum_nonneg {terms : List Int} (nonneg : ∀ term ∈ terms, 0 ≤ term) {start : Int} (low : 0 ≤ start) :
    0 ≤ reducedSum p terms start := by
  induction terms generalizing start with
  | nil => exact low
  | cons term terms ih =>
    have first := nonneg term List.mem_cons_self
    exact ih (fun other member => nonneg other (List.mem_cons_of_mem _ member)) (Int.tmod_nonneg _ (by omega))

omit [Fact p.Prime] in
/-- Terms that take away almost the order: the sum gains at most one each time. -/
theorem reducedSum_le {terms : List Int} (large : ∀ term ∈ terms, term ≤ -((p : Int) - 1)) {start : Int} {bound : Nat}
    (high : start ≤ bound) : reducedSum p terms start ≤ bound + terms.length := by
  induction terms generalizing start bound with
  | nil => simpa [reducedSum] using high
  | cons term terms ih =>
    have first := large term List.mem_cons_self
    have next : ((p : Int) + start + term).tmod p ≤ ((bound + 1 : Nat) : Int) := by
      by_cases negative : (p : Int) + start + term < 0
      · have remainder := Int.tmod_nonneg (p : Int) (neg_nonneg.mpr negative.le)
        rw [Int.neg_tmod] at remainder
        omega
      · have less : ((p : Int) + start + term).tmod p ≤ (p : Int) + start + term := by
          rw [Int.tmod_eq_emod_of_nonneg (not_lt.mp negative)]
          have quotient : 0 ≤ ((p : Int) + start + term) / p := Int.ediv_nonneg (not_lt.mp negative) (by omega)
          have split := Int.mul_ediv_add_emod (p + start + term) p
          have product : (0 : Int) ≤ p * (((p : Int) + start + term) / p) := mul_nonneg (by omega) quotient
          omega
        push_cast
        omega
    have rest := ih (fun other member => large other (List.mem_cons_of_mem _ member)) next
    have step : reducedSum p (term :: terms) start = reducedSum p terms ((p + start + term).tmod p) := rfl
    rw [List.length_cons, step]
    push_cast at rest ⊢
    omega

/-- **The terms are those of the interpolation at zero.** -/
theorem sum_terms (numbered : Numbered p shares) {f : Polynomial (ZMod p)} (low : f.degree < shares.length)
    (values : ∀ share ∈ shares, (share.2.val : ZMod p) = f.eval (share.1 : ZMod p)) :
    ((shares.map (termOf p shares)).map (Int.cast : Int → ZMod p)).sum = f.eval 0 := by
  have card : (shares.map Prod.fst).toFinset.card = shares.length := by
    rw [List.toFinset_card_of_nodup numbered.distinct, List.length_map]
  have small : ∀ x ∈ (shares.map Prod.fst).toFinset, x < p := by
    intro x member
    obtain ⟨share, inside, rfl⟩ := List.mem_map.mp (List.mem_toFinset.mp member)
    exact (numbered.unit share inside).2
  have distinct : Set.InjOn (fun x : Nat => (x : ZMod p)) (shares.map Prod.fst).toFinset := by
    intro x member y member' same
    have equal : x % p = y % p := (ZMod.natCast_eq_natCast_iff' x y p).mp same
    rwa [Nat.mod_eq_of_lt (small x member), Nat.mod_eq_of_lt (small y member')] at equal
  rw [Interpolation.eval_zero_of_nodes distinct (card ▸ low), List.sum_toFinset _ numbered.distinct, List.map_map,
    List.map_map]
  refine congrArg List.sum (List.map_congr_left fun share member => ?_)
  obtain ⟨term, run, cast, -⟩ := recoverTerm_spec numbered member
  have keys : ((others shares share).map Prod.fst).Nodup :=
    numbered.distinct.sublist (List.filter_sublist.map Prod.fst)
  have rest : ((others shares share).map Prod.fst).toFinset = (shares.map Prod.fst).toFinset.erase share.1 := by
    ext x
    simp only [others, List.mem_toFinset, List.mem_map, List.mem_filter, Finset.mem_erase]
    constructor
    · rintro ⟨count, ⟨listed, different⟩, rfl⟩
      exact ⟨of_decide_eq_false (Bool.not_eq_true' _ ▸ different), count, listed, rfl⟩
    · rintro ⟨different, count, listed, rfl⟩
      exact ⟨count, ⟨listed, by simpa using different⟩, rfl⟩
  have product (g : Nat → ZMod p) : ((others shares share).map fun count => g count.1).prod =
      ∏ x ∈ (shares.map Prod.fst).toFinset.erase share.1, g x := by
    rw [← rest, List.prod_toFinset g keys, List.map_map]
    rfl
  show ((termOf p shares share : Int) : ZMod p) = _
  rw [termOf, run, Option.getD_some, cast, values share member, product fun x => -(x : ZMod p),
    product fun x => (share.1 : ZMod p) - x]
  rfl

end Recovering

/-! ### What is recovered -/

/-- All secrets are recovered from the shares with these numbers, whatever the coefficients. -/
def Recovers (shamir : Shamir) (nodes : Finset Nat) : Prop :=
  ∀ (secret : Uint256) (coefs : List Int), (secret.val : Int) < shamir.order → coefs.length + 1 = shamir.quorum →
    (∀ coef ∈ coefs, 0 ≤ coef ∧ coef < shamir.order) →
      ∃ fuel dealt, shamir.split secret coefs fuel = some dealt ∧
        (∀ x : Nat, dealt[x]?.isSome ↔ 1 ≤ x ∧ x ≤ shamir.shares) ∧
        shamir.recover (dealt.filter fun x _ => decide (x ∈ nodes)) = some secret

section Recovers

variable {shamir : Shamir} {p : Nat} [Fact p.Prime] {nodes : Finset Nat} {secret : Uint256} {coefs : List Int}

omit [Fact p.Prime] in
/-- The shares that are handed to `recover`. -/
theorem chosen_spec {dealt : Map Nat Uint256} (large : 255 < p)
    (each : ∀ y : Nat, dealt[y]? = if 1 ≤ y ∧ y ≤ shamir.shares then some (shareOf shamir secret coefs y) else none)
    (known : ∀ x ∈ nodes, 1 ≤ x ∧ x ≤ shamir.shares) :
    Numbered p (dealt.filter fun x _ => decide (x ∈ nodes)).toList ∧
      (dealt.filter fun x _ => decide (x ∈ nodes)).toList.length = nodes.card ∧
      ∀ share ∈ (dealt.filter fun x _ => decide (x ∈ nodes)).toList,
        share.2 = shareOf shamir secret coefs share.1 := by
  generalize chosen_eq : (dealt.filter fun x _ => decide (x ∈ nodes)) = chosen
  have listed : ∀ x value, (x, value) ∈ chosen.toList ↔ x ∈ nodes ∧ value = shareOf shamir secret coefs x := by
    intro x value
    rw [Map.mem_toList, ← chosen_eq, Map.lookup_filter_eq_some, each, decide_eq_true_eq]
    constructor
    · rintro ⟨stored, inside⟩
      rw [if_pos (known x inside)] at stored
      exact ⟨inside, (Option.some.inj stored).symm⟩
    · rintro ⟨inside, rfl⟩
      exact ⟨if_pos (known x inside), inside⟩
  have keys : (chosen.toList.map Prod.fst).Nodup :=
    (List.pairwise_map.mpr (Map.toList_sorted chosen)).imp fun less => less.ne
  refine ⟨⟨keys, fun share member => ?_⟩, ?_, fun share member => ((listed _ _).mp member).2⟩
  · obtain ⟨low, high⟩ := known _ ((listed _ _).mp member).1
    have bytes := shamir.shares_lt
    omega
  · have same : (chosen.toList.map Prod.fst).toFinset = nodes := by
      ext x
      rw [List.mem_toFinset, List.mem_map]
      constructor
      · rintro ⟨share, member, rfl⟩
        exact ((listed _ _).mp member).1
      · exact fun inside => ⟨(x, _), (listed _ _).mpr ⟨inside, rfl⟩, rfl⟩
    rw [← same, List.toFinset_card_of_nodup keys, List.length_map]

/-- A share is the value of the polynomial, where it fits. -/
theorem shareOf_spec (order : shamir.order = p) (below : (secret.val : Int) < p)
    (known : ∀ coef ∈ coefs, 0 ≤ coef ∧ coef < (p : Int)) (fits : p ≤ 2 ^ 256 ∨ coefs = []) (x : Nat) :
    ((shareOf shamir secret coefs x).val : Int) = shareLoop p x coefs 1 secret.val ∧
      ((shareOf shamir secret coefs x).val : ZMod p) =
        (Interpolation.ofCoefficients ((secret.val : ZMod p) :: coefs.map (Int.cast : Int → ZMod p))).eval
          (x : ZMod p) := by
  have positive : 0 < p := (Fact.out : p.Prime).pos
  obtain ⟨low, high⟩ := shareLoop_range positive x (fun coef member => (known coef member).1) 1
    (Int.natCast_nonneg secret.val) below
  have small : shareLoop p x coefs 1 secret.val < 2 ^ 256 := by
    rcases fits with fits | rfl
    · exact high.trans_le (by exact_mod_cast fits)
    · show (secret.val : Int) < 2 ^ 256
      exact_mod_cast secret.isLt
  have value : ((shareOf shamir secret coefs x).val : Int) = shareLoop p x coefs 1 secret.val := by
    rw [shareOf, order, getuint256_eq, Fin.val_ofNat, Nat.mod_eq_of_lt (by omega), Int.natCast_natAbs,
      abs_of_nonneg low]
  refine ⟨value, ?_⟩
  have cast := shareLoop_cast (p := p) x coefs 1 secret.val
  rw [← value, Int.cast_natCast, Int.cast_natCast, pow_one] at cast
  rw [cast, Interpolation.eval_ofCoefficients_cons]

/-- What `recover` computes is the secret up to a multiple of the order. -/
theorem recover_spec (order : shamir.order = p) (large : 255 < p) (known : ∀ x ∈ nodes, 1 ≤ x ∧ x ≤ shamir.shares)
    (enough : coefs.length + 1 ≤ nodes.card) (below : (secret.val : Int) < p)
    (small : ∀ coef ∈ coefs, 0 ≤ coef ∧ coef < (p : Int)) (fits : p ≤ 2 ^ 256 ∨ coefs = []) {dealt : Map Nat Uint256}
    (each : ∀ y : Nat, dealt[y]? = if 1 ≤ y ∧ y ≤ shamir.shares then some (shareOf shamir secret coefs y) else none) :
    ∃ shares, Numbered p shares ∧ shares.length = nodes.card ∧
      (∀ share ∈ shares, (share.2.val : Int) = shareLoop p share.1 coefs 1 secret.val) ∧
      shamir.recover (dealt.filter fun x _ => decide (x ∈ nodes)) =
        some (getuint256 (reducedSum p (shares.map (termOf p shares)) 0)) ∧
      ((reducedSum p (shares.map (termOf p shares)) 0 : Int) : ZMod p) = secret.val := by
  obtain ⟨numbered, card, values⟩ := chosen_spec (p := p) large each known
  unfold recover
  generalize (dealt.filter fun x _ => decide (x ∈ nodes)).toList = shares at numbered card values
  have share (x : Nat) := @shareOf_spec shamir p _ secret coefs order below small fits x
  have low : (Interpolation.ofCoefficients ((secret.val : ZMod p) :: coefs.map (Int.cast : Int → ZMod p))).degree <
      shares.length := by
    refine (Interpolation.degree_ofCoefficients _).trans_le ?_
    rw [List.length_cons, List.length_map, card]
    exact_mod_cast enough
  have sum := sum_terms numbered low fun formula member => by rw [values formula member, (share formula.1).2]
  refine ⟨shares, numbered, card, fun formula member => ?_, ?_, ?_⟩
  · rw [values formula member, (share formula.1).1]
  · rw [order, recoverLoop_eq numbered fun _ member => member, Option.map_some]
  · rw [cast_reducedSum, sum, Interpolation.eval_ofCoefficients_cons, zero_mul, Int.cast_zero, zero_add, add_zero]

/-- **An odd number of shares** gives the secret. -/
theorem recovers_of_odd (order : shamir.order = p) (large : 255 < p) (known : ∀ x ∈ nodes, 1 ≤ x ∧ x ≤ shamir.shares)
    (enough : shamir.quorum ≤ nodes.card) (fits : p ≤ 2 ^ 256 ∨ shamir.quorum = 1) (few : shamir.shares ≠ 255)
    (odd : Odd nodes.card) : Recovers shamir nodes := by
  intro secret coefs below length small
  rw [order] at below small
  have bytes := shamir.shares_lt
  have few : shamir.shares < 255 := by omega
  obtain ⟨dealt, run⟩ : ∃ dealt, shamir.split secret coefs 256 = some dealt :=
    splitLoop_ends few (by omega) (by omega) ∅
  have each := split_dealt few run
  refine ⟨256, dealt, run, fun x => ?_, ?_⟩
  · rw [each, Option.isSome_ite]
  · have fits : p ≤ 2 ^ 256 ∨ coefs = [] := fits.imp_right fun one => List.eq_nil_of_length_eq_zero (by omega)
    obtain ⟨shares, numbered, card, -, recovered, cast⟩ :=
      recover_spec order large known (length.le.trans enough) below small fits each
    rw [recovered]
    generalize result_eq : reducedSum p (shares.map (termOf p shares)) 0 = result at cast
    have nonneg : 0 ≤ result := by
      rw [← result_eq]
      refine reducedSum_nonneg (fun term member => ?_) le_rfl
      obtain ⟨share, inside, rfl⟩ := List.mem_map.mp member
      obtain ⟨term, run, -, sign, -⟩ := recoverTerm_spec numbered inside
      have even : Even (others shares share).length := by
        have others := length_others numbered inside
        rw [← card, ← others] at odd
        exact Nat.not_odd_iff_even.mp fun odd' => (Nat.not_odd_iff_even.mpr odd'.add_one) odd
      rw [even.neg_one_pow, one_mul] at sign
      rwa [termOf, run, Option.getD_some]
    have high : result < p := by
      rw [← result_eq]
      exact (reducedSum_range (by omega) _ (by omega) (by omega)).2
    have same : result = secret.val := by
      have congruent := (ZMod.intCast_eq_intCast_iff' result secret.val p).mp (by rw [cast, Int.cast_natCast])
      rwa [Int.emod_eq_of_lt nonneg high, Int.emod_eq_of_lt (Int.natCast_nonneg _) below] at congruent
    rw [same, getuint256_eq, Int.natAbs_natCast, Fin.ofNat_eq_cast, Fin.cast_val_eq_self]

/-- **An even number of shares** does not give the highest secret, even when all coefficients are zero. -/
theorem not_recovers_of_even (order : shamir.order = p) (large : 255 < p)
    (known : ∀ x ∈ nodes, 1 ≤ x ∧ x ≤ shamir.shares) (quorum : 1 ≤ shamir.quorum)
    (enough : shamir.quorum ≤ nodes.card) (fits : p ≤ 2 ^ 256) (few : shamir.shares ≠ 255)
    (even : Even nodes.card) : ¬Recovers shamir nodes := by
  intro recovers
  obtain ⟨secret, highest⟩ : ∃ secret : Uint256, (secret.val : Int) = (p : Int) - 1 := by
    refine ⟨⟨p - 1, by omega⟩, ?_⟩
    show ((p - 1 : Nat) : Int) = (p : Int) - 1
    omega
  have below : (secret.val : Int) < p := by omega
  have zeros : ∀ coef ∈ List.replicate (shamir.quorum - 1) (0 : Int), 0 ≤ coef ∧ coef < (p : Int) := by
    intro coef member
    rw [List.eq_of_mem_replicate member]
    omega
  have length : (List.replicate (shamir.quorum - 1) (0 : Int)).length + 1 = shamir.quorum := by
    rw [List.length_replicate]
    omega
  obtain ⟨fuel, dealt, run, -, given⟩ := recovers secret _ (order ▸ below) length (order ▸ zeros)
  have bytes := shamir.shares_lt
  obtain ⟨shares, numbered, card, values, recovered, cast⟩ := recover_spec order large known (length.le.trans enough)
    below zeros (.inl fits) (split_dealt (by omega) run)
  rw [recovered] at given
  have same := congrArg Fin.val (Option.some.inj given)
  have few : shares.length ≤ 254 := by
    rw [card]
    have inside : nodes ⊆ Finset.Icc 1 shamir.shares := fun x member => Finset.mem_Icc.mpr (known x member)
    have number := Finset.card_le_card inside
    rw [Nat.card_Icc] at number
    omega
  -- every term takes away almost the order
  have high : reducedSum p (shares.map (termOf p shares)) 0 ≤ shares.length := by
    have large : ∀ term ∈ shares.map (termOf p shares), term ≤ -((p : Int) - 1) := by
      intro term member
      obtain ⟨share, inside, rfl⟩ := List.mem_map.mp member
      obtain ⟨term, run, -, -, large⟩ := recoverTerm_spec numbered inside
      have odd : Odd (others shares share).length := by
        have others := length_others numbered inside
        rw [← card, ← others] at even
        exact Nat.not_even_iff_odd.mp fun even' => (Nat.not_even_iff_odd.mpr even'.add_one) even
      have value := values share inside
      rw [shareLoop_zeros _ _ _ (by omega) below, highest] at value
      rw [termOf, run, Option.getD_some, ← value]
      exact large odd
    have most := reducedSum_le large (le_refl ((0 : Nat) : Int))
    rw [List.length_map] at most
    simpa using most
  have order_pos : (0 : Int) < p := by omega
  obtain ⟨low, below⟩ := reducedSum_range (p := p) (by omega) (shares.map (termOf p shares))
    (neg_lt_zero.mpr order_pos)
    order_pos
  generalize reducedSum p (shares.map (termOf p shares)) 0 = result at cast high low below same
  rw [getuint256_eq, Fin.val_ofNat, Nat.mod_eq_of_lt (by omega)] at same
  have result_eq : result = -((p : Int) - 1) := by omega
  have two : ((2 : Nat) : ZMod p) = 0 := by
    have secret_cast : ((secret.val : Int) : ZMod p) = -1 := by
      rw [highest]
      push_cast
      rw [ZMod.natCast_self, zero_sub]
    rw [Int.cast_natCast] at secret_cast
    rw [result_eq, secret_cast] at cast
    push_cast at cast
    rw [ZMod.natCast_self, zero_sub, neg_neg] at cast
    calc ((2 : Nat) : ZMod p) = 1 + 1 := by norm_num
      _ = -1 + 1 := by rw [← cast]
      _ = 0 := neg_add_cancel 1
  exact absurd two (natCast_ne_zero (by decide) (by omega))

/-- With 255 shares nothing is recovered, as `split` does not end. -/
theorem not_recovers_of_all (positive : 0 < shamir.order) (quorum : 1 ≤ shamir.quorum) (all : shamir.shares = 255) :
    ¬Recovers shamir nodes := by
  intro recovers
  obtain ⟨fuel, dealt, run, -⟩ := recovers 0 (List.replicate (shamir.quorum - 1) 0)
    (by rw [Fin.val_zero]; exact_mod_cast positive) (by rw [List.length_replicate]; omega) fun coef member => by
      rw [List.eq_of_mem_replicate member]
      exact ⟨le_rfl, positive⟩
  rw [split, splitLoop_never all (by decide)] at run
  cases run

end Recovers

/-- **When the secret is recovered**: from an odd number of shares, of fewer than 255. For orders of at most 256 bits
that is exact. -/
theorem recovers_exact {shamir : Shamir} {p : Nat} (prime : p.Prime) (order : shamir.order = p) (large : 255 < p)
    (quorum : 1 ≤ shamir.quorum) {nodes : Finset Nat} (known : ∀ x ∈ nodes, 1 ≤ x ∧ x ≤ shamir.shares)
    (enough : shamir.quorum ≤ nodes.card) :
    ((p ≤ 2 ^ 256 ∨ shamir.quorum = 1) ∧ shamir.shares ≠ 255 ∧ Odd nodes.card → Recovers shamir nodes) ∧
      (p ≤ 2 ^ 256 → (Recovers shamir nodes ↔ shamir.shares ≠ 255 ∧ Odd nodes.card)) := by
  have : Fact p.Prime := ⟨prime⟩
  have sufficient : (p ≤ 2 ^ 256 ∨ shamir.quorum = 1) ∧ shamir.shares ≠ 255 ∧ Odd nodes.card →
    Recovers shamir nodes :=
    fun holds => recovers_of_odd order large known enough holds.1 holds.2.1 holds.2.2
  refine ⟨sufficient, fun fits => ⟨fun recovers => ?_, fun holds => sufficient ⟨.inl fits, holds⟩⟩⟩
  have few : shamir.shares ≠ 255 := fun all => not_recovers_of_all (by omega) quorum all recovers
  refine ⟨few, Nat.not_even_iff_odd.mp fun even => ?_⟩
  exact not_recovers_of_even order large known quorum enough fits few even recovers

end Shamir

namespace Small

/-- Three shares, two of which are enough. -/
def shamir : Shamir where
  shares := 3
  quorum := 2
  order := 257
  shares_lt := by decide
  quorum_lt := by decide

end Small

namespace Shamir

open Libcoin.Small in
/-- The three shares together. -/
theorem recovers_three : Recovers shamir {1, 2, 3} :=
  (recovers_exact (p := 257) (by norm_num) rfl (by decide) (by decide) (by decide) (by decide)).1
    ⟨.inl (by norm_num), by decide, by decide⟩

open Libcoin.Small in
/-- The secret 256, split with the coefficient 0, is recovered as 1 from the first two shares. -/
theorem recovers_not_two : ¬Recovers shamir {1, 2} := by
  intro recovers
  obtain ⟨fuel, dealt, run, -, given⟩ := recovers 256 [0] (by decide) (by decide) (by decide)
  have evaluated : ((shamir.split 256 [0] 10).bind fun dealt =>
      shamir.recover (dealt.filter fun x _ => decide (x ∈ ({1, 2} : Finset Nat)))) = some 1 := by
    decide +kernel
  obtain ⟨again, run', wrong⟩ := Option.bind_eq_some_iff.mp evaluated
  have same : dealt = again :=
    Map.ext_lookup fun y => (split_dealt (by decide) run y).trans (split_dealt (by decide) run' y).symm
  rw [same, wrong] at given
  exact absurd given (by decide)

end Shamir

end Libcoin
