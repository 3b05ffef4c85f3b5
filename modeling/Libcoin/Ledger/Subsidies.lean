/-
The subsidies of the halving chains, and the maximum of money.

* Five chains have the same `subsidy` with their own number of blocks to a halving (`halved`). It is an `int64_t` that
  is shifted to the right, which is undefined from 64 on (`shiftRight64`).
* Four of them inherit `max_money` from `Chain`; `TerracoinChain` has its own.
* `minted_eq` counts the subsidies up to a height era by era. `supply_sound_iff` says up to which height everything
  holds that one expects of a supply: a subsidy that is defined and does not grow, and a total that `range` accepts.
-/

import Mathlib.Algebra.BigOperators.Intervals
import Mathlib.Algebra.Order.BigOperators.Group.Finset
import Mathlib.Algebra.Order.Ring.Int
import Mathlib.Tactic.Positivity

namespace Libcoin

open Finset

/-! ### Functions that are constant on blocks of equal length -/

section Blocks

variable {M : Type} [CommSemiring M] (f : Nat → M) {k : Nat}

theorem sum_range_block (q : Nat) {r : Nat} (within : r ≤ k) : ∑ i ∈ range r, f ((q * k + i) / k) = r * f q := by
  have constant (i : Nat) (inside : i ∈ range r) : f ((q * k + i) / k) = f q := by
    have below : i < k := (mem_range.mp inside).trans_le within
    rw [Nat.add_comm, Nat.add_mul_div_right _ _ (Nat.zero_lt_of_lt below), Nat.div_eq_of_lt below, Nat.zero_add]
  rw [sum_congr rfl constant, sum_const, card_range, nsmul_eq_mul]

/-- So many whole blocks, and a part of the next one. -/
theorem sum_range_blocks (q : Nat) {r : Nat} (within : r ≤ k) :
    ∑ n ∈ range (q * k + r), f (n / k) = k * ∑ e ∈ range q, f e + r * f q := by
  rw [sum_range_add, sum_range_block f q within]
  congr 1
  induction q with
  | zero => simp
  | succ q ih => rw [Nat.succ_mul, sum_range_add, ih, sum_range_block f q le_rfl, sum_range_succ, mul_add]

end Blocks

/-! ### The chains -/

/-- `COIN`. -/
def COIN : Int := 100000000

/-- `s >>= n` of an `int64_t`, which is undefined unless `n` is less than its width. -/
def shiftRight64 (s : Int) (n : Nat) : Option Int := if n < 64 then some (s / 2 ^ n) else none

/-- The body of `subsidy`: 50 coins, cut in half after so many blocks. -/
def halved (interval : Nat) (height : UInt32) : Option Int :=
  let s := 50 * COIN
  shiftRight64 s (height.toNat / interval)

def BitcoinChain.subsidy : UInt32 → Option Int := halved 210000

def TestNet3Chain.subsidy : UInt32 → Option Int := halved 210000

def NamecoinChain.subsidy : UInt32 → Option Int := halved 210000

def LitecoinChain.subsidy : UInt32 → Option Int := halved 840000

def TerracoinChain.subsidy : UInt32 → Option Int := halved 1050000

/-- `Chain::max_money`. -/
def Chain.max_money : Int := 2100000000000000

def TerracoinChain.max_money : Int := 8400000000000000

/-- The chains with halvings. -/
inductive HalvingChain
  | bitcoin
  | testNet3
  | namecoin
  | litecoin
  | terracoin
  deriving DecidableEq, Repr

namespace HalvingChain

def subsidy : HalvingChain → UInt32 → Option Int
  | bitcoin => BitcoinChain.subsidy
  | testNet3 => TestNet3Chain.subsidy
  | namecoin => NamecoinChain.subsidy
  | litecoin => LitecoinChain.subsidy
  | terracoin => TerracoinChain.subsidy

def max_money : HalvingChain → Int
  | bitcoin | testNet3 | namecoin | litecoin => Chain.max_money
  | terracoin => TerracoinChain.max_money

/-- `Chain::range`. -/
def range (chain : HalvingChain) (value : Int) : Bool := decide (value ≥ 0 ∧ value ≤ chain.max_money)

/-- The blocks to a halving. -/
def interval : HalvingChain → Nat
  | bitcoin | testNet3 | namecoin => 210000
  | litecoin => 840000
  | terracoin => 1050000

/-- The subsidies of all heights up to one. -/
def minted (chain : HalvingChain) (height : UInt32) : Int :=
  ∑ h ∈ Finset.range (height.toNat + 1), (chain.subsidy (UInt32.ofNat h)).getD 0

/-- At a height the subsidy is defined, between nothing and 50 coins and not above an earlier one, and all that was
minted up to there is in the range of money. -/
def Sound (chain : HalvingChain) (height : UInt32) : Prop :=
  ∃ s, chain.subsidy height = some s ∧ 0 ≤ s ∧ s ≤ 50 * COIN ∧
    (∀ lower ≤ height, ∃ s', chain.subsidy lower = some s' ∧ s ≤ s') ∧ chain.range (chain.minted height) = true

/-- The first height at which this is not so: that of the 64th halving, or the first one whose subsidy is too much. -/
def firstUnsound : HalvingChain → Nat
  | bitcoin | testNet3 | namecoin => 64 * 210000
  | litecoin => 420000
  | terracoin => 2520000

variable (chain : HalvingChain) {height : UInt32}

theorem subsidy_eq : chain.subsidy height = halved chain.interval height := by
  cases chain <;> rfl

theorem interval_pos : 0 < chain.interval := by
  cases chain <;> decide

/-! ### Eras -/

/-- The subsidy between two halvings. -/
def era (e : Nat) : Int := if e < 64 then 50 * COIN / 2 ^ e else 0

theorem era_nonneg (e : Nat) : 0 ≤ era e := by
  unfold era
  split
  · exact Int.ediv_nonneg (by decide) (by positivity)
  · exact le_refl 0

theorem era_anti {e e' : Nat} (le : e ≤ e') : era e' ≤ era e := by
  unfold era
  by_cases last : e' < 64
  · rw [if_pos last, if_pos (le.trans_lt last)]
    have powers : (2 : Int) ^ e ≤ 2 ^ e' := pow_le_pow_right₀ (by decide) le
    rw [Int.le_ediv_iff_mul_le (by positivity)]
    calc 50 * COIN / 2 ^ e' * 2 ^ e ≤ 50 * COIN / 2 ^ e' * 2 ^ e' :=
          mul_le_mul_of_nonneg_left powers (Int.ediv_nonneg (by decide) (by positivity))
      _ ≤ 50 * COIN := Int.ediv_mul_le _ (by positivity)
  · rw [if_neg last]
    exact era_nonneg e

theorem subsidy_some {s : Int} :
    chain.subsidy height = some s ↔ height.toNat / chain.interval < 64 ∧ era (height.toNat / chain.interval) = s := by
  rw [subsidy_eq]
  unfold halved shiftRight64 era
  dsimp only
  by_cases last : height.toNat / chain.interval < 64
  · rw [if_pos last, if_pos last, Option.some_inj, and_iff_right last]
  · rw [if_neg last]
    exact iff_of_false nofun fun both => last both.1

theorem subsidy_getD : (chain.subsidy height).getD 0 = era (height.toNat / chain.interval) := by
  rw [subsidy_eq]
  unfold halved shiftRight64 era
  dsimp only
  split <;> rfl

theorem minted_eq : chain.minted height = ∑ h ∈ Finset.range (height.toNat + 1), era (h / chain.interval) := by
  refine sum_congr rfl fun h inside => ?_
  have word := height.toNat_lt
  have below : h < 2 ^ 32 := by
    have := Finset.mem_range.mp inside
    omega
  rw [subsidy_getD, UInt32.toNat_ofNat_of_lt' below]

/-- The subsidies of so many whole eras, and of a part of the next one. -/
def upTo (eras rest : Nat) : Int := chain.interval * ∑ e ∈ Finset.range eras, era e + rest * era eras

theorem minted_le (eras : Nat) {rest : Nat} (within : rest ≤ chain.interval)
    (before : height.toNat + 1 ≤ eras * chain.interval + rest) : chain.minted height ≤ chain.upTo eras rest := by
  rw [minted_eq, upTo, ← sum_range_blocks era eras within]
  exact sum_le_sum_of_subset_of_nonneg (range_mono before) fun h _ _ => era_nonneg _

theorem le_minted (eras : Nat) {rest : Nat} (within : rest ≤ chain.interval)
    (after : eras * chain.interval + rest ≤ height.toNat + 1) : chain.upTo eras rest ≤ chain.minted height := by
  rw [minted_eq, upTo, ← sum_range_blocks era eras within]
  exact sum_le_sum_of_subset_of_nonneg (range_mono after) fun h _ _ => era_nonneg _

theorem minted_nonneg : 0 ≤ chain.minted height := by
  rw [minted_eq]
  exact sum_nonneg fun h _ => era_nonneg _

/-! ### The supply -/

theorem range_minted_iff : chain.range (chain.minted height) = true ↔ chain.minted height ≤ chain.max_money := by
  rw [range, decide_eq_true_iff]
  exact and_iff_right chain.minted_nonneg

/-- A height whose subsidy is defined is sound if the total is in the range of money. -/
theorem sound_iff_range (defined : height.toNat / chain.interval < 64) :
    chain.Sound height ↔ chain.minted height ≤ chain.max_money := by
  unfold Sound
  rw [range_minted_iff]
  refine ⟨fun ⟨_, _, _, _, _, total⟩ => total, fun total => ?_⟩
  refine ⟨_, chain.subsidy_some.mpr ⟨defined, rfl⟩, era_nonneg _, era_anti (Nat.zero_le _), ?_, total⟩
  intro lower le
  have eras : lower.toNat / chain.interval ≤ height.toNat / chain.interval :=
    Nat.div_le_div_right (UInt32.le_iff_toNat_le.mp le)
  exact ⟨_, chain.subsidy_some.mpr ⟨eras.trans_lt defined, rfl⟩, era_anti eras⟩

theorem Sound.defined {chain : HalvingChain} (sound : chain.Sound height) : height.toNat / chain.interval < 64 := by
  obtain ⟨s, defined, -⟩ := sound
  exact (chain.subsidy_some.mp defined).1

/-- Where the whole supply is in the range, the heights at which the subsidy is defined are sound. -/
theorem sound_iff_of_total {chain : HalvingChain} (first : chain.firstUnsound = 64 * chain.interval)
    (total : chain.upTo 64 0 ≤ chain.max_money) : chain.Sound height ↔ height.toNat < chain.firstUnsound := by
  have positive := chain.interval_pos
  rw [first, ← Nat.div_lt_iff_lt_mul positive]
  refine ⟨Sound.defined, fun defined => (chain.sound_iff_range defined).mpr ?_⟩
  refine (chain.minted_le 64 (Nat.zero_le _) ?_).trans total
  have below := (Nat.div_lt_iff_lt_mul positive).mp defined
  omega

/-- Where the supply reaches the maximum within an era, the heights before that are sound. -/
theorem sound_iff_of_exceeded {chain : HalvingChain} (eras rest : Nat) (within : rest < chain.interval)
    (first : chain.firstUnsound = eras * chain.interval + rest) (early : eras < 64)
    (most : chain.upTo eras rest ≤ chain.max_money) (more : chain.max_money < chain.upTo eras (rest + 1)) :
    chain.Sound height ↔ height.toNat < chain.firstUnsound := by
  have positive := chain.interval_pos
  constructor
  · intro sound
    by_contra later
    have total := (chain.sound_iff_range sound.defined).mp sound
    have least : chain.upTo eras (rest + 1) ≤ chain.minted height := chain.le_minted eras within (by omega)
    omega
  · intro before
    have defined : height.toNat / chain.interval < 64 := by
      rw [Nat.div_lt_iff_lt_mul positive]
      calc height.toNat < eras * chain.interval + chain.interval := by omega
        _ = (eras + 1) * chain.interval := (Nat.succ_mul _ _).symm
        _ ≤ 64 * chain.interval := Nat.mul_le_mul_right _ early
    refine (chain.sound_iff_range defined).mpr ((chain.minted_le eras within.le ?_).trans most)
    omega

theorem litecoin_sound_iff (height : UInt32) : litecoin.Sound height ↔ height.toNat < 420000 :=
  sound_iff_of_exceeded 0 420000 (by decide) rfl (by decide) (by decide +kernel) (by decide +kernel)

theorem terracoin_sound_iff (height : UInt32) : terracoin.Sound height ↔ height.toNat < 2520000 :=
  sound_iff_of_exceeded 2 420000 (by decide) rfl (by decide) (by decide +kernel) (by decide +kernel)

/-- **The supply of a halving chain is sound up to the height before the first unsound one, and no further.** -/
theorem supply_sound_iff (height : UInt32) : chain.Sound height ↔ height.toNat < chain.firstUnsound := by
  cases chain with
  | bitcoin => exact sound_iff_of_total rfl (by decide +kernel)
  | testNet3 => exact sound_iff_of_total rfl (by decide +kernel)
  | namecoin => exact sound_iff_of_total rfl (by decide +kernel)
  | litecoin => exact litecoin_sound_iff height
  | terracoin => exact terracoin_sound_iff height

/-- The shift of the 64th halving is undefined. Litecoin has the maximum of Bitcoin with four times as many blocks to a
halving, and Terracoin that of four times as many with five times as many. -/
theorem supply_not_sound :
    BitcoinChain.subsidy 13440000 = none ∧ ¬bitcoin.Sound 13440000 ∧ ¬litecoin.Sound 420000 ∧
      ¬terracoin.Sound 2520000 := by
  refine ⟨by decide, fun sound => absurd sound.defined (by decide), fun sound => ?_, fun sound => ?_⟩
  · exact absurd ((litecoin_sound_iff _).mp sound) (by decide)
  · exact absurd ((terracoin_sound_iff _).mp sound) (by decide)

end HalvingChain

end Libcoin
