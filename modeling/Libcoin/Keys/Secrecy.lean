/-
`Shamir`: what fewer shares than the quorum tell of the secret, which is nothing.

* `Consistent` are the random coefficients with which `split` deals the shares that somebody has seen.
* `secrecy_exact`: there are as many of them for every secret, whatever shares were seen.
-/

import Libcoin.Keys.Shamir
import Mathlib.SetTheory.Cardinal.Finite
import Mathlib.Data.Finset.Card

namespace Libcoin

namespace Shamir

/-- The coefficients that `split` may have drawn when the shares with these numbers were seen. -/
def Consistent (shamir : Shamir) (secret : Uint256) (nodes : Finset Nat) (seen : Nat → Uint256) (coefs : List Int) :
    Prop :=
  coefs.length + 1 = shamir.quorum ∧ (∀ coef ∈ coefs, 0 ≤ coef ∧ coef < shamir.order) ∧
    ∃ fuel dealt, shamir.split secret coefs fuel = some dealt ∧ ∀ x ∈ nodes, dealt[x]? = some (seen x)

/-! ### Coefficients as residues -/

section Residues

variable {p : Nat}

/-- The residues of the coefficients. -/
def residues (p : Nat) (coefs : List Int) : List (ZMod p) := coefs.map Int.cast

/-- The coefficients with these residues, as `rnd` draws them. -/
def drawn (cs : List (ZMod p)) : List Int := cs.map fun c => (c.val : Int)

variable [NeZero p]

theorem residues_drawn (cs : List (ZMod p)) : residues p (drawn cs) = cs := by
  rw [residues, drawn, List.map_map]
  refine (List.map_congr_left fun c _ => ?_).trans (List.map_id cs)
  simp

theorem drawn_residues {coefs : List Int} (range : ∀ coef ∈ coefs, 0 ≤ coef ∧ coef < (p : Int)) :
    drawn (residues p coefs) = coefs := by
  rw [residues, drawn, List.map_map]
  refine (List.map_congr_left fun coef member => ?_).trans (List.map_id coefs)
  obtain ⟨low, high⟩ := range coef member
  show (((coef : ZMod p)).val : Int) = coef
  rw [ZMod.val_intCast, Int.emod_eq_of_lt low high]

theorem drawn_range (cs : List (ZMod p)) : ∀ coef ∈ drawn cs, 0 ≤ coef ∧ coef < (p : Int) := by
  intro coef member
  obtain ⟨c, -, rfl⟩ := List.mem_map.mp member
  exact ⟨Int.natCast_nonneg _, by exact_mod_cast ZMod.val_lt c⟩

end Residues

/-! ### Shares as values -/

section Values

variable {p : Nat} [Fact p.Prime] {shamir : Shamir} {secret : Uint256} {coefs : List Int}

/-- The value of the polynomial that `split` evaluates. -/
noncomputable def valueAt (p : Nat) [Fact p.Prime] (secret : Uint256) (cs : List (ZMod p)) (x : Nat) : ZMod p :=
  (secret.val : ZMod p) + (x : ZMod p) * (Interpolation.ofCoefficients cs).eval (x : ZMod p)

/-- A share is that value, as the one number below the order. -/
theorem shareOf_eq_iff (order : shamir.order = p) (fits : p ≤ 2 ^ 256) (below : secret.val < p)
    (range : ∀ coef ∈ coefs, 0 ≤ coef ∧ coef < (p : Int)) (x : Nat) {seen : Uint256} (small : seen.val < p) :
    shareOf shamir secret coefs x = seen ↔ valueAt p secret (residues p coefs) x = (seen.val : ZMod p) := by
  have cast := shareLoop_cast (p := p) x coefs 1 secret.val
  obtain ⟨low, high⟩ := shareLoop_range (p := p) (Nat.pos_of_ne_zero (NeZero.ne p)) x
    (fun coef member => (range coef member).1) 1 (Int.natCast_nonneg secret.val) (by exact_mod_cast below)
  rw [pow_one, Int.cast_natCast] at cast
  change _ = valueAt p secret (residues p coefs) x at cast
  rw [shareOf, order, ← cast]
  lift shareLoop p x coefs 1 secret.val to Nat using low with share
  have inside : share < p := by exact_mod_cast high
  rw [getuint256_eq, Int.natAbs_natCast, Fin.ext_iff, Fin.val_ofNat, Nat.mod_eq_of_lt (inside.trans_le fits),
    Int.cast_natCast, ZMod.natCast_eq_natCast_iff', Nat.mod_eq_of_lt inside, Nat.mod_eq_of_lt small]

variable {nodes : Finset Nat} {seen : Nat → Uint256}

/-- `split` deals what was seen exactly when the polynomial has these values. -/
theorem consistent_iff (order : shamir.order = p) (fits : p ≤ 2 ^ 256) (few : shamir.shares ≠ 255)
    (known : ∀ x ∈ nodes, 1 ≤ x ∧ x ≤ shamir.shares) (small : ∀ x ∈ nodes, (seen x).val < p)
    (below : secret.val < p) :
    Consistent shamir secret nodes seen coefs ↔
      coefs.length + 1 = shamir.quorum ∧ (∀ coef ∈ coefs, 0 ≤ coef ∧ coef < (p : Int)) ∧
        ∀ x ∈ nodes, valueAt p secret (residues p coefs) x = ((seen x).val : ZMod p) := by
  have bytes := shamir.shares_lt
  rw [Consistent, order]
  refine and_congr_right fun _ => and_congr_right fun range => ?_
  have dealt_iff {fuel : Nat} {dealt : Map Nat Uint256} (run : shamir.split secret coefs fuel = some dealt) {x : Nat}
      (member : x ∈ nodes) : dealt[x]? = some (seen x) ↔
        valueAt p secret (residues p coefs) x = ((seen x).val : ZMod p) := by
    rw [split_dealt (by omega) run, if_pos (known x member), Option.some.injEq]
    exact shareOf_eq_iff order fits below range x (small x member)
  constructor
  · rintro ⟨fuel, dealt, run, sees⟩ x member
    exact (dealt_iff run member).mp (sees x member)
  · intro values
    obtain ⟨dealt, run⟩ := @splitLoop_ends shamir secret coefs (by omega) (shamir.shares + 1) 1 (by omega)
      (by omega) ∅
    exact ⟨_, dealt, run, fun x member => (dealt_iff run member).mpr (values x member)⟩

end Values

/-! ### Counting -/

/-- **Fewer shares than the quorum tell nothing of the secret**: for every secret below the order there are as many
choices of the coefficients with which the shares seen were dealt. With one share missing there is exactly one. -/
theorem secrecy_exact {shamir : Shamir} {p : Nat} (prime : p.Prime) (order : shamir.order = p) (large : 255 < p)
    (fits : p ≤ 2 ^ 256) (few : shamir.shares ≠ 255) {nodes : Finset Nat}
    (known : ∀ x ∈ nodes, 1 ≤ x ∧ x ≤ shamir.shares) (less : nodes.card < shamir.quorum) {seen : Nat → Uint256}
    (small : ∀ x ∈ nodes, (seen x).val < p) {secret : Uint256} (below : secret.val < p) :
    Nat.card {coefs : List Int // Consistent shamir secret nodes seen coefs} =
      p ^ (shamir.quorum - 1 - nodes.card) := by
  have : Fact p.Prime := ⟨prime⟩
  have bytes := shamir.shares_lt
  have bytes' := shamir.quorum_lt
  -- As many more numbers as are missing, none of which is a multiple of the order.
  obtain ⟨all, more, inside, card⟩ := Finset.exists_subsuperset_card_eq (s := nodes) (t := Finset.Icc 1 255)
    (n := shamir.quorum - 1) (fun x member => Finset.mem_Icc.mpr ⟨(known x member).1, by have := known x member; omega⟩)
    (by omega) (by rw [Nat.card_Icc]; omega)
  have range : ∀ x ∈ all, 0 < x ∧ x < p := fun x member => by
    have bounds := Finset.mem_Icc.mp (inside member)
    omega
  have distinct : Set.InjOn (fun x : Nat => (x : ZMod p)) all := by
    intro x member y member' same
    have equal := (ZMod.natCast_eq_natCast_iff' x y p).mp same
    rwa [Nat.mod_eq_of_lt (range x member).2, Nat.mod_eq_of_lt (range y member').2] at equal
  have exact_one (values : Nat → ZMod p) := Interpolation.existsUnique_coefficients distinct
    (fun x member => natCast_ne_zero (range x member).1 (range x member).2) (secret.val : ZMod p) values
  have consistent := fun coefs => @consistent_iff p _ shamir secret coefs nodes seen order fits few known small below
  -- The values at the other numbers determine the coefficients, and can be anything.
  have bijective : Function.Bijective
      fun (coefs : {coefs : List Int // Consistent shamir secret nodes seen coefs}) (x : ↥(all \ nodes)) =>
        valueAt p secret (residues p coefs.1) x := by
    constructor
    · rintro ⟨coefs, first⟩ ⟨coefs', second⟩ same
      obtain ⟨long, low, values⟩ := (consistent coefs).mp first
      obtain ⟨long', low', values'⟩ := (consistent coefs').mp second
      have equal : residues p coefs = residues p coefs' := by
        refine (exact_one fun x => valueAt p secret (residues p coefs') x).unique ⟨?_, fun x member => ?_⟩
          ⟨?_, fun x member => rfl⟩
        · rw [residues, List.length_map]
          omega
        · by_cases seen_ : x ∈ nodes
          · exact (values x seen_).trans (values' x seen_).symm
          · exact congrFun same ⟨x, Finset.mem_sdiff.mpr ⟨member, seen_⟩⟩
        · rw [residues, List.length_map]
          omega
      apply Subtype.ext
      show coefs = coefs'
      rw [← drawn_residues low, equal, drawn_residues low']
    · intro others
      obtain ⟨cs, ⟨long, values⟩, -⟩ := exact_one fun x =>
        if free : x ∈ all \ nodes then others ⟨x, free⟩ else ((seen x).val : ZMod p)
      refine ⟨⟨drawn cs, (consistent _).mpr ⟨?_, drawn_range cs, fun x member => ?_⟩⟩, ?_⟩
      · rw [drawn, List.length_map]
        omega
      · rw [residues_drawn]
        refine (values x (more member)).trans (dif_neg fun free => ?_)
        exact (Finset.mem_sdiff.mp free).2 member
      · funext x
        show valueAt p secret (residues p (drawn cs)) x = others x
        rw [residues_drawn]
        exact (values x (Finset.mem_sdiff.mp x.2).1).trans (dif_pos x.2)
  rw [Nat.card_eq_of_bijective _ bijective, Nat.card_fun, Nat.card_zmod, Nat.card_eq_fintype_card, Fintype.card_coe,
    Finset.card_sdiff_of_subset more, card]

open Libcoin.Small in
/-- One share of three, two of which are enough: every secret goes with it, in one way. -/
theorem secrecy_one : Nat.card {coefs : List Int // Consistent shamir 7 {1} (fun _ => 5) coefs} = 1 :=
  secrecy_exact (p := 257) (by norm_num) rfl (by decide) (by norm_num) (by decide) (by decide) (by decide) (by decide)
    (by decide)

end Shamir

end Libcoin
