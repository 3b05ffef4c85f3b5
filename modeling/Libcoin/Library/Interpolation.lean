/-
Polynomials with given coefficients, and what they are at zero.

* `ofCoefficients` lists the coefficients, that of the lowest power first.
* `existsUnique_coefficients`: with one node less, every value at zero goes with every choice of the other values, and
  with one list of coefficients only.
-/

import Mathlib.LinearAlgebra.Lagrange

namespace Libcoin.Interpolation

open Polynomial

variable {F : Type} [Field F]

/-- The polynomial with these coefficients, the lowest power first. -/
noncomputable def ofCoefficients : List F → F[X]
  | [] => 0
  | c :: cs => C c + X * ofCoefficients cs

@[simp] theorem eval_ofCoefficients_cons (x c : F) (cs : List F) :
    (ofCoefficients (c :: cs)).eval x = c + x * (ofCoefficients cs).eval x := by
  simp [ofCoefficients]

theorem degree_ofCoefficients (cs : List F) : (ofCoefficients cs).degree < cs.length := by
  induction cs with
  | nil => simp [ofCoefficients, degree_zero]
  | cons c cs ih =>
    have constant : (C c : F[X]).degree < ((c :: cs).length : WithBot ℕ) :=
      degree_C_le.trans_lt (by rw [List.length_cons]; exact_mod_cast Nat.succ_pos _)
    have shifted : (X * ofCoefficients cs).degree < ((c :: cs).length : WithBot ℕ) := by
      rw [degree_mul, degree_X, List.length_cons, Nat.cast_add, Nat.cast_one, add_comm (1 : WithBot ℕ)]
      exact WithBot.add_lt_add_right (by decide) ih
    exact (degree_add_le _ _).trans_lt (max_lt constant shifted)

/-- The value at zero, from the values at enough nodes. -/
theorem eval_zero_of_nodes {N : Type} [DecidableEq N] {nodes : Finset N} {place : N → F}
    (distinct : Set.InjOn place nodes)
    {f : F[X]} (low : f.degree < nodes.card) :
    f.eval 0 = ∑ i ∈ nodes, f.eval (place i) * (∏ j ∈ nodes.erase i, -place j) *
      (∏ j ∈ nodes.erase i, (place i - place j))⁻¹ := by
  have whole := congrArg (eval 0) (Lagrange.eq_interpolate distinct low)
  rw [Lagrange.interpolate_apply, eval_finsetSum] at whole
  rw [whole]
  refine Finset.sum_congr rfl fun i _ => ?_
  have divisors : eval 0 (Lagrange.basis nodes place i) =
      ∏ j ∈ nodes.erase i, (-place j * (place i - place j)⁻¹) := by
    rw [Lagrange.basis, eval_prod]
    refine Finset.prod_congr rfl fun j _ => ?_
    simp [Lagrange.basisDivisor, mul_comm]
  rw [eval_mul, eval_C, divisors, Finset.prod_mul_distrib, Finset.prod_inv_distrib, mul_assoc]

/-! ### Coefficients for given values -/

@[simp] theorem coeff_ofCoefficients (cs : List F) (i : ℕ) : (ofCoefficients cs).coeff i = cs.getD i 0 := by
  induction cs generalizing i with
  | nil => simp [ofCoefficients]
  | cons c cs ih =>
    rw [ofCoefficients, coeff_add]
    cases i with
    | zero => simp
    | succ i =>
      rw [coeff_C_succ, coeff_X_mul, ih, zero_add]
      rfl

/-- Lists of one length are equal when their polynomials are. -/
theorem ofCoefficients_inj {cs cs' : List F} (long : cs.length = cs'.length)
    (same : ofCoefficients cs = ofCoefficients cs') : cs = cs' := by
  apply List.ext_getElem long
  intro i inside inside'
  have coeff := congrArg (fun f => coeff f i) same
  simpa [List.getElem?_eq_getElem inside, List.getElem?_eq_getElem inside'] using coeff

/-- Every polynomial of low degree is given by its coefficients. -/
theorem ofCoefficients_coeff {f : F[X]} {n : ℕ} (low : f.degree < n) :
    ofCoefficients ((List.range n).map f.coeff) = f := by
  ext i
  rw [coeff_ofCoefficients]
  by_cases inside : i < n
  · simp [inside]
  · have zero : f.coeff i = 0 := coeff_eq_zero_of_degree_lt (low.trans_le (by exact_mod_cast not_lt.mp inside))
    simp [inside, zero]

/-- With one node less than coefficients, every value at zero goes with every choice of the values at the nodes. -/
theorem existsUnique_coefficients {N : Type} [DecidableEq N] {nodes : Finset N} {place : N → F}
    (distinct : Set.InjOn place nodes) (nonzero : ∀ i ∈ nodes, place i ≠ 0) (start : F) (values : N → F) :
    ∃! cs : List F, cs.length = nodes.card ∧
      ∀ i ∈ nodes, start + place i * (ofCoefficients cs).eval (place i) = values i := by
  have solves (f : F[X]) (i : N) (member : i ∈ nodes) :
      start + place i * f.eval (place i) = values i ↔ f.eval (place i) = (values i - start) / place i := by
    rw [eq_div_iff (nonzero i member), mul_comm, eq_sub_iff_add_eq, add_comm]
  refine ⟨(List.range nodes.card).map (Lagrange.interpolate nodes place fun i => (values i - start) / place i).coeff,
    ⟨by simp, fun i member => ?_⟩, ?_⟩
  · rw [solves _ i member, ofCoefficients_coeff (Lagrange.degree_interpolate_lt _ distinct),
      Lagrange.eval_interpolate_at_node _ distinct member]
  · rintro cs ⟨long, given⟩
    apply ofCoefficients_inj (by simp [long])
    rw [ofCoefficients_coeff (Lagrange.degree_interpolate_lt _ distinct)]
    apply Lagrange.eq_interpolate_of_eval_eq _ distinct (long ▸ degree_ofCoefficients cs)
    exact fun i member => (solves _ i member).mp (given i member)

end Libcoin.Interpolation
