import Mathlib.Analysis.Complex.ExponentialBounds
import Mathlib.Analysis.SpecialFunctions.Gamma.Basic

/-! The weights of a Poisson distribution. No weight is above one, the weights far behind the mean
are small, and a sum of complements of powers under these weights has a closed bound. -/

namespace EntropyLearnedHashing

open Nat

/-- The weight of `i` for the mean `lam`. -/
noncomputable def poissonWeight (lam : ℝ) (i : ℕ) : ℝ := Real.exp (-lam) * (lam ^ i / i !)

namespace PoissonWeight

variable {lam r : ℝ} {i : ℕ}

theorem nonneg (hlam : 0 ≤ lam) (i : ℕ) : 0 ≤ poissonWeight lam i :=
  mul_nonneg (Real.exp_pos _).le (div_nonneg (pow_nonneg hlam i) (cast_nonneg _))

theorem le_one (hlam : 0 ≤ lam) (i : ℕ) : poissonWeight lam i ≤ 1 := by
  calc poissonWeight lam i ≤ Real.exp (-lam) * Real.exp lam :=
        mul_le_mul_of_nonneg_left (Real.pow_div_factorial_le_exp _ hlam i) (Real.exp_pos _).le
    _ = 1 := by rw [← Real.exp_add, neg_add_cancel, Real.exp_zero]

/-- The weight as it is computed from logarithms. -/
theorem eq_exp (hlam : 0 < lam) (i : ℕ) : poissonWeight lam i =
    Real.exp (i * Real.log lam - Real.log (Real.Gamma (i + 1)) - lam) := by
  have hfactorial : (0 : ℝ) < i ! := by exact_mod_cast factorial_pos i
  rw [Real.Gamma_nat_eq_factorial, sub_eq_add_neg _ lam, Real.exp_add, Real.exp_sub,
    Real.exp_log hfactorial, Real.exp_nat_mul, Real.exp_log hlam, mul_comm]
  rfl

/-- From sixteen times the mean on the weights fall at least by a fourth. -/
theorem le_pow (hlam : 0 ≤ lam) (hi : 16 * lam ≤ i) : poissonWeight lam i ≤ (1 / 4) ^ i := by
  have hexp : Real.exp (-lam) ≤ 1 := Real.exp_le_one_iff.mpr (by linarith)
  have hbase : Real.exp 1 ≤ 4 := by linarith [Real.exp_one_lt_d9]
  have hself : (i : ℝ) ^ i / i ! ≤ 4 ^ i := by
    calc (i : ℝ) ^ i / i ! ≤ Real.exp (i * 1) := by
          rw [mul_one]
          exact Real.pow_div_factorial_le_exp _ i.cast_nonneg i
      _ = Real.exp 1 ^ i := Real.exp_nat_mul 1 i
      _ ≤ 4 ^ i := pow_le_pow_left₀ (Real.exp_pos 1).le hbase i
  have hpow : lam ^ i ≤ (1 / 16) ^ i * i ^ i := by
    rw [← mul_pow]
    exact pow_le_pow_left₀ hlam (by linarith) i
  calc poissonWeight lam i ≤ 1 * (lam ^ i / i !) :=
        mul_le_mul_of_nonneg_right hexp (div_nonneg (pow_nonneg hlam i) (cast_nonneg _))
    _ ≤ (1 / 16) ^ i * (i ^ i / i !) := by
        rw [one_mul, ← mul_div_assoc]
        exact div_le_div_of_nonneg_right hpow (cast_nonneg _)
    _ ≤ (1 / 16) ^ i * 4 ^ i := mul_le_mul_of_nonneg_left hself (by positivity)
    _ = (1 / 4) ^ i := by
        rw [← mul_pow]
        norm_num

theorem hasSum_pow_mul (lam r : ℝ) :
    HasSum (fun i => r ^ i * poissonWeight lam i) (Real.exp (-(lam * (1 - r)))) := by
  have hsum := (NormedSpace.expSeries_div_hasSum_exp (lam * r)).mul_left (Real.exp (-lam))
  rw [← Real.exp_eq_exp_ℝ, ← Real.exp_add, show -lam + lam * r = -(lam * (1 - r)) by ring] at hsum
  have hterm : (fun i => r ^ i * poissonWeight lam i) =
      fun i : ℕ => Real.exp (-lam) * ((lam * r) ^ i / i !) := by
    funext i
    rw [poissonWeight, mul_pow]
    ring
  rw [hterm]
  exact hsum

/-- A sum of the complements of the powers of `r`. -/
theorem sum_one_sub_pow_mul_le (hlam : 0 ≤ lam) (hr : 0 ≤ r) (hr1 : r ≤ 1) (n : ℕ) :
    ∑ i ∈ Finset.range n, (1 - r ^ i) * poissonWeight lam i ≤
      1 - Real.exp (-(lam * (1 - r))) := by
  have hone := hasSum_pow_mul lam 1
  rw [sub_self, mul_zero, neg_zero, Real.exp_zero] at hone
  have hsum := hone.sub (hasSum_pow_mul lam r)
  simp only [one_pow, ← sub_mul] at hsum
  exact sum_le_hasSum _ (fun i _ => mul_nonneg (sub_nonneg.mpr (pow_le_one₀ hr hr1))
    (nonneg hlam i)) hsum

end PoissonWeight

end EntropyLearnedHashing
