import EntropyLearnedHashing.Library.Binary64
import Mathlib.Analysis.SpecialFunctions.Gamma.Basic
import Mathlib.Analysis.Complex.ExponentialBounds

/-! The functions of the C mathematics library in double precision. The language leaves their last
places open, so they are parameters with an accuracy of 32 units in the last place, and with
the special values that IEEE arithmetic gives them. One library of this kind rounds the real
functions. -/

namespace EntropyLearnedHashing

open Binary64 Nat

/-- Within 32 units in the last place. -/
structure Accurate (a : Binary64) (y : ℝ) : Prop where
  error_le : Near (|y| / 2 ^ 48 + 1 / 2 ^ 1060) a y

/-- The functions, on the arguments for which something is known of them. -/
structure Libm where
  exp : Binary64 → Binary64
  log : Binary64 → Binary64
  lgamma : Binary64 → Binary64
  pow : Binary64 → Binary64 → Binary64
  exp_finite : ∀ x : ℚ, x ≤ 400 → Accurate (exp (.finite x)) (Real.exp x)
  exp_nan : exp .nan = .nan
  log_finite : ∀ x : ℚ, 1 ≤ x * 2 ^ 100 → x ≤ 2 ^ 100 → Accurate (log (.finite x)) (Real.log x)
  log_infinity : log (.infinity false) = .infinity false
  lgamma_succ : ∀ n : ℕ, n < 2 ^ 32 →
    Accurate (lgamma (.finite (n + 1))) (Real.log (Real.Gamma (n + 1)))
  pow_finite : ∀ x y : ℚ, 0 < x ∨ x = 0 ∧ 0 < y → (x : ℝ) ^ (y : ℝ) ≤ 2 ^ 900 →
    Accurate (pow (.finite x) (.finite y)) ((x : ℝ) ^ (y : ℝ))
  pow_zero : ∀ x, pow x (.finite 0) = .finite 1

variable {a : Binary64} {y M : ℝ}

theorem Accurate.near (h : Accurate a y) (hy : |y| ≤ M) (hM : 1 ≤ M) : Near (M / 2 ^ 47) a y := by
  refine h.error_le.mono ?_
  have htiny : (1 : ℝ) / 2 ^ 1060 ≤ M / 2 ^ 48 :=
    div_le_div₀ (by linarith) hM (by positivity) (pow_le_pow_right₀ one_le_two (by norm_num))
  calc |y| / 2 ^ 48 + 1 / 2 ^ 1060 ≤ M / 2 ^ 48 + M / 2 ^ 48 :=
        add_le_add (div_le_div_of_nonneg_right hy (by positivity)) htiny
    _ = M / 2 ^ 47 := by ring

/-! ### Rounded real functions -/

namespace Binary64

/-- A rational number next to a real one. -/
structure NextTo (y : ℝ) (q : ℚ) : Prop where
  error_le : |(q : ℝ) - y| ≤ |y| / 2 ^ 53

theorem exists_nextTo (y : ℝ) : ∃ q : ℚ, NextTo y q := by
  rcases eq_or_ne y 0 with rfl | hne
  · exact ⟨0, ⟨by simp⟩⟩
  have hpos : 0 < |y| / 2 ^ 53 := div_pos (abs_pos.mpr hne) (by positivity)
  obtain ⟨q, hlow, hhigh⟩ := exists_rat_btwn (lt_add_of_pos_right y hpos)
  refine ⟨q, ⟨?_⟩⟩
  rw [abs_of_pos (sub_pos.mpr hlow)]
  linarith

/-- A `double` next to a real number. -/
noncomputable def ofReal (y : ℝ) : Binary64 := ofRat (exists_nextTo y).choose

theorem accurate_ofReal (hy : |y| ≤ 2 ^ 999) : Accurate (ofReal y) y := by
  have hnear := (exists_nextTo y).choose_spec.error_le
  set q := (exists_nextTo y).choose
  have hq : |(q : ℝ)| ≤ 2 * |y| := by
    have hsmall : |y| / 2 ^ 53 ≤ |y| := div_le_self (abs_nonneg _) (one_le_pow₀ one_le_two)
    calc |(q : ℝ)| = |y + (q - y)| := by rw [add_sub_cancel]
      _ ≤ |y| + |y| := (abs_add_le _ _).trans (add_le_add le_rfl (hnear.trans hsmall))
      _ = 2 * |y| := (two_mul _).symm
  have hfits : |(q : ℝ)| ≤ 2 ^ 1000 := by
    calc |(q : ℝ)| ≤ 2 * 2 ^ 999 := hq.trans (mul_le_mul_of_nonneg_left hy zero_le_two)
      _ = 2 ^ 1000 := (pow_succ' 2 999).symm
  refine ⟨⟨roundSigned q, ofRat_eq hfits, ?_⟩⟩
  have htiny : (1 : ℝ) / 2 ^ 1075 ≤ 1 / 2 ^ 1060 :=
    one_div_le_one_div_of_le (by positivity) (pow_le_pow_right₀ one_le_two (by norm_num))
  have hround : |(q : ℝ)| / 2 ^ 53 ≤ 2 * |y| / 2 ^ 53 :=
    div_le_div_of_nonneg_right hq (by positivity)
  have hsum : 2 * |y| / 2 ^ 53 + |y| / 2 ^ 53 ≤ |y| / 2 ^ 48 := by
    have hnonneg := abs_nonneg y
    linarith
  calc |(roundSigned q : ℝ) - y| ≤ |(roundSigned q : ℝ) - q| + |(q : ℝ) - y| := abs_sub_le _ _ _
    _ ≤ (2 * |y| / 2 ^ 53 + 1 / 2 ^ 1060) + |y| / 2 ^ 53 :=
        add_le_add ((abs_cast_roundSigned_sub_le q).trans (add_le_add hround htiny)) hnear
    _ ≤ |y| / 2 ^ 48 + 1 / 2 ^ 1060 := by
        rw [add_right_comm]
        exact add_le_add hsum le_rfl

end Binary64

namespace Libm

theorem abs_exp_le {x : ℝ} (hx : x ≤ 400) : |Real.exp x| ≤ 2 ^ 999 := by
  have hle : Real.exp 1 ≤ 2 ^ 2 := by linarith [Real.exp_one_lt_d9]
  rw [abs_of_pos (Real.exp_pos x)]
  calc Real.exp x ≤ Real.exp ((400 : ℕ) * 1) := Real.exp_le_exp.mpr (by norm_num; exact hx)
    _ = Real.exp 1 ^ 400 := Real.exp_nat_mul 1 400
    _ ≤ (2 ^ 2) ^ 400 := pow_le_pow_left₀ (Real.exp_pos 1).le hle 400
    _ = 2 ^ 800 := (pow_mul 2 2 400).symm
    _ ≤ 2 ^ 999 := pow_le_pow_right₀ one_le_two (by norm_num)

theorem abs_log_le {x : ℝ} (hlow : 1 ≤ x * 2 ^ 100) (hhigh : x ≤ 2 ^ 100) :
    |Real.log x| ≤ 100 := by
  have htwo : Real.log 2 ≤ 1 := by linarith [Real.log_two_lt_d9]
  have hx : 0 < x := pos_of_mul_pos_left (one_pos.trans_le hlow) (by positivity)
  have hpow : Real.log (2 ^ 100) ≤ 100 := by
    rw [Real.log_pow]
    push_cast
    linarith
  rw [abs_le]
  constructor
  · have h := Real.log_le_log one_pos hlow
    rw [Real.log_one, Real.log_mul hx.ne' (by positivity)] at h
    linarith
  · exact (Real.log_le_log hx hhigh).trans hpow

theorem abs_log_Gamma_succ_le {n : ℕ} (hn : n < 2 ^ 32) :
    |Real.log (Real.Gamma (n + 1))| ≤ 2 ^ 64 := by
  rw [Real.Gamma_nat_eq_factorial]
  have hone : (1 : ℝ) ≤ n ! := by exact_mod_cast Nat.one_le_iff_ne_zero.mpr (factorial_ne_zero n)
  have hle : (n ! : ℝ) ≤ (2 ^ 32) ^ n := by
    exact_mod_cast (factorial_le_pow n).trans (Nat.pow_le_pow_left hn.le n)
  have htwo : Real.log 2 ≤ 1 := by linarith [Real.log_two_lt_d9]
  have hn' : (n : ℝ) ≤ 2 ^ 32 := by exact_mod_cast hn.le
  rw [abs_of_nonneg (Real.log_nonneg hone)]
  calc Real.log (n ! : ℝ) ≤ Real.log ((2 ^ 32) ^ n) := Real.log_le_log (by linarith) hle
    _ = n * (32 * Real.log 2) := by rw [Real.log_pow, Real.log_pow]; push_cast; ring
    _ ≤ 2 ^ 32 * (32 * 1) := by
        have hlog : 0 ≤ 32 * Real.log 2 := by linarith [Real.log_two_gt_d9]
        exact mul_le_mul hn' (by linarith) hlog (by positivity)
    _ ≤ 2 ^ 64 := by norm_num

noncomputable def expRounded : Binary64 → Binary64
  | .finite x => ofReal (Real.exp x)
  | .infinity true => .finite 0
  | a => a

noncomputable def logRounded : Binary64 → Binary64
  | .finite x => if 0 < x then ofReal (Real.log x) else .nan
  | .infinity true => .nan
  | a => a

noncomputable def lgammaRounded : Binary64 → Binary64
  | .finite x => if 0 < x then ofReal (Real.log (Real.Gamma x)) else .nan
  | .infinity _ => .infinity false
  | .nan => .nan

noncomputable def powRounded : Binary64 → Binary64 → Binary64
  | a, .finite y =>
    if y = 0 then .finite 1
    else match a with
      | .finite x => if 0 ≤ x then ofReal ((x : ℝ) ^ (y : ℝ)) else .nan
      | _ => .nan
  | _, _ => .nan

theorem log_rounded_accurate {x : ℚ} (hlow : 1 ≤ x * 2 ^ 100) (hhigh : x ≤ 2 ^ 100) :
    Accurate (logRounded (.finite x)) (Real.log x) := by
  have hx : 0 < x := pos_of_mul_pos_left (one_pos.trans_le hlow) (by positivity)
  have hle : (100 : ℝ) ≤ 2 ^ 999 :=
    le_trans (by norm_num) (pow_le_pow_right₀ one_le_two (show 7 ≤ 999 by norm_num))
  rw [logRounded, if_pos hx]
  exact accurate_ofReal ((abs_log_le (by exact_mod_cast hlow) (by exact_mod_cast hhigh)).trans hle)

theorem lgamma_rounded_accurate {n : ℕ} (hn : n < 2 ^ 32) :
    Accurate (lgammaRounded (.finite (n + 1))) (Real.log (Real.Gamma (n + 1))) := by
  have hpos : (0 : ℚ) < n + 1 := by positivity
  have hreal : (((n + 1 : ℚ)) : ℝ) = n + 1 := by push_cast; ring
  rw [lgammaRounded, if_pos hpos, hreal]
  exact accurate_ofReal ((abs_log_Gamma_succ_le hn).trans
    (pow_le_pow_right₀ one_le_two (by norm_num)))

theorem pow_rounded_accurate {x y : ℚ} (hx : 0 < x ∨ x = 0 ∧ 0 < y)
    (hle : (x : ℝ) ^ (y : ℝ) ≤ 2 ^ 900) :
    Accurate (powRounded (.finite x) (.finite y)) ((x : ℝ) ^ (y : ℝ)) := by
  have hnonneg : 0 ≤ x := hx.elim le_of_lt fun h => h.1.ge
  have hreal : (0 : ℝ) ≤ x := by exact_mod_cast hnonneg
  have hpow : |(x : ℝ) ^ (y : ℝ)| ≤ 2 ^ 999 := by
    rw [abs_of_nonneg (Real.rpow_nonneg hreal _)]
    exact hle.trans (pow_le_pow_right₀ one_le_two (by norm_num))
  simp only [powRounded, if_pos hnonneg]
  split_ifs with hy
  · rw [hy, Rat.cast_zero, Real.rpow_zero]
    refine ⟨⟨1, rfl, ?_⟩⟩
    rw [Rat.cast_one, sub_self, abs_zero]
    positivity
  · exact accurate_ofReal hpow

/-- The real functions, rounded. Only the arguments that an estimate can reach are told apart. -/
noncomputable def rounded : Libm where
  exp := expRounded
  log := logRounded
  lgamma := lgammaRounded
  pow := powRounded
  exp_finite := fun _ hx => accurate_ofReal (abs_exp_le (by exact_mod_cast hx))
  exp_nan := rfl
  log_finite := fun _ => log_rounded_accurate
  log_infinity := rfl
  lgamma_succ := fun _ => lgamma_rounded_accurate
  pow_finite := fun _ _ => pow_rounded_accurate
  pow_zero := fun a => by simp only [powRounded, if_pos]

end Libm

end EntropyLearnedHashing
