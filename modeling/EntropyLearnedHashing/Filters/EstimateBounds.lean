import EntropyLearnedHashing.Filters.Estimate
import EntropyLearnedHashing.Library.PoissonWeight

/-! When an estimate ends. For an integral number of at least one bit per element all terms stay near
their real values. So the weight is below the threshold at the 8192nd term at the latest,
and the estimate for one hash is below one. For zero bits per element no weight is a
number, and the loop never ends. -/

namespace EntropyLearnedHashing

open Binary64

/-! ### A Poisson weight -/

section Weight

variable (libm : Libm) {lam : ℚ} {i : ℕ}

theorem mean_pos (hlow : 1 ≤ lam * 2 ^ 40) : (0 : ℝ) < lam := by
  have hpos : 0 < lam := pos_of_mul_pos_left (one_pos.trans_le hlow) (by positivity)
  exact_mod_cast hpos

theorem abs_log_mean_le (hlow : 1 ≤ lam * 2 ^ 40) (hhigh : lam ≤ 512) :
    |Real.log lam| ≤ 32 := by
  have htwo : Real.log 2 ≤ 7 / 10 := by linarith [Real.log_two_lt_d9]
  have hpos := mean_pos hlow
  have hlow' : (1 : ℝ) ≤ lam * 2 ^ 40 := by exact_mod_cast hlow
  have hhigh' : (lam : ℝ) ≤ 2 ^ 9 := by
    have h : (lam : ℝ) ≤ 512 := by exact_mod_cast hhigh
    linarith
  rw [abs_le]
  constructor
  · have h := Real.log_le_log one_pos hlow'
    rw [Real.log_one, Real.log_mul hpos.ne' (by positivity), Real.log_pow] at h
    push_cast at h
    linarith
  · have h := Real.log_le_log hpos hhigh'
    rw [Real.log_pow] at h
    push_cast at h
    linarith

theorem abs_log_Gamma_le (hi : i ≤ 8192) : |Real.log (Real.Gamma (i + 1))| ≤ 2 ^ 17 := by
  rw [Real.Gamma_nat_eq_factorial]
  have htwo : Real.log 2 ≤ 1 := by linarith [Real.log_two_lt_d9]
  have hone : (1 : ℝ) ≤ i.factorial := by exact_mod_cast i.factorial_pos
  have hle : (i.factorial : ℝ) ≤ (2 ^ 13) ^ i := by
    exact_mod_cast i.factorial_le_pow.trans (Nat.pow_le_pow_left hi i)
  have hi' : (i : ℝ) ≤ 8192 := by exact_mod_cast hi
  rw [abs_of_nonneg (Real.log_nonneg hone)]
  calc Real.log i.factorial ≤ Real.log ((2 ^ 13) ^ i) := Real.log_le_log (by linarith) hle
    _ = i * (13 * Real.log 2) := by rw [Real.log_pow, Real.log_pow]; push_cast; ring
    _ ≤ 8192 * (13 * 1) := by
        have hlog : 0 ≤ 13 * Real.log 2 := by linarith [Real.log_two_gt_d9]
        exact mul_le_mul hi' (by linarith) hlog (by positivity)
    _ ≤ 2 ^ 17 := by norm_num

theorem exponent_near (hlow : 1 ≤ lam * 2 ^ 40) (hhigh : lam ≤ 512) (hi : i ≤ 8192) :
    Near (1 / 2 ^ 26)
      (i * libm.log (.finite lam) - libm.lgamma (i + 1) - .finite lam)
      (i * Real.log lam - Real.log (Real.Gamma (i + 1)) - lam) := by
  have hlam := (mean_pos hlow).le
  have hlam' : (lam : ℝ) ≤ 512 := by exact_mod_cast hhigh
  have hi' : (i : ℝ) ≤ 8192 := by exact_mod_cast hi
  have hlog := abs_log_mean_le hlow hhigh
  have hgamma := abs_log_Gamma_le hi
  have hlogNear : Near (32 / 2 ^ 47) (libm.log (.finite lam)) (Real.log lam) := by
    refine (libm.log_finite lam ?_ ?_).near hlog (by norm_num)
    · linarith
    · linarith
  have hmulLe : |(i : ℝ) * Real.log lam| ≤ 2 ^ 18 := by
    rw [abs_mul, abs_of_nonneg i.cast_nonneg]
    calc (i : ℝ) * |Real.log lam| ≤ 8192 * 32 := mul_le_mul hi' hlog (abs_nonneg _) (by norm_num)
      _ = 2 ^ 18 := by norm_num
  have hmul : Near (1 / 2 ^ 28) (i * libm.log (.finite lam)) (i * Real.log lam) := by
    refine (Near.mul (near_natCast (by omega)) hlogNear (A := 8192) (B := 32) (M := 2 ^ 19) ?_ hlog
      ?_ (by norm_num) (by norm_num)).mono (by norm_num)
    · rwa [abs_of_nonneg i.cast_nonneg]
    · linarith
  have hgammaNear : Near (2 ^ 17 / 2 ^ 47) (libm.lgamma (i + 1)) (Real.log (Real.Gamma (i + 1))) := by
    rw [natCast_add_one (by omega)]
    exact (libm.lgamma_succ i (by omega)).near hgamma (by norm_num)
  have hsub : |(i : ℝ) * Real.log lam - Real.log (Real.Gamma (i + 1))| ≤ 2 ^ 19 := by
    calc _ ≤ |(i : ℝ) * Real.log lam| + |Real.log (Real.Gamma (i + 1))| := abs_sub _ _
      _ ≤ 2 ^ 18 + 2 ^ 17 := add_le_add hmulLe hgamma
      _ ≤ 2 ^ 19 := by norm_num
  have hsubNear := Near.sub hmul hgammaNear (M := 2 ^ 20) (by linarith) (by norm_num) (by norm_num)
  refine (Near.sub hsubNear (near_finite lam) (M := 2 ^ 21) ?_ (by norm_num) (by norm_num)).mono
    (by norm_num)
  calc _ ≤ (|(i : ℝ) * Real.log lam - Real.log (Real.Gamma (i + 1))| + |(lam : ℝ)|) + _ :=
        add_le_add (abs_sub _ _) le_rfl
    _ ≤ (2 ^ 19 + 512) + (1 / 2 ^ 28 + 2 ^ 17 / 2 ^ 47 + 2 ^ 20 / 2 ^ 52 + 0) := by
        rw [abs_of_nonneg hlam]
        linarith
    _ ≤ 2 ^ 21 := by norm_num

/-- A weight is computed with a small relative error. -/
theorem poissonPmf_near (hlow : 1 ≤ lam * 2 ^ 40) (hhigh : lam ≤ 512) (hi : i ≤ 8192) :
    Near (poissonWeight lam i / 2 ^ 24 + 1 / 2 ^ 1060) (poissonPmf libm i (.finite lam))
      (poissonWeight lam i) := by
  have hlam := mean_pos hlow
  obtain ⟨e, he, hnear⟩ := exponent_near libm hlow hhigh hi
  have hweight := PoissonWeight.eq_exp hlam i
  have hpos := PoissonWeight.nonneg hlam.le i
  set E := (i : ℝ) * Real.log lam - Real.log (Real.Gamma (i + 1)) - lam with hE
  have hE0 : E ≤ 0 := by
    rw [← Real.exp_le_one_iff, ← hweight]
    exact PoissonWeight.le_one hlam.le i
  have he1 : (e : ℝ) ≤ 400 := by linarith [(abs_le.mp hnear).2]
  obtain ⟨⟨v, hv, herror⟩⟩ := libm.exp_finite e (by exact_mod_cast he1)
  refine ⟨v, by rw [poissonPmf, he, hv], ?_⟩
  -- the error of the exponent becomes a relative one
  have hshift : |Real.exp e - poissonWeight lam i| ≤ poissonWeight lam i / 2 ^ 25 := by
    have hone : |Real.exp (e - E) - 1| ≤ 1 / 2 ^ 25 := by
      have h := Real.abs_exp_sub_one_le (x := e - E) (by linarith)
      linarith
    have hsplit : Real.exp e = poissonWeight lam i * Real.exp (e - E) := by
      rw [hweight, ← Real.exp_add, add_sub_cancel]
    calc |Real.exp e - poissonWeight lam i| = poissonWeight lam i * |Real.exp (e - E) - 1| := by
          rw [hsplit, ← mul_sub_one, abs_mul, abs_of_nonneg hpos]
      _ ≤ poissonWeight lam i * (1 / 2 ^ 25) := mul_le_mul_of_nonneg_left hone hpos
      _ = poissonWeight lam i / 2 ^ 25 := by ring
  have hexp : Real.exp e ≤ 2 * poissonWeight lam i := by linarith [(abs_le.mp hshift).2]
  rw [abs_of_pos (Real.exp_pos _)] at herror
  calc |(v : ℝ) - poissonWeight lam i| ≤ |(v : ℝ) - Real.exp e| + |Real.exp e - poissonWeight lam i| :=
        abs_sub_le _ _ _
    _ ≤ (2 * poissonWeight lam i / 2 ^ 48 + 1 / 2 ^ 1060) + poissonWeight lam i / 2 ^ 25 :=
        add_le_add (herror.trans (add_le_add (div_le_div_of_nonneg_right hexp (by positivity)) le_rfl))
          hshift
    _ ≤ poissonWeight lam i / 2 ^ 24 + 1 / 2 ^ 1060 := by
        rw [add_right_comm]
        exact add_le_add (by linarith) le_rfl

end Weight

/-! ### The rate of one hash -/

section Rate

variable (libm : Libm) {width i : ℕ}

theorem base_near (h₁ : 2 ≤ width) (h₂ : width ≤ 512) (hi : 1 ≤ i) (hi' : i ≤ 8192) :
    Near (1 / 2 ^ 37) (1 - 1 / ((i : Binary64) * (width / i))) (1 - 1 / width) := by
  have hiR : (1 : ℝ) ≤ i := by exact_mod_cast hi
  have hiR' : (i : ℝ) ≤ 8192 := by exact_mod_cast hi'
  have hwR : (2 : ℝ) ≤ width := by exact_mod_cast h₁
  have hwR' : (width : ℝ) ≤ 512 := by exact_mod_cast h₂
  have hi0 : (i : ℝ) ≠ 0 := by linarith
  have hquot : Near (8192 / i / 2 ^ 52) ((width : Binary64) / i) (width / i) := by
    refine (Near.natCast_div (n := width) (by omega) (near_natCast (by omega)) (L := i)
      (M := 8192 / i) (by linarith) (by linarith) ?_ ?_ ?_).mono (by simp)
    · rw [mul_zero, zero_div, add_zero]
      exact div_le_div_of_nonneg_right (by linarith) i.cast_nonneg
    · rwa [one_le_div (by linarith)]
    · exact (div_le_self (by norm_num) hiR).trans (by norm_num)
  have hprod : Near (1 / 2 ^ 38) ((i : Binary64) * (width / i)) width := by
    have herror : (i : ℝ) * (8192 / i / 2 ^ 52) = 1 / 2 ^ 39 := by
      field_simp
      norm_num
    have hmul := Near.mul (near_natCast (n := i) (by omega)) hquot (A := i) (B := 512)
      (M := 2 ^ 10) (by rw [abs_of_nonneg i.cast_nonneg]) ?_ ?_ (by norm_num) (by norm_num)
    · rw [mul_div_cancel₀ _ hi0, herror] at hmul
      exact hmul.mono (by norm_num)
    · rw [abs_of_nonneg (by positivity)]
      exact (div_le_self (by linarith) hiR).trans hwR'
    · rw [mul_div_cancel₀ _ hi0, abs_of_nonneg width.cast_nonneg, herror]
      linarith
  have hinv : Near (1 / 2 ^ 38 + 1 / 2 ^ 51) (1 / ((i : Binary64) * (width / i))) (1 / width) := by
    have hdiv := Near.natCast_div (n := 1) (by norm_num) hprod (L := 1) (M := 2) one_pos
      (by linarith) (by norm_num) (by norm_num) (by norm_num)
    rw [Nat.cast_one] at hdiv
    exact hdiv.mono (by norm_num)
  have hinv0 : (0 : ℝ) ≤ 1 / width := by positivity
  have hinv1 : (1 : ℝ) / width ≤ 1 / 2 := one_div_le_one_div_of_le two_pos hwR
  refine (near_one.sub hinv (M := 2) ?_ (by norm_num) (by norm_num)).mono (by norm_num)
  rw [abs_of_nonneg (by linarith)]
  linarith

theorem pow_near {b : ℚ} {r : ℝ} (hr : 1 / 2 ≤ r) (hr' : r ≤ 1 - 1 / 512)
    (hb : |(b : ℝ) - r| ≤ 1 / 2 ^ 37) (hi : i ≤ 8192) :
    Near (1 / 2 ^ 23) (libm.pow (.finite b) (.finite i)) (r ^ i) := by
  have hb0 : (0 : ℝ) < b := by linarith [(abs_le.mp hb).1]
  have hb1 : (b : ℝ) ≤ 1 := by linarith [(abs_le.mp hb).2]
  have hpow : ((b : ℝ) ^ ((i : ℚ) : ℝ)) = (b : ℝ) ^ i := by
    rw [Rat.cast_natCast, Real.rpow_natCast]
  have hle : (b : ℝ) ^ i ≤ 1 := pow_le_one₀ hb0.le hb1
  have haccurate := libm.pow_finite b i (.inl (by exact_mod_cast hb0))
    (by rw [hpow]; exact hle.trans (one_le_pow₀ one_le_two))
  rw [hpow] at haccurate
  obtain ⟨P, hP, hnear⟩ := haccurate.near (M := 1) (by rwa [abs_of_pos (pow_pos hb0 i)]) le_rfl
  refine ⟨P, hP, ?_⟩
  have hdiff : |(b : ℝ) ^ i - r ^ i| ≤ 1 / 2 ^ 24 := by
    have hmax : max |(b : ℝ)| |r| ^ (i - 1) ≤ 1 := by
      refine pow_le_one₀ (le_max_of_le_left (abs_nonneg _)) (max_le ?_ ?_)
      · rwa [abs_of_pos hb0]
      · rw [abs_of_nonneg (by linarith)]
        linarith
    have hiR : (i : ℝ) ≤ 8192 := by exact_mod_cast hi
    calc |(b : ℝ) ^ i - r ^ i| ≤ |(b : ℝ) - r| * i * max |(b : ℝ)| |r| ^ (i - 1) :=
          abs_pow_sub_pow_le _ _ _
      _ ≤ 1 / 2 ^ 37 * 8192 * 1 := by
          refine mul_le_mul (mul_le_mul hb hiR i.cast_nonneg (by norm_num)) hmax ?_ (by norm_num)
          exact pow_nonneg (le_max_of_le_left (abs_nonneg _)) _
      _ = 1 / 2 ^ 24 := by norm_num
  calc |(P : ℝ) - r ^ i| ≤ |(P : ℝ) - (b : ℝ) ^ i| + |(b : ℝ) ^ i - r ^ i| := abs_sub_le _ _ _
    _ ≤ 1 / 2 ^ 47 + 1 / 2 ^ 24 := add_le_add hnear hdiff
    _ ≤ 1 / 2 ^ 23 := by norm_num

theorem fprStandard_empty : Near (1 / 2 ^ 21)
    (fprStandard libm (1 : ℕ) (0 : ℕ) (width / (0 : ℕ))) 0 := by
  have hone : (1 : Binary64) = .finite (1 : ℕ) := ofNat_eq (by norm_num)
  have hexponent : ((1 : ℕ) : Binary64) * (0 : ℕ) = .finite (0 : ℕ) :=
    natCast_mul (by norm_num) (by norm_num) (by norm_num)
  have hzero : (1 : Binary64) - .finite 1 = .finite 0 := by
    rw [hone, finite_sub, Nat.cast_one, sub_self]
    exact_mod_cast natCast_eq (n := 0) (by norm_num)
  have hpow := libm.pow_finite 0 (1 : ℕ) (.inr ⟨rfl, by norm_num⟩) (by
    rw [Nat.cast_one, Rat.cast_one, Real.rpow_one, Rat.cast_zero]
    positivity)
  rw [Nat.cast_one, Rat.cast_one, Real.rpow_one, Rat.cast_zero] at hpow
  unfold fprStandard
  rw [hexponent, Nat.cast_zero]
  simp only [libm.pow_zero]
  rw [hzero, natCast_eq (n := 1) (by norm_num), Nat.cast_one]
  exact (hpow.near (M := 1) (by norm_num) le_rfl).mono (by norm_num)

/-- The rate of one hash, also for an empty block. -/
theorem fprStandard_one_near (h₁ : 2 ≤ width) (h₂ : width ≤ 512) (hi : i ≤ 8192) :
    Near (1 / 2 ^ 21) (fprStandard libm (1 : ℕ) i (width / i)) (1 - (1 - 1 / width) ^ i) := by
  rcases Nat.eq_zero_or_pos i with rfl | hpos
  · rw [pow_zero, sub_self]
    exact fprStandard_empty libm
  have hwR : (2 : ℝ) ≤ width := by exact_mod_cast h₁
  have hwR' : (width : ℝ) ≤ 512 := by exact_mod_cast h₂
  have hinv : (1 : ℝ) / width ≤ 1 / 2 := one_div_le_one_div_of_le two_pos hwR
  have hinv' : (1 : ℝ) / 512 ≤ 1 / width := one_div_le_one_div_of_le (by linarith) hwR'
  set r : ℝ := 1 - 1 / width with hr
  obtain ⟨b, hb, hbase⟩ := base_near h₁ h₂ hpos hi
  have hpow := pow_near libm (by linarith) (by linarith) hbase hi
  have hrpow : r ^ i ≤ r := pow_le_of_le_one (by linarith) (by linarith) (by omega)
  have hrpow0 : 0 ≤ r ^ i := pow_nonneg (by linarith) i
  obtain ⟨c, hc, hrate⟩ := near_one.sub hpow (M := 2)
    (by rw [abs_of_nonneg (by linarith)]; linarith) (by norm_num) (by norm_num)
  have hlow := (abs_le.mp hrate).1
  have hhigh := (abs_le.mp hrate).2
  have hc0 : (0 : ℝ) < c := by linarith
  have hlast := libm.pow_finite c (1 : ℕ) (.inl (by exact_mod_cast hc0)) (by
    rw [Nat.cast_one, Rat.cast_one, Real.rpow_one]
    exact le_trans (b := 2 ^ 1) (by linarith) (pow_le_pow_right₀ one_le_two (by norm_num)))
  rw [Nat.cast_one, Rat.cast_one, Real.rpow_one] at hlast
  obtain ⟨v, hv, hvalue⟩ := hlast.near (M := 2) (by rw [abs_of_pos hc0]; linarith) one_le_two
  refine ⟨v, ?_, ?_⟩
  · unfold fprStandard
    rw [natCast_mul (m := 1) (by norm_num) (by omega) (by omega), one_mul, hb]
    simp only
    rw [hc, natCast_eq (n := 1) (by norm_num), Nat.cast_one, hv]
  · calc |(v : ℝ) - (1 - r ^ i)| ≤ |(v : ℝ) - c| + |(c : ℝ) - (1 - r ^ i)| := abs_sub_le _ _ _
      _ ≤ 2 / 2 ^ 47 + (0 + 1 / 2 ^ 23 + 2 / 2 ^ 52) := add_le_add hvalue hrate
      _ ≤ 1 / 2 ^ 21 := by norm_num

end Rate

/-! ### The sum -/

section Sum

variable (libm : Libm) {width : ℕ} {lam : ℚ}

/-- The exact sum below `n` for one hash. -/
noncomputable def exactRate (width : ℕ) (lam : ℝ) (n : ℕ) : ℝ :=
  ∑ i ∈ Finset.range n, (1 - (1 - 1 / (width : ℝ)) ^ i) * poissonWeight lam i

theorem exactRate_nonneg {lam : ℝ} (h₁ : 2 ≤ width) (hlam : 0 ≤ lam) (n : ℕ) :
    0 ≤ exactRate width lam n := by
  have hwR : (2 : ℝ) ≤ width := by exact_mod_cast h₁
  have hinv : (1 : ℝ) / width ≤ 1 / 2 := one_div_le_one_div_of_le two_pos hwR
  have hinv0 : (0 : ℝ) ≤ 1 / width := by positivity
  refine Finset.sum_nonneg fun i _ => mul_nonneg ?_ (PoissonWeight.nonneg hlam i)
  exact sub_nonneg.mpr (pow_le_one₀ (by linarith) (by linarith))

/-- With at least one bit for each key two thirds are an upper bound. -/
theorem exactRate_le {lam : ℝ} (h₁ : 2 ≤ width) (hlam : 0 ≤ lam) (hle : lam ≤ width) (n : ℕ) :
    exactRate width lam n ≤ 2 / 3 := by
  have hwR : (2 : ℝ) ≤ width := by exact_mod_cast h₁
  have hinv : (1 : ℝ) / width ≤ 1 / 2 := one_div_le_one_div_of_le two_pos hwR
  have hinv0 : (0 : ℝ) ≤ 1 / width := by positivity
  have hmean : lam * (1 - (1 - 1 / width)) ≤ 1 := by
    rw [sub_sub_cancel, mul_one_div]
    exact (div_le_one (by linarith)).mpr hle
  have hexp : 1 / 3 ≤ Real.exp (-(lam * (1 - (1 - 1 / width)))) := by
    calc (1 : ℝ) / 3 ≤ (Real.exp 1)⁻¹ := by
          rw [one_div]
          exact inv_anti₀ (Real.exp_pos 1) (by linarith [Real.exp_one_lt_d9])
      _ = Real.exp (-1) := (Real.exp_neg 1).symm
      _ ≤ _ := Real.exp_le_exp.mpr (neg_le_neg hmean)
  have hsum := PoissonWeight.sum_one_sub_pow_mul_le (r := 1 - 1 / (width : ℝ)) hlam (by linarith)
    (by linarith) n
  exact hsum.trans (by linarith)

theorem estimate_step (h₁ : 2 ≤ width) (h₂ : width ≤ 512) (hlow : 1 ≤ lam * 2 ^ 40)
    (hhigh : lam ≤ width) {i : ℕ} (hi : i ≤ 8192) {fpr : Binary64}
    (hfpr : Near (i / 2 ^ 19) fpr (exactRate width lam i)) :
    Near ((i + 1 : ℕ) / 2 ^ 19)
      (fpr + fprStandard libm (1 : ℕ) i (width / i) * poissonPmf libm i (.finite lam))
      (exactRate width lam (i + 1)) := by
  have hlam := (mean_pos hlow).le
  have hle : (lam : ℝ) ≤ width := by exact_mod_cast hhigh
  have hwR : (2 : ℝ) ≤ width := by exact_mod_cast h₁
  have hinv : (1 : ℝ) / width ≤ 1 / 2 := one_div_le_one_div_of_le two_pos hwR
  have hinv0 : (0 : ℝ) ≤ 1 / width := by positivity
  have hiR : (i : ℝ) ≤ 8192 := by exact_mod_cast hi
  have hweight := PoissonWeight.le_one hlam i
  have hweight0 := PoissonWeight.nonneg hlam i
  have hbase : (1 - 1 / (width : ℝ)) ^ i ≤ 1 := pow_le_one₀ (by linarith) (by linarith)
  have hbase0 : 0 ≤ (1 - 1 / (width : ℝ)) ^ i := pow_nonneg (by linarith) i
  have hpmf : Near (1 / 2 ^ 23) (poissonPmf libm i (.finite lam)) (poissonWeight lam i) := by
    have h512 : lam ≤ 512 := hhigh.trans (by exact_mod_cast h₂)
    have htiny : (1 : ℝ) / 2 ^ 1060 ≤ 1 / 2 ^ 24 :=
      one_div_le_one_div_of_le (by positivity) (pow_le_pow_right₀ one_le_two (by norm_num))
    refine (poissonPmf_near libm hlow h512 hi).mono ((add_le_add le_rfl htiny).trans ?_)
    linarith
  have hterm := (fprStandard_one_near libm h₁ h₂ hi).mul hpmf (A := 1) (B := 1) (M := 2)
    (by rw [abs_of_nonneg (by linarith)]; linarith) (by rwa [abs_of_nonneg hweight0]) ?_
    one_le_two (by norm_num)
  · have hsum : exactRate width lam (i + 1) = exactRate width lam i +
        (1 - (1 - 1 / (width : ℝ)) ^ i) * poissonWeight lam i := Finset.sum_range_succ _ _
    have hnonneg := exactRate_nonneg h₁ hlam i
    have hlast := exactRate_le h₁ hlam hle (i + 1)
    have hnext := exactRate_nonneg h₁ hlam (i + 1)
    rw [hsum] at hlast hnext ⊢
    refine (hfpr.add hterm (M := 4) ?_ (by norm_num) (by norm_num)).mono ?_
    · rw [abs_of_nonneg hnext]
      linarith
    · push_cast
      linarith
  · rw [abs_of_nonneg (mul_nonneg (by linarith) hweight0)]
    have hprod := mul_le_mul (show 1 - (1 - 1 / (width : ℝ)) ^ i ≤ 1 by linarith) hweight hweight0
      zero_le_one
    linarith

/-- `threshold` is not much below a trillionth. -/
theorem threshold_near : Near (1 / 2 ^ 47) (libm.pow 10 (-12)) (1 / 10 ^ 12) := by
  have hten : (10 : Binary64) = .finite (10 : ℕ) := ofNat_eq (by norm_num)
  have htwelve : (12 : Binary64) = .finite (12 : ℕ) := ofNat_eq (by norm_num)
  have hneg : (-12 : Binary64) = .finite (-(12 : ℕ)) := by
    rw [htwelve]
    rfl
  have hpow : (((10 : ℕ) : ℚ) : ℝ) ^ ((-(12 : ℕ) : ℚ) : ℝ) = 1 / 10 ^ 12 := by
    push_cast
    rw [Real.rpow_neg (by norm_num), one_div]
    norm_num
  have haccurate := libm.pow_finite (10 : ℕ) (-(12 : ℕ)) (.inl (by norm_num)) (by
    rw [hpow]
    exact le_trans (b := 1) (by norm_num) (one_le_pow₀ one_le_two))
  rw [hpow, ← hten, ← hneg] at haccurate
  exact haccurate.near (by norm_num) le_rfl

/-- At the last term the weight is below the threshold. -/
theorem poissonPmf_lt_threshold (hlow : 1 ≤ lam * 2 ^ 40) (hhigh : lam ≤ 512) :
    lt (poissonPmf libm (8192 : ℕ) (.finite lam)) (libm.pow 10 (-12)) = true := by
  have hlam := (mean_pos hlow).le
  have hhigh' : (lam : ℝ) ≤ 512 := by exact_mod_cast hhigh
  have htiny : (1 : ℝ) / 2 ^ 1060 ≤ 1 / 2 ^ 60 :=
    one_div_le_one_div_of_le (by positivity) (pow_le_pow_right₀ one_le_two (by norm_num))
  obtain ⟨v, hv, hpmf⟩ := (poissonPmf_near libm hlow hhigh (i := 8192) le_rfl).mono
    (add_le_add le_rfl htiny)
  obtain ⟨t, ht, hthreshold⟩ := threshold_near libm
  have hweight : poissonWeight lam 8192 ≤ (1 / 4) ^ 30 :=
    (PoissonWeight.le_pow hlam (by push_cast; linarith)).trans
      (pow_le_pow_of_le_one (by norm_num) (by norm_num) (by norm_num))
  have hlt : (v : ℝ) < t := by
    have hv' := (abs_le.mp hpmf).2
    have ht' := (abs_le.mp hthreshold).1
    norm_num at hweight hv' ht'
    linarith
  rw [hv, ht]
  exact decide_eq_true (by exact_mod_cast hlt)

end Sum

/-! ### The loop -/

section Loop

variable (libm : Libm) {width : ℕ} {lam : ℚ}

/-- A loop for a mean of at least one key in `2 ^ 40` blocks ends, and what its terms preserve
holds at its end. -/
theorem exists_estimateLoop (hlow : 1 ≤ lam * 2 ^ 40) (hhigh : lam ≤ 512) (k : ℕ)
    (Inv : ℕ → Binary64 → Prop) (hstep : ∀ i ≤ 8192, ∀ fpr, Inv i fpr →
      Inv (i + 1) (fpr + fprStandard libm k i (width / i) * poissonPmf libm i (.finite lam)))
    {i : ℕ} (hi : i ≤ 8192) {fpr : Binary64} (hinv : Inv i fpr) :
    ∃ n value, Inv n value ∧ n ≤ 8193 ∧
      ∀ fuel, 8192 - i < fuel → estimateLoop libm width (.finite lam) k fuel i fpr = some value := by
  induction hd : 8192 - i generalizing i fpr with
  | zero =>
    have heq : i = 8192 := by omega
    subst heq
    refine ⟨8193, _, hstep 8192 le_rfl fpr hinv, le_rfl, fun fuel hfuel => ?_⟩
    obtain ⟨fuel, rfl⟩ : ∃ f, fuel = f + 1 := ⟨fuel - 1, by omega⟩
    rw [estimateLoop]
    simp only [poissonPmf_lt_threshold libm hlow hhigh, Bool.true_and]
    exact if_pos (decide_eq_true (by norm_num))
  | succ d ih =>
    have hnext := hstep i hi fpr hinv
    by_cases hend : (lt (poissonPmf libm i (.finite lam)) (libm.pow 10 (-12)) &&
        decide (150 < i)) = true
    · refine ⟨i + 1, _, hnext, by omega, fun fuel hfuel => ?_⟩
      obtain ⟨fuel, rfl⟩ : ∃ f, fuel = f + 1 := ⟨fuel - 1, by omega⟩
      rw [estimateLoop]
      exact if_pos hend
    · obtain ⟨n, value, hvalue, hn, hrun⟩ := ih (by omega) hnext (by omega)
      refine ⟨n, value, hvalue, hn, fun fuel hfuel => ?_⟩
      obtain ⟨fuel, rfl⟩ : ∃ f, fuel = f + 1 := ⟨fuel - 1, by omega⟩
      rw [estimateLoop]
      simp only [if_neg hend, Nat.mod_eq_of_lt (show i + 1 < 2 ^ 32 by omega)]
      exact hrun fuel (by omega)

theorem exists_mean (h₁ : 64 ≤ width) (h₂ : width ≤ 512) {q : ℕ} (hq : 1 ≤ q) (hq' : q ≤ 2 ^ 45) :
    ∃ lam : ℚ, (width : Binary64) / (q : Binary64) = .finite lam ∧ 1 ≤ lam * 2 ^ 40 ∧
      lam ≤ width := by
  have hqQ : (1 : ℚ) ≤ q := by exact_mod_cast hq
  have hqQ' : (q : ℚ) ≤ 2 ^ 45 := by exact_mod_cast hq'
  have hwQ : (64 : ℚ) ≤ width := by exact_mod_cast h₁
  have hwQ' : (width : ℚ) ≤ 512 := by exact_mod_cast h₂
  have hle : (width : ℚ) / q ≤ width := div_le_self width.cast_nonneg hqQ
  have hge : 1 / 2 ^ 39 ≤ (width : ℚ) / q := by
    rw [div_le_div_iff₀ (by positivity) (by linarith)]
    linarith
  have hpos : (0 : ℚ) < (width : ℚ) / q := lt_of_lt_of_le (by positivity) hge
  refine ⟨BinaryRounding.round 53 (-1074) (width / q), ?_, ?_, ?_⟩
  · have hfits : |((width / q : ℚ) : ℝ)| ≤ 2 ^ 1000 := by
      have h : ((width / q : ℚ) : ℝ) ≤ 512 := by exact_mod_cast hle.trans hwQ'
      rw [abs_of_pos (by exact_mod_cast hpos)]
      exact h.trans (le_trans (b := 2 ^ 9) (by norm_num) (pow_le_pow_right₀ one_le_two (by norm_num)))
    rw [natCast_eq (by omega), natCast_eq (by omega), finite_div _ (by linarith), ofRat_eq hfits,
      roundSigned, if_pos hpos.le]
  · have hnormal : (2 : ℚ) ^ (-1074 + ((53 : ℕ) - 1) : ℤ) ≤ width / q := by
      refine le_trans ?_ hge
      rw [one_div, ← zpow_natCast, ← zpow_neg]
      exact zpow_le_zpow_right₀ one_le_two (by norm_num)
    have hround := BinaryRounding.mul_one_sub_le_round hnormal
    have hhalf : (2 : ℚ) ^ (-(53 : ℕ) : ℤ) ≤ 1 / 2 := by
      rw [one_div, ← zpow_neg_one]
      exact zpow_le_zpow_right₀ one_le_two (by norm_num)
    have hmul := mul_le_mul_of_nonneg_left (sub_le_sub_left hhalf 1) hpos.le
    linarith
  · have hwidth : BinaryRounding.round 53 (-1074) (width : ℚ) = width :=
      BinaryRounding.round_natCast_of_lt (by norm_num) (by norm_num) (by omega)
    calc BinaryRounding.round 53 (-1074) (width / q : ℚ)
        ≤ BinaryRounding.round 53 (-1074) (width : ℚ) := by
          refine BinaryRounding.round_mono (by norm_num) hpos.le hle ?_
          rw [Int.log_natCast]
          omega
      _ = width := hwidth

/-- For at least one bit per key an estimate ends. -/
theorem exists_estimateFPR (h₁ : 64 ≤ width) (h₂ : width ≤ 512) {q : ℕ} (hq : 1 ≤ q)
    (hq' : q ≤ 2 ^ 45) (k : ℕ) :
    ∃ value, ∀ fuel, 8192 < fuel → estimateFPR libm width q k fuel = some value := by
  obtain ⟨lam, hlam, hlow, hhigh⟩ := exists_mean h₁ h₂ hq hq'
  obtain ⟨n, value, -, -, hrun⟩ := exists_estimateLoop libm hlow
    (hhigh.trans (by exact_mod_cast h₂)) k (fun _ _ => True) (fun _ _ _ _ => trivial)
    (Nat.zero_le 8192) trivial
  refine ⟨value, fun fuel hfuel => ?_⟩
  rw [estimateFPR, hlam]
  exact hrun fuel hfuel

/-- The estimate for one hash is below one. -/
theorem estimateFPR_one_lt (h₁ : 64 ≤ width) (h₂ : width ≤ 512) {q : ℕ} (hq : 1 ≤ q)
    (hq' : q ≤ 2 ^ 45) : ∃ value, lt value 1 = true ∧
      ∀ fuel, 8192 < fuel → estimateFPR libm width q 1 fuel = some value := by
  obtain ⟨lam, hlam, hlow, hhigh⟩ := exists_mean h₁ h₂ hq hq'
  have hstart : Near ((0 : ℕ) / 2 ^ 19) (0 : Binary64) (exactRate width lam 0) := by
    have hzero : (0 : Binary64) = .finite (0 : ℕ) := ofNat_eq (by norm_num)
    rw [hzero]
    exact ⟨0, by rw [Nat.cast_zero], by simp [exactRate]⟩
  obtain ⟨n, value, ⟨v, rfl, hv⟩, hn, hrun⟩ := exists_estimateLoop libm hlow
    (hhigh.trans (by exact_mod_cast h₂)) 1 (fun i fpr => Near (i / 2 ^ 19) fpr (exactRate width lam i))
    (fun i hi fpr h => estimate_step libm (by omega) h₂ hlow hhigh hi h) (Nat.zero_le 8192) hstart
  refine ⟨.finite v, ?_, fun fuel hfuel => ?_⟩
  · have hone : (1 : Binary64) = .finite (1 : ℕ) := ofNat_eq (by norm_num)
    have hrate := exactRate_le (show 2 ≤ width by omega) (mean_pos hlow).le
      (by exact_mod_cast hhigh) n
    have hnR : (n : ℝ) ≤ 8193 := by exact_mod_cast hn
    have hlt : (v : ℝ) < 1 := by linarith [(abs_le.mp hv).2]
    rw [hone, Nat.cast_one]
    exact decide_eq_true (by exact_mod_cast hlt)
  · rw [estimateFPR, hlam]
    exact hrun fuel hfuel

/-- Without a bit per key no weight is a number. -/
theorem poissonPmf_infinity {i : ℕ} (hi : i < 2 ^ 32) :
    poissonPmf libm i (.infinity false) = .nan := by
  obtain ⟨g, hg, -⟩ := libm.lgamma_succ i hi
  unfold poissonPmf
  rw [libm.log_infinity, natCast_add_one (by omega), hg, natCast_eq (by omega)]
  rcases Nat.eq_zero_or_pos i with rfl | hpos
  · rw [Nat.cast_zero, zero_mul_infinity, nan_sub, nan_sub, libm.exp_nan]
  · rw [pos_mul_infinity (by exact_mod_cast hpos), infinity_sub_finite, infinity_sub_self,
      libm.exp_nan]

theorem estimateLoop_infinity (k fuel : ℕ) {i : ℕ} (hi : i < 2 ^ 32) (fpr : Binary64) :
    estimateLoop libm width (.infinity false) k fuel i fpr = none := by
  induction fuel generalizing i fpr with
  | zero => rfl
  | succ fuel ih =>
    rw [estimateLoop]
    simp only [poissonPmf_infinity libm hi, nan_lt, Bool.false_and]
    exact ih (Nat.mod_lt _ (by norm_num)) _

/-- Without a bit per key an estimate never ends. -/
theorem estimateFPR_zero (h₁ : 64 ≤ width) (h₂ : width ≤ 512) (k fuel : ℕ) :
    estimateFPR libm width (0 : ℕ) k fuel = none := by
  have hpos : (0 : ℚ) < width := by exact_mod_cast (show 0 < width by omega)
  rw [estimateFPR, natCast_eq (by omega), natCast_eq (by norm_num), Nat.cast_zero,
    pos_div_zero hpos]
  exact estimateLoop_infinity libm k fuel (by norm_num) 0

end Loop

end EntropyLearnedHashing
