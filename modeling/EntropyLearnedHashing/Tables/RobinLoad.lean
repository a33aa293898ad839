import EntropyLearnedHashing.Tables.RobinHash

/-! Bucket counts and load factors of the Robin Hood table. Bucket counts are powers of two.
In single precision the load threshold still stays below the bucket count, and a
reservation still asks for more buckets than values. -/

namespace EntropyLearnedHashing.RobinHash

open BinaryRounding

/-! ### Bucket counts -/

theorem roundUpToPowerOfTwo_eq {value : ℕ} (hpos : 0 < value) (hle : value ≤ 2 ^ 63) :
    roundUpToPowerOfTwo value = 2 ^ Nat.size (value - 1) := by
  unfold roundUpToPowerOfTwo
  split_ifs with hpow hzero
  · obtain ⟨b, rfl⟩ := Nat.ne_zero_and_sub_one_eq_zero_iff_isPowerOfTwo.mp hpow
    congr 1
    rcases Nat.eq_zero_or_pos b with rfl | hb
    · simp
    · refine le_antisymm ?_ (Nat.size_le.mpr (Nat.sub_lt (Nat.two_pow_pos b) one_pos))
      have hlt : b - 1 < Nat.size (2 ^ b - 1) := by
        refine Nat.lt_size.mpr ?_
        have hsplit : 2 ^ b = 2 * 2 ^ (b - 1) := by
          rw [← pow_succ', Nat.sub_add_cancel hb]
        have := Nat.two_pow_pos (b - 1)
        omega
      omega
  · omega
  · have hpos' := Nat.two_pow_pos (Nat.size (value - 1))
    rw [smear_eq (k := 6) (by norm_num; omega), Nat.sub_add_cancel hpos']

theorem le_two_pow_size (value : ℕ) : value ≤ 2 ^ Nat.size (value - 1) := by
  have := Nat.lt_size_self (value - 1)
  omega

/-! ### Load factors -/

theorem toFloat_31_mul_zpow {k : ℤ} (hk : -149 ≤ k) : toFloat (31 * 2 ^ k) = 31 * 2 ^ k := by
  have h : toFloat ((31 : ℕ) * 2 ^ k) = (31 : ℕ) * 2 ^ k :=
    round_natCast_mul_zpow (by norm_num) (by norm_num) hk
  exact_mod_cast h

theorem log_31_mul_zpow (k : ℤ) : Int.log 2 ((31 : ℚ) * 2 ^ k) = k + 4 := by
  have hpos : (0 : ℚ) < 2 ^ k := zpow_pos two_pos k
  refine log_eq (by positivity) ?_ ?_
  · rw [zpow_add₀ two_ne_zero]
    linarith
  · rw [add_assoc, zpow_add₀ two_ne_zero]
    norm_num
    linarith

theorem toFloat_le_31_mul_zpow {x : ℚ} {k : ℤ} (hk : -149 ≤ k) (hx : 0 ≤ x) (h : x ≤ 31 * 2 ^ k) :
    toFloat x ≤ 31 * 2 ^ k := by
  rw [← toFloat_31_mul_zpow hk]
  refine round_mono (by norm_num) hx h ?_
  rw [log_31_mul_zpow]
  omega

theorem zpow_le_toFloat {x : ℚ} {k : ℤ} (hk : -149 ≤ k) (h : (2 : ℚ) ^ k ≤ x)
    (hx : x < 2 ^ (k + 24)) : (2 : ℚ) ^ k ≤ toFloat x := by
  have hpos : 0 < x := (zpow_pos two_pos k).trans_le h
  have hlog : Int.log 2 x < k + 24 :=
    (Int.lt_zpow_iff_log_lt one_lt_two hpos).mp (by exact_mod_cast hx)
  refine zpow_le_round ?_ h
  unfold ulpExp
  push_cast
  omega

theorem MAXIMUM_MAX_LOAD_FACTOR_le : MAXIMUM_MAX_LOAD_FACTOR ≤ 31 / 32 := by
  have h := toFloat_le_31_mul_zpow (x := 19 / 20) (k := -5) (by norm_num) (by norm_num) (by norm_num)
  calc MAXIMUM_MAX_LOAD_FACTOR ≤ 31 * 2 ^ (-5 : ℤ) := h
    _ = 31 / 32 := by norm_num

theorem le_MINIMUM_MAX_LOAD_FACTOR : 1 / 8 ≤ MINIMUM_MAX_LOAD_FACTOR := by
  have h := zpow_le_toFloat (x := 1 / 5) (k := -3) (by norm_num) (by norm_num) (by norm_num)
  calc (1 / 8 : ℚ) = 2 ^ (-3 : ℤ) := by norm_num
    _ ≤ MINIMUM_MAX_LOAD_FACTOR := h

theorem MINIMUM_MAX_le_MAXIMUM_MAX : MINIMUM_MAX_LOAD_FACTOR ≤ MAXIMUM_MAX_LOAD_FACTOR := by
  refine round_mono (by norm_num) (by norm_num) (by norm_num) ?_
  rw [log_eq (k := -1) (by norm_num) (by norm_num) (by norm_num)]
  norm_num

theorem MAXIMUM_MIN_LOAD_FACTOR_nonneg : 0 ≤ MAXIMUM_MIN_LOAD_FACTOR := round_nonneg (by norm_num)

/-- A maximal load factor is between an eighth and just below one. -/
def LoadRange (ml : ℚ) : Prop := 1 / 8 ≤ ml ∧ ml ≤ 31 / 32

theorem loadRange_clamp (ml : ℚ) :
    LoadRange (clamp ml MINIMUM_MAX_LOAD_FACTOR MAXIMUM_MAX_LOAD_FACTOR) := by
  constructor
  · refine le_MINIMUM_MAX_LOAD_FACTOR.trans (le_min MINIMUM_MAX_le_MAXIMUM_MAX (le_max_left _ _))
  · exact (min_le_left _ _).trans MAXIMUM_MAX_LOAD_FACTOR_le

section Threshold

variable {ml : ℚ} {b : ℕ}

/-- The threshold stays below the number of buckets. -/
theorem threshold_lt (hml : LoadRange ml) :
    ⌊toFloat (toFloat ((2 ^ b : ℕ) : ℚ) * ml)⌋₊ < 2 ^ b := by
  have hpos : (0 : ℚ) < 2 ^ b := by positivity
  have hle : toFloat ((2 : ℚ) ^ b * ml) ≤ 31 * 2 ^ ((b : ℤ) - 5) := by
    refine toFloat_le_31_mul_zpow (by omega) (mul_nonneg hpos.le (by linarith [hml.1])) ?_
    rw [zpow_sub₀ two_ne_zero, zpow_natCast]
    norm_num
    nlinarith [hml.2]
  rw [toFloat_two_pow]
  have hlt : toFloat ((2 : ℚ) ^ b * ml) < ((2 ^ b : ℕ) : ℚ) := by
    push_cast
    refine hle.trans_lt ?_
    rw [zpow_sub₀ two_ne_zero, zpow_natCast]
    norm_num
    linarith
  exact (Nat.floor_lt (round_nonneg (mul_nonneg hpos.le (by linarith [hml.1])))).mpr hlt

/-- The threshold is at least an eighth of the number of buckets. -/
theorem le_threshold (hml : LoadRange ml) (hb : 3 ≤ b) :
    2 ^ (b - 3) ≤ ⌊toFloat (toFloat ((2 ^ b : ℕ) : ℚ) * ml)⌋₊ := by
  have hpos : (0 : ℚ) < 2 ^ b := by positivity
  rw [toFloat_two_pow]
  refine Nat.le_floor ?_
  have h := zpow_le_toFloat (x := (2 : ℚ) ^ b * ml) (k := (b : ℤ) - 3) (by omega) ?_ ?_
  · rw [show (b : ℤ) - 3 = ((b - 3 : ℕ) : ℤ) by omega, zpow_natCast] at h
    exact_mod_cast h
  · rw [zpow_sub₀ two_ne_zero, zpow_natCast]
    norm_num
    nlinarith [hml.1]
  · rw [show (b : ℤ) - 3 + 24 = (b : ℤ) + 21 by ring, zpow_add₀ two_ne_zero, zpow_natCast]
    norm_num
    nlinarith [hml.2]

/-- `reserve(m)` asks for more than `m` buckets. -/
theorem lt_ceil_div {m : ℕ} (hm : 0 < m) (hml : LoadRange ml) :
    m < ⌈toFloat (toFloat m / ml)⌉₊ := by
  have hm1 : (1 : ℚ) ≤ m := by exact_mod_cast hm
  have hmlpos : 0 < ml := by linarith [hml.1]
  have hmin : (2 : ℚ) ^ ((-149 : ℤ) + ((24 : ℕ) - 1)) ≤ 1 := by norm_num
  have herr : (2 : ℚ) ^ (-(24 : ℕ) : ℤ) ≤ 1 / 1000 := by norm_num
  have hcast : (m : ℚ) * (999 / 1000) ≤ toFloat m := by
    have h : (m : ℚ) * (1 - 2 ^ (-(24 : ℕ) : ℤ)) ≤ toFloat m :=
      mul_one_sub_le_round (hmin.trans hm1)
    refine le_trans ?_ h
    nlinarith
  have hquot : (m : ℚ) * (1025 / 1000) ≤ toFloat m / ml := by
    rw [le_div_iff₀ hmlpos]
    nlinarith [hml.2]
  have hround : toFloat m / ml * (1 - 2 ^ (-(24 : ℕ) : ℤ)) ≤ toFloat (toFloat m / ml) :=
    mul_one_sub_le_round (hmin.trans (by linarith))
  have hgt : (m : ℚ) < toFloat (toFloat m / ml) := by
    refine lt_of_lt_of_le ?_ hround
    nlinarith
  exact Nat.lt_ceil.mpr hgt

end Threshold

end EntropyLearnedHashing.RobinHash
