import Mathlib.Algebra.Order.Floor.Ring
import Mathlib.Algebra.Order.Ring.Rat
import Mathlib.Data.Int.Log
import Mathlib.Data.Rat.Floor
import Mathlib.Tactic.Linarith
import Mathlib.Tactic.Positivity

/-! Rounding to nearest, ties to even, in a binary format with `p` bits of precision and
least exponent `emin`. The arguments are nonnegative rationals that do not overflow the
format. -/

namespace EntropyLearnedHashing.BinaryRounding

/-! ### To an integer -/

def roundEven (x : ℚ) : ℤ :=
  if x - ⌊x⌋ < 1 / 2 ∨ x - ⌊x⌋ = 1 / 2 ∧ Even ⌊x⌋ then ⌊x⌋ else ⌊x⌋ + 1

theorem le_roundEven {x : ℚ} {m : ℤ} (h : m ≤ x) : m ≤ roundEven x := by
  have hfloor : m ≤ ⌊x⌋ := Int.le_floor.mpr h
  unfold roundEven
  split_ifs <;> omega

theorem roundEven_le {x : ℚ} {m : ℤ} (h : x ≤ m) : roundEven x ≤ m := by
  have hfloor : ⌊x⌋ ≤ m := by exact_mod_cast (Int.floor_le x).trans h
  unfold roundEven
  split_ifs with hdown
  · exact hfloor
  · have hne : ⌊x⌋ ≠ m := by
      intro heq
      refine hdown (Or.inl ?_)
      rw [heq]
      linarith
    omega

@[simp] theorem roundEven_intCast (m : ℤ) : roundEven (m : ℚ) = m :=
  le_antisymm (roundEven_le le_rfl) (le_roundEven le_rfl)

theorem roundEven_le_add_half (x : ℚ) : roundEven x ≤ x + 1 / 2 := by
  have hfloor := Int.floor_le x
  unfold roundEven
  split_ifs with hdown
  · linarith
  · push Not at hdown
    push_cast
    linarith [hdown.1]

theorem sub_half_le_roundEven (x : ℚ) : x - 1 / 2 ≤ roundEven x := by
  have hfloor := Int.lt_floor_add_one x
  unfold roundEven
  split_ifs with hdown
  · rcases hdown with hdown | ⟨hdown, -⟩ <;> linarith
  · push_cast
    linarith

/-- A tie goes up to an even number. -/
theorem le_roundEven_of_even {x : ℚ} {m : ℤ} (heven : Even m) (h : m - 1 / 2 ≤ x) :
    m ≤ roundEven x := by
  have hfloor : m - 1 ≤ ⌊x⌋ := by
    refine Int.le_floor.mpr ?_
    push_cast
    linarith
  unfold roundEven
  split_ifs with hdown
  · by_contra hlt
    have heq : ⌊x⌋ = m - 1 := by omega
    rw [heq] at hdown
    push_cast at hdown
    rcases hdown with hdown | ⟨-, hodd⟩
    · linarith
    · exact absurd (heven.sub_odd odd_one) (Int.not_odd_iff_even.mpr hodd)
  · omega

theorem roundEven_mono {x y : ℚ} (h : x ≤ y) : roundEven x ≤ roundEven y := by
  rcases (Int.floor_le_floor h).lt_or_eq with hlt | heq
  · have hx : roundEven x ≤ ⌊x⌋ + 1 := by
      unfold roundEven
      split_ifs <;> omega
    exact hx.trans (Int.add_one_le_iff.mpr hlt |>.trans (le_roundEven (Int.floor_le y)))
  · unfold roundEven
    rw [← heq]
    split_ifs with hx hy hy
    · exact le_rfl
    · omega
    · -- `y` is rounded down, so `x`, which is not larger, is too
      refine absurd ?_ hx
      rcases hy with hy | ⟨hy, heven⟩
      · exact Or.inl (by linarith)
      · rcases h.lt_or_eq with hxy | rfl
        · exact Or.inl (by linarith)
        · exact Or.inr ⟨hy, heven⟩
    · exact le_rfl

/-! ### To a format -/

variable (p : ℕ) (emin : ℤ)

/-- The exponent of the last place of `x`. -/
def ulpExp (x : ℚ) : ℤ := max (Int.log 2 x - (p - 1)) emin

def ulp (x : ℚ) : ℚ := 2 ^ ulpExp p emin x

def round (x : ℚ) : ℚ := roundEven (x / ulp p emin x) * ulp p emin x

variable {p emin}

theorem ulp_pos (x : ℚ) : 0 < ulp p emin x := zpow_pos two_pos _

theorem round_le_add_half_ulp (x : ℚ) : round p emin x ≤ x + ulp p emin x / 2 := by
  have hpos : 0 < ulp p emin x := ulp_pos x
  calc round p emin x ≤ (x / ulp p emin x + 1 / 2) * ulp p emin x :=
        mul_le_mul_of_nonneg_right (roundEven_le_add_half _) hpos.le
    _ = x + ulp p emin x / 2 := by field_simp

theorem sub_half_ulp_le_round (x : ℚ) : x - ulp p emin x / 2 ≤ round p emin x := by
  have hpos : 0 < ulp p emin x := ulp_pos x
  calc x - ulp p emin x / 2 = (x / ulp p emin x - 1 / 2) * ulp p emin x := by field_simp
    _ ≤ round p emin x := mul_le_mul_of_nonneg_right (sub_half_le_roundEven _) hpos.le

/-- A multiple of its own last place is kept. -/
theorem round_eq_self {x : ℚ} {m : ℤ} (h : x = m * ulp p emin x) : round p emin x = x := by
  have hdiv : x / ulp p emin x = m := by
    rw [div_eq_iff (ulp_pos x).ne']
    exact h
  unfold round
  rw [hdiv, roundEven_intCast]
  exact h.symm

theorem exists_mul_zpow {a b : ℤ} (h : b ≤ a) : ∃ m : ℤ, (2 : ℚ) ^ a = m * 2 ^ b := by
  refine ⟨2 ^ (a - b).toNat, ?_⟩
  push_cast
  rw [← zpow_natCast, ← zpow_add₀ two_ne_zero, Int.toNat_of_nonneg (by omega), sub_add_cancel]

theorem round_natCast_of_ulpExp_nonpos {n : ℕ} (h : ulpExp p emin n ≤ 0) :
    round p emin n = n := by
  obtain ⟨m, hm⟩ := exists_mul_zpow h
  refine round_eq_self (m := n * m) ?_
  rw [zpow_zero] at hm
  push_cast
  rw [mul_assoc, ulp, ← hm, mul_one]

/-- Natural numbers that fit the precision are kept. -/
theorem round_natCast_of_lt (hp : 1 ≤ p) (hemin : emin ≤ 0) {n : ℕ} (hn : n < 2 ^ p) :
    round p emin n = n := by
  refine round_natCast_of_ulpExp_nonpos ?_
  have hlog : Nat.log 2 n < p := by
    rcases Nat.eq_zero_or_pos n with rfl | hpos
    · rw [Nat.log_zero_right]
      omega
    · exact (Nat.log_lt_iff_lt_pow one_lt_two hpos.ne').mpr hn
  unfold ulpExp
  rw [Int.log_natCast]
  omega

theorem round_zpow {k : ℤ} (hp : 1 ≤ p) (hk : emin ≤ k) : round p emin (2 ^ k) = 2 ^ k := by
  have hlog : Int.log 2 ((2 : ℚ) ^ k) = k := by exact_mod_cast Int.log_zpow (R := ℚ) one_lt_two k
  have hexp : ulpExp p emin (2 ^ k) ≤ k := by
    unfold ulpExp
    rw [hlog]
    omega
  obtain ⟨m, hm⟩ := exists_mul_zpow hexp
  exact round_eq_self hm

theorem zpow_log_le {x : ℚ} (hx : 0 < x) : (2 : ℚ) ^ Int.log 2 x ≤ x := by
  exact_mod_cast Int.zpow_log_le_self (R := ℚ) one_lt_two hx

theorem lt_zpow_log_add_one (x : ℚ) : x < (2 : ℚ) ^ (Int.log 2 x + 1) := by
  exact_mod_cast Int.lt_zpow_succ_log_self (R := ℚ) one_lt_two x

theorem log_eq {x : ℚ} (hx : 0 < x) {k : ℤ} (hlow : (2 : ℚ) ^ k ≤ x)
    (hhigh : x < (2 : ℚ) ^ (k + 1)) : Int.log 2 x = k := by
  have hle : k ≤ Int.log 2 x :=
    (Int.zpow_le_iff_le_log one_lt_two hx).mp (by exact_mod_cast hlow)
  have hlt : Int.log 2 x < k + 1 :=
    (Int.lt_zpow_iff_log_lt one_lt_two hx).mp (by exact_mod_cast hhigh)
  omega

/-- Numbers with at most `p` significant bits are kept. -/
theorem round_natCast_mul_zpow {m : ℕ} {k : ℤ} (hpos : 0 < m) (hm : m < 2 ^ p) (hk : emin ≤ k) :
    round p emin (m * 2 ^ k) = m * 2 ^ k := by
  have hexp : ulpExp p emin (m * 2 ^ k) ≤ k := by
    have hx : (0 : ℚ) < m * 2 ^ k := mul_pos (by exact_mod_cast hpos) (zpow_pos two_pos k)
    have hlt : (m : ℚ) * 2 ^ k < 2 ^ (p + k) := by
      rw [zpow_add₀ two_ne_zero]
      exact mul_lt_mul_of_pos_right (by exact_mod_cast hm) (zpow_pos two_pos k)
    have hlog : Int.log 2 ((m : ℚ) * 2 ^ k) < p + k :=
      (Int.lt_zpow_iff_log_lt one_lt_two hx).mp (by exact_mod_cast hlt)
    unfold ulpExp
    omega
  obtain ⟨j, hj⟩ := exists_mul_zpow hexp
  refine round_eq_self (m := m * j) ?_
  push_cast
  rw [mul_assoc, ulp, ← hj]

/-- From the least normal number on, half a last place is at most half a unit of the precision. -/
theorem half_ulp_le {x : ℚ} (hx : (2 : ℚ) ^ (emin + (p - 1)) ≤ x) :
    ulp p emin x / 2 ≤ x * 2 ^ (-p : ℤ) := by
  have hpos : 0 < x := (zpow_pos two_pos _).trans_le hx
  have hlog : emin + (p - 1) ≤ Int.log 2 x :=
    (Int.zpow_le_iff_le_log one_lt_two hpos).mp (by exact_mod_cast hx)
  have hulp : ulp p emin x / 2 = 2 ^ Int.log 2 x * 2 ^ (-p : ℤ) := by
    have hexp : ulpExp p emin x = Int.log 2 x + -p + 1 := by
      unfold ulpExp
      omega
    rw [ulp, hexp, zpow_add_one₀ two_ne_zero, zpow_add₀ two_ne_zero]
    ring
  rw [hulp]
  exact mul_le_mul_of_nonneg_right (zpow_log_le hpos) (zpow_nonneg zero_le_two _)

theorem mul_one_sub_le_round {x : ℚ} (hx : (2 : ℚ) ^ (emin + (p - 1)) ≤ x) :
    x * (1 - 2 ^ (-p : ℤ)) ≤ round p emin x := by
  calc x * (1 - 2 ^ (-p : ℤ)) = x - x * 2 ^ (-p : ℤ) := by ring
    _ ≤ x - ulp p emin x / 2 := sub_le_sub_left (half_ulp_le hx) x
    _ ≤ round p emin x := sub_half_ulp_le_round x

/-- The error is at most half a unit of the precision and half of the least place. -/
theorem abs_round_sub_le {x : ℚ} (hx : 0 < x) :
    |round p emin x - x| ≤ x * 2 ^ (-p : ℤ) + 2 ^ (emin - 1) := by
  have hlow : (0 : ℚ) ≤ 2 ^ (emin - 1) := zpow_nonneg zero_le_two _
  have hhigh : (0 : ℚ) ≤ x * 2 ^ (-p : ℤ) := mul_nonneg hx.le (zpow_nonneg zero_le_two _)
  have hulp : ulp p emin x / 2 = 2 ^ (ulpExp p emin x - 1) := by
    rw [ulp, zpow_sub_one₀ two_ne_zero, div_eq_mul_inv]
  have hle : ulp p emin x / 2 ≤ x * 2 ^ (-p : ℤ) + 2 ^ (emin - 1) := by
    rw [hulp]
    rcases le_total (Int.log 2 x - (p - 1)) emin with hsmall | hlarge
    · rw [ulpExp, max_eq_right hsmall]
      exact le_add_of_nonneg_left hhigh
    · have hexp : Int.log 2 x - (p - 1) - 1 = Int.log 2 x + -p := by ring
      rw [ulpExp, max_eq_left hlarge, hexp, zpow_add₀ two_ne_zero]
      exact (mul_le_mul_of_nonneg_right (zpow_log_le hx) (zpow_nonneg zero_le_two _)).trans
        (le_add_of_nonneg_right hlow)
  have hbelow : x - ulp p emin x / 2 ≤ round p emin x := sub_half_ulp_le_round x
  have habove : round p emin x ≤ x + ulp p emin x / 2 := round_le_add_half_ulp x
  rw [abs_le]
  constructor <;> linarith

/-- Below a power of two nothing is rounded past it. -/
theorem round_le_zpow {x : ℚ} (hx : 0 < x) {k : ℤ} (hp : 1 ≤ p) (hk : emin ≤ k)
    (h : x < (2 : ℚ) ^ k) : round p emin x ≤ 2 ^ k := by
  have hlog : Int.log 2 x < k := (Int.lt_zpow_iff_log_lt one_lt_two hx).mp (by exact_mod_cast h)
  have hexp : ulpExp p emin x ≤ k := by
    unfold ulpExp
    omega
  obtain ⟨m, hm⟩ := exists_mul_zpow hexp
  have hdiv : x / ulp p emin x ≤ m := by
    rw [div_le_iff₀ (ulp_pos x), ulp, ← hm]
    exact h.le
  calc round p emin x ≤ m * ulp p emin x :=
        mul_le_mul_of_nonneg_right (by exact_mod_cast roundEven_le hdiv) (ulp_pos x).le
    _ = 2 ^ k := hm.symm

theorem zpow_le_round {x : ℚ} {k : ℤ} (hk : ulpExp p emin x ≤ k) (h : (2 : ℚ) ^ k ≤ x) :
    2 ^ k ≤ round p emin x := by
  obtain ⟨m, hm⟩ := exists_mul_zpow hk
  have hdiv : (m : ℚ) ≤ x / ulp p emin x := by
    rw [le_div_iff₀ (ulp_pos x), ulp, ← hm]
    exact h
  calc (2 : ℚ) ^ k = m * ulp p emin x := hm
    _ ≤ round p emin x :=
        mul_le_mul_of_nonneg_right (by exact_mod_cast le_roundEven hdiv) (ulp_pos x).le

@[simp] theorem round_zero : round p emin 0 = 0 := round_eq_self (m := 0) (by simp)

theorem round_nonneg {x : ℚ} (hx : 0 ≤ x) : 0 ≤ round p emin x := by
  have hdiv : ((0 : ℤ) : ℚ) ≤ x / ulp p emin x := by
    rw [Int.cast_zero]
    exact div_nonneg hx (ulp_pos x).le
  exact mul_nonneg (by exact_mod_cast le_roundEven hdiv) (ulp_pos x).le

/-- A number of the format stays one when it is scaled up. -/
theorem round_two_pow_mul {x : ℚ} (hx : 0 ≤ x) (hround : round p emin x = x) (b : ℕ) :
    round p emin (2 ^ b * x) = 2 ^ b * x := by
  rcases hx.eq_or_lt with rfl | hpos
  · rw [mul_zero, round_zero]
  have hnonneg : ((0 : ℤ) : ℚ) ≤ x / ulp p emin x := by
    rw [Int.cast_zero]
    exact div_nonneg hx (ulp_pos x).le
  obtain ⟨m, hm⟩ := Int.eq_ofNat_of_zero_le (le_roundEven hnonneg)
  have hval : x = m * 2 ^ ulpExp p emin x := by
    rw [round, hm] at hround
    exact hround.symm
  have hm0 : 0 < m := by
    refine Nat.pos_of_ne_zero ?_
    rintro rfl
    rw [Nat.cast_zero, zero_mul] at hval
    exact hpos.ne' hval
  have hmp : m < 2 ^ p := by
    have hlt : (m : ℚ) * 2 ^ ulpExp p emin x < 2 ^ (p : ℤ) * 2 ^ ulpExp p emin x := by
      rw [← hval, ← zpow_add₀ two_ne_zero]
      refine (lt_zpow_log_add_one x).trans_le (zpow_le_zpow_right₀ one_le_two ?_)
      unfold ulpExp
      omega
    exact_mod_cast lt_of_mul_lt_mul_right hlt (zpow_pos two_pos _).le
  have hscaled : 2 ^ b * x = m * 2 ^ (ulpExp p emin x + b) := by
    rw [zpow_add₀ two_ne_zero, zpow_natCast, ← mul_assoc, ← hval, mul_comm]
  rw [hscaled]
  refine round_natCast_mul_zpow hm0 hmp ?_
  unfold ulpExp
  omega

theorem round_mono (hp : 1 ≤ p) {x y : ℚ} (hx : 0 ≤ x) (hxy : x ≤ y)
    (hy : emin ≤ Int.log 2 y) : round p emin x ≤ round p emin y := by
  rcases hx.eq_or_lt with rfl | hx
  · rw [round_zero]
    exact round_nonneg hxy
  have hypos : 0 < y := hx.trans_le hxy
  rcases (Int.log_mono_right (b := 2) hx hxy).eq_or_lt with heq | hlt
  · -- the same last place
    have hulp : ulp p emin x = ulp p emin y := by
      unfold ulp ulpExp
      rw [heq]
    unfold round
    rw [hulp]
    refine mul_le_mul_of_nonneg_right ?_ (ulp_pos y).le
    exact_mod_cast roundEven_mono (div_le_div_of_nonneg_right hxy (ulp_pos y).le)
  · -- a power of two lies between the two
    have hbelow : x < (2 : ℚ) ^ Int.log 2 y := by
      exact_mod_cast (Int.lt_zpow_iff_log_lt one_lt_two hx).mpr hlt
    have hexp : ulpExp p emin y ≤ Int.log 2 y := by
      unfold ulpExp
      omega
    exact (round_le_zpow hx hp hy hbelow).trans (zpow_le_round hexp (zpow_log_le hypos))

/-- More than half a place below a rounded number, in the same binade: the place before. -/
theorem round_le_sub_ulp {x y : ℚ} (hlog : Int.log 2 x = Int.log 2 y)
    (hx : x < round p emin y - ulp p emin y / 2) :
    round p emin x ≤ round p emin y - ulp p emin y := by
  have hu : 0 < ulp p emin y := ulp_pos y
  have hulp : ulp p emin x = ulp p emin y := by
    unfold ulp ulpExp
    rw [hlog]
  unfold round at hx ⊢
  rw [hulp]
  set r : ℤ := roundEven (y / ulp p emin y)
  have hdiv : x / ulp p emin y < r - 1 / 2 := by
    rw [div_lt_iff₀ hu, sub_mul]
    linarith
  have hlt : roundEven (x / ulp p emin y) < r := by
    have hnear := roundEven_le_add_half (x / ulp p emin y)
    have hcast : (roundEven (x / ulp p emin y) : ℚ) < r := by linarith
    exact_mod_cast hcast
  have hle : (roundEven (x / ulp p emin y) : ℚ) ≤ r - 1 := by
    exact_mod_cast Int.le_sub_one_of_lt hlt
  calc (roundEven (x / ulp p emin y) : ℚ) * ulp p emin y ≤ (r - 1) * ulp p emin y :=
        mul_le_mul_of_nonneg_right hle hu.le
    _ = r * ulp p emin y - ulp p emin y := by rw [sub_mul, one_mul]

/-- A number of the format is kept. -/
theorem round_round (hp : 1 ≤ p) {x : ℚ} (hx : 0 ≤ x) :
    round p emin (round p emin x) = round p emin x := by
  rcases hx.eq_or_lt with rfl | hx
  · rw [round_zero, round_zero]
  rcases (round_nonneg hx.le : 0 ≤ round p emin x).eq_or_lt with hzero | hr
  · rw [← hzero, round_zero]
  rcases lt_or_ge (Int.log 2 x + 1) emin with hsmall | hlarge
  · -- below the least place only that place itself is left
    have hlt : x < (2 : ℚ) ^ emin :=
      (lt_zpow_log_add_one x).trans (zpow_lt_zpow_right₀ one_lt_two hsmall)
    have hle := round_le_zpow hx hp le_rfl hlt
    have hulp : ulp p emin x = 2 ^ emin := by
      unfold ulp ulpExp
      congr 1
      omega
    have hone : 1 ≤ roundEven (x / ulp p emin x) := by
      have hpos : (0 : ℚ) < roundEven (x / ulp p emin x) := pos_of_mul_pos_left hr (ulp_pos x).le
      exact_mod_cast hpos
    have hge : (2 : ℚ) ^ emin ≤ round p emin x := by
      unfold round
      rw [← hulp]
      exact le_mul_of_one_le_left (ulp_pos x).le (by exact_mod_cast hone)
    rw [le_antisymm hle hge]
    exact round_zpow hp le_rfl
  · rcases (round_le_zpow hx hp hlarge (lt_zpow_log_add_one x)).eq_or_lt with heq | hlt
    · rw [heq]
      exact round_zpow hp hlarge
    · have hlog : Int.log 2 (round p emin x) < Int.log 2 x + 1 :=
        (Int.lt_zpow_iff_log_lt one_lt_two hr).mp (by exact_mod_cast hlt)
      have hexp : ulpExp p emin (round p emin x) ≤ ulpExp p emin x := by
        unfold ulpExp
        omega
      obtain ⟨m, hm⟩ := exists_mul_zpow hexp
      refine round_eq_self (m := roundEven (x / ulp p emin x) * m) ?_
      push_cast
      rw [mul_assoc, ulp.eq_1 p emin (round p emin x), ← hm]
      rfl

/-! ### Integers around a number -/

/-- A number is rounded to an integer or past it from half a last place below it on, if the
last place is a half or less. -/
theorem intCast_le_round_iff {x : ℚ} (hexp : ulpExp p emin x < 0) (N : ℤ) :
    (N : ℚ) ≤ round p emin x ↔ (N : ℚ) ≤ x + ulp p emin x / 2 := by
  have hu : 0 < ulp p emin x := ulp_pos x
  constructor
  · intro h
    exact h.trans (round_le_add_half_ulp x)
  · intro h
    -- the integer is an even multiple of the last place
    obtain ⟨m, hm⟩ := exists_mul_zpow (show ulpExp p emin x ≤ -1 by omega)
    have hN : (N : ℚ) = ((N * m + N * m : ℤ) : ℚ) * ulp p emin x := by
      have hhalf : (m : ℚ) * ulp p emin x = 1 / 2 := by
        rw [ulp, ← hm]
        norm_num
      push_cast
      rw [add_mul, mul_assoc, hhalf]
      ring
    have hle : ((N * m + N * m : ℤ) : ℚ) - 1 / 2 ≤ x / ulp p emin x := by
      rw [le_div_iff₀ hu, sub_mul, ← hN]
      linarith
    calc (N : ℚ) = ((N * m + N * m : ℤ) : ℚ) * ulp p emin x := hN
      _ ≤ round p emin x := mul_le_mul_of_nonneg_right
          (by exact_mod_cast le_roundEven_of_even ⟨N * m, rfl⟩ hle) hu.le

/-- When rounding does not change the integer part. -/
theorem floor_round_eq_iff {x : ℚ} (hexp : ulpExp p emin x < 0) :
    ⌊round p emin x⌋ = ⌊x⌋ ↔ x + ulp p emin x / 2 < ⌊x⌋ + 1 := by
  have hu : 0 < ulp p emin x := ulp_pos x
  have hlow : ((⌊x⌋ : ℤ) : ℚ) ≤ round p emin x :=
    (intCast_le_round_iff hexp _).mpr (by linarith [Int.floor_le x])
  have hnext := intCast_le_round_iff hexp (⌊x⌋ + 1)
  push_cast at hnext
  rw [Int.floor_eq_iff, and_iff_right hlow, ← not_le, ← not_le, hnext]

/-! ### Fractions of a natural number -/

/-- The largest number of the format below one. -/
theorem le_one_sub_zpow (hp : 1 ≤ p) (hemin : emin ≤ -p) {f : ℚ}
    (hround : round p emin f = f) (hlt : f < 1) : f ≤ 1 - 2 ^ (-p : ℤ) := by
  have hhalf : (2 : ℚ) ^ (-p : ℤ) ≤ 2 ^ (-1 : ℤ) := zpow_le_zpow_right₀ one_le_two (by omega)
  rw [zpow_neg_one] at hhalf
  rcases lt_or_ge f 2⁻¹ with hsmall | hlarge
  · linarith
  have hlog : Int.log 2 f = -1 := by
    refine log_eq (by linarith) ?_ ?_
    · rwa [zpow_neg_one]
    · simpa using hlt
  have hulp : ulp p emin f = 2 ^ (-p : ℤ) := by
    unfold ulp ulpExp
    rw [hlog]
    congr 1
    omega
  have hone : (2 : ℚ) ^ (p : ℤ) * 2 ^ (-p : ℤ) = 1 := by
    rw [← zpow_add₀ two_ne_zero, add_neg_cancel, zpow_zero]
  have hpos : (0 : ℚ) < 2 ^ (-p : ℤ) := zpow_pos two_pos _
  unfold round at hround
  rw [hulp] at hround
  set m : ℤ := roundEven (f / 2 ^ (-p : ℤ)) with hm
  have hmlt : (m : ℚ) < 2 ^ (p : ℤ) := by
    refine lt_of_mul_lt_mul_right ?_ hpos.le
    rw [hround, hone]
    exact hlt
  have hmle : (m : ℚ) ≤ 2 ^ (p : ℤ) - 1 := by
    rw [zpow_natCast] at hmlt ⊢
    have hmlt' : m < 2 ^ p := by exact_mod_cast hmlt
    have hmle' : m ≤ 2 ^ p - 1 := by omega
    exact_mod_cast hmle'
  calc f = m * 2 ^ (-p : ℤ) := hround.symm
    _ ≤ (2 ^ (p : ℤ) - 1) * 2 ^ (-p : ℤ) := mul_le_mul_of_nonneg_right hmle hpos.le
    _ = 1 - 2 ^ (-p : ℤ) := by rw [sub_mul, hone, one_mul]

section Natural

variable {n : ℕ}

theorem pos_of_lt_round (h : (n : ℚ) < round p emin n) : (0 : ℚ) < n := by
  rcases Nat.eq_zero_or_pos n with rfl | hn
  · simp at h
  · exact_mod_cast hn

theorem one_le_ulpExp_of_lt_round (h : (n : ℚ) < round p emin n) : 1 ≤ ulpExp p emin n := by
  by_contra hexp
  exact h.ne' (round_natCast_of_ulpExp_nonpos (by omega))

theorem succ_le_round (h : (n : ℚ) < round p emin n) : (n + 1 : ℚ) ≤ round p emin n := by
  have hexp := one_le_ulpExp_of_lt_round h
  obtain ⟨m, hm⟩ := exists_mul_zpow (show (0 : ℤ) ≤ ulpExp p emin n by omega)
  have hint : round p emin n = ((roundEven (n / ulp p emin n) * m : ℤ) : ℚ) := by
    push_cast
    rw [round, ulp, hm, zpow_zero, mul_one]
  rw [hint] at h ⊢
  have hlt : (n : ℤ) < roundEven (n / ulp p emin n) * m := by exact_mod_cast h
  exact_mod_cast hlt

/-- A fraction below one of the rounded number lies more than half a place below it. -/
theorem mul_round_lt (hemin : emin ≤ 0) (h : (n : ℚ) < round p emin n) {f : ℚ}
    (hle : f ≤ 1 - 2 ^ (-p : ℤ)) :
    f * round p emin n < round p emin n - ulp p emin n / 2 := by
  have hexp := one_le_ulpExp_of_lt_round h
  have hn := pos_of_lt_round h
  have hhalf : (2 : ℚ) ^ Int.log 2 (n : ℚ) * 2 ^ (-p : ℤ) = ulp p emin n / 2 := by
    unfold ulp ulpExp at *
    rw [max_eq_left (by omega), ← zpow_add₀ two_ne_zero, div_eq_mul_inv, ← zpow_neg_one,
      ← zpow_add₀ two_ne_zero]
    congr 1
    ring
  have hpos : (0 : ℚ) < 2 ^ (-p : ℤ) := zpow_pos two_pos _
  have hlow : (2 : ℚ) ^ Int.log 2 (n : ℚ) * 2 ^ (-p : ℤ) < round p emin n * 2 ^ (-p : ℤ) :=
    mul_lt_mul_of_pos_right ((zpow_log_le hn).trans_lt h) hpos
  have hhigh : f * round p emin n ≤ (1 - 2 ^ (-p : ℤ)) * round p emin n :=
    mul_le_mul_of_nonneg_right hle (hn.trans h).le
  linarith

theorem round_mul_le_of_lt_round (hp : 1 ≤ p) (hemin : emin ≤ 0) (h : (n : ℚ) < round p emin n)
    {f : ℚ} (hf : 0 ≤ f) (hle : f ≤ 1 - 2 ^ (-p : ℤ)) :
    round p emin (f * round p emin n) ≤ n := by
  have hn := pos_of_lt_round h
  have hexp := one_le_ulpExp_of_lt_round h
  have hR : round p emin n ≤ n + ulp p emin n / 2 := round_le_add_half_ulp n
  have hu : 0 < ulp p emin n := ulp_pos n
  have hx := mul_round_lt hemin h hle
  have hkn := zpow_log_le hn
  have hnk := lt_zpow_log_add_one (n : ℚ)
  have hk : emin ≤ Int.log 2 (n : ℚ) := by
    unfold ulpExp at hexp
    omega
  rcases lt_or_ge (f * round p emin n) (2 ^ Int.log 2 (n : ℚ)) with hsmall | hlarge
  · rcases (mul_nonneg hf (hn.trans h).le).eq_or_lt with hzero | hpos
    · rw [← hzero, round_zero]
      exact hn.le
    · exact (round_le_zpow hpos hp hk hsmall).trans hkn
  · have hpos : 0 < f * round p emin n := (zpow_pos two_pos _).trans_le hlarge
    have hlog := log_eq hpos hlarge (by linarith)
    have hprev := round_le_sub_ulp hlog hx
    linarith

/-- When a fraction of a number, both rounded, is at most the number. -/
theorem round_mul_round_le (hp : 1 ≤ p) (hemin : emin ≤ -p) {f : ℚ} (hf : 0 ≤ f) (hf1 : f ≤ 1)
    (hround : round p emin f = f) (h : f < 1 ∨ round p emin n ≤ n) :
    round p emin (f * round p emin n) ≤ n := by
  rcases lt_or_ge (n : ℚ) (round p emin n) with hup | hdown
  · have hlt : f < 1 := h.resolve_right (not_le.mpr hup)
    exact round_mul_le_of_lt_round hp (by omega) hup hf (le_one_sub_zpow hp hemin hround hlt)
  · have hR : 0 ≤ round p emin n := round_nonneg n.cast_nonneg
    have hxn : f * round p emin n ≤ n := (mul_le_of_le_one_left hR hf1).trans hdown
    refine (round_mono hp (mul_nonneg hf hR) hxn ?_).trans hdown
    rw [Int.log_natCast]
    omega

/-- Otherwise it exceeds the number by at least one. -/
theorem succ_le_round_one_mul (hp : 1 ≤ p) (hemin : emin ≤ 0) (h : (n : ℚ) < round p emin n) :
    (n + 1 : ℚ) ≤ round p emin (1 * round p emin n) := by
  have hle := succ_le_round h
  have hlog : emin ≤ Int.log 2 (round p emin n) := by
    have hone : (1 : ℚ) ≤ round p emin n := by linarith [n.cast_nonneg (α := ℚ)]
    have hmono := Int.log_mono_right (b := 2) one_pos hone
    rw [Int.log_one_right] at hmono
    omega
  rw [one_mul]
  exact hle.trans (round_mono hp n.cast_nonneg h.le hlog)

end Natural

end EntropyLearnedHashing.BinaryRounding
