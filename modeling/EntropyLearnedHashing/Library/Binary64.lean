import EntropyLearnedHashing.Library.BinaryRounding
import Mathlib.Analysis.SpecialFunctions.Pow.Real

/-! Double-precision arithmetic with its special values. Every operation on numbers rounds the exact
result once and overflows to an infinity. The two zeros are one value, which stands for the
positive one in a division. An operation on two numbers that are near two reals gives a number
near the result for the reals, if that is not too large. -/

namespace EntropyLearnedHashing

open BinaryRounding

/-- A `double`. -/
inductive Binary64 where
  | nan
  | infinity (negative : Bool)
  | finite (value : ℚ)
  deriving DecidableEq

namespace Binary64

/-! ### Operations -/

/-- The nearest number of the format, with the sign kept. -/
def roundSigned (x : ℚ) : ℚ := if 0 ≤ x then round 53 (-1074) x else -round 53 (-1074) (-x)

/-- The result of an operation whose exact value is `x`. -/
def ofRat (x : ℚ) : Binary64 :=
  if 2 ^ 1024 ≤ |roundSigned x| then infinity (decide (x < 0)) else finite (roundSigned x)

instance : NatCast Binary64 := ⟨fun n => ofRat n⟩

instance (n : ℕ) : OfNat Binary64 n := ⟨ofRat n⟩

def neg : Binary64 → Binary64
  | nan => nan
  | infinity s => infinity !s
  | finite x => finite (-x)

instance : Neg Binary64 := ⟨neg⟩

def add : Binary64 → Binary64 → Binary64
  | nan, _ => nan
  | _, nan => nan
  | infinity s, infinity t => if s = t then infinity s else nan
  | infinity s, finite _ => infinity s
  | finite _, infinity t => infinity t
  | finite x, finite y => ofRat (x + y)

instance : Add Binary64 := ⟨add⟩

instance : Sub Binary64 := ⟨fun a b => a + -b⟩

def mul : Binary64 → Binary64 → Binary64
  | nan, _ => nan
  | _, nan => nan
  | infinity s, infinity t => infinity (s ^^ t)
  | infinity s, finite y => if y = 0 then nan else infinity (s ^^ decide (y < 0))
  | finite x, infinity t => if x = 0 then nan else infinity (decide (x < 0) ^^ t)
  | finite x, finite y => ofRat (x * y)

instance : Mul Binary64 := ⟨mul⟩

def div : Binary64 → Binary64 → Binary64
  | nan, _ => nan
  | _, nan => nan
  | infinity _, infinity _ => nan
  | infinity s, finite y => infinity (s ^^ decide (y < 0))
  | finite _, infinity _ => finite 0
  | finite x, finite y =>
    if y = 0 then if x = 0 then nan else infinity (decide (x < 0))
    else ofRat (x / y)

instance : Div Binary64 := ⟨div⟩

/-- The comparison `a < b`, false for a `nan`. -/
def lt : Binary64 → Binary64 → Bool
  | nan, _ => false
  | _, nan => false
  | infinity s, infinity t => s && !t
  | infinity s, finite _ => s
  | finite _, infinity t => !t
  | finite x, finite y => decide (x < y)

@[simp] theorem nan_add (a : Binary64) : nan + a = nan := by cases a <;> rfl

@[simp] theorem nan_mul (a : Binary64) : nan * a = nan := by cases a <;> rfl

@[simp] theorem nan_sub (a : Binary64) : nan - a = nan := nan_add (-a)

@[simp] theorem nan_lt (a : Binary64) : lt nan a = false := by cases a <;> rfl

@[simp] theorem lt_nan (a : Binary64) : lt a nan = false := by cases a <;> rfl

theorem finite_add (x y : ℚ) : finite x + finite y = ofRat (x + y) := by
  change add (finite x) (finite y) = _
  rw [add]

theorem finite_sub (x y : ℚ) : finite x - finite y = ofRat (x - y) := by
  change add (finite x) (neg (finite y)) = _
  rw [neg, add, sub_eq_add_neg]

theorem finite_mul (x y : ℚ) : finite x * finite y = ofRat (x * y) := by
  change mul (finite x) (finite y) = _
  rw [mul]

theorem finite_div (x : ℚ) {y : ℚ} (hy : y ≠ 0) : finite x / finite y = ofRat (x / y) := by
  change div (finite x) (finite y) = _
  rw [div, if_neg hy]

theorem zero_mul_infinity (s : Bool) : finite 0 * infinity s = nan := by
  change mul (finite 0) (infinity s) = nan
  rw [mul, if_pos rfl]

theorem pos_mul_infinity {x : ℚ} (hx : 0 < x) (s : Bool) : finite x * infinity s = infinity s := by
  change mul (finite x) (infinity s) = _
  rw [mul, if_neg hx.ne', decide_eq_false (not_lt.mpr hx.le), Bool.false_xor]

theorem pos_div_zero {x : ℚ} (hx : 0 < x) : finite x / finite 0 = infinity false := by
  change div (finite x) (finite 0) = _
  rw [div, if_pos rfl, if_neg hx.ne', decide_eq_false (not_lt.mpr hx.le)]

theorem zero_div_zero : finite 0 / finite 0 = nan := by
  change div (finite 0) (finite 0) = nan
  rw [div, if_pos rfl, if_pos rfl]

theorem infinity_sub_finite (s : Bool) (x : ℚ) : infinity s - finite x = infinity s := rfl

theorem infinity_sub_self (s : Bool) : infinity s - infinity s = nan := by
  cases s <;> rfl

/-! ### Exact numbers -/

theorem roundSigned_natCast {n : ℕ} (hn : n < 2 ^ 53) : roundSigned n = n := by
  rw [roundSigned, if_pos n.cast_nonneg]
  exact round_natCast_of_lt (by norm_num) (by norm_num) hn

/-- Integers of up to 53 bits are kept. -/
theorem natCast_eq {n : ℕ} (hn : n < 2 ^ 53) : (n : Binary64) = finite n := by
  change ofRat n = _
  have hlt : ¬(2 : ℚ) ^ 1024 ≤ |roundSigned n| := by
    rw [roundSigned_natCast hn, abs_of_nonneg n.cast_nonneg, not_le]
    have hcast : (n : ℚ) < 2 ^ 53 := by exact_mod_cast hn
    exact hcast.trans (pow_lt_pow_right₀ one_lt_two (by norm_num))
  rw [ofRat, if_neg hlt, roundSigned_natCast hn]

theorem ofNat_eq {n : ℕ} (hn : n < 2 ^ 53) : (OfNat.ofNat n : Binary64) = finite n := natCast_eq hn

theorem natCast_add_one {n : ℕ} (hn : n + 1 < 2 ^ 53) : (n : Binary64) + 1 = finite (n + 1) := by
  have hone : (1 : Binary64) = finite (1 : ℕ) := ofNat_eq (Nat.lt_of_le_of_lt (Nat.le_add_left 1 n) hn)
  rw [natCast_eq (Nat.lt_of_succ_lt hn), hone, finite_add, ← Nat.cast_add, ← Nat.cast_succ]
  exact natCast_eq hn

theorem natCast_mul {m n : ℕ} (hm : m < 2 ^ 53) (hn : n < 2 ^ 53) (h : m * n < 2 ^ 53) :
    (m : Binary64) * n = finite (m * n : ℕ) := by
  rw [natCast_eq hm, natCast_eq hn, finite_mul, ← Nat.cast_mul]
  exact natCast_eq h

/-! ### Errors -/

theorem abs_roundSigned_sub_le (x : ℚ) : |roundSigned x - x| ≤ |x| / 2 ^ 53 + 1 / 2 ^ 1075 := by
  have herror : ∀ {y : ℚ}, 0 < y → |round 53 (-1074) y - y| ≤ y / 2 ^ 53 + 1 / 2 ^ 1075 := by
    intro y hy
    have h : |round 53 (-1074) y - y| ≤ y * 2 ^ (-(53 : ℕ) : ℤ) + 2 ^ (-1074 - 1 : ℤ) :=
      abs_round_sub_le hy
    rwa [show (-1074 - 1 : ℤ) = -(1075 : ℕ) by norm_num, zpow_neg, zpow_neg, zpow_natCast,
      zpow_natCast, ← div_eq_mul_inv, ← one_div] at h
  rcases lt_trichotomy x 0 with hneg | rfl | hpos
  · rw [roundSigned, if_neg (not_le.mpr hneg), abs_of_neg hneg,
      show -round 53 (-1074) (-x) - x = -(round 53 (-1074) (-x) - -x) by ring, abs_neg]
    exact herror (neg_pos.mpr hneg)
  · rw [roundSigned, if_pos le_rfl, round_zero, sub_zero, abs_zero, zero_div, zero_add]
    exact one_div_nonneg.mpr (pow_nonneg zero_le_two _)
  · rw [roundSigned, if_pos hpos.le, abs_of_pos hpos]
    exact herror hpos

theorem abs_cast_roundSigned_sub_le (v : ℚ) :
    |(roundSigned v : ℝ) - v| ≤ |(v : ℝ)| / 2 ^ 53 + 1 / 2 ^ 1075 := by
  have hcast := (Rat.cast_le (K := ℝ)).mpr (abs_roundSigned_sub_le v)
  simpa only [Rat.cast_abs, Rat.cast_sub, Rat.cast_add, Rat.cast_div, Rat.cast_pow, Rat.cast_one,
    Rat.cast_ofNat] using hcast

/-- The value is a number and lies within `ε` of `x`. -/
def Near (ε : ℝ) (a : Binary64) (x : ℝ) : Prop := ∃ v : ℚ, a = finite v ∧ |(v : ℝ) - x| ≤ ε

variable {a b : Binary64} {x y ε δ M : ℝ}

theorem Near.mono (h : Near ε a x) (hle : ε ≤ δ) : Near δ a x := by
  obtain ⟨v, rfl, hv⟩ := h
  exact ⟨v, rfl, hv.trans hle⟩

theorem near_finite (v : ℚ) : Near 0 (finite v) v := ⟨v, rfl, by simp⟩

theorem near_natCast {n : ℕ} (hn : n < 2 ^ 53) : Near 0 (n : Binary64) n := by
  rw [natCast_eq hn]
  exact_mod_cast near_finite n

theorem near_one : Near 0 (1 : Binary64) 1 := by
  have h : Near 0 ((1 : ℕ) : Binary64) ((1 : ℕ) : ℝ) := near_natCast (by norm_num)
  rw [Nat.cast_one] at h
  exact h

/-- Numbers up to `2 ^ 1000` do not overflow. -/
theorem ofRat_eq {v : ℚ} (hv : |(v : ℝ)| ≤ 2 ^ 1000) : ofRat v = finite (roundSigned v) := by
  refine if_neg (not_le.mpr ?_)
  have herror := abs_cast_roundSigned_sub_le v
  have hsmall : |(v : ℝ)| / 2 ^ 53 ≤ |(v : ℝ)| :=
    div_le_self (abs_nonneg _) (one_le_pow₀ one_le_two)
  have htiny : (1 : ℝ) / 2 ^ 1075 ≤ 1 := div_le_self zero_le_one (one_le_pow₀ one_le_two)
  have hone : (1 : ℝ) ≤ 2 ^ 1000 := one_le_pow₀ one_le_two
  have hreal : |(roundSigned v : ℝ)| < 2 ^ 1024 := by
    calc |(roundSigned v : ℝ)| = |((roundSigned v : ℝ) - v) + v| := by rw [sub_add_cancel]
      _ ≤ (|(v : ℝ)| + 1) + |(v : ℝ)| :=
          (abs_add_le _ _).trans (add_le_add (herror.trans (add_le_add hsmall htiny)) le_rfl)
      _ ≤ (2 ^ 1000 + 2 ^ 1000) + 2 ^ 1000 := add_le_add (add_le_add hv hone) hv
      _ ≤ (2 ^ 1000 + 2 ^ 1000) + (2 ^ 1000 + 2 ^ 1000) :=
          add_le_add le_rfl (le_add_of_nonneg_left (zero_le_one.trans hone))
      _ = 2 ^ 1002 := by rw [← two_mul, ← two_mul, ← pow_succ', ← pow_succ']
      _ < 2 ^ 1024 := pow_lt_pow_right₀ one_lt_two (by norm_num)
  exact_mod_cast hreal

/-- Rounding changes a number of at most `M` by at most `M / 2 ^ 52`. -/
theorem near_ofRat {v : ℚ} (hv : |(v : ℝ)| ≤ M) (hM : 1 ≤ M) (hM' : M ≤ 2 ^ 100) :
    Near (M / 2 ^ 52) (ofRat v) v := by
  have hfits : |(v : ℝ)| ≤ 2 ^ 1000 :=
    (hv.trans hM').trans (pow_le_pow_right₀ one_le_two (by norm_num))
  refine ⟨roundSigned v, ofRat_eq hfits, (abs_cast_roundSigned_sub_le v).trans ?_⟩
  have htiny : (1 : ℝ) / 2 ^ 1075 ≤ M / 2 ^ 53 :=
    div_le_div₀ (by linarith) hM (by positivity) (pow_le_pow_right₀ one_le_two (by norm_num))
  calc |(v : ℝ)| / 2 ^ 53 + 1 / 2 ^ 1075 ≤ M / 2 ^ 53 + M / 2 ^ 53 :=
        add_le_add (div_le_div_of_nonneg_right hv (by positivity)) htiny
    _ = M / 2 ^ 52 := by ring

theorem Near.ofRat {v : ℚ} (hv : |(v : ℝ) - x| ≤ ε) (hx : |x| + ε ≤ M) (hM : 1 ≤ M)
    (hM' : M ≤ 2 ^ 100) : Near (ε + M / 2 ^ 52) (Binary64.ofRat v) x := by
  have hbound : |(v : ℝ)| ≤ M := by
    calc |(v : ℝ)| = |x + (v - x)| := by rw [add_sub_cancel]
      _ ≤ M := (abs_add_le _ _).trans ((add_le_add_right hv _).trans hx)
  obtain ⟨r, hr, hround⟩ := near_ofRat hbound hM hM'
  refine ⟨r, hr, ?_⟩
  calc |(r : ℝ) - x| ≤ |(r : ℝ) - v| + |(v : ℝ) - x| := abs_sub_le _ _ _
    _ ≤ ε + M / 2 ^ 52 := by linarith

theorem Near.add (ha : Near ε a x) (hb : Near δ b y) (hxy : |x + y| + (ε + δ) ≤ M) (hM : 1 ≤ M)
    (hM' : M ≤ 2 ^ 100) : Near (ε + δ + M / 2 ^ 52) (a + b) (x + y) := by
  obtain ⟨v, rfl, hv⟩ := ha
  obtain ⟨w, rfl, hw⟩ := hb
  rw [finite_add]
  refine Near.ofRat ?_ hxy hM hM'
  calc |((v + w : ℚ) : ℝ) - (x + y)| = |((v : ℝ) - x) + (w - y)| := by push_cast; ring_nf
    _ ≤ ε + δ := (abs_add_le _ _).trans (add_le_add hv hw)

theorem Near.sub (ha : Near ε a x) (hb : Near δ b y) (hxy : |x - y| + (ε + δ) ≤ M) (hM : 1 ≤ M)
    (hM' : M ≤ 2 ^ 100) : Near (ε + δ + M / 2 ^ 52) (a - b) (x - y) := by
  obtain ⟨v, rfl, hv⟩ := ha
  obtain ⟨w, rfl, hw⟩ := hb
  rw [finite_sub]
  refine Near.ofRat ?_ hxy hM hM'
  calc |((v - w : ℚ) : ℝ) - (x - y)| = |((v : ℝ) - x) - (w - y)| := by push_cast; ring_nf
    _ ≤ ε + δ := (abs_sub _ _).trans (add_le_add hv hw)

/-- The error of a product, with bounds on the two reals. -/
theorem Near.mul (ha : Near ε a x) (hb : Near δ b y) {A B : ℝ} (hx : |x| ≤ A) (hy : |y| ≤ B)
    (hM : |x * y| + (A * δ + (B + δ) * ε) ≤ M) (h₁ : 1 ≤ M) (hM' : M ≤ 2 ^ 100) :
    Near (A * δ + (B + δ) * ε + M / 2 ^ 52) (a * b) (x * y) := by
  obtain ⟨v, rfl, hv⟩ := ha
  obtain ⟨w, rfl, hw⟩ := hb
  rw [finite_mul]
  have hw' : |(w : ℝ)| ≤ B + δ := by
    calc |(w : ℝ)| = |y + (w - y)| := by rw [add_sub_cancel]
      _ ≤ B + δ := (abs_add_le _ _).trans (add_le_add hy hw)
  refine Near.ofRat ?_ hM h₁ hM'
  calc |((v * w : ℚ) : ℝ) - x * y| = |x * (w - y) + w * (v - x)| := by push_cast; ring_nf
    _ ≤ |x| * |(w : ℝ) - y| + |(w : ℝ)| * |(v : ℝ) - x| := by
        rw [← abs_mul, ← abs_mul]
        exact abs_add_le _ _
    _ ≤ A * δ + (B + δ) * ε := add_le_add
        (mul_le_mul hx hw (abs_nonneg _) ((abs_nonneg x).trans hx))
        (mul_le_mul hw' hv (abs_nonneg _) ((abs_nonneg _).trans hw'))

/-- The error of a quotient of an integer by a number that is bounded below. -/
theorem Near.natCast_div {n : ℕ} (hn : n < 2 ^ 53) (hb : Near δ b y) {L : ℝ} (hL : 0 < L)
    (hy : L + δ ≤ y) (hM : n / L + n * δ / (L * L) ≤ M) (h₁ : 1 ≤ M) (hM' : M ≤ 2 ^ 100) :
    Near (n * δ / (L * L) + M / 2 ^ 52) (n / b) (n / y) := by
  obtain ⟨w, rfl, hw⟩ := hb
  have hδ : 0 ≤ δ := (abs_nonneg _).trans hw
  have hwL : L ≤ w := by linarith [(abs_le.mp hw).1]
  have hyL : L ≤ y := by linarith
  have hw0 : (w : ℝ) ≠ 0 := (hL.trans_le hwL).ne'
  have hy0 : y ≠ 0 := (hL.trans_le hyL).ne'
  rw [natCast_eq hn, finite_div _ (by exact_mod_cast hw0)]
  have herror : |((n / w : ℚ) : ℝ) - n / y| ≤ n * δ / (L * L) := by
    have hdiff : ((n / w : ℚ) : ℝ) - n / y = -(n * (w - y)) / (w * y) := by
      push_cast
      field_simp
      ring
    rw [hdiff, abs_div, abs_neg, abs_mul, abs_of_nonneg n.cast_nonneg,
      abs_of_pos (mul_pos (hL.trans_le hwL) (hL.trans_le hyL))]
    exact div_le_div₀ (mul_nonneg n.cast_nonneg hδ) (mul_le_mul_of_nonneg_left hw n.cast_nonneg)
      (mul_pos hL hL) (mul_le_mul hwL hyL hL.le (hL.le.trans hwL))
  refine Near.ofRat herror (le_trans (add_le_add_left ?_ _) hM) h₁ hM'
  rw [abs_of_nonneg (div_nonneg n.cast_nonneg (hL.le.trans hyL))]
  exact div_le_div_of_nonneg_left n.cast_nonneg hL hyL

end Binary64

end EntropyLearnedHashing
