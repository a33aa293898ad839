import EntropyLearnedHashing.Library.LittleEndian
import Mathlib.Algebra.Group.Nat.Even
import Mathlib.Data.Nat.Bitwise
import Mathlib.Logic.Function.Iterate

/-! Division by a binary polynomial in a shift register. The register shifts towards
its least significant bit and adds the polynomial whenever a one falls out. A step
is linear for the exclusive or, so a message may be added to the register all at
once, however long it is: the steps shift it in. A register as wide as the
polynomial never steps from a nonzero state to zero. Hence a difference inside a
window of that width is never lost. -/

namespace EntropyLearnedHashing.ShiftRegister

open LittleEndian

/-- One bit of the division. -/
def step (poly c : ℕ) : ℕ := if c % 2 = 1 then c / 2 ^^^ poly else c / 2

variable (poly : ℕ)

theorem step_xor (a b : ℕ) : step poly (a ^^^ b) = step poly a ^^^ step poly b := by
  have hpar : (a ^^^ b) % 2 = 1 ↔ ¬(a % 2 = 1 ↔ b % 2 = 1) := Nat.xor_mod_two_eq_one
  have hdiv : (a ^^^ b) / 2 = a / 2 ^^^ b / 2 := Nat.xor_div_two
  unfold step
  rw [hdiv]
  by_cases ha : a % 2 = 1 <;> by_cases hb : b % 2 = 1 <;>
    simp only [hpar, ha, hb, if_true, if_false, not_true, not_false_iff, iff_true, iff_false]
  -- two ones fall out and the two polynomials cancel
  · rw [Nat.xor_comm (b / 2), Nat.xor_assoc, ← Nat.xor_assoc poly, Nat.xor_self, Nat.zero_xor]
  · rw [Nat.xor_assoc, Nat.xor_assoc, Nat.xor_comm poly]
  · rw [Nat.xor_assoc]

theorem iterate_step_xor (n a b : ℕ) :
    (step poly)^[n] (a ^^^ b) = (step poly)^[n] a ^^^ (step poly)^[n] b := by
  induction n generalizing a b with
  | zero => rfl
  | succ n ih => rw [Function.iterate_succ_apply, step_xor, ih]; rfl

/-- Trailing zeros shift out. -/
theorem iterate_step_two_pow_mul (n m : ℕ) : (step poly)^[n] (2 ^ n * m) = m := by
  induction n with
  | zero => simp
  | succ n ih =>
    have hstep : step poly (2 ^ (n + 1) * m) = 2 ^ n * m := by
      have hdouble : 2 ^ (n + 1) * m = 2 * (2 ^ n * m) := by ring
      rw [hdouble, step, if_neg (by omega)]
      omega
    rw [Function.iterate_succ_apply, hstep, ih]

/-- A difference that enters two words of `n` bits, at bit `a` of the first and at bit `b` of the
second, is the difference of two states of the register. -/
theorem iterate_step_fed_twice {n a b : ℕ} (ha : a ≤ n) (hb : b ≤ a) (d : ℕ) :
    (step poly)^[n] ((step poly)^[n] (2 ^ a * d) ^^^ 2 ^ b * d) =
      (step poly)^[n - b] ((step poly)^[n - (a - b)] d ^^^ d) := by
  have hfirst : (step poly)^[n] (2 ^ a * d) = (step poly)^[n - a] d := by
    conv_lhs => rw [show n = (n - a) + a by omega]
    rw [Function.iterate_add_apply, iterate_step_two_pow_mul]
  have hsecond : (step poly)^[b] ((step poly)^[n - a] d) = (step poly)^[n - (a - b)] d := by
    rw [← Function.iterate_add_apply, show b + (n - a) = n - (a - b) by omega]
  calc (step poly)^[n] ((step poly)^[n] (2 ^ a * d) ^^^ 2 ^ b * d)
      = (step poly)^[n - b] ((step poly)^[b] ((step poly)^[n - a] d ^^^ 2 ^ b * d)) := by
        rw [hfirst, ← Function.iterate_add_apply, Nat.sub_add_cancel (by omega)]
    _ = (step poly)^[n - b] ((step poly)^[n - (a - b)] d ^^^ d) := by
        rw [iterate_step_xor, iterate_step_two_pow_mul, hsecond]

/-! ### Messages -/

theorem add_two_pow_mul_eq_xor {n b : ℕ} (hb : b < 2 ^ n) (m : ℕ) :
    b + 2 ^ n * m = b ^^^ 2 ^ n * m := by
  apply Nat.eq_of_testBit_eq
  intro j
  rw [Nat.add_comm, Nat.testBit_two_pow_mul_add m hb, Nat.testBit_xor, Nat.testBit_two_pow_mul]
  by_cases hj : j < n
  · simp [hj, show ¬n ≤ j by omega]
  · have hlarge : b < 2 ^ j := hb.trans_le (Nat.pow_le_pow_right (by decide) (by omega))
    simp [hj, show n ≤ j by omega, Nat.testBit_lt_two_pow hlarge]

/-- The exclusive or of two messages, byte by byte. -/
theorem leNat_zipWith_xor {bs cs : List Byte} (h : bs.length = cs.length) :
    leNat (List.zipWith (· ^^^ ·) bs cs) = leNat bs ^^^ leNat cs := by
  induction bs generalizing cs with
  | nil => rw [List.length_eq_zero_iff.mp h.symm]; rfl
  | cons b bs ih =>
    obtain ⟨c, cs, rfl⟩ : ∃ c cs', cs = c :: cs' := List.exists_cons_of_length_eq_add_one h.symm
    have hsplit : ∀ (b : Byte) (m : ℕ), b.toNat + 256 * m = b.toNat ^^^ m <<< 8 := by
      intro b m
      rw [Nat.shiftLeft_eq, Nat.mul_comm m, ← add_two_pow_mul_eq_xor b.isLt]
      norm_num
    rw [List.zipWith_cons_cons, leNat_cons, leNat_cons, leNat_cons, ih (by simpa using h), hsplit,
      hsplit, hsplit, BitVec.toNat_xor, Nat.shiftLeft_xor_distrib]
    ac_rfl

/-- Adding a power of two at a clear bit sets the bit. -/
theorem xor_add_two_pow {x m : ℕ} (h : x / 2 ^ m % 2 = 0) : x ^^^ (x + 2 ^ m) = 2 ^ m := by
  have hr : x % 2 ^ m < 2 ^ m := Nat.mod_lt _ (by positivity)
  have hx : x = x % 2 ^ m + 2 ^ (m + 1) * (x / 2 ^ m / 2) := by
    rw [pow_succ, Nat.mul_assoc, Nat.mul_div_cancel' (Nat.dvd_of_mod_eq_zero h), Nat.mod_add_div]
  have hlow : x % 2 ^ m + 2 ^ m = x % 2 ^ m ^^^ 2 ^ m := by
    simpa using add_two_pow_mul_eq_xor hr 1
  have hnext : x + 2 ^ m = (x % 2 ^ m + 2 ^ m) ^^^ 2 ^ (m + 1) * (x / 2 ^ m / 2) := by
    rw [← add_two_pow_mul_eq_xor (by rw [pow_succ]; omega)]
    omega
  have hx' : x = x % 2 ^ m ^^^ 2 ^ (m + 1) * (x / 2 ^ m / 2) := by
    rw [← add_two_pow_mul_eq_xor (by rw [pow_succ]; omega)]
    exact hx
  generalize hhigh : 2 ^ (m + 1) * (x / 2 ^ m / 2) = u at hnext hx'
  calc x ^^^ (x + 2 ^ m) = (x % 2 ^ m ^^^ u) ^^^ ((x % 2 ^ m ^^^ 2 ^ m) ^^^ u) := by
        rw [hnext, hlow, ← hx']
    _ = (x % 2 ^ m ^^^ x % 2 ^ m) ^^^ (u ^^^ u) ^^^ 2 ^ m := by ac_rfl
    _ = 2 ^ m := by simp

theorem xor_xor_xor_comm (a b c d : ℕ) : a ^^^ b ^^^ (c ^^^ d) = a ^^^ c ^^^ (b ^^^ d) := by
  ac_rfl

/-- Adding a message byte by byte is adding it at once. -/
theorem foldl_bytes (bs : List Byte) (c : ℕ) :
    bs.foldl (fun c b => (step poly)^[8] (c ^^^ b.toNat)) c =
      (step poly)^[8 * bs.length] (c ^^^ leNat bs) := by
  induction bs generalizing c with
  | nil => simp
  | cons b bs ih =>
    have hsplit : leNat (b :: bs) = b.toNat ^^^ 2 ^ 8 * leNat bs := by
      rw [leNat_cons, ← add_two_pow_mul_eq_xor b.isLt]
      norm_num
    rw [List.foldl_cons, ih, hsplit, ← Nat.xor_assoc, List.length_cons,
      show 8 * (bs.length + 1) = 8 * bs.length + 8 by ring, Function.iterate_add_apply,
      iterate_step_xor poly 8 (c ^^^ b.toNat), iterate_step_two_pow_mul]

/-! ### Registers as wide as the polynomial -/

section Width

variable {poly} {w : ℕ} (hpoly : 2 ^ w ≤ poly) (hwidth : poly < 2 ^ (w + 1))
include hpoly

theorem step_ne_zero {c : ℕ} (hc : c < 2 ^ (w + 1)) (h : c ≠ 0) : step poly c ≠ 0 := by
  rw [pow_succ] at hc
  unfold step
  split_ifs with hodd
  · -- the quotient has no bit where the polynomial has its highest
    rw [Ne, Nat.xor_eq_zero_iff]
    omega
  · omega

include hwidth

omit hpoly in
theorem step_lt {c : ℕ} (hc : c < 2 ^ (w + 1)) : step poly c < 2 ^ (w + 1) := by
  have hhalf : c / 2 < 2 ^ (w + 1) := by omega
  unfold step
  split_ifs
  · exact Nat.xor_lt_two_pow hhalf hwidth
  · exact hhalf

omit hpoly in
theorem iterate_step_lt (n : ℕ) {c : ℕ} (hc : c < 2 ^ (w + 1)) : (step poly)^[n] c < 2 ^ (w + 1) := by
  induction n generalizing c with
  | zero => exact hc
  | succ n ih =>
    rw [Function.iterate_succ_apply]
    exact ih (step_lt hwidth hc)

theorem iterate_step_ne_zero (n : ℕ) {c : ℕ} (hc : c < 2 ^ (w + 1)) (h : c ≠ 0) :
    (step poly)^[n] c ≠ 0 := by
  induction n generalizing c with
  | zero => exact h
  | succ n ih =>
    rw [Function.iterate_succ_apply]
    exact ih (step_lt hwidth hc) (step_ne_zero hpoly hc h)

/-- A nonzero window of the width of the register never divides out. -/
theorem iterate_step_window_ne_zero {n p e : ℕ} (hp : p ≤ n) (he : e < 2 ^ (w + 1)) (h : e ≠ 0) :
    (step poly)^[n] (2 ^ p * e) ≠ 0 := by
  have hn : n = (n - p) + p := by omega
  rw [hn, Function.iterate_add_apply, iterate_step_two_pow_mul]
  exact iterate_step_ne_zero hpoly hwidth (n - p) he h

end Width

/-- A number whose bits lie in the window of length `k` at `p`. -/
theorem exists_window {d p k : ℕ} (h : ∀ j, d.testBit j = true → p ≤ j ∧ j < p + k) :
    ∃ e, e < 2 ^ k ∧ d = 2 ^ p * e := by
  refine ⟨d >>> p, ?_, ?_⟩
  · apply Nat.lt_pow_two_of_testBit
    intro j hj
    rw [Nat.testBit_shiftRight]
    by_contra hbit
    have := h (p + j) (by simpa using hbit)
    omega
  · apply Nat.eq_of_testBit_eq
    intro j
    rw [Nat.testBit_two_pow_mul, Nat.testBit_shiftRight]
    by_cases hj : p ≤ j
    · simp [hj]
    · have hclear : d.testBit j = false := by
        by_contra hbit
        have := h j (by simpa using hbit)
        omega
      simp [hj, hclear]

end EntropyLearnedHashing.ShiftRegister
