import Mathlib.Data.BitVec
import Mathlib.Data.LawfulXor.Basic
import Mathlib.Data.Nat.Bitwise
import Mathlib.Tactic.Ring

/-! Mixing steps on machine words. The folded product of two 64-bit words is the
exclusive or of the two halves of their 128-bit product; a zero factor kills it,
a factor one passes the other word through, and a factor coprime to `2 ^ 64 + 1`
keeps a nonzero word nonzero. An exclusive or with a right
shift of itself and a multiplication by an odd constant lose no information.
The multiply-shift reduction maps 32-bit words into a range. -/

namespace EntropyLearnedHashing.WordMix

/-- Low and high halves of the 128-bit product. -/
def mul128 (a b : BitVec 64) : BitVec 64 × BitVec 64 :=
  let r := a.setWidth 128 * b.setWidth 128
  (r.setWidth 64, (r >>> 64).setWidth 64)

def fold64 (a b : BitVec 64) : BitVec 64 :=
  let p := mul128 a b
  p.1 ^^^ p.2

@[simp] theorem fold64_zero_left (b : BitVec 64) : fold64 0#64 b = 0#64 := by
  simp [fold64, mul128]

@[simp] theorem fold64_zero_right (a : BitVec 64) : fold64 a 0#64 = 0#64 := by
  simp [fold64, mul128]

private theorem high_setWidth (b : BitVec 64) : ((b.setWidth 128) >>> 64).setWidth 64 = 0#64 := by
  apply BitVec.eq_of_toNat_eq
  have hb := b.isLt
  simp only [BitVec.toNat_setWidth, BitVec.toNat_ushiftRight, Nat.shiftRight_eq_div_pow,
    BitVec.toNat_ofNat]
  omega

@[simp] theorem fold64_one_left (b : BitVec 64) : fold64 1#64 b = b := by
  have h : (1#64).setWidth 128 = 1#128 := by decide
  simp only [fold64, mul128, h, BitVec.one_mul, high_setWidth]
  simp [BitVec.setWidth_setWidth_of_le]

@[simp] theorem fold64_one_right (a : BitVec 64) : fold64 a 1#64 = a := by
  have h : (1#64).setWidth 128 = 1#128 := by decide
  simp only [fold64, mul128, h, BitVec.mul_one, high_setWidth]
  simp [BitVec.setWidth_setWidth_of_le]

/-- The halves of the product as numbers. -/
theorem toNat_mul128 (a b : BitVec 64) :
    (mul128 a b).1.toNat = a.toNat * b.toNat % 2 ^ 64 ∧
      (mul128 a b).2.toNat = a.toNat * b.toNat / 2 ^ 64 := by
  have hlt : a.toNat * b.toNat < 2 ^ 128 :=
    lt_of_lt_of_eq (Nat.mul_lt_mul'' a.isLt b.isLt) (by norm_num)
  have hprod : (a.setWidth 128 * b.setWidth 128).toNat = a.toNat * b.toNat := by
    rw [BitVec.toNat_mul, BitVec.toNat_setWidth_of_le (by decide),
      BitVec.toNat_setWidth_of_le (by decide), Nat.mod_eq_of_lt hlt]
  simp only [mul128, BitVec.toNat_setWidth, BitVec.toNat_ushiftRight, hprod,
    Nat.shiftRight_eq_div_pow, true_and]
  omega

/-- The halves of a product with a zero fold are equal, so it is a multiple of `2 ^ 64 + 1`. -/
theorem dvd_of_fold64_eq_zero {a b : BitVec 64} (h : fold64 a b = 0) :
    2 ^ 64 + 1 ∣ a.toNat * b.toNat := by
  have hhalves : (mul128 a b).1 = (mul128 a b).2 := by
    rwa [fold64, BitVec.ofNat_eq_ofNat, BitVec.xor_eq_zero_iff] at h
  have heq := congrArg BitVec.toNat hhalves
  rw [(toNat_mul128 a b).1, (toNat_mul128 a b).2] at heq
  exact ⟨a.toNat * b.toNat / 2 ^ 64, by omega⟩

/-- The halves of a product that folds to ones are complements, so it is a multiple of
`2 ^ 64 - 1`. -/
theorem dvd_of_fold64_eq_allOnes {a b : BitVec 64} (h : fold64 a b = BitVec.allOnes 64) :
    2 ^ 64 - 1 ∣ a.toNat * b.toNat := by
  have hhalves : (mul128 a b).1 = ~~~(mul128 a b).2 := by
    rw [← BitVec.allOnes_xor, ← h, fold64, xor_cancel_right]
  have heq := congrArg BitVec.toNat hhalves
  have hhigh := (mul128 a b).2.isLt
  rw [BitVec.toNat_not, (toNat_mul128 a b).1, (toNat_mul128 a b).2] at heq
  rw [(toNat_mul128 a b).2] at hhigh
  exact ⟨a.toNat * b.toNat / 2 ^ 64 + 1, by omega⟩

/-- The word of ones folds every nonzero word to ones. -/
theorem fold64_allOnes {y : BitVec 64} (hy : y ≠ 0) :
    fold64 (BitVec.allOnes 64) y = BitVec.allOnes 64 := by
  have hpos : 0 < y.toNat := by
    rw [Nat.pos_iff_ne_zero]
    exact fun h => hy (BitVec.eq_of_toNat_eq (by simpa using h))
  have hlt := y.isLt
  have hhalves : (mul128 (BitVec.allOnes 64) y).1 = ~~~(mul128 (BitVec.allOnes 64) y).2 := by
    apply BitVec.eq_of_toNat_eq
    rw [BitVec.toNat_not, (toNat_mul128 _ y).1, (toNat_mul128 _ y).2, BitVec.toNat_allOnes]
    omega
  rw [fold64, hhalves, ← BitVec.allOnes_xor, xor_cancel_right]

/-- A factor coprime to `2 ^ 64 + 1` never folds a nonzero word to zero. -/
theorem fold64_ne_zero {a b : BitVec 64} (ha : a ≠ 0) (hb : Nat.Coprime (2 ^ 64 + 1) b.toNat) :
    fold64 a b ≠ 0 := by
  intro h
  have hdvd : 2 ^ 64 + 1 ∣ a.toNat := hb.dvd_of_dvd_mul_right (dvd_of_fold64_eq_zero h)
  have hzero : a.toNat = 0 := Nat.eq_zero_of_dvd_of_lt hdvd (by have := a.isLt; omega)
  exact ha (BitVec.eq_of_toNat_eq (by simpa using hzero))

/-- Flipping the lowest bit moves a word to a neighbouring number. -/
theorem toNat_xor_one (a : BitVec 64) :
    (a ^^^ 1#64).toNat = a.toNat + 1 ∨ a.toNat = (a ^^^ 1#64).toNat + 1 := by
  have hxor : (a ^^^ 1#64).toNat = a.toNat ^^^ 1 := by simp
  rw [hxor]
  rcases Nat.even_or_odd' a.toNat with ⟨k, hk | hk⟩
  · left
    rw [hk, Nat.xor_one_of_even (even_two_mul k)]
  · right
    rw [hk, Nat.xor_one_of_odd (odd_two_mul_add_one k)]
    omega

/-- A number that divides the products with two neighbours divides the other factor. -/
theorem dvd_of_dvd_mul_neighbours {M : ℕ} {a y : BitVec 64} (h : M ∣ a.toNat * y.toNat)
    (h' : M ∣ (a ^^^ 1#64).toNat * y.toNat) : M ∣ y.toNat := by
  rcases toNat_xor_one a with hnext | hnext
  · rw [hnext, Nat.add_mul, one_mul] at h'
    exact (Nat.dvd_add_right h).mp h'
  · rw [hnext, Nat.add_mul, one_mul] at h
    exact (Nat.dvd_add_right h').mp h

/-- A word that is folded to zero by two neighbours is zero. -/
theorem eq_zero_of_fold64_neighbours {a y : BitVec 64} (h : fold64 a y = 0)
    (h' : fold64 (a ^^^ 1#64) y = 0) : y = 0 := by
  have hdvd := dvd_of_dvd_mul_neighbours (dvd_of_fold64_eq_zero h) (dvd_of_fold64_eq_zero h')
  have hzero : y.toNat = 0 := Nat.eq_zero_of_dvd_of_lt hdvd (by have := y.isLt; omega)
  exact BitVec.eq_of_toNat_eq (by simpa using hzero)

/-- A word that folds two neighbours to ones is the word of ones. -/
theorem eq_allOnes_of_fold64_neighbours {a y : BitVec 64} (h : fold64 y a = BitVec.allOnes 64)
    (h' : fold64 y (a ^^^ 1#64) = BitVec.allOnes 64) : y = BitVec.allOnes 64 := by
  have hdvd := dvd_of_dvd_mul_neighbours (y := y) (Nat.mul_comm _ _ ▸ dvd_of_fold64_eq_allOnes h)
    (Nat.mul_comm _ _ ▸ dvd_of_fold64_eq_allOnes h')
  have hne : y.toNat ≠ 0 := by
    intro hzero
    have hy : y = 0#64 := BitVec.eq_of_toNat_eq (by simpa using hzero)
    rw [hy, fold64_zero_left] at h
    exact absurd h (by decide)
  apply BitVec.eq_of_toNat_eq
  have hlt := y.isLt
  have hle := Nat.le_of_dvd (Nat.pos_of_ne_zero hne) hdvd
  rw [BitVec.toNat_allOnes]
  omega

theorem xor_one_ne_self (s : BitVec 64) : s ^^^ 1#64 ≠ s := by
  intro h
  exact absurd (xor_left_eq_self_iff.mp h) (by decide)

variable {w : ℕ}

/-- Exclusive or with a right shift of itself. -/
def xorshift (v : BitVec w) (k : ℕ) : BitVec w := v ^^^ (v >>> k)

theorem xorshift_xor (u v : BitVec w) (k : ℕ) :
    xorshift (u ^^^ v) k = xorshift u k ^^^ xorshift v k := by
  ext i hi
  simp only [xorshift, BitVec.getElem_xor, BitVec.getElem_ushiftRight, BitVec.getLsbD_xor]
  cases u[i] <;> cases v[i] <;> cases u.getLsbD (k + i) <;> cases v.getLsbD (k + i) <;> rfl

theorem eq_zero_of_xorshift_eq_zero {d : BitVec w} {k : ℕ} (hk : 0 < k)
    (h : xorshift d k = 0) : d = 0 := by
  have hd : d = d >>> k := by
    rwa [xorshift, BitVec.ofNat_eq_ofNat, BitVec.xor_eq_zero_iff] at h
  -- a number equal to its own quotient by `2 ^ k` is zero
  have hn : d.toNat = d.toNat / 2 ^ k := by
    conv_lhs => rw [hd]
    rw [BitVec.toNat_ushiftRight, Nat.shiftRight_eq_div_pow]
  have h0 : d.toNat = 0 := by
    by_contra hne
    have := Nat.div_lt_self (Nat.pos_of_ne_zero hne) (Nat.one_lt_two_pow hk.ne')
    omega
  exact BitVec.eq_of_toNat_eq (by simpa using h0)

theorem xorshift_injective {k : ℕ} (hk : 0 < k) :
    Function.Injective fun v : BitVec w => xorshift v k := by
  intro u v h
  have h0 : xorshift (u ^^^ v) k = 0 := by
    rw [xorshift_xor]
    exact BitVec.xor_eq_zero_iff.mpr h
  exact BitVec.xor_eq_zero_iff.mp (eq_zero_of_xorshift_eq_zero hk h0)

/-- A constant with an inverse modulo `2 ^ w` can be cancelled. -/
theorem mul_right_injective_of_inverse {c c' : BitVec w} (h : c * c' = 1#w) :
    Function.Injective fun v : BitVec w => v * c := by
  intro u v huv
  have hc : ∀ x : BitVec w, x * c * c' = x := fun x => by
    rw [BitVec.mul_assoc, h, BitVec.mul_one]
  rw [← hc u, ← hc v]
  exact congrArg (· * c') huv

/-- The multiply-shift reduction of a 32-bit word to a range of size `n`. -/
def multShift (h n : BitVec 32) : BitVec 32 :=
  ((h.setWidth 64 * n.setWidth 64) >>> 32).setWidth 32

theorem toNat_multShift (h n : BitVec 32) : (multShift h n).toNat = h.toNat * n.toNat / 2 ^ 32 := by
  have hh := h.isLt
  have hn := n.isLt
  have hm : h.toNat * n.toNat < 2 ^ 64 := lt_of_lt_of_eq (Nat.mul_lt_mul'' hh hn) (by norm_num)
  have hq : h.toNat * n.toNat / 2 ^ 32 < 2 ^ 32 := by
    rw [Nat.div_lt_iff_lt_mul (by norm_num)]
    omega
  simp only [multShift, BitVec.toNat_setWidth, BitVec.toNat_ushiftRight, BitVec.toNat_mul,
    Nat.shiftRight_eq_div_pow]
  rw [Nat.mod_eq_of_lt (show h.toNat < 2 ^ 64 by omega),
    Nat.mod_eq_of_lt (show n.toNat < 2 ^ 64 by omega), Nat.mod_eq_of_lt hm, Nat.mod_eq_of_lt hq]

/-- A fraction below one of `n` is below `n`. -/
theorem scale_lt {h n : ℕ} (hh : h < 2 ^ 32) (hn : 0 < n) : h * n / 2 ^ 32 < n := by
  rw [Nat.div_lt_iff_lt_mul (by norm_num), Nat.mul_comm]
  exact (Nat.mul_lt_mul_left hn).mpr hh

theorem multShift_lt (h n : BitVec 32) (hn : 0 < n.toNat) : (multShift h n).toNat < n.toNat := by
  rw [toNat_multShift]
  exact scale_lt h.isLt hn

end EntropyLearnedHashing.WordMix
