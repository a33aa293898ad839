import EntropyLearnedHashing.Library.WordMix
import Mathlib.Data.List.Chain

/-! Words whose three top bits are neither all clear nor all set. Such a word keeps its
top bits when the other half of a folded product is small, and under double hashing
with a multiply-shift reduction its first two probes are at least an eighth of the
range apart in both directions around the circle, so they are different positions. -/

namespace EntropyLearnedHashing.WordMix

/-- The three top bits are neither all clear nor all set. -/
def Mixed (h : BitVec 64) : Prop := 2 ^ 61 ≤ h.toNat ∧ h.toNat < 7 * 2 ^ 61

instance (h : BitVec 64) : Decidable (Mixed h) := inferInstanceAs (Decidable (_ ∧ _))

/-- A small factor leaves the top bits of the low half of the product alone. -/
theorem fold64_mixed {a y : BitVec 64} (hy : y.toNat ≤ 2 ^ 61)
    (h₁ : 2 ^ 61 ≤ a.toNat * y.toNat % 2 ^ 64) (h₂ : a.toNat * y.toNat % 2 ^ 64 < 7 * 2 ^ 61) :
    Mixed (fold64 a y) := by
  have hhigh : a.toNat * y.toNat / 2 ^ 64 < 2 ^ 61 := by
    rw [Nat.div_lt_iff_lt_mul (by norm_num)]
    calc a.toNat * y.toNat ≤ a.toNat * 2 ^ 61 := Nat.mul_le_mul_left _ hy
      _ < 2 ^ 61 * 2 ^ 64 := by have := a.isLt; omega
  have htop : (fold64 a y).toNat / 2 ^ 61 = a.toNat * y.toNat % 2 ^ 64 / 2 ^ 61 := by
    rw [fold64, BitVec.toNat_xor, (toNat_mul128 a y).1, (toNat_mul128 a y).2,
      ← Nat.shiftRight_eq_div_pow, Nat.shiftRight_xor_distrib, Nat.shiftRight_eq_div_pow,
      Nat.shiftRight_eq_div_pow, Nat.div_eq_of_lt hhigh, Nat.xor_zero]
  unfold Mixed
  omega

/-- A chain of numbers that grow at most sevenfold meets the window `(W, 7 * W]`. -/
theorem exists_mul_mem_window {W M : ℕ} {y : ℕ} {ys : List ℕ}
    (hchain : List.IsChain (fun a b => b ≤ 7 * a) (y :: ys)) (hfirst : M * y ≤ 7 * W)
    (hlast : ∃ z ∈ y :: ys, W < M * z) : ∃ z ∈ y :: ys, W < M * z ∧ M * z ≤ 7 * W := by
  induction ys generalizing y with
  | nil =>
    obtain ⟨z, hz, hWz⟩ := hlast
    rw [List.mem_singleton] at hz
    subst hz
    exact ⟨z, by simp, hWz, hfirst⟩
  | cons x ys ih =>
    rcases Nat.lt_or_ge W (M * y) with hy | hy
    · exact ⟨y, by simp, hy, hfirst⟩
    · obtain ⟨hyx, hrest⟩ := List.isChain_cons_cons.mp hchain
      have hx : M * x ≤ 7 * W :=
        calc M * x ≤ M * (7 * y) := Nat.mul_le_mul_left _ hyx
          _ = 7 * (M * y) := by ring
          _ ≤ 7 * W := Nat.mul_le_mul_left _ hy
      obtain ⟨z, hz, hWz⟩ := hlast
      have hz' : z ∈ x :: ys := by
        rcases List.mem_cons.mp hz with rfl | hz
        · omega
        · exact hz
      obtain ⟨z', hmem, hwin⟩ := ih hrest hx ⟨z, hz', hWz⟩
      exact ⟨z', List.mem_cons_of_mem _ hmem, hwin⟩

/-- Two numbers an eighth of the range apart are reduced to different positions. -/
theorem mul_div_ne {x y n : ℕ} (hn : 8 ≤ n) (h : x + 2 ^ 29 ≤ y) : x * n / 2 ^ 32 ≠ y * n / 2 ^ 32 := by
  have hgap : x * n + 2 ^ 32 ≤ y * n :=
    calc x * n + 2 ^ 32 ≤ x * n + 2 ^ 29 * n := by omega
      _ = (x + 2 ^ 29) * n := by ring
      _ ≤ y * n := Nat.mul_le_mul_right _ h
  omega

/-- The first two probes of a mixed word. -/
theorem Mixed.probes_ne {h : BitVec 64} (hmixed : Mixed h) {n : ℕ} (hn : 8 ≤ n) :
    h.toNat % 2 ^ 32 * n / 2 ^ 32 ≠ (h.toNat % 2 ^ 32 + h.toNat / 2 ^ 32) % 2 ^ 32 * n / 2 ^ 32 := by
  obtain ⟨h₁, h₂⟩ := hmixed
  have hlow : 2 ^ 29 ≤ h.toNat / 2 ^ 32 := by omega
  have hhigh : h.toNat / 2 ^ 32 < 7 * 2 ^ 29 := by omega
  rcases Nat.lt_or_ge (h.toNat % 2 ^ 32 + h.toNat / 2 ^ 32) (2 ^ 32) with hlt | hge
  · rw [Nat.mod_eq_of_lt hlt]
    exact mul_div_ne hn (by omega)
  · exact (mul_div_ne hn (by omega)).symm

end EntropyLearnedHashing.WordMix
