import Mathlib.Data.Fintype.EquivFin
import Mathlib.Data.Nat.ModEq
import Mathlib.Data.Nat.Prime.Basic
import Mathlib.Tactic.Ring
import EntropyLearnedHashing.Library.CircularArray

/-! Triangular probing. The steps grow by one each time, so that after `j` steps the way is
the `j`-th triangular number. Modulo a power of two the triangular numbers below it are
all different, hence such a probe visits every place once per round; with windows of a
fixed width it covers a whole circular array. -/

namespace EntropyLearnedHashing

/-- The `j`-th triangular number. -/
def triangular (j : ℕ) : ℕ := j * (j + 1) / 2

theorem two_mul_triangular (j : ℕ) : 2 * triangular j = j * (j + 1) :=
  Nat.mul_div_cancel' (Nat.even_mul_succ_self j).two_dvd

@[simp] theorem triangular_zero : triangular 0 = 0 := rfl

theorem triangular_succ (j : ℕ) : triangular (j + 1) = triangular j + (j + 1) := by
  have h := two_mul_triangular j
  have h' := two_mul_triangular (j + 1)
  have hring : (j + 1) * (j + 1 + 1) = j * (j + 1) + 2 * (j + 1) := by ring
  omega

/-- Of two factors whose sum is odd, one takes all factors of two. -/
theorem two_pow_dvd_of_odd_add {a b k : ℕ} (hodd : ¬2 ∣ a + b) (h : 2 ^ k ∣ a * b) :
    2 ^ k ∣ a ∨ 2 ^ k ∣ b := by
  by_cases ha : 2 ∣ a
  · have hb : ¬2 ∣ b := fun hb => hodd (Nat.dvd_add ha hb)
    left
    exact (((Nat.prime_two.coprime_iff_not_dvd.mpr hb).pow_left k).dvd_of_dvd_mul_right) h
  · right
    exact (((Nat.prime_two.coprime_iff_not_dvd.mpr ha).pow_left k).dvd_of_dvd_mul_left) h

theorem triangular_mod_inj {k i j : ℕ} (hij : i ≤ j) (hj : j < 2 ^ k)
    (h : triangular i % 2 ^ k = triangular j % 2 ^ k) : i = j := by
  obtain ⟨d, rfl⟩ := Nat.exists_eq_add_of_le hij
  have hle : triangular i ≤ triangular (i + d) :=
    Nat.div_le_div_right (Nat.mul_le_mul (by omega) (by omega))
  have hdvd : 2 ^ k ∣ triangular (i + d) - triangular i := (Nat.modEq_iff_dvd' hle).mp h
  have hprod : 2 * (triangular (i + d) - triangular i) = d * (2 * i + d + 1) := by
    have h₁ := two_mul_triangular i
    have h₂ := two_mul_triangular (i + d)
    have hring : (i + d) * (i + d + 1) = i * (i + 1) + d * (2 * i + d + 1) := by ring
    omega
  have hdvd' : 2 ^ (k + 1) ∣ d * (2 * i + d + 1) := by
    rw [← hprod, pow_succ, mul_comm]
    exact mul_dvd_mul_left 2 hdvd
  have hpow : 2 ^ (k + 1) = 2 * 2 ^ k := by rw [pow_succ, mul_comm]
  rcases two_pow_dvd_of_odd_add (by omega) hdvd' with hd | hd
  · have := Nat.eq_zero_of_dvd_of_lt hd (by omega)
    omega
  · have := Nat.eq_zero_of_dvd_of_lt hd (by omega)
    omega

/-- The triangular numbers below a power of two take every value modulo it. -/
theorem exists_triangular_mod (k : ℕ) {r : ℕ} (hr : r < 2 ^ k) :
    ∃ j < 2 ^ k, triangular j % 2 ^ k = r := by
  let f : Fin (2 ^ k) → Fin (2 ^ k) := fun j => ⟨triangular j % 2 ^ k, Nat.mod_lt _ (Nat.two_pow_pos k)⟩
  have hinj : Function.Injective f := by
    intro i j hij
    have heq : triangular i % 2 ^ k = triangular j % 2 ^ k := congrArg Fin.val hij
    rcases Nat.le_total i j with hle | hle
    · exact Fin.ext (triangular_mod_inj hle j.isLt heq)
    · exact Fin.ext (triangular_mod_inj hle i.isLt heq.symm).symm
  obtain ⟨j, hj⟩ := Finite.surjective_of_injective hinj ⟨r, hr⟩
  exact ⟨j, j.isLt, congrArg Fin.val hj⟩

/-- Windows of width `w` at triangular steps cover a circular array of `w * 2 ^ k` places. -/
theorem exists_window {w k : ℕ} (hw : 0 < w) (h : ℕ) {p : ℕ} (hp : p < w * 2 ^ k) :
    ∃ j < 2 ^ k, ∃ i < w, (h + w * triangular j + i) % (w * 2 ^ k) = p := by
  have hpos : 0 < w * 2 ^ k := Nat.mul_pos hw (Nat.two_pow_pos k)
  -- the way from `h` to `p`, as a number of windows and a rest
  obtain ⟨d, hd, hdp⟩ := CircularArray.exists_add_mod_eq (Nat.mod_lt h hpos) hp
  rw [Nat.mod_add_mod] at hdp
  obtain ⟨j, hj, hjd⟩ := exists_triangular_mod k ((Nat.div_lt_iff_lt_mul hw).mpr
    (by rwa [mul_comm] at hd) : d / w < 2 ^ k)
  refine ⟨j, hj, d % w, Nat.mod_lt d hw, ?_⟩
  have hway : (w * triangular j + d % w) % (w * 2 ^ k) = d := by
    rw [← Nat.mod_add_mod, Nat.mul_mod_mul_left, hjd, Nat.div_add_mod, Nat.mod_eq_of_lt hd]
  rw [add_assoc, Nat.add_mod, hway, Nat.mod_add_mod, hdp]

end EntropyLearnedHashing
