import EntropyLearnedHashing.Library.WordMix
import Mathlib.Algebra.Order.Floor.Div
import Mathlib.Data.Set.Card
import Mathlib.Order.Interval.Finset.Nat

/-! Reduction of a range to a smaller one by scaling. The numbers below `M` are mapped to
`h * n / M`; the preimage of a value `v < n` is the interval between the rounded-up
multiples of `M / n`, so its size is `M / n` rounded down or up, and no value is missed
when `n ≤ M`. The multiply-shift reduction of machine words is the case `M = 2 ^ 32`. -/

namespace EntropyLearnedHashing.RangeReduction

variable {M n : ℕ}

/-- The first number that is scaled to `v`. -/
def bucketStart (M n v : ℕ) : ℕ := v * M ⌈/⌉ n

theorem le_scale_iff (hM : 0 < M) (hn : 0 < n) (h v : ℕ) :
    v ≤ h * n / M ↔ bucketStart M n v ≤ h := by
  rw [Nat.le_div_iff_mul_le hM, bucketStart, ceilDiv_le_iff_le_mul hn, Nat.mul_comm h n]

theorem scale_eq_iff (hM : 0 < M) (hn : 0 < n) (h v : ℕ) :
    h * n / M = v ↔ bucketStart M n v ≤ h ∧ h < bucketStart M n (v + 1) := by
  rw [← le_scale_iff hM hn, ← not_le, ← le_scale_iff hM hn]
  omega

theorem bucketStart_le (hn : 0 < n) {v : ℕ} (hv : v ≤ n) : bucketStart M n v ≤ M :=
  (ceilDiv_le_iff_le_mul hn).mpr (Nat.mul_le_mul_right M hv)

/-- A bucket is at least as long as `M / n` rounded down. -/
theorem bucketStart_add_div_le (hn : 0 < n) (v : ℕ) :
    bucketStart M n v + M / n ≤ bucketStart M n (v + 1) := by
  have hnext : (v + 1) * M ≤ n * bucketStart M n (v + 1) := le_smul_ceilDiv hn
  have hdiv : n * (M / n) ≤ M := Nat.mul_div_le M n
  have hsub : bucketStart M n v ≤ bucketStart M n (v + 1) - M / n := by
    apply (ceilDiv_le_iff_le_mul hn).mpr
    rw [Nat.mul_sub]
    rw [Nat.add_mul, one_mul] at hnext
    omega
  have hlarge : M / n ≤ bucketStart M n (v + 1) := by
    apply Nat.le_of_mul_le_mul_left _ hn
    rw [Nat.add_mul, one_mul] at hnext
    omega
  omega

/-- A bucket is at most as long as `M / n` rounded up. -/
theorem bucketStart_succ_le (hn : 0 < n) (v : ℕ) :
    bucketStart M n (v + 1) ≤ bucketStart M n v + M ⌈/⌉ n := by
  apply (ceilDiv_le_iff_le_mul hn).mpr
  have hv : v * M ≤ n * bucketStart M n v := le_smul_ceilDiv hn
  have hone : M ≤ n * (M ⌈/⌉ n) := le_smul_ceilDiv hn
  rw [Nat.add_mul, one_mul, Nat.mul_add]
  omega

theorem ceilDiv_le_div_add_one (M n : ℕ) (hn : 0 < n) : M ⌈/⌉ n ≤ M / n + 1 := by
  apply (ceilDiv_le_iff_le_mul hn).mpr
  have hlt := Nat.lt_mul_div_succ M hn
  omega

/-- The length of a bucket is `M / n` rounded down or up. -/
theorem bucket_length (hn : 0 < n) (v : ℕ) :
    bucketStart M n (v + 1) - bucketStart M n v = M / n ∨
      bucketStart M n (v + 1) - bucketStart M n v = M ⌈/⌉ n := by
  have hlower := bucketStart_add_div_le (M := M) hn v
  have hupper := bucketStart_succ_le (M := M) hn v
  have hceil := ceilDiv_le_div_add_one M n hn
  omega

/-- Every value below `n` is reached when `n` is not larger than `M`. -/
theorem exists_scale_eq (hn : 0 < n) (hle : n ≤ M) {v : ℕ} (hv : v < n) :
    ∃ h < M, h * n / M = v := by
  have hM : 0 < M := hn.trans_le hle
  have hpos : 0 < M / n := Nat.div_pos hle hn
  have hstep := bucketStart_add_div_le (M := M) hn v
  have hnext := bucketStart_le (M := M) hn (v := v + 1) hv
  refine ⟨bucketStart M n v, by omega, (scale_eq_iff hM hn _ _).mpr ⟨le_rfl, by omega⟩⟩

/-! ### Words -/

open WordMix

theorem multShift_mono (n : BitVec 32) {h h' : BitVec 32} (hle : h ≤ h') :
    multShift h n ≤ multShift h' n := by
  rw [BitVec.le_def, toNat_multShift, toNat_multShift]
  exact Nat.div_le_div_right (Nat.mul_le_mul_right _ hle)

/-- The words that are reduced to `v`, as numbers. -/
theorem toNat_image_multShift {n v : BitVec 32} (hv : v < n) :
    BitVec.toNat '' {h : BitVec 32 | multShift h n = v} =
      Finset.Ico (bucketStart (2 ^ 32) n.toNat v.toNat)
        (bucketStart (2 ^ 32) n.toNat (v.toNat + 1)) := by
  have hlt : v.toNat < n.toNat := hv
  have hn : 0 < n.toNat := by omega
  ext h
  simp only [Set.mem_image, Set.mem_ofPred_eq, Finset.coe_Ico, Set.mem_Ico]
  rw [← scale_eq_iff (by norm_num) hn]
  constructor
  · rintro ⟨w, hw, rfl⟩
    rw [← toNat_multShift, hw]
  · intro hscale
    have hbound : h < 2 ^ 32 :=
      ((scale_eq_iff (by norm_num) hn _ _).mp hscale).2.trans_le (bucketStart_le hn hlt)
    refine ⟨BitVec.ofNat 32 h, BitVec.eq_of_toNat_eq ?_, ?_⟩
    · rw [toNat_multShift, BitVec.toNat_ofNat, Nat.mod_eq_of_lt hbound, hscale]
    · rw [BitVec.toNat_ofNat, Nat.mod_eq_of_lt hbound]

/-- How many words are reduced to a value. -/
theorem ncard_multShift_eq {n v : BitVec 32} (hv : v < n) :
    {h : BitVec 32 | multShift h n = v}.ncard = 2 ^ 32 / n.toNat ∨
      {h : BitVec 32 | multShift h n = v}.ncard = 2 ^ 32 ⌈/⌉ n.toNat := by
  have hn : 0 < n.toNat := (Nat.zero_le _).trans_lt hv
  have hinj : Function.Injective (BitVec.toNat : BitVec 32 → ℕ) := fun _ _ => BitVec.eq_of_toNat_eq
  rw [← Set.ncard_image_of_injective _ hinj, toNat_image_multShift hv, Set.ncard_coe_finset,
    Nat.card_Ico]
  exact bucket_length hn v.toNat

end EntropyLearnedHashing.RangeReduction
