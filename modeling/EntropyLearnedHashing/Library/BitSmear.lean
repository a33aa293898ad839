import Mathlib.Data.Nat.Bitwise
import Mathlib.Data.Nat.Size

/-! Copying every set bit of a word to all lower places by shifts of one, two, four and so
on, as it is done to round a number up to a power of two. -/

namespace EntropyLearnedHashing

/-- `for(i = 1; i < 2^k; i *= 2) { v |= v >> i; }`. -/
def smear (k v : ℕ) : ℕ := (List.range k).foldl (fun v i => v ||| v >>> 2 ^ i) v

@[simp] theorem smear_zero (v : ℕ) : smear 0 v = v := rfl

theorem smear_succ (k v : ℕ) : smear (k + 1) v = smear k v ||| smear k v >>> 2 ^ k := by
  simp [smear, List.range_succ]

/-- After `k` rounds a bit is set if one of the `2 ^ k` bits from it on was. -/
theorem testBit_smear (k v i : ℕ) :
    (smear k v).testBit i = true ↔ ∃ j < 2 ^ k, v.testBit (i + j) = true := by
  induction k generalizing i with
  | zero => simp
  | succ k ih =>
    rw [smear_succ, Nat.testBit_or, Nat.testBit_shiftRight, Bool.or_eq_true, ih, ih, pow_succ]
    constructor
    · rintro (⟨j, hj, hbit⟩ | ⟨j, hj, hbit⟩)
      · exact ⟨j, by omega, hbit⟩
      · exact ⟨2 ^ k + j, by omega, by rwa [← add_assoc, add_comm i (2 ^ k)]⟩
    · rintro ⟨j, hj, hbit⟩
      by_cases hlow : j < 2 ^ k
      · exact Or.inl ⟨j, hlow, hbit⟩
      · refine Or.inr ⟨j - 2 ^ k, by omega, ?_⟩
        rwa [show 2 ^ k + i + (j - 2 ^ k) = i + j by omega]

/-- Enough rounds fill a word up to its highest bit. -/
theorem smear_eq {k v : ℕ} (hv : v < 2 ^ 2 ^ k) : smear k v = 2 ^ v.size - 1 := by
  refine Nat.eq_of_testBit_eq fun i => ?_
  rw [Bool.eq_iff_iff, testBit_smear, Nat.testBit_two_pow_sub_one, decide_eq_true_iff]
  constructor
  · rintro ⟨j, -, hbit⟩
    have hge : 2 ^ (i + j) ≤ v := Nat.ge_two_pow_of_testBit hbit
    exact lt_of_le_of_lt (Nat.le_add_right i j) (Nat.lt_size.mpr hge)
  · intro hi
    have hsize : v.size ≤ 2 ^ k := Nat.size_le.mpr hv
    have hpos : v ≠ 0 := by
      rintro rfl
      simp at hi
    refine ⟨v.size - 1 - i, by omega, ?_⟩
    rw [show i + (v.size - 1 - i) = v.size - 1 by omega]
    have hlog : v.size - 1 = v.log2 := by
      have hle : 2 ^ (v.size - 1) ≤ v := Nat.lt_size.mp (by omega)
      have hlt : v < 2 ^ (v.size - 1 + 1) := by
        rw [Nat.sub_add_cancel (by omega)]
        exact Nat.lt_size_self v
      exact ((Nat.log2_eq_iff hpos).mpr ⟨hle, hlt⟩).symm
    rw [hlog]
    exact Nat.testBit_log2 hpos

end EntropyLearnedHashing
