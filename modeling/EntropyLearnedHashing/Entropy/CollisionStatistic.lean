import EntropyLearnedHashing.Entropy.Selector

/-! The collision statistic is exact. The counts of the frequency map are `int`s that are
widened to `uint64_t` before `fallingPower`; below `2 ^ 31` keys nothing wraps. The
numerators then add up to the number of ordered pairs of keys with equal partial
strings and the denominator is the number of all ordered pairs. Both depend on the
multiset of the keys alone, so neither the order of the input nor the order in which
the map is traversed matters. -/

namespace EntropyLearnedHashing

open LittleEndian Tally

section

variable {w : ℕ} {out : Str → ℤ → Vector Byte w} {vec : List Str} {positions : List ℤ}

/-- No count reaches the sign of the `int`, so no product wraps. -/
theorem fallingPower_entry (h : vec.length < 2 ^ 31) :
    ∀ e ∈ stringComboAndFrequencyMap w out vec positions,
      e.2 < 2 ^ 31 ∧ (fallingPower (intToU64 e.2) 2).toNat = e.2 * (e.2 - 1) := by
  intro e he
  have hle := le_length_of_mem_tally he
  rw [List.length_map] at hle
  exact ⟨by omega, toNat_fallingPower_two (by omega)⟩

/-- The entropies of the selector are quotients of the same statistic. It returns the sentinel when
under every unused position all pairs collide. -/
theorem chooseBestPositionRenyi_statistic {maxLengthString : U32} {R : List ℤ}
    (hR : R.length ≠ maxLengthString.toNat) (h₂ : 2 ≤ vec.length) (h : vec.length < 2 ^ 31) :
    (chooseBestPositionRenyi w out maxLengthString vec R = some (-1, .zero) ∧
      ∀ i < maxLengthString.toNat / w, intOf i ∉ R →
        numerator (stringComboAndFrequencyMap w out vec (R ++ [intOf i])) = denominator vec.length) ∨
      ∃ i < maxLengthString.toNat / w, intOf i ∉ R ∧
        chooseBestPositionRenyi w out maxLengthString vec R = some (intOf i, .negLog2
          ((numerator (stringComboAndFrequencyMap w out vec (R ++ [intOf i])) : ℚ) /
            denominator vec.length)) := by
  have hden : denominator vec.length ≠ 0 := by
    rw [denominator_eq h]
    exact Nat.mul_ne_zero (by omega) (by omega)
  have hentropy : ∀ i, evaluateEntropy w out vec (R ++ [intOf i]) = .negLog2
      ((numerator (stringComboAndFrequencyMap w out vec (R ++ [intOf i])) : ℚ) /
        denominator vec.length) := by
    intro i
    rw [evaluateEntropy, evaluateRenyiEntropy_eq (List.Perm.refl _) hden]
  rcases @chooseBestPositionRenyi_cases w out maxLengthString vec R hR with
    ⟨hnone, hall⟩ | ⟨i, hi, hunused, -, hsome⟩
  · refine .inl ⟨hnone, fun i hi hunused => ?_⟩
    have hzero := hall i hi hunused
    have hpos : (0 : ℚ) < denominator vec.length := Nat.cast_pos.mpr (Nat.pos_of_ne_zero hden)
    rw [hentropy, Entropy.zero, Entropy.negLog2_gt_negLog2, div_lt_one hpos, Nat.cast_lt, not_lt] at hzero
    refine le_antisymm ?_ hzero
    rw [numerator_eq h, denominator_eq h]
    exact collidingPairs_le _ vec
  · rw [hentropy] at hsome
    exact .inr ⟨i, hi, hunused, hsome⟩

end

/-- The statistic of fewer than `2 ^ 31` strings: the numerators count the
colliding pairs, the denominator counts all pairs, nothing wraps, and no order matters. The
selector compares its quotients and returns the sentinel only if no unused position tells two
keys apart. -/
theorem collision_statistic_exact (w : ℕ) (out : Str → ℤ → Vector Byte w) (vec : List Str)
    (positions : List ℤ) (h : vec.length < 2 ^ 31) :
    let m := stringComboAndFrequencyMap w out vec positions
    numerator m = collidingPairs (formPartialString w out · positions) vec ∧
    denominator vec.length = vec.length * (vec.length - 1) ∧
    (∀ e ∈ m, e.2 < 2 ^ 31 ∧ (fallingPower (intToU64 e.2) 2).toNat = e.2 * (e.2 - 1)) ∧
    numerator m ≤ denominator vec.length ∧ vec.length * (vec.length - 1) < 2 ^ 64 ∧
    (∀ vec' : List Str, vec'.Perm vec →
      numerator (stringComboAndFrequencyMap w out vec' positions) = numerator m) ∧
    (∀ m' : List (List Byte × ℕ), m'.Perm m → numerator m' = numerator m ∧
      (2 ≤ vec.length →
        evaluateRenyiEntropy m' vec.length = .negLog2 ((numerator m : ℚ) / denominator vec.length))) ∧
    ∀ (maxLengthString : U32) (R : List ℤ), R.length ≠ maxLengthString.toNat → 2 ≤ vec.length →
      (chooseBestPositionRenyi w out maxLengthString vec R = some (-1, .zero) ∧
        ∀ i < maxLengthString.toNat / w, intOf i ∉ R →
          numerator (stringComboAndFrequencyMap w out vec (R ++ [intOf i])) = denominator vec.length) ∨
        ∃ i < maxLengthString.toNat / w, intOf i ∉ R ∧
          chooseBestPositionRenyi w out maxLengthString vec R = some (intOf i, .negLog2
            ((numerator (stringComboAndFrequencyMap w out vec (R ++ [intOf i])) : ℚ) /
              denominator vec.length)) := by
  intro m
  have hnum : numerator m = _ := numerator_eq h
  have hden := denominator_eq h
  refine ⟨hnum, hden, fallingPower_entry h, ?_, ?_, ?_, ?_, ?_⟩
  · rw [hnum, hden]
    exact collidingPairs_le _ vec
  · calc vec.length * (vec.length - 1) ≤ 2 ^ 31 * 2 ^ 31 := Nat.mul_le_mul (by omega) (by omega)
      _ < 2 ^ 64 := by norm_num
  · intro vec' hperm
    rw [hnum, numerator_eq (by rw [hperm.length_eq]; exact h), collidingPairs_perm _ hperm]
  · intro m' hperm
    refine ⟨total_perm _ hperm, fun h₂ => evaluateRenyiEntropy_eq hperm ?_⟩
    rw [hden]
    exact Nat.mul_ne_zero (by omega) (by omega)
  · intro maxLengthString R hR h₂
    exact chooseBestPositionRenyi_statistic hR h₂ h

theorem collision_statistic_three_keys :
    let vec := [Str.keyOfWords 1 5, Str.keyOfWords 1 7, Str.keyOfWords 1 5]
    denominator vec.length = 6 ∧
      numerator (stringComboAndFrequencyMap 8 (zeroFill 8) vec [0]) =
        collidingPairs (formPartialString 8 (zeroFill 8) · [0]) vec := by
  intro vec
  obtain ⟨hnum, hden, -⟩ := collision_statistic_exact 8 (zeroFill 8) vec [0] (by decide)
  exact ⟨hden, hnum⟩

end EntropyLearnedHashing
