import EntropyLearnedHashing.Entropy.Selector

/-! The greedy step in terms of collision sums. The entropy of a position is a
decreasing function of the sum of `c * (c - 1)` over the frequency map, so a round
searches the smallest sum and keeps the first position that attains it. A further
position refines the partition into partial strings, hence the sums of a growing
list of positions never increase, on any list of keys. -/

namespace EntropyLearnedHashing

open LittleEndian Tally

section

variable (w : ℕ) (out : Str → ℤ → Vector Byte w) (maxLengthString : U32)
  (inputVec validationVec : List Str)

/-- The sum of `c * (c - 1)` over the frequency map. -/
def collisionSum (vec : List Str) (positions : List ℤ) : ℕ :=
  total (fun c => c * (c - 1)) (stringComboAndFrequencyMap w out vec positions)

/-- `i` is the first unused position that minimises the collision sum. -/
structure FirstMinimiser (R : List ℤ) (i : ℕ) : Prop where
  lt : i < maxLengthString.toNat / w
  unused : intOf i ∉ R
  min : ∀ j < maxLengthString.toNat / w, intOf j ∉ R →
    collisionSum w out inputVec (R ++ [intOf i]) ≤ collisionSum w out inputVec (R ++ [intOf j])
  first : ∀ j < i, intOf j ∉ R →
    collisionSum w out inputVec (R ++ [intOf i]) < collisionSum w out inputVec (R ++ [intOf j])

variable {w out maxLengthString inputVec validationVec}

theorem collisionSum_eq (vec : List Str) (positions : List ℤ) :
    collisionSum w out vec positions =
      collidingPairs (formPartialString w out · positions) vec :=
  total_falling_tally _ _

theorem collisionSum_anti (vec : List Str) {P Q : List ℤ} (h : P ⊆ Q) :
    collisionSum w out vec Q ≤ collisionSum w out vec P := by
  rw [collisionSum_eq, collisionSum_eq]
  exact collidingPairs_mono _ _ _ fun x y => formPartialString_eq_of_subset h

/-! ### One round -/

theorem intOf_ne_sentinel {i : ℕ} (h : i < maxLengthString.toNat / w) : intOf i ≠ -1 := by
  have hlt : i < 2 ^ 32 - 1 :=
    h.trans_le ((Nat.div_le_self _ _).trans (Nat.le_sub_one_of_lt maxLengthString.isLt))
  intro heq
  have hlast := intOf_inj (i := i) (j := 2 ^ 32 - 1) (by omega) (by omega) (by rw [heq]; rfl)
  omega

/-- With two training keys or more, a round is the search for the smallest collision sum. -/
theorem chooseBestPositionRenyi_eq_argMax (h₂ : 2 ≤ inputVec.length)
    (hN : inputVec.length < 2 ^ 31) {R : List ℤ} (hR : R.length ≠ maxLengthString.toNat) :
    let pairs := inputVec.length * (inputVec.length - 1)
    let best := argMax (· < ·) (intOf · ∈ R)
      (fun i => collisionSum w out inputVec (R ++ [intOf i])) pairs
      (List.range (maxLengthString.toNat / w))
    chooseBestPositionRenyi w out maxLengthString inputVec R =
      some (best.1.elim (-1) intOf, .negLog2 (best.2 / pairs)) := by
  intro pairs best
  have hpairs : (0 : ℚ) < pairs := by exact_mod_cast Nat.mul_pos (by omega) (by omega)
  let toPair := fun r : Option ℕ × ℕ => (r.1.elim (-1 : ℤ) intOf, Entropy.negLog2 (r.2 / pairs))
  have hstart : toPair (none, pairs) = (-1, .zero) := by
    simp only [toPair, Option.elim_none, div_self hpairs.ne', Entropy.zero]
  have hscore : ∀ i, evaluateEntropy w out inputVec (R ++ [intOf i]) =
      .negLog2 (collisionSum w out inputVec (R ++ [intOf i]) / pairs) := fun i => by
    rw [evaluateEntropy_eq h₂ hN, collisionSum_eq]
  have hgt : ∀ a b : ℕ, Entropy.gt (.negLog2 (a / pairs)) (.negLog2 (b / pairs)) ↔ a < b := by
    intro a b
    rw [Entropy.negLog2_gt_negLog2, div_lt_div_iff_of_pos_right hpairs]
    exact Nat.cast_lt
  unfold chooseBestPositionRenyi
  rw [if_pos hR, ← hstart]
  congr 1
  refine List.foldl_hom toPair fun r i => ?_
  rw [improve, apply_ite toPair, apply_ite toPair]
  simp only [toPair, hscore, hgt, Option.elim_some]

theorem firstMinimiser_of_argMax {R : List ℤ} {start i : ℕ}
    (h : (argMax (· < ·) (intOf · ∈ R) (fun i => collisionSum w out inputVec (R ++ [intOf i]))
      start (List.range (maxLengthString.toNat / w))).1 = some i) :
    FirstMinimiser w out maxLengthString inputVec R i := by
  let score := fun i => collisionSum w out inputVec (R ++ [intOf i])
  obtain ⟨hmin, hfirst⟩ := argMax_first (· < ·) (intOf · ∈ R) score (fun b => lt_irrefl b)
    (fun a b c hac => by omega) start List.pairwise_lt_range h
  rcases argMax_spec (· < ·) (intOf · ∈ R) score start (List.range (maxLengthString.toNat / w)) with
    ⟨heq, -⟩ | ⟨k, hk, hunused, -, heq⟩
  · rw [heq] at h
    cases h
  · rw [heq] at h
    obtain rfl := Option.some.inj h
    have hlt := List.mem_range.mp hk
    exact ⟨hlt, hunused, fun j hj hmem => not_lt.mp (hmin j (List.mem_range.mpr hj) hmem),
      fun j hj hmem => hfirst j (List.mem_range.mpr (hj.trans hlt)) hj hmem⟩

/-- A round returns the sentinel when no unused position separates two training keys, and
the first unused position with the smallest collision sum otherwise. -/
theorem chooseBestPositionRenyi_greedy (hne : inputVec ≠ []) (hN : inputVec.length < 2 ^ 31)
    {R : List ℤ} (hR : R.length ≠ maxLengthString.toNat) :
    ∃ p e, chooseBestPositionRenyi w out maxLengthString inputVec R = some (p, e) ∧
      (p = -1 ↔ ∀ i < maxLengthString.toNat / w, intOf i ∉ R →
        ¬Separated w out inputVec (R ++ [intOf i])) ∧
      (p ≠ -1 → ∃ i, p = intOf i ∧ FirstMinimiser w out maxLengthString inputVec R i) := by
  have hpositive : ∀ i, (evaluateEntropy w out inputVec (R ++ [intOf i])).gt .zero ↔
      Separated w out inputVec (R ++ [intOf i]) := fun i => evaluateEntropy_gt_zero_iff hne hN
  rcases @chooseBestPositionRenyi_cases w out maxLengthString inputVec R hR with
    ⟨heq, hnone⟩ | ⟨i, hi, hmem, hgt, heq⟩
  · exact ⟨-1, .zero, heq,
      iff_of_true rfl fun i hi hmem hsep => hnone i hi hmem ((hpositive i).mpr hsep),
      fun h => absurd rfl h⟩
  · have hsentinel := intOf_ne_sentinel hi
    refine ⟨intOf i, _, heq,
      iff_of_false hsentinel fun hall => hall i hi hmem ((hpositive i).mp hgt), fun _ => ?_⟩
    -- a single key separates nothing, so the search compares collision sums
    have h₂ : 2 ≤ inputVec.length := by
      by_contra hlt
      obtain ⟨s, rfl⟩ := exists_eq_singleton hne (by omega)
      rw [evaluateEntropy_singleton] at hgt
      exact hgt
    have hsearch := @chooseBestPositionRenyi_eq_argMax w out _ _ h₂ hN _ hR
    simp only [heq, Option.some.injEq, Prod.mk.injEq] at hsearch
    obtain ⟨hwinner, -⟩ := hsearch
    cases hbest : (argMax (· < ·) (intOf · ∈ R)
        (fun i => collisionSum w out inputVec (R ++ [intOf i]))
        (inputVec.length * (inputVec.length - 1)) (List.range (maxLengthString.toNat / w))).1 with
    | none =>
      rw [hbest] at hwinner
      exact absurd hwinner hsentinel
    | some k =>
      rw [hbest] at hwinner
      exact ⟨k, hwinner, firstMinimiser_of_argMax hbest⟩

/-! ### Whole runs -/

/-- A position of the strings, as an `int`. -/
def InRange (M : ℕ) (p : ℤ) : Prop := ∃ i < M, p = intOf i

/-- Positions that fit an `int` are those below `M`. -/
theorem InRange.bounds {M : ℕ} {p : ℤ} (hM : M ≤ 2 ^ 31) (h : InRange M p) : 0 ≤ p ∧ p < M := by
  obtain ⟨i, hi, rfl⟩ := h
  rw [intOf_of_lt (hi.trans_le hM)]
  exact ⟨Int.natCast_nonneg i, Int.ofNat_lt.mpr hi⟩

theorem length_le_of_inRange {M : ℕ} {R : List ℤ} (hnodup : R.Nodup)
    (hrange : ∀ p ∈ R, InRange M p) : R.length ≤ M := by
  have hsub : R ⊆ (List.range M).map intOf := by
    intro p hp
    obtain ⟨i, hi, rfl⟩ := hrange p hp
    exact List.mem_map.mpr ⟨i, List.mem_range.mpr hi, rfl⟩
  simpa using (List.subperm_of_subset hnodup hsub).length_le

theorem Extends.nodup_inRange {M : ℕ} {R : List ℤ} {added : List ℕ} {s : Selection}
    (h : Extends M R added s) (hM : M ≤ 2 ^ 32) (hnodup : R.Nodup) (hrange : ∀ p ∈ R, InRange M p) :
    s.returnPositions.Nodup ∧ ∀ p ∈ s.returnPositions, InRange M p := by
  have hinj : ∀ i ∈ added, ∀ j ∈ added, intOf i = intOf j → i = j := fun i hi j hj =>
    intOf_inj ((h.lt i hi).trans_le hM) ((h.lt j hj).trans_le hM)
  rw [h.positions]
  constructor
  · refine List.nodup_append.mpr ⟨hnodup, h.nodup.map_on hinj, fun p hp q hq hpq => ?_⟩
    obtain ⟨i, hi, rfl⟩ := List.mem_map.mp hq
    exact h.unused i hi (hpq ▸ hp)
  · intro p hp
    rcases List.mem_append.mp hp with hp | hp
    · exact hrange p hp
    · obtain ⟨i, hi, rfl⟩ := List.mem_map.mp hp
      exact ⟨i, h.lt i hi, rfl⟩

variable (validationVec) in
/-- A run that starts where some position separates two training keys ends with distinct
positions in range, as many more as asked for or as there are. -/
theorem greedyRenyiSelectorStopK_inRange (hne : inputVec ≠ []) (hN : inputVec.length < 2 ^ 31)
    {returnPositions : List ℤ} (hnodup : returnPositions.Nodup)
    (hrange : ∀ p ∈ returnPositions, InRange (maxLengthString.toNat / w) p)
    (entropies : List Entropy) {numPositions : BitVec 32}
    (hassert : ((numPositions.signExtend 64).toNat + returnPositions.length) % 2 ^ 64 <
      maxLengthString.toNat)
    (hsep : ∃ i < maxLengthString.toNat / w,
      Separated w out inputVec (returnPositions ++ [intOf i])) :
    ∃ s fixedLength, greedyRenyiSelectorStopK w out maxLengthString inputVec validationVec
        returnPositions entropies numPositions = some (s, fixedLength) ∧
      s.returnPositions.Nodup ∧ (∀ p ∈ s.returnPositions, InRange (maxLengthString.toNat / w) p) ∧
      s.returnPositions.length = returnPositions.length +
        min numPositions.toInt.toNat (maxLengthString.toNat / w - returnPositions.length) := by
  obtain ⟨l, hl⟩ := getQuantileLength_isSome hne
  obtain ⟨i, hi, hi_sep⟩ := hsep
  have hstart : returnPositions.length < maxLengthString.toNat / w →
      ∃ j < maxLengthString.toNat / w, intOf j ∉ returnPositions ∧
        Separated w out inputVec (returnPositions ++ [intOf j]) := by
    intro hlt
    by_cases hmem : intOf i ∈ returnPositions
    · -- the old positions separate the keys already, so any unused one will do
      obtain ⟨j, hj, hjmem⟩ := exists_unused numChunks_lt.le hlt
      have hsub : returnPositions ++ [intOf i] ⊆ returnPositions ++ [intOf j] := by
        simp [hmem]
      exact ⟨j, hj, hjmem, hi_sep.mono hsub⟩
    · exact ⟨i, hi, hmem, hi_sep⟩
  obtain ⟨s, added, hrun, hext, hlen, -⟩ := selectLoop_extends validationVec
    hne hN numPositions.toInt.toNat ⟨returnPositions, entropies, .zero⟩
    (length_le_of_inRange hnodup hrange) hstart
  obtain ⟨hnodup', hrange'⟩ := hext.nodup_inRange numChunks_lt.le hnodup hrange
  have hcount : s.returnPositions.length = returnPositions.length + added.length := by
    rw [hext.positions, List.length_append, List.length_map]
  refine ⟨s, evaluateDatasetFixedLength inputVec, ?_, hnodup', hrange', by rw [hcount, hlen]⟩
  unfold greedyRenyiSelectorStopK
  simp only [hl, Option.bind_eq_bind, Option.bind_some, if_pos hassert, hrun]
  rfl

/-- The greedy step and the runs made of it. A round returns the sentinel exactly when no
position is left or none separates two training keys, and otherwise the first minimiser of
the collision sum. A run that starts where a position separates two keys chooses distinct
positions in range, as many as asked for or as there are, and along them the collision sums of
every list of keys never increase. -/
theorem greedy_selection (hne : inputVec ≠ []) (hN : inputVec.length < 2 ^ 31) :
    (∀ R : List ℤ, R.length ≠ maxLengthString.toNat →
      ∃ p e, chooseBestPositionRenyi w out maxLengthString inputVec R = some (p, e) ∧
        (p = -1 ↔ (¬∃ i < maxLengthString.toNat / w, intOf i ∉ R) ∨
          ∀ i < maxLengthString.toNat / w, intOf i ∉ R → ∀ x ∈ inputVec, ∀ y ∈ inputVec,
            formPartialString w out x (R ++ [intOf i]) =
              formPartialString w out y (R ++ [intOf i])) ∧
        (p ≠ -1 → ∃ i, p = intOf i ∧ FirstMinimiser w out maxLengthString inputVec R i)) ∧
    ∀ (returnPositions : List ℤ) (entropies : List Entropy) (numPositions : BitVec 32),
      returnPositions.Nodup →
      (∀ p ∈ returnPositions, InRange (maxLengthString.toNat / w) p) →
      ((numPositions.signExtend 64).toNat + returnPositions.length) % 2 ^ 64 <
        maxLengthString.toNat →
      (∃ i < maxLengthString.toNat / w,
        Separated w out inputVec (returnPositions ++ [intOf i])) →
      ∃ s fixedLength, greedyRenyiSelectorStopK w out maxLengthString inputVec validationVec
          returnPositions entropies numPositions = some (s, fixedLength) ∧
        s.returnPositions.Nodup ∧
        (∀ p ∈ s.returnPositions, InRange (maxLengthString.toNat / w) p) ∧
        (maxLengthString.toNat / w ≤ 2 ^ 31 →
          ∀ p ∈ s.returnPositions, 0 ≤ p ∧ p < (maxLengthString.toNat / w : ℕ)) ∧
        s.returnPositions.length = returnPositions.length +
          min numPositions.toInt.toNat (maxLengthString.toNat / w - returnPositions.length) ∧
        ∀ vec k l, k ≤ l → collisionSum w out vec (s.returnPositions.take l) ≤
          collisionSum w out vec (s.returnPositions.take k) := by
  constructor
  · intro R hR
    obtain ⟨p, e, heq, hsentinel, hmin⟩ := @chooseBestPositionRenyi_greedy
      w out maxLengthString _ hne hN _ hR
    refine ⟨p, e, heq, hsentinel.trans ?_, hmin⟩
    simp only [Separated]
    push Not
    constructor
    · exact .inr
    · rintro (hnone | hall)
      · exact fun i hi hmem => absurd (hnone i hi) hmem
      · exact hall
  · intro returnPositions entropies numPositions hnodup hrange hassert hsep
    obtain ⟨s, fixedLength, hrun, hpositions, hin, hcount⟩ :=
      greedyRenyiSelectorStopK_inRange validationVec hne hN hnodup hrange
        entropies hassert hsep
    refine ⟨s, fixedLength, hrun, hpositions, hin, fun hM p hp => (hin p hp).bounds hM, hcount,
      fun vec k l hkl => ?_⟩
    exact collisionSum_anti vec (List.take_subset_take_left _ hkl)

theorem greedy_selection_two_keys :
    let vec := [Str.keyOfWords 2 0, Str.keyOfWords 2 1]
    ∃ s fixedLength, greedyRenyiSelectorStopK 8 (zeroFill 8) 16 vec vec [] [] 2 =
        some (s, fixedLength) ∧
      s.returnPositions.Nodup ∧ s.returnPositions.length = 2 ∧ ∀ k l, k ≤ l →
        collisionSum 8 (zeroFill 8) vec (s.returnPositions.take l) ≤
          collisionSum 8 (zeroFill 8) vec (s.returnPositions.take k) := by
  intro vec
  obtain ⟨-, hruns⟩ := @greedy_selection 8 (zeroFill 8) 16 vec vec (by simp [vec]) (by simp [vec])
  obtain ⟨s, fixedLength, hrun, hnodup, -, -, hcount, hmono⟩ := hruns [] [] 2 List.nodup_nil (by simp)
    (by decide) ⟨0, by decide, Str.keyOfWords 2 0, by simp [vec], Str.keyOfWords 2 1,
      by simp [vec], by decide⟩
  exact ⟨s, fixedLength, hrun, hnodup, hcount, hmono vec⟩

end

end EntropyLearnedHashing
