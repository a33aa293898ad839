import EntropyLearnedHashing.Entropy.Greedy
import EntropyLearnedHashing.Entropy.PartialString

/-! The selector that stops at an entropy. Its loop bounds the number of positions by the
number of bytes of a string, while a round chooses among chunks. So the loop always
ends, but when the chunks are used up below the desired entropy it goes on, and every
further round appends the sentinel and resets the entropy to zero. By monotonicity
this happens exactly when the chunks together stay below the desired entropy, since a
list of all of them has the same entropy in every order. -/

namespace EntropyLearnedHashing

open LittleEndian Tally

/-! ### The desired entropy -/

/-- A `double`. -/
inductive Double where
  | nan
  | negInfinity
  | finite (q : ℚ)
  | infinity
  deriving DecidableEq

namespace Entropy

/-- `entropy < desiredEntropy`, false when a side is undefined. For a quotient `a / b` the
value `-log2(p)` lies below it when `2 ^ (-a) < p ^ b`. -/
def lt : Entropy → Double → Prop
  | .negLog2 p, .finite d => (2 : ℚ) ^ (-d.num) < p ^ d.den
  | .negLog2 p, .infinity => p ≠ 0
  | _, _ => False

instance : ∀ e d, Decidable (lt e d)
  | .negLog2 p, .finite d => inferInstanceAs (Decidable ((2 : ℚ) ^ (-d.num) < p ^ d.den))
  | .negLog2 p, .infinity => inferInstanceAs (Decidable (p ≠ 0))
  | .negLog2 _, .nan => .isFalse id
  | .negLog2 _, .negInfinity => .isFalse id
  | .nan, .nan => .isFalse id
  | .nan, .negInfinity => .isFalse id
  | .nan, .finite _ => .isFalse id
  | .nan, .infinity => .isFalse id

/-- The comparison of powers is the comparison of the logarithm. -/
theorem lt_finite_iff_value_lt {p : ℚ} (hp : 0 ≤ p) (d : ℚ) :
    lt (.negLog2 p) (.finite d) ↔ value p < ((d : ℝ) : EReal) := by
  have hden : (0 : ℝ) < d.den := by exact_mod_cast d.den_pos
  change (2 : ℚ) ^ (-d.num) < p ^ d.den ↔ _
  unfold value
  rcases hp.eq_or_lt with rfl | hp0
  · rw [if_pos rfl, zero_pow d.den_ne_zero]
    exact iff_of_false (not_lt.mpr (by positivity)) (not_lt.mpr le_top)
  · rw [if_neg hp0.ne', EReal.coe_lt_coe_iff]
    have hpR : (0 : ℝ) < p := by exact_mod_cast hp0
    have hpow : (2 : ℚ) ^ (-d.num) < p ^ d.den ↔ (2 : ℝ) ^ (-d.num) < (p : ℝ) ^ d.den := by
      rw [← Rat.cast_lt (K := ℝ), Rat.cast_zpow, Rat.cast_pow, Rat.cast_ofNat]
    have hlog : (2 : ℝ) ^ (-d.num) < (p : ℝ) ^ d.den ↔ -(d.num : ℝ) < d.den * Real.logb 2 p := by
      rw [← Real.logb_lt_logb_iff one_lt_two (by positivity) (by positivity), Real.logb_pow,
        ← Real.rpow_intCast, Real.logb_rpow (by norm_num) (by norm_num), Int.cast_neg]
    have hquot : (d : ℝ) = d.num / d.den := by exact_mod_cast (Rat.num_div_den d).symm
    rw [hpow, hlog, hquot, lt_div_iff₀ hden]
    constructor <;> intro h <;> linarith

theorem lt_of_le {p q : ℚ} (hp : 0 ≤ p) (hpq : p ≤ q) {d : Double} (h : lt (.negLog2 p) d) :
    lt (.negLog2 q) d := by
  cases d with
  | nan => exact h
  | negInfinity => exact h
  | finite d => exact lt_of_lt_of_le h (pow_le_pow_left₀ hp hpq _)
  | infinity => exact (lt_of_lt_of_le (lt_of_le_of_ne hp (Ne.symm h)) hpq).ne'

end Entropy

section

variable (w : ℕ) (out : Str → ℤ → Vector Byte w) (maxLengthString : U32) (inputVec : List Str)
  (desiredEntropy : Double)

/-- The loop, for as many rounds as there is fuel. -/
def stopEntropyLoop : ℕ → List ℤ → Entropy → Option (List ℤ × Entropy)
  | 0, _, _ => none
  | fuel + 1, returnPositions, entropy =>
    if entropy.lt desiredEntropy then
      if returnPositions.length = maxLengthString.toNat then some (returnPositions, entropy)
      else do
        let next ← chooseBestPositionRenyi w out maxLengthString inputVec returnPositions
        stopEntropyLoop fuel (returnPositions ++ [next.1]) next.2
    else some (returnPositions, entropy)

/-- The positions, the entropy that is returned and the `fixedLength` flag. -/
def greedyRenyiSelectorStopEntropy (fuel : ℕ) (returnPositions : List ℤ) :
    Option (List ℤ × Entropy × Bool) := do
  let fixedLength := evaluateDatasetFixedLength inputVec
  let s ← stopEntropyLoop w out maxLengthString inputVec desiredEntropy fuel returnPositions .zero
  return (s.1, s.2, fixedLength)

/-- Started from no positions the selector returns distinct positions in range with their
entropy, and misses the desired entropy with all positions only. -/
def SelectsToEntropy : Prop :=
  ∃ fuel R entropy fixedLength,
    greedyRenyiSelectorStopEntropy w out maxLengthString inputVec desiredEntropy fuel [] =
      some (R, entropy, fixedLength) ∧
    R.Nodup ∧ (∀ p ∈ R, 0 ≤ p ∧ p < (maxLengthString.toNat / w : ℕ)) ∧
    entropy = evaluateEntropy w out inputVec R ∧
    (entropy.lt desiredEntropy → R.length = maxLengthString.toNat / w)

/-- The lists of positions that the greedy choice builds below the desired entropy. -/
inductive GreedyList : List ℤ → Prop where
  | nil : GreedyList []
  | pick {R : List ℤ} {p : ℤ} {e : Entropy} : GreedyList R →
      (R = [] ∨ (evaluateEntropy w out inputVec R).lt desiredEntropy) →
      chooseBestPositionRenyi w out maxLengthString inputVec R = some (p, e) → p ≠ -1 →
      GreedyList (R ++ [p])

/-- All positions of the strings. -/
def allPositions : List ℤ := (List.range (maxLengthString.toNat / w)).map intOf

/-- Without a round the keys have one length. With rounds, some position separates two
keys, and the positions suffice unless their number is the bound of the loop. -/
def Attainable : Prop :=
  if Entropy.zero.lt desiredEntropy ∧ maxLengthString.toNat ≠ 0 then
    (∃ i < maxLengthString.toNat / w, inputVec = [] ∨ Separated w out inputVec [intOf i]) ∧
    (w = 1 ∨ ¬(evaluateEntropy w out inputVec (allPositions w maxLengthString)).lt desiredEntropy)
  else 2 ≤ inputVec.length ∧ evaluateDatasetFixedLength inputVec

/-- The `int`s that the rounds pick do not wrap. -/
def FitsInt : Prop :=
  Entropy.zero.lt desiredEntropy → maxLengthString.toNat ≠ 0 →
    ∀ R, GreedyList w out maxLengthString inputVec desiredEntropy R → ∀ p ∈ R, 0 ≤ p

variable {w out maxLengthString inputVec desiredEntropy}

/-! ### Entropies of lists of positions -/

theorem evaluateEntropy_nil (positions : List ℤ) :
    evaluateEntropy w out [] positions = .negLog2 0 := rfl

theorem evaluateEntropy_lt_of_subset (hN : inputVec.length < 2 ^ 31) {P Q : List ℤ} (hPQ : P ⊆ Q)
    (h : (evaluateEntropy w out inputVec Q).lt desiredEntropy) :
    (evaluateEntropy w out inputVec P).lt desiredEntropy := by
  rcases Nat.lt_or_ge inputVec.length 2 with hlt | h₂
  · rcases eq_or_ne inputVec [] with rfl | hne
    · exact h
    · obtain ⟨s, rfl⟩ := exists_eq_singleton hne hlt
      rw [evaluateEntropy_singleton] at h
      cases h
  · rw [evaluateEntropy_eq h₂ hN] at h ⊢
    apply Entropy.lt_of_le (by positivity) _ h
    gcongr
    exact collidingPairs_mono _ _ _ fun x y => formPartialString_eq_of_subset hPQ

theorem evaluateEntropy_gt_zero_iff_separated (hN : inputVec.length < 2 ^ 31) (P : List ℤ) :
    (evaluateEntropy w out inputVec P).gt .zero ↔ inputVec = [] ∨ Separated w out inputVec P := by
  rcases eq_or_ne inputVec [] with rfl | hne
  · exact iff_of_true (by rw [evaluateEntropy_nil]; norm_num [Entropy.zero]) (.inl rfl)
  · rw [evaluateEntropy_gt_zero_iff hne hN]
    simp only [hne, false_or]
    rfl

theorem evaluateDatasetFixedLength_iff (hne : inputVec ≠ []) :
    evaluateDatasetFixedLength inputVec ↔ ∀ x ∈ inputVec, ∀ y ∈ inputVec, x.size = y.size := by
  cases inputVec with
  | nil => exact absurd rfl hne
  | cons first rest =>
    rw [evaluateDatasetFixedLength, List.all_eq_true]
    simp only [beq_iff_eq]
    constructor
    · intro h x hx y hy
      rw [h x hx, h y hy]
    · intro h x hx
      exact h x hx first (by simp)

theorem separated_nil_iff : Separated w out inputVec [] ↔
    ¬∀ x ∈ inputVec, ∀ y ∈ inputVec, x.size = y.size := by
  have hstr : ∀ x y : Str, formPartialString w out x [] = formPartialString w out y [] ↔
      x.size = y.size := by
    intro x y
    rw [formPartialString_eq_iff, stdToString_injective.eq_iff]
    simp
  simp only [Separated, ne_eq, hstr]
  push Not
  rfl

/-- The entropy that the loop starts with is that of no positions when there are two keys
or more and all have one length. -/
theorem evaluateEntropy_no_positions_iff (hN : inputVec.length < 2 ^ 31) :
    Entropy.zero = evaluateEntropy w out inputVec [] ↔
      2 ≤ inputVec.length ∧ evaluateDatasetFixedLength inputVec := by
  rcases Nat.lt_or_ge inputVec.length 2 with hlt | h₂
  · refine iff_of_false ?_ (by omega)
    rcases eq_or_ne inputVec [] with rfl | hne
    · rw [evaluateEntropy_nil]
      simp [Entropy.zero]
    · obtain ⟨s, rfl⟩ := exists_eq_singleton hne hlt
      rw [evaluateEntropy_singleton]
      simp [Entropy.zero]
  · have hne : inputVec ≠ [] := List.ne_nil_of_length_pos (by omega)
    have hden : (0 : ℚ) < (inputVec.length * (inputVec.length - 1) : ℕ) := by
      exact_mod_cast Nat.mul_pos (by omega) (by omega)
    let pairs := collidingPairs (formPartialString w out · []) inputVec
    have hle : pairs ≤ inputVec.length * (inputVec.length - 1) := collidingPairs_le _ _
    have hsep : ¬pairs < inputVec.length * (inputVec.length - 1) ↔
        ∀ x ∈ inputVec, ∀ y ∈ inputVec, x.size = y.size := by
      rw [collidingPairs_lt_iff]
      exact (not_congr separated_nil_iff).trans not_not
    rw [evaluateEntropy_eq h₂ hN, evaluateDatasetFixedLength_iff hne, ← hsep, Entropy.zero,
      Entropy.negLog2.injEq, eq_div_iff hden.ne', one_mul, Nat.cast_inj]
    omega

/-! ### The loop -/

theorem stopEntropyLoop_round {R : List ℤ} {e : Entropy} {next : ℤ × Entropy}
    (hlt : e.lt desiredEntropy)
    (h : chooseBestPositionRenyi w out maxLengthString inputVec R = some next) (fuel : ℕ) :
    stopEntropyLoop w out maxLengthString inputVec desiredEntropy (fuel + 1) R e =
      stopEntropyLoop w out maxLengthString inputVec desiredEntropy fuel (R ++ [next.1]) next.2 := by
  rw [stopEntropyLoop, if_pos hlt, if_neg (length_ne_of_chooseBestPositionRenyi h), h]
  rfl

theorem stopEntropyLoop_cases (fuel : ℕ) (R : List ℤ) (e : Entropy) :
    (stopEntropyLoop w out maxLengthString inputVec desiredEntropy (fuel + 1) R e = some (R, e) ∧
      (e.lt desiredEntropy → R.length = maxLengthString.toNat)) ∨
    e.lt desiredEntropy ∧ R.length ≠ maxLengthString.toNat ∧
      ∃ next, chooseBestPositionRenyi w out maxLengthString inputVec R = some next := by
  by_cases hlt : e.lt desiredEntropy
  · by_cases hfull : R.length = maxLengthString.toNat
    · exact .inl ⟨by rw [stopEntropyLoop, if_pos hlt, if_pos hfull], fun _ => hfull⟩
    · refine .inr ⟨hlt, hfull, ?_⟩
      unfold chooseBestPositionRenyi
      exact ⟨_, if_pos hfull⟩
  · exact .inl ⟨by rw [stopEntropyLoop, if_neg hlt], fun h => absurd h hlt⟩

/-- Every round brings the list of positions closer to the bound. -/
theorem stopEntropyLoop_returns {fuel : ℕ} {R : List ℤ} {e : Entropy}
    (hR : R.length ≤ maxLengthString.toNat) (hfuel : maxLengthString.toNat < fuel + R.length) :
    ∃ s, stopEntropyLoop w out maxLengthString inputVec desiredEntropy fuel R e = some s := by
  induction fuel generalizing R e with
  | zero => omega
  | succ fuel ih =>
    rcases @stopEntropyLoop_cases w out maxLengthString inputVec desiredEntropy fuel R e with
      ⟨heq, -⟩ | ⟨hlt, hne, next, hnext⟩
    · exact ⟨_, heq⟩
    · rw [stopEntropyLoop_round hlt hnext]
      have hlength : (R ++ [next.1]).length = R.length + 1 := by simp
      exact ih (by omega) (by omega)

/-- The loop keeps its positions and ends below the desired entropy at the bound only. -/
theorem stopEntropyLoop_ends {fuel : ℕ} {R R' : List ℤ} {e e' : Entropy}
    (h : stopEntropyLoop w out maxLengthString inputVec desiredEntropy fuel R e = some (R', e')) :
    R ⊆ R' ∧ (e'.lt desiredEntropy → R'.length = maxLengthString.toNat) := by
  induction fuel generalizing R e with
  | zero => cases h
  | succ fuel ih =>
    rcases @stopEntropyLoop_cases w out maxLengthString inputVec desiredEntropy fuel R e with
      ⟨heq, hend⟩ | ⟨hlt, -, next, hnext⟩
    · rw [heq] at h
      obtain ⟨rfl, rfl⟩ := Prod.mk.inj (Option.some.inj h)
      exact ⟨List.Subset.refl _, hend⟩
    · rw [stopEntropyLoop_round hlt hnext] at h
      obtain ⟨hsub, hend⟩ := ih h
      exact ⟨List.Subset.trans (List.subset_append_left _ _) hsub, hend⟩

/-! ### Runs that choose positions only -/

variable (w out maxLengthString inputVec desiredEntropy) in
/-- Distinct positions in range that the greedy choice builds, and the entropy after them. -/
structure Chosen (R : List ℤ) (e : Entropy) : Prop where
  greedy : GreedyList w out maxLengthString inputVec desiredEntropy R
  nodup : R.Nodup
  range : ∀ p ∈ R, InRange (maxLengthString.toNat / w) p
  entropy : R = [] ∧ e = .zero ∨ R ≠ [] ∧ e = evaluateEntropy w out inputVec R

theorem Chosen.nil : Chosen w out maxLengthString inputVec desiredEntropy [] .zero :=
  ⟨.nil, List.nodup_nil, by simp, .inl ⟨rfl, rfl⟩⟩

theorem Chosen.pick {R : List ℤ} {e : Entropy}
    (h : Chosen w out maxLengthString inputVec desiredEntropy R e) (hlt : e.lt desiredEntropy)
    {i : ℕ} (hi : i < maxLengthString.toNat / w) (hmem : intOf i ∉ R)
    (hchoose : chooseBestPositionRenyi w out maxLengthString inputVec R =
      some (intOf i, evaluateEntropy w out inputVec (R ++ [intOf i]))) :
    Chosen w out maxLengthString inputVec desiredEntropy (R ++ [intOf i])
      (evaluateEntropy w out inputVec (R ++ [intOf i])) := by
  have hbelow : R = [] ∨ (evaluateEntropy w out inputVec R).lt desiredEntropy := by
    rcases h.entropy with ⟨hR, -⟩ | ⟨-, rfl⟩
    · exact .inl hR
    · exact .inr hlt
  refine ⟨.pick h.greedy hbelow hchoose (intOf_ne_sentinel hi), ?_, ?_, .inr ⟨by simp, rfl⟩⟩
  · exact List.nodup_append.mpr ⟨h.nodup, by simp, by rintro p hp q hq rfl; exact hmem (by simp_all)⟩
  · intro p hp
    rcases List.mem_append.mp hp with hp | hp
    · exact h.range p hp
    · exact ⟨i, hi, List.mem_singleton.mp hp⟩

/-- Once a position has positive entropy, every round with a position left chooses one. -/
theorem exists_round_of_positive (hN : inputVec.length < 2 ^ 31)
    (hpos : ∃ i < maxLengthString.toNat / w, inputVec = [] ∨ Separated w out inputVec [intOf i])
    {R : List ℤ} (hlt : R.length < maxLengthString.toNat / w) :
    ∃ i < maxLengthString.toNat / w, intOf i ∉ R ∧
      chooseBestPositionRenyi w out maxLengthString inputVec R =
        some (intOf i, evaluateEntropy w out inputVec (R ++ [intOf i])) := by
  have hmax : R.length ≠ maxLengthString.toNat := by
    have := Nat.div_le_self maxLengthString.toNat w
    omega
  rcases @chooseBestPositionRenyi_cases w out maxLengthString inputVec R hmax with
    ⟨-, hnone⟩ | ⟨i, hi, hmem, -, heq⟩
  · obtain ⟨j, hj, hsep⟩ := hpos
    -- an unused position next to which the separating one stands in the list
    obtain ⟨i, hi, hmem, hsub⟩ : ∃ i < maxLengthString.toNat / w, intOf i ∉ R ∧
        [intOf j] ⊆ R ++ [intOf i] := by
      by_cases hjR : intOf j ∈ R
      · obtain ⟨i, hi, hmem⟩ := exists_unused numChunks_lt.le hlt
        exact ⟨i, hi, hmem, by simp [hjR]⟩
      · exact ⟨j, hj, hjR, by simp⟩
    refine absurd ?_ (hnone i hi hmem)
    exact (evaluateEntropy_gt_zero_iff_separated hN _).mpr (hsep.imp_right fun h => h.mono hsub)
  · exact ⟨i, hi, hmem, heq⟩

theorem allPositions_subset {R : List ℤ} (hnodup : R.Nodup)
    (hrange : ∀ p ∈ R, InRange (maxLengthString.toNat / w) p)
    (hlen : R.length = maxLengthString.toNat / w) : allPositions w maxLengthString ⊆ R := by
  intro p hp
  obtain ⟨i, hi, rfl⟩ := List.mem_map.mp hp
  by_contra hmem
  have hcons := length_le_of_inRange (List.nodup_cons.mpr ⟨hmem, hnodup⟩)
    (List.forall_mem_cons.mpr ⟨⟨i, List.mem_range.mp hi, rfl⟩, hrange⟩)
  rw [List.length_cons] at hcons
  omega

/-- Where the positions suffice or fill the bound, the loop chooses positions only. -/
theorem Chosen.stopEntropyLoop (hN : inputVec.length < 2 ^ 31)
    (hpos : ∃ i < maxLengthString.toNat / w, inputVec = [] ∨ Separated w out inputVec [intOf i])
    (hall : w = 1 ∨
      ¬(evaluateEntropy w out inputVec (allPositions w maxLengthString)).lt desiredEntropy)
    {fuel : ℕ} {R R' : List ℤ} {e e' : Entropy}
    (h : Chosen w out maxLengthString inputVec desiredEntropy R e)
    (hrun : EntropyLearnedHashing.stopEntropyLoop w out maxLengthString inputVec desiredEntropy fuel R e =
      some (R', e')) : Chosen w out maxLengthString inputVec desiredEntropy R' e' := by
  induction fuel generalizing R e with
  | zero => cases hrun
  | succ fuel ih =>
    rcases @stopEntropyLoop_cases w out maxLengthString inputVec desiredEntropy fuel R e with
      ⟨heq, -⟩ | ⟨hlt, hne, -⟩
    · rw [heq] at hrun
      obtain ⟨rfl, rfl⟩ := Prod.mk.inj (Option.some.inj hrun)
      exact h
    · have hle := length_le_of_inRange h.nodup h.range
      have hleft : R.length < maxLengthString.toNat / w := by
        apply lt_of_le_of_ne hle
        intro hlen
        rcases hall with rfl | hall
        · exact hne (by rw [hlen, Nat.div_one])
        · obtain ⟨i, hi, -⟩ := hpos
          rcases h.entropy with ⟨rfl, -⟩ | ⟨-, rfl⟩
          · simp only [List.length_nil] at hlen
            omega
          · exact hall (evaluateEntropy_lt_of_subset hN (allPositions_subset h.nodup h.range hlen) hlt)
      obtain ⟨i, hi, hmem, hchoose⟩ := exists_round_of_positive hN hpos hleft
      rw [stopEntropyLoop_round hlt hchoose] at hrun
      exact ih (h.pick hlt hi hmem hchoose) hrun

theorem exists_of_chooseBestPositionRenyi {R : List ℤ} {p : ℤ} {e : Entropy}
    (h : chooseBestPositionRenyi w out maxLengthString inputVec R = some (p, e)) (hp : p ≠ -1) :
    ∃ i < maxLengthString.toNat / w, p = intOf i ∧ e = evaluateEntropy w out inputVec (R ++ [p]) := by
  have hassert := length_ne_of_chooseBestPositionRenyi h
  rcases @chooseBestPositionRenyi_cases w out maxLengthString inputVec _ hassert with
    ⟨heq, -⟩ | ⟨i, hi, -, -, heq⟩
  · rw [heq] at h
    exact absurd (Prod.mk.inj (Option.some.inj h)).1.symm hp
  · rw [heq] at h
    obtain ⟨rfl, rfl⟩ := Prod.mk.inj (Option.some.inj h)
    exact ⟨i, hi, rfl, rfl⟩

theorem GreedyList.passed (hzero : Entropy.zero.lt desiredEntropy) {fuel : ℕ} {s : List ℤ × Entropy}
    (hrun : stopEntropyLoop w out maxLengthString inputVec desiredEntropy fuel [] .zero = some s)
    {R : List ℤ} (h : GreedyList w out maxLengthString inputVec desiredEntropy R) :
    ∃ fuel' e, stopEntropyLoop w out maxLengthString inputVec desiredEntropy fuel' R e = some s ∧
      (R = [] ∧ e = .zero ∨ R ≠ [] ∧ e = evaluateEntropy w out inputVec R) := by
  induction h with
  | nil => exact ⟨fuel, .zero, hrun, .inl ⟨rfl, rfl⟩⟩
  | @pick R p e' _ hbelow hchoose hp ih =>
    obtain ⟨fuel', e, hrun', he⟩ := ih
    have hlt : e.lt desiredEntropy := by
      rcases he with ⟨-, rfl⟩ | ⟨hne, rfl⟩
      · exact hzero
      · exact hbelow.resolve_left hne
    obtain ⟨-, -, -, hlast⟩ := exists_of_chooseBestPositionRenyi hchoose hp
    cases fuel' with
    | zero => cases hrun'
    | succ fuel' =>
      rw [stopEntropyLoop_round hlt hchoose] at hrun'
      exact ⟨fuel', e', hrun', .inr ⟨by simp, hlast⟩⟩

/-- Up to `2 ^ 31` positions nothing wraps. -/
theorem fitsInt_of_le (hM : maxLengthString.toNat / w ≤ 2 ^ 31) :
    FitsInt w out maxLengthString inputVec desiredEntropy := by
  intro _ _ R h
  induction h with
  | nil => simp
  | @pick R p e _ _ hchoose hp ih =>
    obtain ⟨i, hi, rfl, -⟩ := exists_of_chooseBestPositionRenyi hchoose hp
    rw [intOf_of_lt (hi.trans_le hM)]
    intro q hq
    rcases List.mem_append.mp hq with hq | hq
    · exact ih q hq
    · rw [List.mem_singleton.mp hq]
      exact Int.natCast_nonneg i

theorem stopEntropyLoop_nil (h : ¬(Entropy.zero.lt desiredEntropy ∧ maxLengthString.toNat ≠ 0))
    (fuel : ℕ) : stopEntropyLoop w out maxLengthString inputVec desiredEntropy (fuel + 1) [] .zero =
      some ([], .zero) := by
  rcases @stopEntropyLoop_cases w out maxLengthString inputVec desiredEntropy fuel [] .zero with
    ⟨heq, -⟩ | ⟨hlt, hne, -⟩
  · exact heq
  · exact absurd ⟨hlt, hne.symm⟩ h

/-! ### The selector -/

theorem greedyRenyiSelectorStopEntropy_eq_some_iff {fuel : ℕ} {R R' : List ℤ} {e : Entropy}
    {fixedLength : Bool} :
    greedyRenyiSelectorStopEntropy w out maxLengthString inputVec desiredEntropy fuel R =
        some (R', e, fixedLength) ↔
      stopEntropyLoop w out maxLengthString inputVec desiredEntropy fuel R .zero = some (R', e) ∧
        evaluateDatasetFixedLength inputVec = fixedLength := by
  unfold greedyRenyiSelectorStopEntropy
  cases stopEntropyLoop w out maxLengthString inputVec desiredEntropy fuel R .zero with
  | none => simp
  | some s =>
    obtain ⟨R₁, e₁⟩ := s
    simp [and_assoc]

/-- The selector returns after at most as many rounds as the strings have bytes. -/
theorem greedyRenyiSelectorStopEntropy_returns :
    ∃ s, greedyRenyiSelectorStopEntropy w out maxLengthString inputVec desiredEntropy
      (maxLengthString.toNat + 1) [] = some s := by
  obtain ⟨⟨R, e⟩, hrun⟩ := @stopEntropyLoop_returns w out maxLengthString inputVec desiredEntropy
    (maxLengthString.toNat + 1) [] .zero (Nat.zero_le _) (by simp)
  exact ⟨_, greedyRenyiSelectorStopEntropy_eq_some_iff.mpr ⟨hrun, rfl⟩⟩

theorem intOf_lt_of_nonneg {M i : ℕ} (hM : M ≤ 2 ^ 32) (hi : i < M) (h : 0 ≤ intOf i) : intOf i < M := by
  have hnat : (BitVec.ofNat 32 i).toNat = i := by
    rw [BitVec.toNat_ofNat, Nat.mod_eq_of_lt (hi.trans_le hM)]
  rw [intOf, BitVec.toInt_eq_toNat_cond, hnat] at h ⊢
  split_ifs at h ⊢ with hsmall
  · exact_mod_cast hi
  · omega

theorem Attainable.selectsToEntropy (hN : inputVec.length < 2 ^ 31)
    (h : Attainable w out maxLengthString inputVec desiredEntropy)
    (hfits : FitsInt w out maxLengthString inputVec desiredEntropy) :
    SelectsToEntropy w out maxLengthString inputVec desiredEntropy := by
  unfold Attainable at h
  split_ifs at h with henter
  · obtain ⟨hpos, hall⟩ := h
    obtain ⟨⟨R, e⟩, hrun⟩ := @stopEntropyLoop_returns w out maxLengthString inputVec desiredEntropy
      (maxLengthString.toNat + 1) [] .zero (Nat.zero_le _) (by simp)
    have hchosen := Chosen.nil.stopEntropyLoop hN hpos hall hrun
    have hend := (stopEntropyLoop_ends hrun).2
    refine ⟨_, R, e, _, greedyRenyiSelectorStopEntropy_eq_some_iff.mpr ⟨hrun, rfl⟩, hchosen.nodup,
      ?_, ?_, ?_⟩
    · intro p hp
      have h0 := hfits henter.1 henter.2 R hchosen.greedy p hp
      obtain ⟨i, hi, rfl⟩ := hchosen.range p hp
      exact ⟨h0, intOf_lt_of_nonneg numChunks_lt.le hi h0⟩
    · rcases hchosen.entropy with ⟨rfl, rfl⟩ | ⟨-, he⟩
      · exact absurd (hend henter.1).symm henter.2
      · exact he
    · intro hlt
      have hbound := hend hlt
      have hle := length_le_of_inRange hchosen.nodup hchosen.range
      have := Nat.div_le_self maxLengthString.toNat w
      omega
  · refine ⟨1, [], .zero, _, greedyRenyiSelectorStopEntropy_eq_some_iff.mpr
      ⟨stopEntropyLoop_nil henter 0, rfl⟩, List.nodup_nil, by simp,
      (evaluateEntropy_no_positions_iff hN).mpr h, ?_⟩
    intro hlt
    have hmax : maxLengthString.toNat = 0 := by
      by_contra hne
      exact henter ⟨hlt, hne⟩
    rw [hmax, Nat.zero_div, List.length_nil]

/-- A run without the sentinel found a separating position in its first round. -/
theorem separated_of_run (hN : inputVec.length < 2 ^ 31) (hzero : Entropy.zero.lt desiredEntropy)
    (hmax : maxLengthString.toNat ≠ 0) {fuel : ℕ} {R : List ℤ} {e : Entropy}
    (hrun : stopEntropyLoop w out maxLengthString inputVec desiredEntropy fuel [] .zero = some (R, e))
    (hR : -1 ∉ R) :
    ∃ i < maxLengthString.toNat / w, inputVec = [] ∨ Separated w out inputVec [intOf i] := by
  rcases @chooseBestPositionRenyi_cases w out maxLengthString inputVec [] hmax.symm with
    ⟨heq, -⟩ | ⟨i, hi, -, hgt, -⟩
  · cases fuel with
    | zero => cases hrun
    | succ fuel =>
      rw [stopEntropyLoop_round hzero heq] at hrun
      exact absurd ((stopEntropyLoop_ends hrun).1 (by simp)) hR
  · exact ⟨i, hi, (evaluateEntropy_gt_zero_iff_separated hN _).mp hgt⟩

theorem two_mul_numChunks_le (hw : w ≠ 1) : 2 * (maxLengthString.toNat / w) ≤ maxLengthString.toNat := by
  rcases Nat.eq_zero_or_pos w with rfl | hpos
  · simp
  · calc 2 * (maxLengthString.toNat / w) ≤ w * (maxLengthString.toNat / w) :=
          Nat.mul_le_mul_right _ (by omega)
      _ ≤ maxLengthString.toNat := Nat.mul_div_le _ _

/-- Chunks of more than one byte that stay below the desired entropy are not selected as
they are: at the bound of the loop there would be more positions than chunks. -/
theorem SelectsToEntropy.attainable (hN : inputVec.length < 2 ^ 31)
    (h : SelectsToEntropy w out maxLengthString inputVec desiredEntropy) :
    Attainable w out maxLengthString inputVec desiredEntropy := by
  obtain ⟨fuel, R, e, fixedLength, hrun, hnodup, hrange, rfl, hmiss⟩ := h
  obtain ⟨hrun, -⟩ := greedyRenyiSelectorStopEntropy_eq_some_iff.mp hrun
  obtain ⟨-, hend⟩ := stopEntropyLoop_ends hrun
  unfold Attainable
  split_ifs with henter
  · obtain ⟨hzero, hmax⟩ := henter
    refine ⟨separated_of_run hN hzero hmax hrun fun hmem => ?_, ?_⟩
    · exact absurd (hrange _ hmem).1 (by norm_num)
    · by_contra hcon
      obtain ⟨hw, hall⟩ := not_or.mp hcon
      rw [not_not] at hall
      have hhalf := @two_mul_numChunks_le w maxLengthString hw
      have hbits := maxLengthString.isLt
      have hsub : R ⊆ allPositions w maxLengthString := by
        intro p hp
        obtain ⟨h0, hp⟩ := hrange p hp
        lift p to ℕ using h0
        rw [Nat.cast_lt] at hp
        exact List.mem_map.mpr ⟨p, List.mem_range.mpr hp, intOf_of_lt (by omega)⟩
      have hlt := evaluateEntropy_lt_of_subset hN hsub hall
      have hlen := hmiss hlt
      have hbound := hend hlt
      omega
  · cases fuel with
    | zero => cases hrun
    | succ fuel =>
      rw [stopEntropyLoop_nil henter] at hrun
      obtain ⟨rfl, he⟩ := Prod.mk.inj (Option.some.inj hrun)
      exact (evaluateEntropy_no_positions_iff hN).mp he

theorem SelectsToEntropy.fitsInt (h : SelectsToEntropy w out maxLengthString inputVec desiredEntropy) :
    FitsInt w out maxLengthString inputVec desiredEntropy := by
  obtain ⟨fuel, R, e, fixedLength, hrun, -, hrange, -⟩ := h
  obtain ⟨hrun, -⟩ := greedyRenyiSelectorStopEntropy_eq_some_iff.mp hrun
  intro hzero _ R₁ hR₁ p hp
  obtain ⟨fuel', e', hrun', -⟩ := hR₁.passed hzero hrun
  exact (hrange p ((stopEntropyLoop_ends hrun').1 hp)).1

/-- The selector always returns. What it returns is a choice of positions with their entropy
exactly when the desired entropy is attainable, if there are at most `2 ^ 31` positions; above
that the positions also have to be picked below `2 ^ 31`. -/
theorem selectsToEntropy_iff (hN : inputVec.length < 2 ^ 31) :
    (∃ s, greedyRenyiSelectorStopEntropy w out maxLengthString inputVec desiredEntropy
      (maxLengthString.toNat + 1) [] = some s) ∧
    (maxLengthString.toNat / w ≤ 2 ^ 31 →
      (SelectsToEntropy w out maxLengthString inputVec desiredEntropy ↔
        Attainable w out maxLengthString inputVec desiredEntropy)) ∧
    (SelectsToEntropy w out maxLengthString inputVec desiredEntropy ↔
      Attainable w out maxLengthString inputVec desiredEntropy ∧
        FitsInt w out maxLengthString inputVec desiredEntropy) := by
  refine ⟨greedyRenyiSelectorStopEntropy_returns, fun hM => ⟨fun h => h.attainable hN, fun h => ?_⟩,
    fun h => ⟨h.attainable hN, h.fitsInt⟩, fun h => h.1.selectsToEntropy hN h.2⟩
  exact h.selectsToEntropy hN (fitsInt_of_le hM)

end

theorem selectsToEntropy_two_keys :
    SelectsToEntropy 8 (zeroFill 8) 8 [Str.keyOfWords 1 0, Str.keyOfWords 1 1] (.finite 1) := by
  refine ((selectsToEntropy_iff (by norm_num)).2.1 (by decide)).mpr ?_
  unfold Attainable
  rw [if_pos (by decide +kernel)]
  exact ⟨⟨0, by decide, .inr ⟨Str.keyOfWords 1 0, by simp, Str.keyOfWords 1 1, by simp, by decide⟩⟩,
    .inr (by decide +kernel)⟩

/-- Three keys, two of them equal: the only word leaves the entropy `log2(3)`, and the loop
goes on until its eight positions are seven sentinels after it. -/
theorem not_selectsToEntropy_three_keys :
    ¬SelectsToEntropy 8 (zeroFill 8) 8
      [Str.keyOfWords 1 0, Str.keyOfWords 1 0, Str.keyOfWords 1 1] (.finite 2) := by
  intro h
  have hattainable := h.attainable (by norm_num)
  unfold Attainable at hattainable
  rw [if_pos (by decide +kernel)] at hattainable
  rcases hattainable.2 with hw | hall
  · exact absurd hw (by norm_num)
  · exact hall (by decide +kernel)

end EntropyLearnedHashing
