import EntropyLearnedHashing.Entropy.Estimator
import EntropyLearnedHashing.Library.ArgMax

/-! The greedy choice of positions in `entropy_estimators.hh`. Each round appends the
unused position with the largest training entropy. The search starts at entropy
zero with the sentinel `-1`, so a round in which no position separates two training
keys appends the sentinel. Once a position separates two keys every later round
does, hence the sentinel appears in the first round or never. -/

namespace EntropyLearnedHashing

open LittleEndian

/-- `(int) i`. -/
def intOf (i : ℕ) : ℤ := (BitVec.ofNat 32 i).toInt

theorem intOf_of_lt {i : ℕ} (h : i < 2 ^ 31) : intOf i = i := by
  have hi : (BitVec.ofNat 32 i).toNat = i := by rw [BitVec.toNat_ofNat]; omega
  rw [intOf, BitVec.toInt_eq_toNat_of_lt (by omega), hi]

theorem intOf_inj {i j : ℕ} (hi : i < 2 ^ 32) (hj : j < 2 ^ 32) (h : intOf i = intOf j) : i = j := by
  have hnat := congrArg BitVec.toNat (BitVec.eq_of_toInt_eq h)
  rw [BitVec.toNat_ofNat, BitVec.toNat_ofNat] at hnat
  omega

def evaluateDatasetFixedLength (inputVec : List Str) : Bool :=
  match inputVec with
  | [] => false
  | first :: _ => inputVec.all fun x => x.size == first.size

/-- `none` is the read past the end of the sorted lengths. -/
def getQuantileLength (inputVec : List Str) (quantile : ℚ) : Option ℕ :=
  let lengths := (inputVec.map Str.size).mergeSort
  lengths[⌊quantile * lengths.length⌋₊]?

section

variable (w : ℕ) (out : Str → ℤ → Vector Byte w) (maxLengthString : U32)
  (inputVec validationVec : List Str)

/-- `none` is the failed assertion. -/
def chooseBestPositionRenyi (currentPositions : List ℤ) : Option (ℤ × Entropy) :=
  if currentPositions.length ≠ maxLengthString.toNat then
    some ((List.range (maxLengthString.toNat / w)).foldl (fun best i =>
      if intOf i ∈ currentPositions then best
      else
        let positionRenyiEntropy := evaluateEntropy w out inputVec (currentPositions ++ [intOf i])
        if positionRenyiEntropy.gt best.2 then (intOf i, positionRenyiEntropy) else best)
      (-1, .zero))
  else none

/-- The output vectors of the selector and the entropy of the last round. -/
structure Selection where
  returnPositions : List ℤ
  entropies : List Entropy
  entropy : Entropy
  deriving DecidableEq

/-- `returnPositions.push_back(position); entropies.push_back(entropy)`. -/
def Selection.push (s : Selection) (position : ℤ) (entropy : Entropy) : Selection :=
  ⟨s.returnPositions ++ [position], s.entropies ++ [entropy], entropy⟩

/-- The loop over the remaining rounds. -/
def selectLoop : ℕ → Selection → Option Selection
  | 0, s => some s
  | n + 1, s =>
    if s.returnPositions.length = maxLengthString.toNat / w then some s
    else do
      let next ← chooseBestPositionRenyi w out maxLengthString inputVec s.returnPositions
      let entropy := if validationVec = inputVec then next.2
        else evaluateEntropy w out validationVec (s.returnPositions ++ [next.1])
      selectLoop n (s.push next.1 entropy)

/-- The selector and the `fixedLength` flag that it sets. `numPositions` is an `int` that
the assertion adds as a `size_t`. -/
def greedyRenyiSelectorStopK (returnPositions : List ℤ) (entropies : List Entropy)
    (numPositions : BitVec 32) : Option (Selection × Bool) := do
  let _ ← getQuantileLength inputVec (1 / 10)
  let fixedLength := evaluateDatasetFixedLength inputVec
  if ((numPositions.signExtend 64).toNat + returnPositions.length) % 2 ^ 64 <
      maxLengthString.toNat then
    let s ← selectLoop w out maxLengthString inputVec validationVec numPositions.toInt.toNat
      ⟨returnPositions, entropies, .zero⟩
    return (s, fixedLength)
  else none

/-! ### One round -/

/-- Two keys of the list have different partial strings. -/
def Separated (vec : List Str) (positions : List ℤ) : Prop :=
  ∃ x ∈ vec, ∃ y ∈ vec, formPartialString w out x positions ≠ formPartialString w out y positions

variable {w out maxLengthString inputVec validationVec}

theorem Separated.mono {P Q : List ℤ} (hPQ : P ⊆ Q) (h : Separated w out inputVec P) :
    Separated w out inputVec Q := by
  obtain ⟨x, hx, y, hy, hne⟩ := h
  exact ⟨x, hx, y, hy, fun heq => hne (formPartialString_eq_of_subset hPQ heq)⟩

theorem length_ne_of_chooseBestPositionRenyi {R : List ℤ} {next : ℤ × Entropy}
    (h : chooseBestPositionRenyi w out maxLengthString inputVec R = some next) :
    R.length ≠ maxLengthString.toNat := by
  intro hlen
  rw [chooseBestPositionRenyi, if_neg (not_not_intro hlen)] at h
  cases h

/-- A round appends the sentinel when no unused position has positive entropy, and such a
position otherwise. -/
theorem chooseBestPositionRenyi_cases {R : List ℤ} (hR : R.length ≠ maxLengthString.toNat) :
    (chooseBestPositionRenyi w out maxLengthString inputVec R = some (-1, .zero) ∧
      ∀ i < maxLengthString.toNat / w, intOf i ∉ R →
        ¬ (evaluateEntropy w out inputVec (R ++ [intOf i])).gt .zero) ∨
    ∃ i < maxLengthString.toNat / w, intOf i ∉ R ∧
      (evaluateEntropy w out inputVec (R ++ [intOf i])).gt .zero ∧
      chooseBestPositionRenyi w out maxLengthString inputVec R =
        some (intOf i, evaluateEntropy w out inputVec (R ++ [intOf i])) := by
  let score := fun i => evaluateEntropy w out inputVec (R ++ [intOf i])
  let toPair := fun r : Option ℕ × Entropy => (r.1.elim (-1 : ℤ) intOf, r.2)
  have hfold : chooseBestPositionRenyi w out maxLengthString inputVec R =
      some (toPair (argMax Entropy.gt (intOf · ∈ R) score .zero
        (List.range (maxLengthString.toNat / w)))) := by
    unfold chooseBestPositionRenyi argMax
    rw [if_pos hR]
    congr 1
    change List.foldl _ (toPair (none, .zero)) _ = _
    refine List.foldl_hom toPair fun best i => ?_
    rw [improve, apply_ite toPair, apply_ite toPair]
    rfl
  rw [hfold]
  rcases argMax_spec Entropy.gt (intOf · ∈ R) score .zero
    (List.range (maxLengthString.toNat / w)) with ⟨heq, hnone⟩ | ⟨i, hi, hskip, hgt, heq⟩
  · exact .inl ⟨by rw [heq]; rfl, fun i hi hR => hnone i (List.mem_range.mpr hi) hR⟩
  · exact .inr ⟨i, List.mem_range.mp hi, hskip, hgt, by rw [heq]; rfl⟩

theorem chooseBestPositionRenyi_separated (hne : inputVec ≠ []) (hN : inputVec.length < 2 ^ 31)
    {R : List ℤ} (hR : R.length ≠ maxLengthString.toNat)
    (h : ∃ i < maxLengthString.toNat / w, intOf i ∉ R ∧ Separated w out inputVec (R ++ [intOf i])) :
    ∃ i < maxLengthString.toNat / w, intOf i ∉ R ∧ Separated w out inputVec (R ++ [intOf i]) ∧
      chooseBestPositionRenyi w out maxLengthString inputVec R =
        some (intOf i, evaluateEntropy w out inputVec (R ++ [intOf i])) := by
  rcases @chooseBestPositionRenyi_cases w out maxLengthString inputVec R hR with
    ⟨-, hnone⟩ | ⟨i, hi, hmem, hgt, heq⟩
  · obtain ⟨i, hi, hmem, hsep⟩ := h
    exact absurd ((evaluateEntropy_gt_zero_iff hne hN).mpr hsep) (hnone i hi hmem)
  · exact ⟨i, hi, hmem, (evaluateEntropy_gt_zero_iff hne hN).mp hgt, heq⟩

/-! ### Whole runs -/

theorem numChunks_lt : maxLengthString.toNat / w < 2 ^ 32 :=
  (Nat.div_le_self _ _).trans_lt maxLengthString.isLt

theorem exists_unused {R : List ℤ} {M : ℕ} (hM : M ≤ 2 ^ 32) (hlt : R.length < M) :
    ∃ i < M, intOf i ∉ R := by
  by_contra hall
  push Not at hall
  have hsub : (List.range M).map intOf ⊆ R := by
    intro p hp
    obtain ⟨i, hi, rfl⟩ := List.mem_map.mp hp
    exact hall i (List.mem_range.mp hi)
  have hnodup : ((List.range M).map intOf).Nodup := by
    apply List.nodup_range.map_on
    intro i hi j hj
    exact intOf_inj (by grind) (by grind)
  have hle := (List.subperm_of_subset hnodup hsub).length_le
  simp only [List.length_map, List.length_range] at hle
  omega

/-- The positions `R` followed by distinct new ones below `M`. -/
structure Extends (M : ℕ) (R : List ℤ) (added : List ℕ) (s : Selection) : Prop where
  positions : s.returnPositions = R ++ added.map intOf
  nodup : added.Nodup
  lt : ∀ i ∈ added, i < M
  unused : ∀ i ∈ added, intOf i ∉ R

variable (validationVec) in
/-- From a state in which an unused position separates two keys, every round appends a new
position until the rounds or the positions are exhausted. -/
theorem selectLoop_extends (hne : inputVec ≠ []) (hN : inputVec.length < 2 ^ 31) (n : ℕ)
    (s : Selection) (hle : s.returnPositions.length ≤ maxLengthString.toNat / w)
    (hsep : s.returnPositions.length < maxLengthString.toNat / w →
      ∃ i < maxLengthString.toNat / w, intOf i ∉ s.returnPositions ∧
        Separated w out inputVec (s.returnPositions ++ [intOf i])) :
    ∃ s' added, selectLoop w out maxLengthString inputVec validationVec n s = some s' ∧
      Extends (maxLengthString.toNat / w) s.returnPositions added s' ∧
      added.length = min n (maxLengthString.toNat / w - s.returnPositions.length) ∧
      s'.entropies.length = s.entropies.length + added.length := by
  induction n generalizing s with
  | zero => exact ⟨s, [], rfl, ⟨by simp, List.nodup_nil, by simp, by simp⟩, by simp, by simp⟩
  | succ n ih =>
    by_cases hfull : s.returnPositions.length = maxLengthString.toNat / w
    · exact ⟨s, [], by rw [selectLoop, if_pos hfull],
        ⟨by simp, List.nodup_nil, by simp, by simp⟩, by simp [hfull], by simp⟩
    · have hmax : s.returnPositions.length ≠ maxLengthString.toNat := by
        have := Nat.div_le_self maxLengthString.toNat w
        omega
      obtain ⟨i, hi, hmem, hi_sep, hchoose⟩ :=
        chooseBestPositionRenyi_separated hne hN hmax (hsep (by omega))
      let e := if validationVec = inputVec
        then evaluateEntropy w out inputVec (s.returnPositions ++ [intOf i])
        else evaluateEntropy w out validationVec (s.returnPositions ++ [intOf i])
      have hlength : (s.push (intOf i) e).returnPositions.length = s.returnPositions.length + 1 := by
        simp [Selection.push]
      obtain ⟨s', added, hrun, hext, hlen, hent⟩ := ih (s.push (intOf i) e) (by omega) fun hlt => by
        -- the new position keeps the two keys apart under every further one
        obtain ⟨j, hj, hjmem⟩ := exists_unused (numChunks_lt.le) hlt
        exact ⟨j, hj, hjmem, hi_sep.mono (List.subset_append_left _ _)⟩
      have hnew : ∀ j ∈ added, j ≠ i ∧ intOf j ∉ s.returnPositions := fun j hj => by
        have := hext.unused j hj
        simp only [Selection.push, List.mem_append, List.mem_singleton, not_or] at this
        exact ⟨fun hji => this.2 (by rw [hji]), this.1⟩
      refine ⟨s', i :: added, ?_, ⟨?_, ?_, ?_, ?_⟩, ?_, ?_⟩
      · rw [selectLoop, if_neg hfull, hchoose]
        exact hrun
      · rw [hext.positions]
        simp [Selection.push]
      · exact List.nodup_cons.mpr ⟨fun hmem => (hnew i hmem).1 rfl, hext.nodup⟩
      · exact List.forall_mem_cons.mpr ⟨hi, hext.lt⟩
      · exact List.forall_mem_cons.mpr ⟨hmem, fun j hj => (hnew j hj).2⟩
      · simp only [List.length_cons]
        omega
      · rw [hent]
        simp [Selection.push]
        omega

/-- Distinct positions below `M`, each with an entropy. -/
structure Usable (M : ℕ) (s : Selection) : Prop where
  nodup : s.returnPositions.Nodup
  range : ∀ p ∈ s.returnPositions, 0 ≤ p ∧ p < M
  entropies : s.entropies.length = s.returnPositions.length

theorem selectLoop_usable_of_separated (hne : inputVec ≠ []) (hN : inputVec.length < 2 ^ 31)
    (hM : maxLengthString.toNat / w ≤ 2 ^ 31) (validationVec : List Str) {n : ℕ}
    (h : n = 0 ∨ maxLengthString.toNat / w = 0 ∨
      ∃ i < maxLengthString.toNat / w, Separated w out inputVec [(i : ℤ)]) :
    ∃ s, selectLoop w out maxLengthString inputVec validationVec n ⟨[], [], .zero⟩ = some s ∧
      Usable (maxLengthString.toNat / w) s ∧
      s.returnPositions.length = min n (maxLengthString.toNat / w) := by
  rcases h with rfl | h
  · exact ⟨_, rfl, ⟨List.nodup_nil, by simp, rfl⟩, by simp⟩
  · have hsep : ([] : List ℤ).length < maxLengthString.toNat / w →
        ∃ i < maxLengthString.toNat / w, intOf i ∉ ([] : List ℤ) ∧
          Separated w out inputVec ([] ++ [intOf i]) := by
      intro hlt
      rcases h with h0 | ⟨i, hi, hsep⟩
      · rw [h0] at hlt
        exact absurd hlt (Nat.not_lt_zero _)
      · rw [← intOf_of_lt (hi.trans_le hM)] at hsep
        exact ⟨i, hi, by simp, hsep⟩
    obtain ⟨s, added, hrun, hext, hlen, hent⟩ := selectLoop_extends validationVec
      hne hN n ⟨[], [], .zero⟩ (Nat.zero_le _) hsep
    have hpositions : s.returnPositions = added.map Nat.cast := by
      rw [hext.positions, List.nil_append]
      exact List.map_congr_left fun i hi => intOf_of_lt ((hext.lt i hi).trans_le hM)
    have hlength : s.returnPositions.length = added.length := by rw [hpositions, List.length_map]
    refine ⟨s, hrun, ⟨?_, ?_, ?_⟩, ?_⟩
    · rw [hpositions]
      exact hext.nodup.map Nat.cast_injective
    · intro p hp
      rw [hpositions] at hp
      obtain ⟨i, hi, rfl⟩ := List.mem_map.mp hp
      exact ⟨Int.natCast_nonneg i, by exact_mod_cast hext.lt i hi⟩
    · rw [hlength, hent, List.length_nil, Nat.zero_add]
    · rw [hlength, hlen, List.length_nil, Nat.sub_zero]

/-- What every round preserves holds at the end of a run. -/
theorem selectLoop_invariant {P : Selection → Prop}
    (hround : ∀ s next entropy, P s →
      chooseBestPositionRenyi w out maxLengthString inputVec s.returnPositions = some next →
      P (s.push next.1 entropy))
    {n : ℕ} {s s' : Selection} (hs : P s)
    (h : selectLoop w out maxLengthString inputVec validationVec n s = some s') : P s' := by
  induction n generalizing s with
  | zero =>
    obtain rfl := Option.some.inj h
    exact hs
  | succ n ih =>
    rw [selectLoop] at h
    by_cases hfull : s.returnPositions.length = maxLengthString.toNat / w
    · rw [if_pos hfull] at h
      obtain rfl := Option.some.inj h
      exact hs
    · rw [if_neg hfull] at h
      obtain ⟨next, hnext, hrun⟩ := Option.bind_eq_some_iff.mp h
      exact ih (hround s next _ hs hnext) hrun

theorem selectLoop_subset {n : ℕ} {s s' : Selection}
    (h : selectLoop w out maxLengthString inputVec validationVec n s = some s') :
    s.returnPositions ⊆ s'.returnPositions := by
  apply selectLoop_invariant (P := fun t => s.returnPositions ⊆ t.returnPositions) ?_ ?_ h
  · intro t next entropy ht _
    exact List.Subset.trans ht (List.subset_append_left _ _)
  · exact List.Subset.refl _

/-- A first round without a separating position appends the sentinel. -/
theorem neg_one_mem_of_not_separated (hne : inputVec ≠ []) (hN : inputVec.length < 2 ^ 31)
    (hM : maxLengthString.toNat / w ≤ 2 ^ 31) {n : ℕ} (hM0 : maxLengthString.toNat / w ≠ 0)
    (hsep : ¬ ∃ i < maxLengthString.toNat / w, Separated w out inputVec [(i : ℤ)])
    {s : Selection} {e : List Entropy}
    (h : selectLoop w out maxLengthString inputVec validationVec (n + 1) ⟨[], e, .zero⟩ = some s) :
    -1 ∈ s.returnPositions := by
  have hmax : ([] : List ℤ).length ≠ maxLengthString.toNat := by
    rintro h0
    rw [← h0] at hM0
    simp at hM0
  rcases @chooseBestPositionRenyi_cases w out maxLengthString inputVec [] hmax with
    ⟨heq, -⟩ | ⟨i, hi, -, hgt, -⟩
  · rw [selectLoop, if_neg (by simpa using hM0.symm), heq] at h
    exact selectLoop_subset h (by simp [Selection.push])
  · rw [intOf_of_lt (lt_of_lt_of_le hi hM)] at hgt
    exact absurd ⟨i, hi, (evaluateEntropy_gt_zero_iff hne hN).mp hgt⟩ hsep

theorem getQuantileLength_isSome (hne : inputVec ≠ []) :
    ∃ l, getQuantileLength inputVec (1 / 10) = some l := by
  have hpos := List.length_pos_of_ne_nil hne
  have hfloor : ⌊(1 / 10 : ℚ) * inputVec.length⌋₊ < inputVec.length := by
    rw [Nat.floor_lt (by positivity)]
    have : (0 : ℚ) < inputVec.length := by exact_mod_cast hpos
    linarith
  unfold getQuantileLength
  simp only [List.length_mergeSort, List.length_map]
  exact ⟨_, List.getElem?_eq_getElem (by simpa using hfloor)⟩

/-- The assertion admits no negative number of positions. -/
theorem toInt_of_admitted {numPositions : BitVec 32}
    (h : (numPositions.signExtend 64).toNat < maxLengthString.toNat) :
    numPositions.toInt = (numPositions.signExtend 64).toNat := by
  have hmax := maxLengthString.isLt
  have hmsb : numPositions.msb = false := by
    by_contra hneg
    rw [BitVec.toNat_signExtend, if_pos (by simpa using hneg)] at h
    omega
  rw [BitVec.toInt_eq_toNat_of_msb hmsb, BitVec.signExtend_eq_setWidth_of_msb_false hmsb,
    BitVec.toNat_setWidth_of_le (by norm_num)]

theorem greedyRenyiSelectorStopK_eq (hne : inputVec ≠ []) {numPositions : BitVec 32}
    (hassert : (numPositions.signExtend 64).toNat < maxLengthString.toNat) :
    greedyRenyiSelectorStopK w out maxLengthString inputVec validationVec [] [] numPositions =
      (selectLoop w out maxLengthString inputVec validationVec numPositions.toInt.toNat
        ⟨[], [], .zero⟩).map fun s => (s, evaluateDatasetFixedLength inputVec) := by
  obtain ⟨l, hl⟩ := getQuantileLength_isSome hne
  have hadd : ((numPositions.signExtend 64).toNat + ([] : List ℤ).length) % 2 ^ 64 <
      maxLengthString.toNat := by
    rw [List.length_nil, Nat.add_zero, Nat.mod_eq_of_lt (numPositions.signExtend 64).isLt]
    exact hassert
  unfold greedyRenyiSelectorStopK
  simp only [hl, Option.bind_eq_bind, Option.bind_some, if_pos hadd]
  rw [Option.map_eq_bind]
  rfl

variable (w out maxLengthString inputVec validationVec) in
/-- Started from empty vectors the selector returns usable positions, as many as asked for
or as there are. -/
def SelectsUsable (numPositions : BitVec 32) : Prop :=
  ∃ s fixedLength, greedyRenyiSelectorStopK w out maxLengthString inputVec validationVec [] []
      numPositions = some (s, fixedLength) ∧
    Usable (maxLengthString.toNat / w) s ∧
    s.returnPositions.length = min numPositions.toInt.toNat (maxLengthString.toNat / w)

/-- The selector returns usable positions exactly when it has nothing to choose or some
position separates two training keys. -/
theorem selectsUsable_iff (hne : inputVec ≠ []) (hN : inputVec.length < 2 ^ 31)
    (hM : maxLengthString.toNat / w ≤ 2 ^ 31) (numPositions : BitVec 32)
    (hassert : (numPositions.signExtend 64).toNat < maxLengthString.toNat) :
    SelectsUsable w out maxLengthString inputVec validationVec numPositions ↔
    numPositions.toInt = 0 ∨ maxLengthString.toNat / w = 0 ∨
      ∃ i < maxLengthString.toNat / w, Separated w out inputVec [(i : ℤ)] := by
  have hn := toInt_of_admitted hassert
  unfold SelectsUsable
  rw [greedyRenyiSelectorStopK_eq hne hassert]
  constructor
  · rintro ⟨s, fixedLength, hrun, husable, -⟩
    by_contra hcon
    push Not at hcon
    obtain ⟨hn0, hM0, hsep⟩ := hcon
    obtain ⟨s', hloop, heq⟩ := Option.map_eq_some_iff.mp hrun
    obtain ⟨rfl, -⟩ := Prod.mk.inj heq
    obtain ⟨n, hsucc⟩ : ∃ n, numPositions.toInt.toNat = n + 1 := by
      exact ⟨numPositions.toInt.toNat - 1, by omega⟩
    rw [hsucc] at hloop
    have hmem := neg_one_mem_of_not_separated hne hN hM hM0 (by push Not; exact hsep) hloop
    exact absurd (husable.range _ hmem).1 (by norm_num)
  · intro hcond
    have hzero : numPositions.toInt = 0 ↔ numPositions.toInt.toNat = 0 := by omega
    rw [hzero] at hcond
    obtain ⟨s', hrun, husable, hlen⟩ :=
      selectLoop_usable_of_separated hne hN hM validationVec hcond
    exact ⟨s', _, by rw [hrun]; rfl, husable, hlen⟩

theorem selectsUsable_two_keys :
    SelectsUsable 8 (zeroFill 8) 16 [Str.keyOfWords 2 0, Str.keyOfWords 2 1] [Str.keyOfWords 2 0, Str.keyOfWords 2 1] 2 :=
  (selectsUsable_iff (by simp) (by norm_num) (by decide) 2 (by decide)).mpr
    (.inr (.inr ⟨0, by decide, Str.keyOfWords 2 0, by simp, Str.keyOfWords 2 1, by simp, by decide⟩))

/-- Two equal keys: the only location is the sentinel. -/
theorem not_selectsUsable_equal_keys :
    ¬ SelectsUsable 8 (zeroFill 8) 16 [Str.keyOfWords 2 0, Str.keyOfWords 2 0] [Str.keyOfWords 2 0, Str.keyOfWords 2 0] 1 := by
  rintro ⟨s, fixedLength, hrun, husable, -⟩
  rw [greedyRenyiSelectorStopK_eq (by simp) (by decide)] at hrun
  obtain ⟨s', hloop, heq⟩ := Option.map_eq_some_iff.mp hrun
  obtain ⟨rfl, -⟩ := Prod.mk.inj heq
  have hsep : ¬ ∃ i < (16 : U32).toNat / 8, Separated 8 (zeroFill 8) [Str.keyOfWords 2 0, Str.keyOfWords 2 0] [(i : ℤ)] := by
    rintro ⟨i, -, x, hx, y, hy, hne⟩
    simp only [List.mem_cons, List.not_mem_nil, or_false, or_self] at hx hy
    exact hne (by rw [hx, hy])
  have hmem := neg_one_mem_of_not_separated (by simp) (by norm_num) (by decide) (by decide) hsep hloop
  exact absurd (husable.range _ hmem).1 (by norm_num)

end

end EntropyLearnedHashing
