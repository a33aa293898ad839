import EntropyLearnedHashing.Entropy.Selector
import EntropyLearnedHashing.Storage

/-! `generateLocationData` of `benchmarker.cpp`. The dataset is shuffled and split, the
positions are selected on the first part up to the length of the longest key of the
whole dataset, and the flag that lets the benchmarks use functors without a length
check is computed on the first part alone. -/

namespace EntropyLearnedHashing

open LittleEndian

/-- `max_str_size`; a length is narrowed when it is stored. -/
def maxStrSize (data : List Str) : U32 :=
  data.foldl (fun max s => if s.size > max.toNat then BitVec.ofNat 32 s.size else max) 0

/-- `get_subset` after the shuffle, with the number of items of the first part. -/
def getSubset (nitems : ℕ) (data : List Str) : List Str × List Str :=
  (data.take nitems, data.drop nitems)

theorem getSubset_of_storage {rng : Storage.Shuffle Str} {data : List Str} {fraction : Fraction}
    {sample : List Str × List Str} (h : Storage.getSubset rng data fraction = some sample) :
    ∃ nitems, sample = getSubset nitems (rng.apply data) :=
  Storage.getSubset_eq_some h

/-- The stage of `generateLocationData` for 8-byte chunks, on the shuffled dataset. -/
def generateLocationData8B (out : Str → ℤ → Vector Byte 8) (nitems : ℕ) (data : List Str) :
    Option (Selection × Bool) :=
  let sample := getSubset nitems data
  greedyRenyiSelectorStopK 8 out (maxStrSize data) sample.1 sample.2 [] [] 12

/-- If the flag is written as true then every written location lies inside every key. -/
def SafeLocations (out : Str → ℤ → Vector Byte 8) (nitems : ℕ) (data : List Str) : Prop :=
  ∀ s, generateLocationData8B out nitems data = some (s, true) →
    ∀ p ∈ s.returnPositions, ∀ key ∈ data, 8 * (p + 1) ≤ key.size

section Positions

variable {w : ℕ} {out : Str → ℤ → Vector Byte w} {maxLengthString : U32}
  {inputVec validationVec : List Str}

theorem chooseBestPositionRenyi_range (hM : maxLengthString.toNat / w ≤ 2 ^ 31) {R : List ℤ}
    {next : ℤ × Entropy} (h : chooseBestPositionRenyi w out maxLengthString inputVec R = some next) :
    next.1 = -1 ∨ next.1 < (maxLengthString.toNat / w : ℕ) := by
  have hassert := length_ne_of_chooseBestPositionRenyi h
  rcases @chooseBestPositionRenyi_cases w out maxLengthString inputVec _ hassert with
    ⟨heq, -⟩ | ⟨i, hi, -, -, heq⟩
  · rw [heq] at h
    obtain rfl := Option.some.inj h
    exact .inl rfl
  · rw [heq, intOf_of_lt (lt_of_lt_of_le hi hM)] at h
    obtain rfl := Option.some.inj h
    exact .inr (Int.ofNat_lt.mpr hi)

theorem selectLoop_range (hM : maxLengthString.toNat / w ≤ 2 ^ 31) {n : ℕ} {s s' : Selection}
    (h : selectLoop w out maxLengthString inputVec validationVec n s = some s')
    (hs : ∀ p ∈ s.returnPositions, p = -1 ∨ p < (maxLengthString.toNat / w : ℕ)) :
    ∀ p ∈ s'.returnPositions, p = -1 ∨ p < (maxLengthString.toNat / w : ℕ) := by
  apply selectLoop_invariant
    (P := fun t => ∀ p ∈ t.returnPositions, p = -1 ∨ p < (maxLengthString.toNat / w : ℕ)) ?_ hs h
  intro t next entropy ht hnext p hp
  rcases List.mem_append.mp hp with hp | hp
  · exact ht p hp
  · rw [List.mem_singleton.mp hp]
    exact chooseBestPositionRenyi_range hM hnext

theorem greedyRenyiSelectorStopK_inv {numPositions : BitVec 32} {s : Selection} {fixedLength : Bool}
    (h : greedyRenyiSelectorStopK w out maxLengthString inputVec validationVec [] [] numPositions =
      some (s, fixedLength)) :
    selectLoop w out maxLengthString inputVec validationVec numPositions.toInt.toNat
        ⟨[], [], .zero⟩ = some s ∧ fixedLength = evaluateDatasetFixedLength inputVec := by
  obtain ⟨_, -, h⟩ := Option.bind_eq_some_iff.mp h
  split_ifs at h with hassert
  · obtain ⟨t, ht, heq⟩ := Option.bind_eq_some_iff.mp h
    obtain ⟨rfl, rfl⟩ := Prod.mk.inj (Option.some.inj heq)
    exact ⟨ht, rfl⟩

theorem exists_length_le {R : List ℤ} (hnodup : R.Nodup) (h0 : ∀ p ∈ R, 0 ≤ p) (hne : R ≠ []) :
    ∃ p ∈ R, (R.length : ℤ) ≤ p + 1 := by
  by_contra hall
  push Not at hall
  have hpos := List.length_pos_of_ne_nil hne
  have hsub : R ⊆ (List.range (R.length - 1)).map (Nat.cast : ℕ → ℤ) := by
    intro p hp
    have h₁ := hall p hp
    have h₂ := h0 p hp
    exact List.mem_map.mpr ⟨p.toNat, List.mem_range.mpr (by omega), by omega⟩
  have hle := (List.subperm_of_subset hnodup hsub).length_le
  simp only [List.length_map, List.length_range] at hle
  omega

end Positions

section Safety

variable {out : Str → ℤ → Vector Byte 8} {nitems : ℕ} {data : List Str}

theorem candidates_le : (maxStrSize data).toNat / 8 ≤ 2 ^ 31 := by
  have := (maxStrSize data).isLt
  omega

/-- Without a key that ends before the last candidate the written locations are safe. -/
theorem safeLocations_of_long
    (h : ∀ key ∈ data, 8 * ((maxStrSize data).toNat / 8) ≤ key.size) :
    SafeLocations out nitems data := by
  intro s hrun p hp key hkey
  obtain ⟨hloop, -⟩ := greedyRenyiSelectorStopK_inv hrun
  have hlong := h key hkey
  rcases selectLoop_range candidates_le hloop (by simp) p hp with rfl | hlt
  · simp
  · omega

theorem safeLocations_of_mixed
    (h : evaluateDatasetFixedLength (getSubset nitems data).1 = false) :
    SafeLocations out nitems data := by
  intro s hrun
  obtain ⟨-, hflag⟩ := greedyRenyiSelectorStopK_inv hrun
  rw [h] at hflag
  cases hflag

/-- A short dataset fails the assertion before anything is written. -/
theorem safeLocations_of_short (h : (maxStrSize data).toNat ≤ 12) :
    SafeLocations out nitems data := by
  intro s hrun
  obtain ⟨_, -, hrun⟩ := Option.bind_eq_some_iff.mp hrun
  have hassert : ¬ (((12 : BitVec 32).signExtend 64).toNat + ([] : List ℤ).length) % 2 ^ 64 <
      (maxStrSize data).toNat := by
    have htwelve : (((12 : BitVec 32).signExtend 64).toNat + ([] : List ℤ).length) % 2 ^ 64 = 12 := by
      decide
    omega
  rw [if_neg hassert] at hrun
  cases hrun

theorem exists_location (hne : (getSubset nitems data).1 ≠ [])
    (hN : (getSubset nitems data).1.length < 2 ^ 31) (hassert : 12 < (maxStrSize data).toNat)
    (hsep : ∃ i < (maxStrSize data).toNat / 8, Separated 8 out (getSubset nitems data).1 [(i : ℤ)]) :
    ∃ s, generateLocationData8B out nitems data =
        some (s, evaluateDatasetFixedLength (getSubset nitems data).1) ∧
      ∃ p ∈ s.returnPositions, (min 12 ((maxStrSize data).toNat / 8) : ℕ) ≤ p + 1 := by
  have htwelve : ((12 : BitVec 32).signExtend 64).toNat = 12 := by decide
  have hint : (12 : BitVec 32).toInt.toNat = 12 := by decide
  obtain ⟨s, hrun, husable, hlen⟩ := selectLoop_usable_of_separated (n := 12) hne hN candidates_le
    (getSubset nitems data).2 (.inr (.inr hsep))
  refine ⟨s, ?_, ?_⟩
  · unfold generateLocationData8B
    rw [greedyRenyiSelectorStopK_eq hne (by rw [htwelve]; exact hassert), hint, hrun]
    rfl
  · rw [← hlen]
    refine exists_length_le husable.nodup (fun p hp => (husable.range p hp).1) fun hnil => ?_
    obtain ⟨i, hi, -⟩ := hsep
    rw [hnil, List.length_nil] at hlen
    omega

/-- Safe locations force every key to cover all candidates, as long as the twelve rounds
cannot leave out a candidate or reach past some key. -/
theorem long_of_safeLocations (hne : (getSubset nitems data).1 ≠ [])
    (hN : (getSubset nitems data).1.length < 2 ^ 31) (hassert : 12 < (maxStrSize data).toNat)
    (hsep : ∃ i < (maxStrSize data).toNat / 8, Separated 8 out (getSubset nitems data).1 [(i : ℤ)])
    (hrounds : (maxStrSize data).toNat / 8 ≤ 12 ∨ ∃ key ∈ data, key.size < 96)
    (hfixed : evaluateDatasetFixedLength (getSubset nitems data).1 = true)
    (hsafe : SafeLocations out nitems data) :
    ∀ key ∈ data, 8 * ((maxStrSize data).toNat / 8) ≤ key.size := by
  obtain ⟨s, hrun, p, hp, hreach⟩ := exists_location hne hN hassert hsep
  rw [hfixed] at hrun
  have hcovered := hsafe s hrun p hp
  intro key hkey
  have hkey_covered := hcovered key hkey
  rcases Nat.lt_or_ge 12 ((maxStrSize data).toNat / 8) with hmany | hfew
  · -- some key is too short for the twelfth distinct location
    obtain ⟨short, hmem, hshort⟩ := hrounds.resolve_left (by omega)
    have hshort_covered := hcovered short hmem
    omega
  · omega

/-- The flag is safe when the training keys differ in length, when the run stops at the
assertion, or when no key of the dataset ends before the last candidate word. When the
training keys can be told apart and twelve rounds reach past some key or use up the
candidates, it is safe in no other case. -/
theorem safeLocations_of_flag_condition (out : Str → ℤ → Vector Byte 8) (nitems : ℕ)
    (data : List Str) :
    (evaluateDatasetFixedLength (getSubset nitems data).1 = false ∨
        (maxStrSize data).toNat ≤ 12 ∨
        (∀ key ∈ data, 8 * ((maxStrSize data).toNat / 8) ≤ key.size) →
      SafeLocations out nitems data) ∧
    ((getSubset nitems data).1.length < 2 ^ 31 →
      (∃ i < (maxStrSize data).toNat / 8, Separated 8 out (getSubset nitems data).1 [(i : ℤ)]) →
      ((maxStrSize data).toNat / 8 ≤ 12 ∨ ∃ key ∈ data, key.size < 96) →
      SafeLocations out nitems data →
      evaluateDatasetFixedLength (getSubset nitems data).1 = false ∨
        (maxStrSize data).toNat ≤ 12 ∨
        ∀ key ∈ data, 8 * ((maxStrSize data).toNat / 8) ≤ key.size) := by
  refine ⟨?_, fun hN hsep hrounds hsafe => ?_⟩
  · rintro (hmixed | hshort | hlong)
    · exact safeLocations_of_mixed hmixed
    · exact safeLocations_of_short hshort
    · exact safeLocations_of_long hlong
  · cases hfixed : evaluateDatasetFixedLength (getSubset nitems data).1 with
    | false => exact .inl rfl
    | true =>
      have hne : (getSubset nitems data).1 ≠ [] := by
        intro hnil
        rw [hnil] at hfixed
        cases hfixed
      rcases Nat.lt_or_ge 12 (maxStrSize data).toNat with hassert | hshort
      · exact .inr (.inr (long_of_safeLocations hne hN hassert hsep hrounds hfixed hsafe))
      · exact .inr (.inl hshort)

theorem safeLocations_one_length :
    SafeLocations (zeroFill 8) 1 [Str.keyOfWords 3 0, Str.keyOfWords 3 1] :=
  (safeLocations_of_flag_condition _ _ _).1 (.inr (.inr (by decide)))

/-- Training keys of 24 bytes and validation keys of 8 bytes: the flag is set and the
second word is chosen. -/
theorem not_safeLocations_two_lengths :
    ¬ SafeLocations (zeroFill 8) 2
      [Str.keyOfWords 3 0, Str.keyOfWords 3 1, Str.keyOfWords 1 0, Str.keyOfWords 1 1] := by
  intro hsafe
  have hlong := long_of_safeLocations (by decide) (by decide) (by decide)
    ⟨0, by decide, Str.keyOfWords 3 0, by decide, Str.keyOfWords 3 1, by decide, by decide⟩
    (.inl (by decide)) (by decide) hsafe (Str.keyOfWords 1 0) (by decide)
  exact absurd hlong (by decide)

end Safety

end EntropyLearnedHashing
