import EntropyLearnedHashing.Bench.Wiring
import Mathlib.Order.Defs.LinearOrder

/-! How the number of locations grows with the needed entropy. The loop takes one more than
the index of the first entropy above the needed one, so a match at the last entry gives
the size of the list, while the default for a list without a match is one less than the
size. A larger needed entropy can therefore lose a location, unless the cap of chunk
size 8 hides the step. -/

namespace EntropyLearnedHashing

section

variable {ε : Type*} [LT ε] [DecidableLT ε]

/-- The maps for another needed entropy: a larger data set or a smaller added rate. -/
def LocationMaps.needing (m : LocationMaps ε) (e : ε) : LocationMaps ε :=
  { m with neededEntropy := e }

/-- The index of the first entropy above `e`, the size if there is none. -/
def firstAbove (entropies : List ε) (e : ε) : ℕ :=
  entropies.findIdx (e < ·)

/-- The count in terms of the first entropy above the needed one. -/
theorem numLocationsForChunkSize_needing {name : BenchName} (hname : name ≠ .blockbloom)
    {m : LocationMaps ε} {chunkSize : ℕ} {entropies : List ε}
    (hmap : m.entropies chunkSize = some entropies) (e : ε) :
    name.numLocationsForChunkSize (m.needing e) chunkSize =
      let i := firstAbove entropies e
      let n : ℤ := if i = entropies.length then (entropies.length : ℤ) - 1 else i + 1
      if chunkSize = 8 ∧ 4 < n then (name.bench.cap : ℤ) else n := by
  have hstart : name.startCount entropies.length = (entropies.length : ℤ) - 1 := by
    cases name with
    | blockbloom => exact absurd rfl hname
    | stdTable | swissTable | swissTableMt | selfbloom | registerBlockBloom | partitioners => rfl
  unfold BenchName.numLocationsForChunkSize
  rw [show (m.needing e).entropies chunkSize = some entropies from hmap]
  cases hidx : entropies.findIdx? ((m.needing e).neededEntropy < ·) with
  | none =>
    have hi : firstAbove entropies e = entropies.length :=
      List.findIdx?_eq_none_iff_findIdx_eq.mp hidx
    simp only [hi, hidx, hstart, if_true]
  | some i =>
    obtain ⟨hlt, hi⟩ := List.findIdx?_eq_some_iff_findIdx_eq.mp hidx
    replace hi : firstAbove entropies e = i := hi
    simp only [hi, hidx, hlt.ne, if_false]

end

section

variable {ε : Type*} [LinearOrder ε]

/-- The last entropy is the only one above `e`. -/
def OnlyLastExceeds (entropies : List ε) (e : ε) : Prop :=
  (∀ x ∈ entropies.dropLast, x ≤ e) ∧ ∃ x ∈ entropies.getLast?, e < x

theorem firstAbove_le_length (entropies : List ε) (e : ε) :
    firstAbove entropies e ≤ entropies.length :=
  List.findIdx_le_length

theorem firstAbove_eq_length_iff (entropies : List ε) (e : ε) :
    firstAbove entropies e = entropies.length ↔ ∀ x ∈ entropies, x ≤ e := by
  simp [firstAbove, List.findIdx_eq_length]

theorem firstAbove_mono (entropies : List ε) {e₁ e₂ : ε} (h : e₁ ≤ e₂) :
    firstAbove entropies e₁ ≤ firstAbove entropies e₂ := by
  induction entropies with
  | nil => rfl
  | cons x entropies ih =>
    simp only [firstAbove] at ih ⊢
    rw [List.findIdx_cons, List.findIdx_cons]
    by_cases h₁ : e₁ < x
    · simp [h₁]
    · have h₂ : ¬e₂ < x := fun hx => h₁ (h.trans_lt hx)
      simpa [h₁, h₂] using ih

/-- The first entropy above `e` is the last of the list. -/
theorem onlyLastExceeds_iff (entropies : List ε) (e : ε) :
    OnlyLastExceeds entropies e ↔ firstAbove entropies e + 1 = entropies.length := by
  induction entropies using List.reverseRecOn with
  | nil => simp [OnlyLastExceeds]
  | append_singleton entropies x _ =>
    simp only [OnlyLastExceeds, List.dropLast_concat, List.getLast?_concat, Option.mem_some_iff,
      exists_eq_left', List.length_append, List.length_singleton, Nat.add_right_cancel_iff]
    rw [← firstAbove_eq_length_iff, firstAbove, firstAbove, List.findIdx_append]
    have hle := firstAbove_le_length entropies e
    simp only [firstAbove] at hle
    split_ifs with hlt
    · omega
    · have heq : entropies.findIdx (e < ·) = entropies.length := by omega
      by_cases hx : e < x <;> simp [heq, hx]

theorem BenchName.cap_eq (name : BenchName) (hname : name ≠ .blockbloom) :
    name.bench.cap = 4 ∨ name.bench.cap = 5 := by
  cases name <;> simp [BenchName.bench, benchStdTable, benchSwissTable, benchSwissTableMt,
    benchSelfbloom, benchRegisterBlockBloom, benchPartitioners] at hname ⊢

/-- A larger needed entropy gives no smaller count exactly when it does not step from a match
at the last entry to no match below the cap. -/
theorem numLocationsForChunkSize_mono_iff {name : BenchName} (hname : name ≠ .blockbloom)
    {m : LocationMaps ε} {chunkSize : ℕ} {entropies : List ε}
    (hmap : m.entropies chunkSize = some entropies) {e₁ e₂ : ε} (h : e₁ ≤ e₂) :
    name.numLocationsForChunkSize (m.needing e₁) chunkSize ≤
        name.numLocationsForChunkSize (m.needing e₂) chunkSize ↔
      ¬(OnlyLastExceeds entropies e₁ ∧ (∀ x ∈ entropies, x ≤ e₂) ∧
        ¬(chunkSize = 8 ∧ name.bench.cap < entropies.length)) := by
  have hmono := firstAbove_mono entropies h
  have hle := firstAbove_le_length entropies e₂
  rw [numLocationsForChunkSize_needing hname hmap, numLocationsForChunkSize_needing hname hmap,
    onlyLastExceeds_iff, ← firstAbove_eq_length_iff]
  generalize firstAbove entropies e₁ = i₁ at *
  generalize firstAbove entropies e₂ = i₂ at *
  rcases name.cap_eq hname with hcap | hcap <;> rw [hcap] <;> by_cases h8 : chunkSize = 8 <;>
    simp only [h8, true_and, false_and, if_false, not_false_eq_true, and_true] <;>
    split_ifs <;> omega

/-- Two needed entropies on the two sides of the last entropy of five. -/
theorem numLocationsForChunkSize_mono_five :
    BenchName.swissTable.numLocationsForChunkSize
        (LocationMaps.needing ⟨fun _ => [], fun _ => some [1, 2, 3, 4, 5], 0⟩ (9 / 2 : ℚ)) 8 ≤
      BenchName.swissTable.numLocationsForChunkSize
        (LocationMaps.needing ⟨fun _ => [], fun _ => some [1, 2, 3, 4, 5], 0⟩ 6) 8 :=
  (@numLocationsForChunkSize_mono_iff ℚ _ .swissTable (by decide)
    ⟨fun _ => [], fun _ => some [1, 2, 3, 4, 5], 0⟩ 8 [1, 2, 3, 4, 5] rfl (9 / 2) 6
    (by norm_num)).mpr fun h => h.2.2 ⟨rfl, by decide⟩

/-- With the one entropy 5, needing 4 takes one location and needing 6 takes none. -/
theorem numLocationsForChunkSize_loses_one :
    ¬∀ (name : BenchName) (m : LocationMaps ℚ) (chunkSize : ℕ) (entropies : List ℚ) (e₁ e₂ : ℚ),
      name ≠ .blockbloom → m.entropies chunkSize = some entropies → entropies ≠ [] →
      entropies.Pairwise (· ≤ ·) → e₁ ≤ e₂ →
        name.numLocationsForChunkSize (m.needing e₁) chunkSize ≤
          name.numLocationsForChunkSize (m.needing e₂) chunkSize := by
  intro hall
  have h := hall .swissTable ⟨fun _ => [], fun _ => some [5], 0⟩ 8 [5] 4 6 (by decide) rfl
    (by decide) (by simp) (by norm_num)
  have hfour : BenchName.swissTable.numLocationsForChunkSize
      (LocationMaps.needing ⟨fun _ => [], fun _ => some [5], 0⟩ (4 : ℚ)) 8 = 1 := by decide +kernel
  have hsix : BenchName.swissTable.numLocationsForChunkSize
      (LocationMaps.needing ⟨fun _ => [], fun _ => some [5], 0⟩ (6 : ℚ)) 8 = 0 := by decide +kernel
  omega

end

end EntropyLearnedHashing
