import EntropyLearnedHashing.Hash.Words

/-! The variable functors as partial-key hashes. The cached endpoint is the end of
the last chosen word, so the partial-key path never reads past the key. The
functors of the wyhash and CRC families see a key only through its view: the
length and the chosen words of a long key, the whole of a short one. -/

namespace EntropyLearnedHashing

open LittleEndian

namespace Locations

/-! ### Memory range -/

/-- A key that ends after the last chosen word is hashed without a read past its end. -/
theorem fixed_isSome {L : Locations} {s : Str} (h : 8 * (L.last + 1) ≤ s.size) (fam : Family) :
    (L.fixed fam s).isSome := by
  rw [L.fixed_eq fam (covers_readWords h fam)]
  rfl

theorem le_size_of_guard {L : Locations} (hL : 8 * (L.last + 1) < 2 ^ 31) {fam : Family} {len : ℕ}
    (h : fam.Guard (endpoint L.last) len) : 8 * (L.last + 1) ≤ len := by
  rw [← toNat_endpoint_of_lt hL]
  cases fam
  · exact Nat.le_of_lt h
  · exact h
  · exact h

/-- Every read of the partial-key path lies inside the key, and a key that does not
contain all chosen words takes the full-key path. -/
theorem functor_memory_range (L : Locations) (hL : 8 * (L.last + 1) < 2 ^ 31) (fam : Family)
    (s : Str) :
    (fam.Guard (endpoint L.last) s.size →
      L.functor fam s = L.fixed fam s ∧ (L.fixed fam s).isSome) ∧
    ((∃ l ∈ L.locs, ¬ s.Covers 8 l) →
      ¬ fam.Guard (endpoint L.last) s.size ∧ L.functor fam s = fam.fullKey s) := by
  constructor
  · intro hp
    refine ⟨?_, fixed_isSome (le_size_of_guard hL hp) fam⟩
    rw [functor_eq, if_pos hp]
  · rintro ⟨l, hl, hcov⟩
    have hp : ¬ fam.Guard (endpoint L.last) s.size := by
      intro hp
      have h₁ := le_size_of_guard hL hp
      have h₂ := L.le_last l hl
      unfold Str.Covers at hcov
      omega
    refine ⟨hp, ?_⟩
    rw [functor_eq, if_neg hp]

/-- A key of 41 bytes passes the guard of the last word, one of 39 bytes does not. -/
theorem gapLocations_memory_range :
    (gapLocations.functor .xxh3 (Str.ofWords 41 (by decide) fun _ => 0)).isSome ∧
    gapLocations.functor .xxh3 (Str.ofWords 39 (by decide) fun _ => 0) =
      Family.xxh3.fullKey (Str.ofWords 39 (by decide) fun _ => 0) := by
  have hL : 8 * (gapLocations.last + 1) < 2 ^ 31 := by decide
  have h₄₁ := (functor_memory_range gapLocations hL .xxh3 (Str.ofWords 41 (by decide) fun _ => 0)).1
  have h₃₉ := (functor_memory_range gapLocations hL .xxh3 (Str.ofWords 39 (by decide) fun _ => 0)).2
  refine ⟨?_, (h₃₉ ⟨4, by decide, by decide⟩).2⟩
  rw [(h₄₁ (by decide)).1]
  exact (h₄₁ (by decide)).2

end Locations

/-! ### Views -/

/-- What is left of a key by a partial-key hash. -/
inductive View where
  | words (len : ℕ) (chosen : List (List Byte))
  | whole (key : List Byte)
  deriving DecidableEq

namespace Locations

/-- The length and the chosen words of a long key, the whole of a short one. -/
def view (L : Locations) (s : Str) : View :=
  if 8 * (L.last + 1) ≤ s.size then .words s.size (L.locs.map s.word) else .whole s.bytes

theorem view_eq_cases {L : Locations} {x y : Str} (h : L.view x = L.view y) :
    x = y ∨ (8 * (L.last + 1) ≤ x.size ∧ x.size = y.size ∧ ∀ l ∈ L.locs, x.word l = y.word l) := by
  unfold view at h
  split_ifs at h with hx hy hy
  · right
    obtain ⟨hsize, hwords⟩ := View.words.inj h
    exact ⟨hx, hsize, List.map_inj_left.mp hwords⟩
  · left
    obtain ⟨bx, _⟩ := x
    obtain ⟨bY, _⟩ := y
    cases h
    rfl

theorem readWords_of_ne_xxh3 {L : Locations} (hL : L.last < 2 ^ 29) {fam : Family}
    (hfam : fam ≠ .xxh3) : L.readWords fam = L.locs := by
  have hid : ∀ l ∈ L.locs, wordIndex l = l := fun l hl =>
    wordIndex_of_lt (lt_of_le_of_lt (L.le_last l hl) hL)
  cases fam
  · exact absurd rfl hfam
  · exact (List.map_congr_left hid).trans (List.map_id _)
  · exact (List.map_congr_left hid).trans (List.map_id _)

/-- The hashes of the wyhash and CRC families are functions of the view. -/
theorem functor_eq_of_view_eq {L : Locations} (hL : 8 * (L.last + 1) < 2 ^ 31) {fam : Family}
    (hfam : fam ≠ .xxh3) {x y : Str} (h : L.view x = L.view y) :
    L.functor fam x = L.functor fam y := by
  rcases view_eq_cases h with rfl | ⟨hlong, hsize, hword⟩
  · rfl
  · have hread : ∀ r ∈ L.readWords fam, word64 (x.word r) = word64 (y.word r) := by
      rw [readWords_of_ne_xxh3 (by omega) hfam]
      intro l hl
      rw [hword l hl]
    rw [functor_eq, functor_eq, L.fixed_eq fam (covers_readWords hlong fam),
      L.fixed_eq fam (covers_readWords (hsize ▸ hlong) fam), hsize, L.hashOfWords_congr fam _ hread]
    split_ifs with hp
    · rfl
    · -- the two lengths agree and the guard is the end of the last word
      refine absurd ?_ hp
      rw [← hsize]
      cases fam
      · exact absurd rfl hfam
      · exact (toNat_endpoint_of_lt hL).le.trans hlong
      · exact (toNat_endpoint_of_lt hL).le.trans hlong

end Locations

end EntropyLearnedHashing
