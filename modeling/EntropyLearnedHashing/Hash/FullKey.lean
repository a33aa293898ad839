import EntropyLearnedHashing.Hash.Words

/-! The full-key hash against the hash over all words of a key. Over both words of a
16-byte key `XXH3_2loc_fixed` is the full hash. Over the four words of a 32-byte key
`XXH3_4loc_fixed` computes the accumulator of the full hash and returns it without
the final avalanche. -/

namespace EntropyLearnedHashing

open LittleEndian WordMix

/-- `XXH3_2loc_fixed` and `XXH3_4loc_fixed` with the default secret, over all words of a key. -/
def xxh3AllWords (n : ℕ) (key : Str) : Option U64 :=
  match n with
  | 2 => xxh3_2locFixed key.bytes key.size [0, 8] xxh3KSecret
  | _ => xxh3_4locFixed key.bytes key.size [0, 8, 16, 24] xxh3KSecret

theorem xxh3_2locFixed_eq_full {key : Str} (h : key.size = 16) :
    xxh3_2locFixed key.bytes key.size [0, 8] xxh3KSecret = xxh3_64bits key.bytes key.size := by
  rw [h]
  simp [xxh3_2locFixed, xxh3_64bits, xxh3Len0to16, xxh3Len9to16]

/-- The accumulator over the four words of a 32-byte key. -/
def xxh3FourWords (key : Str) : U64 :=
  xxh3TwoPairs 32 (word64 (key.word 0)) (word64 (key.word 1)) (word64 (key.word 2))
    (word64 (key.word 3))

/-- The specialised hash is the accumulator, the full hash its avalanche. -/
theorem xxh3_4loc_and_full {key : Str} (h : key.size = 32) :
    xxh3_4locFixed key.bytes key.size [0, 8, 16, 24] xxh3KSecret = some (xxh3FourWords key) ∧
      xxh3_64bits key.bytes key.size = some (xxh3Avalanche (xxh3FourWords key)) := by
  have hcov : ∀ r < 4, key.Covers 8 r := by
    intro r hr
    rw [Str.Covers, h]
    omega
  have hfirst := xxh3Mix16B_of_covers (hcov 0 (by decide)) (hcov 1 (by decide)) xxh3KSecret 0
  have hlast := xxh3Mix16B_of_covers (hcov 2 (by decide)) (hcov 3 (by decide)) xxh3KSecret 16
  simp only [Nat.mul_zero, Nat.reduceMul] at hfirst hlast
  rw [h]
  constructor
  · simp [xxh3_4locFixed, hfirst, hlast, xxh3FourWords, xxh3TwoPairs]
  · simp [xxh3_64bits, xxh3Len17to128, xxh3MixAll, hfirst, hlast, xxh3FourWords, xxh3TwoPairs]

/-- The 32-byte key whose two products vanish. -/
def vanishingKey : Str :=
  Str.ofWords 32 (by decide) fun i =>
    if i = 0 then secret64 xxh3KSecret 0 else if i = 2 then secret64 xxh3KSecret 16 else 0

theorem xxh3FourWords_vanishingKey : xxh3FourWords vanishingKey = 32 * xxhPrime64_1 := by
  have hword : ∀ i < 4, word64 (vanishingKey.word i) =
      if i = 0 then secret64 xxh3KSecret 0 else if i = 2 then secret64 xxh3KSecret 16 else 0 := by
    intro i hi
    exact Str.word64_word_ofWords _ _ _ _ (by omega)
  rw [xxh3FourWords, hword 0 (by decide), hword 2 (by decide)]
  simp [xxh3TwoPairs]

theorem size_vanishingKey : vanishingKey.size = 32 := Str.size_ofWords ..

theorem xxh3_4loc_ne_full :
    xxh3AllWords 4 vanishingKey ≠ xxh3_64bits vanishingKey.bytes vanishingKey.size := by
  obtain ⟨hfixed, hfull⟩ := xxh3_4loc_and_full size_vanishingKey
  have hall : xxh3AllWords 4 vanishingKey = some (xxh3FourWords vanishingKey) := hfixed
  rw [hall, hfull, xxh3FourWords_vanishingKey]
  intro h
  exact absurd (Option.some.inj h) (by decide)

/-- Over all words of the key, the specialised hash of two locations is the full hash on every
key; that of four locations is not, it is the full hash before the avalanche. -/
theorem xxh3AllWords_eq_full_iff (n : ℕ) (hn : n = 2 ∨ n = 4) :
    ((∀ key : Str, key.size = 8 * n → xxh3AllWords n key = xxh3_64bits key.bytes key.size) ↔ n = 2) ∧
      ∀ key : Str, key.size = 32 →
        xxh3_64bits key.bytes key.size = (xxh3AllWords 4 key).map xxh3Avalanche := by
  constructor
  · constructor
    · intro h
      rcases hn with rfl | rfl
      · rfl
      · exact absurd (h vanishingKey size_vanishingKey) xxh3_4loc_ne_full
    · rintro rfl key hsize
      exact xxh3_2locFixed_eq_full hsize
  · intro key hsize
    obtain ⟨hfixed, hfull⟩ := xxh3_4loc_and_full hsize
    rw [hfull, show xxh3AllWords 4 key = _ from hfixed, Option.map_some]

/-- Two locations, on a key of 16 bytes. -/
theorem xxh3AllWords_two_eq_full :
    let key := Str.keyOfWords 2 0x0123456789abcdef
    key.size = 16 ∧ xxh3AllWords 2 key = xxh3_64bits key.bytes key.size :=
  ⟨Str.size_ofWords .., (xxh3AllWords_eq_full_iff 2 (.inl rfl)).1.mpr rfl _ (Str.size_ofWords ..)⟩

/-- Four locations miss the full hash of a 32-byte key. -/
theorem xxh3AllWords_four_ne_full :
    ¬∀ key : Str, key.size = 32 → xxh3AllWords 4 key = xxh3_64bits key.bytes key.size :=
  fun h => xxh3_4loc_ne_full (h vanishingKey size_vanishingKey)

end EntropyLearnedHashing
