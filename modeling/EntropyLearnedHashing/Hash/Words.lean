import EntropyLearnedHashing.Hash.Locations

/-! What the functors read. Every fixed hash is a function of the length of the key
and of the words in its read list, written out here for each number of locations,
and it is defined as soon as these words lie inside the key. Sorting makes the
last location an upper bound of everything that is read, the 16-byte reads of XXH3
included. -/

namespace EntropyLearnedHashing

open LittleEndian WordMix

/-! ### The hashes of a list of words -/

/-- The fixed hashes of `wyhash_customs.hh` on the words they read. A single word is
read by halves. -/
def wyhashOfWords (len : ℕ) : List U64 → U64
  | [a] => wymix (wyp 1 ^^^ BitVec.ofNat 64 len)
      (wymix ((a.setWidth 32).setWidth 64 ^^^ wyp 1) (((a >>> 32).setWidth 32).setWidth 64))
  | [a, b] => wymix (wyp 1 ^^^ BitVec.ofNat 64 len) (wymix (a ^^^ wyp 1) (b ^^^ wyp 0))
  | [a, b, c] => wymix (wymix (wyp 1 ^^^ BitVec.ofNat 64 len) c)
      (wymix (a ^^^ wyp 1) (b ^^^ wyp 0))
  | [a, b, c, d] => wymix (wyp 1 ^^^ BitVec.ofNat 64 len)
      (wymix a b ^^^ wymix (c ^^^ wyp 2) (d ^^^ wyp 0))
  | _ => 0

/-- The fixed hashes of `crc_wyhash_customs.hh` on the words they read. -/
def crc32WyhashOfWords (len : ℕ) : List U64 → U64
  | [a] => mmCrc32U64 (BitVec.ofNat 64 len) a
  | [a, b] => mmCrc32U64 (mmCrc32U64 (BitVec.ofNat 64 len) a) b
  | [a, b, c] => mmCrc32U64 b (c + mmCrc32U64 (BitVec.ofNat 64 len) a)
  | [a, b, c, d] => mmCrc32U64 d (mmCrc32U64 b a ^^^ mmCrc32U64 (BitVec.ofNat 64 len) c)
  | _ => 0

/-- `XXH3_1loc_fixed` on the word it reads. -/
def xxh3Word (len : ℕ) (a : U64) : U64 :=
  xxh3Avalanche ((a ^^^ (secret64 xxh3KSecret 8 ^^^ secret64 xxh3KSecret 16)) + BitVec.ofNat 64 len)

/-- `XXH3_2loc_fixed` on the words it reads. -/
def xxh3TwoWords (len : ℕ) (a b : U64) : U64 :=
  let inputLo := a ^^^ (secret64 xxh3KSecret 24 ^^^ secret64 xxh3KSecret 32)
  let inputHi := b ^^^ (secret64 xxh3KSecret 40 ^^^ secret64 xxh3KSecret 48)
  xxh3Avalanche (BitVec.ofNat 64 len + xxhSwap64 inputLo + inputHi + fold64 inputLo inputHi)

/-- `XXH3_3loc_fixed` and `XXH3_4loc_fixed` on the two pairs of words they read. -/
def xxh3TwoPairs (len : ℕ) (a a' b b' : U64) : U64 :=
  BitVec.ofNat 64 len * xxhPrime64_1 +
    fold64 (a ^^^ secret64 xxh3KSecret 0) (a' ^^^ secret64 xxh3KSecret 8) +
    fold64 (b ^^^ secret64 xxh3KSecret 16) (b' ^^^ secret64 xxh3KSecret 24)

def xxh3OfWords (len : ℕ) : List U64 → U64
  | [a] => xxh3Word len a
  | [a, b] => xxh3TwoWords len a b
  | [a, a', b, b'] => xxh3TwoPairs len a a' b b'
  | _ => 0

def Family.ofWords : Family → ℕ → List U64 → U64
  | .xxh3 => xxh3OfWords
  | .wyhash => wyhashOfWords
  | .crc32wyhash => crc32WyhashOfWords

theorem xxh3Mix16B_of_covers {s : Str} {r : ℕ} (h₀ : s.Covers 8 r) (h₁ : s.Covers 8 (r + 1))
    (secret : List Byte) (p : ℕ) :
    xxh3Mix16B s.bytes (8 * r) secret p 0#64 =
      some (fold64 (word64 (s.word r) ^^^ secret64 secret p)
        (word64 (s.word (r + 1)) ^^^ secret64 secret (p + 8))) := by
  have hnext : load64 s.bytes (8 * r + 8) = some (word64 (s.word (r + 1))) :=
    (Str.loads_of_covers h₁).1
  simp [xxh3Mix16B, xxh3Mul128Fold64, (Str.loads_of_covers h₀).1, hnext]

namespace Locations

/-! ### The words that are read -/

/-- The words the fixed hash of a family reads, in order. XXH3 reads 16 bytes at
a time from three locations on. -/
def readWords (L : Locations) (fam : Family) : List ℕ :=
  match fam, L.locs with
  | .xxh3, [a, b, _] => [wordIndex a, wordIndex a + 1, wordIndex b, wordIndex b + 1]
  | .xxh3, [a, _, c, _] => [wordIndex a, wordIndex a + 1, wordIndex c, wordIndex c + 1]
  | _, locs => locs.map wordIndex

/-- The hash of the words that are read, at given word values. -/
def hashOfWords (L : Locations) (fam : Family) (len : ℕ) (f : ℕ → U64) : U64 :=
  fam.ofWords len ((L.readWords fam).map f)

section

variable (L : Locations) {s : Str}

theorem fixed_wyhash_eq (hcov : ∀ r ∈ L.readWords .wyhash, s.Covers 8 r) :
    L.fixed .wyhash s = some (L.hashOfWords .wyhash s.size fun r => word64 (s.word r)) := by
  have hload := fun r hr => Str.loads_of_covers (hcov r hr)
  cases L using byLength <;>
    simp only [readWords, List.map_cons, List.map_nil, List.mem_cons, List.not_mem_nil, or_false,
      forall_eq_or_imp, forall_eq] at hload <;>
    simp [fixed, ints, fixedLocations, Family.nlocFixedS, hashWyhash1locFixedS, wyhash1locFixed,
      hashWyhash2locFixedS, wyhash2locFixed, hashWyhash3locFixedS, wyhash3locFixed,
      hashWyhash4locFixedS, wyhash4locFixed, wyr4, wyr8, toNat_byteOffset, hload, hashOfWords,
      readWords, Family.ofWords, wyhashOfWords]

theorem fixed_crc32wyhash_eq (hcov : ∀ r ∈ L.readWords .crc32wyhash, s.Covers 8 r) :
    L.fixed .crc32wyhash s = some (L.hashOfWords .crc32wyhash s.size fun r => word64 (s.word r)) := by
  have hload := fun r hr => (Str.loads_of_covers (hcov r hr)).1
  cases L using byLength <;>
    simp only [readWords, List.map_cons, List.map_nil, List.mem_cons, List.not_mem_nil, or_false,
      forall_eq_or_imp, forall_eq] at hload <;>
    simp [fixed, ints, fixedLocations, Family.nlocFixedS, hashCrc32wyhash1locFixedS,
      crc32Wyhash1locFixed, hashCrc32wyhash2locFixedS, crc32Wyhash2locFixed,
      hashCrc32wyhash3locFixedS, crc32Wyhash3locFixed, hashCrc32wyhash4locFixedS,
      crc32Wyhash4locFixed, wyr8, toNat_byteOffset, hload, hashOfWords, readWords, Family.ofWords,
      crc32WyhashOfWords]

theorem fixed_xxh3_eq (hcov : ∀ r ∈ L.readWords .xxh3, s.Covers 8 r) :
    L.fixed .xxh3 s = some (L.hashOfWords .xxh3 s.size fun r => word64 (s.word r)) := by
  cases L using byLength <;>
    simp only [readWords, List.map_cons, List.map_nil, List.mem_cons, List.not_mem_nil, or_false,
      forall_eq_or_imp, forall_eq] at hcov <;>
    simp [fixed, ints, fixedLocations, Family.nlocFixedS, hashXxh3_1locFixedS, xxh3_1locFixed,
      hashXxh3_2locFixedS, xxh3_2locFixed, hashXxh3_3locFixedS, xxh3_3locFixed,
      hashXxh3_4locFixedS, xxh3_4locFixed, xxh3Mul128Fold64, toNat_byteOffset,
      Str.loads_of_covers, xxh3Mix16B_of_covers, hcov, hashOfWords, readWords, Family.ofWords,
      xxh3OfWords, xxh3Word, xxh3TwoWords, xxh3TwoPairs]

/-- The fixed hash succeeds on a key that covers the words it reads, and it is a
function of the length and of these words. -/
theorem fixed_eq (fam : Family) (hcov : ∀ r ∈ L.readWords fam, s.Covers 8 r) :
    L.fixed fam s = some (L.hashOfWords fam s.size fun r => word64 (s.word r)) := by
  cases fam with
  | xxh3 => exact L.fixed_xxh3_eq hcov
  | wyhash => exact L.fixed_wyhash_eq hcov
  | crc32wyhash => exact L.fixed_crc32wyhash_eq hcov

theorem hashOfWords_congr (fam : Family) (len : ℕ) {f g : ℕ → U64}
    (h : ∀ r ∈ L.readWords fam, f r = g r) : L.hashOfWords fam len f = L.hashOfWords fam len g := by
  unfold hashOfWords
  rw [List.map_congr_left h]

end

/-- A 16-byte read starts at a location with a successor, so it ends at the last word. -/
theorem readWords_le_last (L : Locations) (fam : Family) : ∀ r ∈ L.readWords fam, r ≤ L.last := by
  have hmod : ∀ l, wordIndex l ≤ l := fun l => Nat.mod_le _ _
  cases L using byLength <;> cases fam <;>
    simp only [readWords, List.map_cons, List.map_nil, List.mem_cons, List.not_mem_nil, or_false,
      forall_eq_or_imp, forall_eq, last, List.getLastD_cons, List.getLastD_nil] <;>
    grind

/-- The chosen words lie inside a key that reaches the end of the last location. -/
theorem covers_wordIndex {L : Locations} {key : Str} (hcov : 8 * L.last + 8 ≤ key.size) :
    ∀ l ∈ L.locs, key.Covers 8 (wordIndex l) := by
  intro l hl
  have hle := L.le_last l hl
  have hmod : wordIndex l ≤ l := Nat.mod_le _ _
  rw [Str.Covers]
  omega

/-- Distinct places can be given any values. -/
theorem exists_map_eq {places : List ℕ} (hnodup : places.Nodup) {values : List U64}
    (hlen : values.length = places.length) : ∃ f : ℕ → U64, places.map f = values := by
  induction places generalizing values with
  | nil => exact ⟨fun _ => 0, (List.length_eq_zero_iff.mp hlen).symm⟩
  | cons p places ih =>
    obtain ⟨v, values, rfl⟩ := List.exists_cons_of_length_eq_add_one hlen
    obtain ⟨hp, hplaces⟩ := List.nodup_cons.mp hnodup
    obtain ⟨f, hf⟩ := ih hplaces (by simpa using hlen)
    refine ⟨Function.update f p v, ?_⟩
    rw [List.map_cons, Function.update_self, ← hf]
    congr 1
    apply List.map_congr_left
    intro q hq
    rw [Function.update_of_ne]
    rintro rfl
    exact hp hq

/-- A key with given words at the locations, if their offsets reach different words. -/
theorem exists_key (L : Locations) (hnodup : (L.locs.map wordIndex).Nodup) {len : ℕ}
    (hlen : 8 * L.last + 8 ≤ len) (h63 : len < 2 ^ 63) {values : List U64}
    (hvalues : values.length = L.locs.length) :
    ∃ key : Str, key.size = len ∧ (L.locs.map fun l => word64 (key.word (wordIndex l))) = values := by
  obtain ⟨f, hf⟩ := exists_map_eq hnodup (hvalues.trans (List.length_map _).symm)
  have hsize : (Str.ofWords len h63 f).size = len := Str.size_ofWords ..
  refine ⟨Str.ofWords len h63 f, hsize, ?_⟩
  rw [← hf, List.map_map]
  apply List.map_congr_left
  intro l hl
  have := covers_wordIndex (hsize.symm ▸ hlen) l hl
  rw [Str.Covers, hsize] at this
  exact Str.word64_word_ofWords _ _ _ _ (by omega)

theorem covers_readWords {L : Locations} {s : Str} (h : 8 * (L.last + 1) ≤ s.size) (fam : Family) :
    ∀ r ∈ L.readWords fam, s.Covers 8 r := by
  intro r hr
  have := L.readWords_le_last fam r hr
  unfold Str.Covers
  omega

/-! ### The partial-key path -/

/-- A key beyond the last chosen word takes the partial-key path. -/
theorem functor_eq_fixed {L : Locations} {s : Str} (h : 8 * L.last + 8 < s.size) (fam : Family) :
    L.functor fam s = L.fixed fam s := by
  have he := toNat_endpoint_le L.last
  rw [functor_eq, if_pos]
  cases fam <;> simp only [Family.Guard] <;> omega

/-- The partial-key path is a function of the length and of the words that are read. -/
theorem functor_congr {L : Locations} {fam : Family} {x y : Str} (h : 8 * L.last + 8 < x.size)
    (hsize : x.size = y.size) (hword : ∀ r ∈ L.readWords fam, x.word r = y.word r) :
    L.functor fam x = L.functor fam y := by
  rw [functor_eq_fixed h, functor_eq_fixed (hsize ▸ h),
    L.fixed_eq fam (covers_readWords (by omega) fam), L.fixed_eq fam (covers_readWords (by omega) fam),
    hsize, L.hashOfWords_congr fam _ fun r hr => by rw [hword r hr]]

/-- The hash of a key packed from the words `f`. -/
theorem fixed_ofWords (L : Locations) (fam : Family) {len : ℕ} (h63 : len < 2 ^ 63)
    (hlen : 8 * L.last + 8 ≤ len) (f : ℕ → U64) :
    L.fixed fam (Str.ofWords len h63 f) = some (L.hashOfWords fam len f) := by
  have hlong : 8 * (L.last + 1) ≤ (Str.ofWords len h63 f).size := by rw [Str.size_ofWords]; omega
  rw [L.fixed_eq fam (covers_readWords hlong fam), Str.size_ofWords,
    L.hashOfWords_congr fam len fun r hr => ?_]
  have := L.readWords_le_last fam r hr
  exact Str.word64_word_ofWords len h63 f r (by omega)

theorem functor_ofWords (L : Locations) (fam : Family) {len : ℕ} (h63 : len < 2 ^ 63)
    (hlen : 8 * L.last + 8 < len) (f : ℕ → U64) :
    L.functor fam (Str.ofWords len h63 f) = some (L.hashOfWords fam len f) := by
  rw [functor_eq_fixed (by simpa using hlen), L.fixed_ofWords fam h63 hlen.le]

/-- Two packed keys that differ only inside one word. -/
theorem exists_differOnlyIn (L : Locations) (fam : Family) {len : ℕ} (h63 : len < 2 ^ 63)
    (hlen : 8 * L.last + 8 < len) {l : ℕ} (f : ℕ → U64) (v : U64)
    (hne : L.hashOfWords fam len (Function.update f l v) ≠ L.hashOfWords fam len f) :
    ∃ x y : Str, x.size = len ∧ y.size = len ∧ x.DifferOnlyIn y l ∧
      L.functor fam x ≠ L.functor fam y := by
  refine ⟨Str.ofWords len h63 (Function.update f l v), Str.ofWords len h63 f, by simp, by simp,
    Str.ofWords_update_differOnlyIn len h63 f l v, ?_⟩
  rw [functor_ofWords L fam h63 hlen, functor_ofWords L fam h63 hlen]
  exact fun h => hne (Option.some.inj h)

end Locations

end EntropyLearnedHashing
