import EntropyLearnedHashing.Hash.FullKeyRange
import EntropyLearnedHashing.Library.MixedTop

/-! Keys whose hash has an upper half that is neither small nor large. The outer factor
of wyhash is a word with the top bit set, and it is the word of ones for a single
length only. For every other one a small inner product gives such a hash, and the
inner products of a table, seven times apart, are enough. XXH3 reaches every value as
soon as one word can be made to pass through it. -/

namespace EntropyLearnedHashing

open LittleEndian WordMix

/-! ### The outer factor of wyhash -/

/-- `secret[1] ^ len` with the default secret. -/
def outerFactor (len : ℕ) : U64 := wyp 1 ^^^ BitVec.ofNat 64 len

/-- The length at which the outer factor is the word of ones. -/
def onesLength : ℕ := 0x18fc812e5f4bd724

theorem outerFactor_onesLength : outerFactor onesLength = BitVec.allOnes 64 := by decide

theorem outerFactor_eq_allOnes_iff {len : ℕ} (h : len < 2 ^ 63) :
    outerFactor len = BitVec.allOnes 64 ↔ len = onesLength := by
  constructor
  · intro heq
    rw [← outerFactor_onesLength, outerFactor, outerFactor, BitVec.xor_right_inj] at heq
    have hnat := congrArg BitVec.toNat heq
    rw [BitVec.toNat_ofNat, BitVec.toNat_ofNat, Nat.mod_eq_of_lt (by omega)] at hnat
    exact hnat
  · rintro rfl
    exact outerFactor_onesLength

theorem le_toNat_outerFactor {len : ℕ} (h : len < 2 ^ 63) : 2 ^ 63 ≤ (outerFactor len).toNat := by
  have hmsb : (outerFactor len).msb = true := by
    have hlen : (BitVec.ofNat 64 len).msb = false := by
      rw [BitVec.msb_eq_false_iff_two_mul_lt, BitVec.toNat_ofNat]
      omega
    rw [outerFactor, BitVec.msb_xor, hlen]
    decide
  rw [BitVec.msb_eq_true_iff_two_mul_ge] at hmsb
  omega

/-- A pair of 32-bit words as the two halves of a single location. -/
def innerProduct (e : U32 × U32) : U64 := wymix (e.1.setWidth 64 ^^^ wyp 1) (e.2.setWidth 64)

/-- Pairs whose inner products are small and at most seven times apart. -/
def smallPairs : List (U32 × U32) := [
  (0x04ad9469, 0x14e4154e), (0x4216f153, 0xf5650b3e), (0x4dcb1ccb, 0x2df8ded5),
  (0x850ebc15, 0x2c9fc193), (0x16b4537b, 0x0192047d), (0x843a748d, 0x001d6883),
  (0x0265b130, 0x0000e572), (0x0265b135, 0x000395c8), (0x40cef42d, 0x0004a1d9),
  (0x0265b362, 0x000395c8), (0x92f29b43, 0x000289b7), (0x026639ed, 0x0002b056),
  (0xcbb8eedc, 0x5f02aa1f), (0xd46ee1e0, 0x31aa25a2), (0x34bd4121, 0x2a0aa339),
  (0xd0682935, 0x2ab310e4), (0xf2377ef1, 0x090dfb9c), (0xdd9b96d0, 0x75609d6b),
  (0x13b01f4f, 0xfc75ae3b), (0x5542d437, 0xb699cb6f), (0x47055524, 0x973b7425),
  (0xe2d6ca4c, 0x20297c86)]

/-- The pair that covers the gap above the first one. -/
def gapPair : U32 × U32 := (0x6e8ab3e2, 0xedf11c7b)

/-- A product that stays below the complement of the outer factor. -/
theorem fold64_mixed_of_complement {a y : U64} {M k : ℕ} (hM : a.toNat + M = 2 ^ 64)
    (hy : y.toNat ≤ 2 ^ 61) (h₁ : k * 2 ^ 64 + 2 ^ 61 < M * y.toNat)
    (h₂ : M * y.toNat ≤ k * 2 ^ 64 + 7 * 2 ^ 61) : Mixed (fold64 a y) := by
  have hsum : a.toNat * y.toNat + M * y.toNat = 2 ^ 64 * y.toNat := by rw [← Nat.add_mul, hM]
  apply fold64_mixed hy <;> omega

/-- Unless it is the word of ones, the outer factor and some pair give a mixed word. -/
theorem exists_pair_mixed {a : U64} (h63 : 2 ^ 63 ≤ a.toNat) (hne : a ≠ BitVec.allOnes 64) :
    ∃ e, Mixed (fold64 a (innerProduct e)) := by
  obtain ⟨M, hM⟩ : ∃ M, a.toNat + M = 2 ^ 64 := ⟨2 ^ 64 - a.toNat, by have := a.isLt; omega⟩
  have hM2 : 2 ≤ M := by
    by_contra hlt
    apply hne
    apply BitVec.eq_of_toNat_eq
    have := a.isLt
    rw [BitVec.toNat_allOnes]
    omega
  have hcons : smallPairs.map (fun e => (innerProduct e).toNat) =
      3 :: smallPairs.tail.map fun e => (innerProduct e).toNat := by decide
  rcases Nat.lt_or_ge (7 * 2 ^ 61) (M * 3) with hlarge | hsmall
  · -- the product with three or with five wraps once
    rcases Nat.lt_or_ge (3 * 2 ^ 61) M with hM3 | hM3
    · have hthree : (innerProduct (0x04ad9469, 0x14e4154e)).toNat = 3 := by decide
      refine ⟨(0x04ad9469, 0x14e4154e), fold64_mixed_of_complement (k := 1) hM ?_ ?_ ?_⟩ <;>
        rw [hthree] <;> omega
    · have hfive : (innerProduct gapPair).toNat = 5 := by decide
      refine ⟨gapPair, fold64_mixed_of_complement (k := 1) hM ?_ ?_ ?_⟩ <;> rw [hfive] <;> omega
  · have hchain : List.IsChain (fun a b => b ≤ 7 * a) (smallPairs.map fun e => (innerProduct e).toNat) := by
      decide
    have hlast : 1518201093618098370 ∈ smallPairs.map fun e => (innerProduct e).toNat := by decide
    have hbound : smallPairs.all (fun e => (innerProduct e).toNat ≤ 0x2000000000000000) = true := by
      decide
    rw [hcons] at hchain hlast
    have hlarge : 2 ^ 61 < M * 1518201093618098370 :=
      lt_of_lt_of_le (by norm_num) (Nat.mul_le_mul_right _ hM2)
    obtain ⟨z, hz, hwin⟩ := exists_mul_mem_window hchain hsmall ⟨_, hlast, hlarge⟩
    rw [← hcons] at hz
    obtain ⟨e, he, rfl⟩ := List.mem_map.mp hz
    have hsmall : (innerProduct e).toNat ≤ 2 ^ 61 :=
      (of_decide_eq_true (List.all_eq_true.mp hbound e he)).trans (by norm_num)
    exact ⟨e, fold64_mixed_of_complement (k := 0) hM hsmall (by omega) (by omega)⟩

theorem exists_outerFactor_mixed {len : ℕ} (h63 : len < 2 ^ 63) (hne : len ≠ onesLength) :
    ∃ e, Mixed (fold64 (outerFactor len) (innerProduct e)) := by
  apply exists_pair_mixed (le_toNat_outerFactor h63)
  exact fun h => hne ((outerFactor_eq_allOnes_iff h63).mp h)

namespace Locations

variable {L : Locations} {len : ℕ}

/-! ### Location hashes of wyhash -/

theorem halves_append (hi lo : U32) :
    (hi ++ lo : U64).setWidth 32 = lo ∧ ((hi ++ lo : U64) >>> 32).setWidth 32 = hi := by
  constructor <;> ext i h
  · rw [BitVec.getElem_setWidth]
    exact BitVec.getLsbD_append.trans (by simp [h])
  · rw [BitVec.getElem_setWidth, BitVec.getLsbD_ushiftRight]
    exact BitVec.getLsbD_append.trans (by simp [h])

/-- The location hashes reach every outer product with an inner product of a pair. -/
theorem exists_wyhashOfWords {n : ℕ} (h1 : 1 ≤ n) (h4 : n ≤ 4) (len : ℕ) (e : U32 × U32) :
    ∃ values : List U64, values.length = n ∧
      wyhashOfWords len values = fold64 (outerFactor len) (innerProduct e) := by
  interval_cases n
  · refine ⟨[e.2 ++ e.1], rfl, ?_⟩
    obtain ⟨hlow, hhigh⟩ := halves_append e.2 e.1
    simp only [wyhashOfWords, hlow, hhigh]
    rfl
  · exact ⟨[1#64 ^^^ wyp 1, innerProduct e ^^^ wyp 0], rfl, by
      simp [wyhashOfWords, wymix, outerFactor]⟩
  · exact ⟨[1#64 ^^^ wyp 1, innerProduct e ^^^ wyp 0, 1#64], rfl, by
      simp [wyhashOfWords, wymix, outerFactor]⟩
  · exact ⟨[0#64, 0#64, 1#64 ^^^ wyp 2, innerProduct e ^^^ wyp 0], rfl, by
      simp [wyhashOfWords, wymix, outerFactor]⟩

/-- The words at the locations can be chosen freely. -/
theorem exists_fixed_wyhash (hnodup : (L.locs.map wordIndex).Nodup) (hcov : 8 * L.last + 8 ≤ len)
    (h63 : len < 2 ^ 63) (e : U32 × U32) : ∃ f : ℕ → U64, L.fixed .wyhash (Str.ofWords len h63 f) =
      some (fold64 (outerFactor len) (innerProduct e)) := by
  obtain ⟨values, hlen, hvalues⟩ := exists_wyhashOfWords L.one_le L.le_four len e
  obtain ⟨f, hf⟩ := exists_map_eq hnodup (hlen.trans (List.length_map _).symm)
  refine ⟨f, ?_⟩
  rw [L.fixed_ofWords .wyhash h63 hcov, ← hvalues, ← hf]
  rfl

/-! ### Location hashes of XXH3 -/

/-- Two products of different words: one of them is cleared, the other is a single word. -/
theorem exists_xxh3TwoPairs {i j : ℕ} (hij : i ≠ j) (len : ℕ) (h : U64) :
    ∃ f : ℕ → U64, xxh3TwoPairs len (f i) (f (i + 1)) (f j) (f (j + 1)) = h := by
  let x := h - BitVec.ofNat 64 len * xxhPrime64_1
  by_cases hnext : i = j + 1
  · -- the second word of the second pair is the free one, so its first word is the one that clears
    refine ⟨fun r => if r = i then x ^^^ secret64 xxh3KSecret 0 else
      if r = i + 1 then 1#64 ^^^ secret64 xxh3KSecret 8 else secret64 xxh3KSecret 16, ?_⟩
    have hj : j ≠ i + 1 := by omega
    simp [xxh3TwoPairs, hij.symm, hj, x]
  · refine ⟨fun r => if r = i then x ^^^ secret64 xxh3KSecret 0 else
      if r = i + 1 then 1#64 ^^^ secret64 xxh3KSecret 8 else secret64 xxh3KSecret 24, ?_⟩
    have hj : j + 1 ≠ i := by omega
    simp [xxh3TwoPairs, hij.symm, hj, x]

/-- The location hashes of XXH3 reach every value. -/
theorem exists_hashOfWords_xxh3 (hnodup : (L.locs.map wordIndex).Nodup) (len : ℕ) (h : U64) :
    ∃ f, L.hashOfWords .xxh3 len f = h := by
  obtain ⟨x, hx⟩ := xxh3Avalanche_surjective h
  cases L using byLength with
  | one a h₁ h₄ hs hr =>
    refine ⟨fun _ => x - BitVec.ofNat 64 len ^^^
      (secret64 xxh3KSecret 8 ^^^ secret64 xxh3KSecret 16), ?_⟩
    simp [hashOfWords, Family.ofWords, readWords, xxh3OfWords, xxh3Word, hx]
  | two a b h₁ h₄ hs hr hab =>
    have hne : wordIndex b ≠ wordIndex a := by
      intro heq
      simp [heq] at hnodup
    refine ⟨fun r => if r = wordIndex a then secret64 xxh3KSecret 24 ^^^ secret64 xxh3KSecret 32 else
      x - BitVec.ofNat 64 len ^^^ (secret64 xxh3KSecret 40 ^^^ secret64 xxh3KSecret 48), ?_⟩
    have hswap : xxhSwap64 0#64 = 0#64 := by decide
    simp [hashOfWords, Family.ofWords, readWords, xxh3OfWords, xxh3TwoWords, hne, hswap, hx]
  | three a b c h₁ h₄ hs hr hab hbc =>
    have hne : wordIndex a ≠ wordIndex b := by
      intro heq
      simp [heq] at hnodup
    exact exists_xxh3TwoPairs hne len h
  | four a b c d h₁ h₄ hs hr hab hbc hcd =>
    have hne : wordIndex a ≠ wordIndex c := by
      intro heq
      simp [heq] at hnodup
    exact exists_xxh3TwoPairs hne len h

end Locations

/-! ### Full-key hashes -/

/-- A byte that gives a mixed hash when it fills a short key, searched below six. -/
def hasMixedFill (hash : List Byte → ℕ → Option U64) (len : ℕ) : Bool :=
  (List.range 6).any fun c =>
    (hash (List.replicate len (BitVec.ofNat 8 c)) len).any fun h => decide (Mixed h)

theorem xxh3_hasMixedFill : ∀ len ∈ List.range' 8 40, hasMixedFill xxh3_64bits len = true :=
  List.all_eq_true.mp (by decide +kernel)

theorem wyhash_hasMixedFill :
    ∀ len ∈ List.range' 8 41, hasMixedFill (fun key len => wyhash key len 0 wyp) len = true :=
  List.all_eq_true.mp (by decide +kernel)

theorem exists_of_hasMixedFill {hash : List Byte → ℕ → Option U64} {len : ℕ}
    (h : hasMixedFill hash len = true) :
    ∃ key : List Byte, key.length = len ∧ ∃ v, hash key len = some v ∧ Mixed v := by
  obtain ⟨c, -, hc⟩ := List.any_eq_true.mp h
  obtain ⟨v, hv, hmixed⟩ := (Option.any_eq_true _ _).mp hc
  exact ⟨_, List.length_replicate, v, hv, of_decide_eq_true hmixed⟩

theorem exists_xxh3_mixed {len : ℕ} (h8 : 8 ≤ len) : ∃ key : List Byte, key.length = len ∧
    ∃ v, xxh3_64bits key len = some v ∧ Mixed v := by
  rcases Nat.lt_or_ge len 48 with hshort | h48
  · exact exists_of_hasMixedFill (xxh3_hasMixedFill len (by rw [List.mem_range'_1]; omega))
  · obtain ⟨f, hf⟩ := exists_xxh3_64bits h48 (BitVec.ofNat 64 (2 ^ 61))
    exact ⟨_, length_pack len f, _, hf, by decide⟩

theorem exists_wyhash_mixed {len : ℕ} (h8 : 8 ≤ len) (h63 : len < 2 ^ 63) (hne : len ≠ onesLength) :
    ∃ key : List Byte, key.length = len ∧ ∃ v, wyhash key len 0 wyp = some v ∧ Mixed v := by
  rcases Nat.lt_or_ge 48 len with h48 | hshort
  · obtain ⟨e, he⟩ := exists_outerFactor_mixed h63 hne
    obtain ⟨key, hkey, hhash⟩ := exists_wyhash h48 (innerProduct e)
    exact ⟨key, hkey, _, hhash, he⟩
  · exact exists_of_hasMixedFill (wyhash_hasMixedFill len (by rw [List.mem_range'_1]; omega))

/-! ### The functors -/

/-- The family and the length leave the upper half of the hash free. -/
def UpperHalfFree (fam : Family) (len : ℕ) : Prop :=
  fam ≠ .crc32wyhash ∧ (fam = .wyhash → len ≠ onesLength)

theorem exists_fullKey_mixed {fam : Family} {len : ℕ} (hfree : UpperHalfFree fam len) (h8 : 8 ≤ len)
    (h63 : len < 2 ^ 63) :
    ∃ key : Str, key.size = len ∧ ∃ v, fam.fullKey key = some v ∧ Mixed v := by
  cases fam with
  | xxh3 =>
    obtain ⟨key, rfl, v, hv⟩ := exists_xxh3_mixed h8
    exact ⟨⟨key, h63⟩, rfl, v, hv⟩
  | wyhash =>
    obtain ⟨key, rfl, v, hv⟩ := exists_wyhash_mixed h8 h63 (hfree.2 rfl)
    exact ⟨⟨key, h63⟩, rfl, v, hv⟩
  | crc32wyhash => exact absurd rfl hfree.1

namespace Locations

variable {L : Locations} {fam : Family} {len : ℕ}

theorem exists_fixed_mixed (hnodup : (L.locs.map wordIndex).Nodup) (hcov : 8 * L.last + 8 ≤ len)
    (hfree : UpperHalfFree fam len) (h63 : len < 2 ^ 63) :
    ∃ key : Str, key.size = len ∧ ∃ v, L.fixed fam key = some v ∧ Mixed v := by
  cases fam with
  | xxh3 =>
    obtain ⟨f, hf⟩ := exists_hashOfWords_xxh3 hnodup len (BitVec.ofNat 64 (2 ^ 61))
    exact ⟨Str.ofWords len h63 f, Str.size_ofWords .., _, L.fixed_ofWords .xxh3 h63 hcov f,
      hf ▸ by decide⟩
  | wyhash =>
    obtain ⟨e, he⟩ := exists_outerFactor_mixed h63 (hfree.2 rfl)
    obtain ⟨f, hf⟩ := exists_fixed_wyhash hnodup hcov h63 e
    exact ⟨Str.ofWords len h63 f, Str.size_ofWords .., _, hf, he⟩
  | crc32wyhash => exact absurd rfl hfree.1

/-- On keys of one length the variable functor is the fixed one or the full-key one. -/
theorem functor_eq_or (L : Locations) (fam : Family) (len : ℕ) :
    (∀ key : Str, key.size = len → L.functor fam key = L.fixed fam key) ∨
      ∀ key : Str, key.size = len → L.functor fam key = fam.fullKey key := by
  by_cases hguard : fam.Guard (endpoint L.last) len
  · refine .inl fun key hkey => ?_
    rw [functor_eq, if_pos (hkey ▸ hguard)]
  · refine .inr fun key hkey => ?_
    rw [functor_eq, if_neg (hkey ▸ hguard)]

end Locations

/-! ### The single length of wyhash -/

theorem fold64_allOnes_eq_or (y : U64) : fold64 (BitVec.allOnes 64) y = 0 ∨
    fold64 (BitVec.allOnes 64) y = BitVec.allOnes 64 := by
  by_cases hy : y = 0
  · exact .inl (by rw [hy]; exact fold64_zero_right _)
  · exact .inr (fold64_allOnes hy)

theorem wyhash_onesLength {key : List Byte} {v : U64} (h : wyhash key onesLength 0 wyp = some v) :
    v = 0 ∨ v = BitVec.allOnes 64 := by
  obtain ⟨⟨a, b, seed⟩, -, hv⟩ := Option.bind_eq_some_iff.mp h
  rw [← Option.some.inj hv]
  exact outerFactor_onesLength ▸ fold64_allOnes_eq_or _

theorem wyhashOfWords_onesLength (values : List U64) : wyhashOfWords onesLength values = 0 ∨
    wyhashOfWords onesLength values = BitVec.allOnes 64 := by
  have hfold := fun y => outerFactor_onesLength ▸ fold64_allOnes_eq_or y
  match values with
  | [a] => exact hfold _
  | [a, b] => exact hfold _
  | [a, b, c] =>
    have houter : wyhashOfWords onesLength [a, b, c] =
        fold64 (fold64 (outerFactor onesLength) c) (wymix (a ^^^ wyp 1) (b ^^^ wyp 0)) := rfl
    rw [houter, outerFactor_onesLength]
    rcases fold64_allOnes_eq_or c with hc | hc
    · rw [hc]
      exact .inl (fold64_zero_left _)
    · rw [hc]
      exact fold64_allOnes_eq_or _
  | [a, b, c, d] => exact hfold _
  | [] => exact .inl rfl
  | _ :: _ :: _ :: _ :: _ :: _ => exact .inl rfl

theorem fullKey_onesLength {key : Str} (hkey : key.size = onesLength) {v : U64}
    (h : Family.wyhash.fullKey key = some v) : v = 0 ∨ v = BitVec.allOnes 64 := by
  apply @wyhash_onesLength key.bytes
  rw [← hkey]
  exact h

theorem exists_fullKey_allOnes :
    ∃ key : Str, key.size = onesLength ∧ Family.wyhash.fullKey key = some (BitVec.allOnes 64) := by
  obtain ⟨key, hkey, hhash⟩ := exists_wyhash (show 48 < onesLength by decide) 1
  refine ⟨⟨key, hkey ▸ by decide⟩, hkey, ?_⟩
  have hones : wymix (wyp 1 ^^^ BitVec.ofNat 64 onesLength) 1 = BitVec.allOnes 64 := by decide
  rw [hones, ← hkey] at hhash
  exact hhash

/-- A full-key CRC of at least eight bytes ends with an update of 32 bits. -/
theorem fullKey_crc_lt {key : Str} (h8 : 8 ≤ key.size) {v : U64}
    (h : Family.crc32wyhash.fullKey key = some v) : v.toNat < 2 ^ 32 := by
  change crcHash key.bytes key.size = some v at h
  rw [crcHash, if_neg (by omega), if_neg (by omega)] at h
  obtain ⟨res, -, hres⟩ := Option.bind_eq_some_iff.mp h
  obtain ⟨w, -, hw⟩ := Option.bind_eq_some_iff.mp hres
  rw [← Option.some.inj hw]
  exact toNat_mmCrc32U64_lt _ _

namespace Locations

variable {L : Locations} {key : Str} {v : U64}

theorem fixed_onesLength (hcov : 8 * L.last + 8 ≤ onesLength) (hkey : key.size = onesLength)
    (h : L.fixed .wyhash key = some v) : v = 0 ∨ v = BitVec.allOnes 64 := by
  rw [L.fixed_wyhash_eq (covers_readWords (by omega) .wyhash), hkey] at h
  rw [← Option.some.inj h]
  exact wyhashOfWords_onesLength _

theorem exists_fixed_allOnes (hnodup : (L.locs.map wordIndex).Nodup)
    (hcov : 8 * L.last + 8 ≤ onesLength) :
    ∃ key : Str, key.size = onesLength ∧ L.fixed .wyhash key = some (BitVec.allOnes 64) := by
  obtain ⟨f, hf⟩ := exists_fixed_wyhash hnodup hcov (by decide) gapPair
  refine ⟨Str.ofWords onesLength (by decide) f, Str.size_ofWords .., hf.trans ?_⟩
  rw [outerFactor_onesLength, fold64_allOnes (by decide)]

theorem fixed_crc_lt (hcov : 8 * L.last + 8 ≤ key.size) (h : L.fixed .crc32wyhash key = some v) :
    v.toNat < 2 ^ 32 := by
  rw [L.fixed_crc32wyhash_eq (covers_readWords (by omega) .crc32wyhash)] at h
  rw [← Option.some.inj h]
  cases L using byLength <;> exact toNat_mmCrc32U64_lt _ _

end Locations

end EntropyLearnedHashing
