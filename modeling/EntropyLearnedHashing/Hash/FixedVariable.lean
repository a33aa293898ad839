import EntropyLearnedHashing.Hash.ByteCoverage
import EntropyLearnedHashing.Hash.FullKey
import EntropyLearnedHashing.Hash.Xxh3Long
import EntropyLearnedHashing.Hash.ZeroWord

/-! The hashes of variable length against those of fixed length, on keys that reach the
end of the last location. The wyhash variants call the fixed hash without their seed
and secret, the crc variants from two locations on without their seed, and the XXH3
variants compare the length strictly, so the key that ends with the last word gets the
full-key hash. Each difference is visible on some key unless the arguments happen to
be the defaults. -/

namespace EntropyLearnedHashing

open LittleEndian WordMix

/-! ### The functions by the number of locations -/

/-- The hash of variable length of `wyhash_customs.hh` over `n` locations. -/
def wyhashNloc (n : ℕ) : List Byte → ℕ → List U32 → U64 → (Fin 4 → U64) → Option U64 :=
  match n with
  | 1 => wyhash1loc
  | 2 => wyhash2loc
  | 3 => wyhash3loc
  | _ => wyhash4loc

/-- The hash of variable length of `crc_wyhash_customs.hh` over `n` locations. -/
def crc32WyhashNloc (n : ℕ) : List Byte → ℕ → List U32 → U64 → Option U64 :=
  match n with
  | 1 => crc32Wyhash1loc
  | 2 => crc32Wyhash2loc
  | 3 => crc32Wyhash3loc
  | _ => crc32Wyhash4loc

/-- The hash of variable length of `xxhash_customs.hh` over `n` locations. -/
def xxh3Nloc (n : ℕ) : List Byte → ℕ → List U32 → Option U64 :=
  match n with
  | 1 => xxh3_1loc
  | 2 => xxh3_2loc
  | 3 => xxh3_3loc
  | _ => xxh3_4loc

/-- The fixed hash of `xxhash_customs.hh` over `n` locations, with the default secret. -/
def xxh3NlocFixed (n : ℕ) (input : List Byte) (len : ℕ) (locations : List U32) : Option U64 :=
  match n with
  | 1 => xxh3_1locFixed input len locations xxh3KSecret
  | 2 => xxh3_2locFixed input len locations xxh3KSecret
  | 3 => xxh3_3locFixed input len locations xxh3KSecret
  | _ => xxh3_4locFixed input len locations xxh3KSecret

namespace Locations

/-- The offsets and the endpoint that both variants are called with. -/
def cached (L : Locations) : List U32 := L.ints.map byteOffset ++ [endpoint L.last]

/-- Two hashes agree on every key that reaches the end of the last location. -/
def Agree (L : Locations) (f g : List Byte → ℕ → List U32 → Option U64) : Prop :=
  ∀ key : Str, 8 * L.last + 8 ≤ key.size →
    f key.bytes key.size L.cached = g key.bytes key.size L.cached

/-- The seed and the secret act as the defaults on `n` locations. -/
def ActAsDefault (n : ℕ) (seed : U64) (secret : Fin 4 → U64) : Prop :=
  secret 1 = wyp 1 ∧ (if n = 1 then seed = 0 else seed ^^^ secret 0 = wyp 0) ∧
    (n = 4 → secret 2 = wyp 2)

/-! ### wyhash -/

/-- The fixed hashes of `wyhash_customs.hh` on the words they read, for any seed and secret. -/
def wyhashOfWordsWith (len : ℕ) (seed : U64) (secret : Fin 4 → U64) : List U64 → U64
  | [a] => wymix (secret 1 ^^^ BitVec.ofNat 64 len)
      (wymix ((a.setWidth 32).setWidth 64 ^^^ secret 1) (((a >>> 32).setWidth 32).setWidth 64 ^^^ seed))
  | [a, b] => wymix (secret 1 ^^^ BitVec.ofNat 64 len)
      (wymix (a ^^^ secret 1) (b ^^^ (seed ^^^ secret 0)))
  | [a, b, c] => wymix (wymix (secret 1 ^^^ BitVec.ofNat 64 len) c)
      (wymix (a ^^^ secret 1) (b ^^^ (seed ^^^ secret 0)))
  | [a, b, c, d] => wymix (secret 1 ^^^ BitVec.ofNat 64 len)
      (wymix a b ^^^ wymix (c ^^^ secret 2) (d ^^^ (seed ^^^ secret 0)))
  | _ => 0

theorem last_lt (L : Locations) : L.last < 2 ^ 31 := by
  cases L using byLength with
  | one a h₁ h₄ hs hr => exact hr a (by simp)
  | two a b h₁ h₄ hs hr => exact hr b (by simp)
  | three a b c h₁ h₄ hs hr => exact hr c (by simp)
  | four a b c d h₁ h₄ hs hr => exact hr d (by simp)

/-- The key of zeros of a given length. -/
def zeroKey {len : ℕ} (h : len < 2 ^ 63) : Str := Str.ofWords len h fun _ => 0

section

variable {L : Locations} {key : Str} (hcov : 8 * L.last + 8 ≤ key.size)
include hcov

theorem endpoint_le : (endpoint L.last).toNat ≤ key.size := (toNat_endpoint_le L.last).trans hcov

theorem wyhashNlocFixed_eq (seed : U64) (secret : Fin 4 → U64) :
    wyhashNlocFixed L.locs.length key.bytes key.size L.cached seed secret =
      some (wyhashOfWordsWith key.size seed secret
        (L.locs.map fun l => word64 (key.word (wordIndex l)))) := by
  have hload := fun l hl => Str.loads_of_covers (covers_wordIndex hcov l hl)
  cases L using byLength <;>
    simp only [List.mem_cons, List.not_mem_nil, or_false, forall_eq_or_imp, forall_eq] at hload <;>
    simp [wyhashNlocFixed, wyhash1locFixed, wyhash2locFixed, wyhash3locFixed, wyhash4locFixed, cached,
      ints, wyr4, wyr8, toNat_byteOffset, hload, wyhashOfWordsWith]

/-- The variable hash drops its seed and its secret. -/
theorem wyhashNloc_eq (seed : U64) (secret : Fin 4 → U64) :
    wyhashNloc L.locs.length key.bytes key.size L.cached seed secret =
      wyhashNlocFixed L.locs.length key.bytes key.size L.cached 0 wyp := by
  have hle := endpoint_le hcov
  cases L using byLength <;>
    simp [wyhashNloc, wyhash1loc, wyhash2loc, wyhash3loc, wyhash4loc, wyhashNlocFixed, cached, ints] at hle ⊢ <;>
    simp [hle]

end

section Necessity

variable {L : Locations} {seed : U64} {secret : Fin 4 → U64}

/-- Agreement on keys is agreement on all lengths and words. -/
theorem Agree.ofWords (hnodup : (L.locs.map wordIndex).Nodup)
    (h : L.Agree (wyhashNloc L.locs.length · · · seed secret)
      (wyhashNlocFixed L.locs.length · · · seed secret))
    {len : ℕ} (hlen : 8 * L.last + 8 ≤ len) (h63 : len < 2 ^ 63) {values : List U64}
    (hvalues : values.length = L.locs.length) :
    wyhashOfWordsWith len 0 wyp values = wyhashOfWordsWith len seed secret values := by
  obtain ⟨key, hsize, hwords⟩ := L.exists_key hnodup hlen h63 hvalues
  have hcov : 8 * L.last + 8 ≤ key.size := by rwa [hsize]
  have hkey := h key hcov
  beta_reduce at hkey
  rw [wyhashNloc_eq hcov, wyhashNlocFixed_eq hcov, wyhashNlocFixed_eq hcov, hwords, hsize] at hkey
  exact Option.some.inj hkey

/-- The length after an even one differs in the lowest bit. -/
theorem ofNat_two_mul_succ (k : ℕ) :
    BitVec.ofNat 64 (2 * k + 1) = BitVec.ofNat 64 (2 * k) ^^^ 1#64 := by
  apply BitVec.eq_of_toNat_eq
  have heven : Even (2 * k % 2 ^ 64) := ⟨k % 2 ^ 63, by omega⟩
  rw [BitVec.toNat_xor, BitVec.toNat_ofNat, BitVec.toNat_ofNat, BitVec.toNat_ofNat,
    show 1 % 2 ^ 64 = 1 from rfl, Nat.xor_one_of_even heven]
  omega

/-- A word that every length folds to zero is zero. -/
theorem eq_zero_of_lengths {last : ℕ} (hlast : last < 2 ^ 31) {s y : U64}
    (h : ∀ len, 8 * last + 8 ≤ len → len < 2 ^ 63 → 0 = fold64 (s ^^^ BitVec.ofNat 64 len) y) :
    y = 0 := by
  have heven := h (2 * (4 * last + 4)) (by omega) (by omega)
  have hodd := h (2 * (4 * last + 4) + 1) (by omega) (by omega)
  rw [ofNat_two_mul_succ, ← BitVec.xor_assoc] at hodd
  exact eq_zero_of_fold64_neighbours heven.symm hodd.symm

section Words

variable {last : ℕ} (hlast : last < 2 ^ 31)
include hlast

theorem actAsDefault_one (h : ∀ len, 8 * last + 8 ≤ len → len < 2 ^ 63 → ∀ a,
    wyhashOfWordsWith len 0 wyp [a] = wyhashOfWordsWith len seed secret [a]) :
    ActAsDefault 1 seed secret := by
  -- a word without a high half gives zero, so the seed must do the same
  have hseed : seed = 0 := by
    have hlow : ∀ a : U64, ((a >>> 32).setWidth 32).setWidth 64 = 0#64 →
        fold64 ((a.setWidth 32).setWidth 64 ^^^ secret 1) seed = 0 := by
      intro a ha
      apply eq_zero_of_lengths hlast (s := secret 1)
      intro len hlen h63
      simpa [wyhashOfWordsWith, wymix, ha] using h len hlen h63 a
    have h0 : fold64 (secret 1) seed = 0 := by simpa using hlow 0 (by decide)
    have h1 : fold64 (secret 1 ^^^ 1#64) seed = 0 := by
      rw [BitVec.xor_comm]
      simpa using hlow 1 (by decide)
    exact eq_zero_of_fold64_neighbours h0 h1
  subst hseed
  -- at this length the default secret makes the outer factor a word of ones
  let len := 0x18fc812e5f4bd724
  have hlen : wyp 1 ^^^ BitVec.ofNat 64 len = BitVec.allOnes 64 := by decide
  have hones : ∀ a : U64, ((a >>> 32).setWidth 32).setWidth 64 = 1#64 →
      (a.setWidth 32).setWidth 64 ^^^ wyp 1 ≠ 0 →
      fold64 (secret 1 ^^^ BitVec.ofNat 64 len) ((a.setWidth 32).setWidth 64 ^^^ secret 1) =
        BitVec.allOnes 64 := by
    intro a hhigh hlow
    have hkey := h len (by omega) (by decide) a
    simp only [wyhashOfWordsWith, wymix, hhigh, hlen, BitVec.ofNat_eq_ofNat, BitVec.xor_zero,
      fold64_one_right, fold64_allOnes hlow] at hkey
    exact hkey.symm
  have h0 : fold64 (secret 1 ^^^ BitVec.ofNat 64 len) (secret 1) = BitVec.allOnes 64 := by
    simpa using hones (1#64 <<< 32) (by decide) (by decide)
  have h1 : fold64 (secret 1 ^^^ BitVec.ofNat 64 len) (secret 1 ^^^ 1#64) = BitVec.allOnes 64 := by
    rw [BitVec.xor_comm (secret 1) 1#64]
    simpa using hones (1#64 <<< 32 ||| 1#64) (by decide) (by decide)
  have hsecret := eq_allOnes_of_fold64_neighbours h0 h1
  rw [← hlen] at hsecret
  exact ⟨(BitVec.xor_left_inj _).mp hsecret, rfl, fun h => absurd h (by decide)⟩

theorem actAsDefault_two (h : ∀ len, 8 * last + 8 ≤ len → len < 2 ^ 63 → ∀ a b,
    wyhashOfWordsWith len 0 wyp [a, b] = wyhashOfWordsWith len seed secret [a, b]) :
    ActAsDefault 2 seed secret := by
  have hseed : seed ^^^ secret 0 = wyp 0 := by
    rw [eq_comm, ← BitVec.xor_eq_zero_iff]
    apply eq_zero_of_lengths hlast (s := secret 1)
    intro len hlen h63
    simpa [wyhashOfWordsWith, wymix] using h len hlen h63 (secret 1 ^^^ 1#64) (wyp 0)
  have hsecret : wyp 1 ^^^ secret 1 = 0 := by
    apply eq_zero_of_lengths hlast (s := secret 1)
    intro len hlen h63
    simpa [wyhashOfWordsWith, wymix, hseed] using h len hlen h63 (wyp 1) (wyp 0 ^^^ 1#64)
  exact ⟨(BitVec.xor_eq_zero_iff.mp hsecret).symm, hseed, fun h => absurd h (by decide)⟩

theorem actAsDefault_four (h : ∀ len, 8 * last + 8 ≤ len → len < 2 ^ 63 → ∀ c d,
    wyhashOfWordsWith len 0 wyp [0, 0, c, d] = wyhashOfWordsWith len seed secret [0, 0, c, d]) :
    ActAsDefault 4 seed secret := by
  have hseed : seed ^^^ secret 0 = wyp 0 := by
    rw [eq_comm, ← BitVec.xor_eq_zero_iff]
    apply eq_zero_of_lengths hlast (s := secret 1)
    intro len hlen h63
    simpa [wyhashOfWordsWith, wymix] using h len hlen h63 (secret 2 ^^^ 1#64) (wyp 0)
  have hthird : wyp 2 ^^^ secret 2 = 0 := by
    apply eq_zero_of_lengths hlast (s := secret 1)
    intro len hlen h63
    simpa [wyhashOfWordsWith, wymix, hseed] using h len hlen h63 (wyp 2) (wyp 0 ^^^ 1#64)
  rw [BitVec.ofNat_eq_ofNat, BitVec.xor_eq_zero_iff] at hthird
  have hsecond : wyp 1 = secret 1 := by
    have hkey := h (8 * last + 8) le_rfl (by omega) (wyp 2 ^^^ 1#64) (wyp 0 ^^^ 1#64)
    simpa [wyhashOfWordsWith, wymix, hseed, ← hthird] using hkey
  exact ⟨hsecond.symm, hseed, fun _ => hthird.symm⟩

end Words

theorem actAsDefault_of_agree (hnodup : (L.locs.map wordIndex).Nodup)
    (h : L.Agree (wyhashNloc L.locs.length · · · seed secret)
      (wyhashNlocFixed L.locs.length · · · seed secret)) :
    ActAsDefault L.locs.length seed secret := by
  have hwords := fun len hlen h63 (values : List U64) => @Agree.ofWords L seed secret hnodup h len hlen h63 values
  have hlast := L.last_lt
  cases L using byLength with
  | one a => exact actAsDefault_one hlast fun len hlen h63 a => hwords len hlen h63 [a] rfl
  | two a b => exact actAsDefault_two hlast fun len hlen h63 a b => hwords len hlen h63 [a, b] rfl
  | three a b c =>
    have htwo : ActAsDefault 2 seed secret := actAsDefault_two hlast fun len hlen h63 a b => by
      simpa [wyhashOfWordsWith, wymix] using hwords len hlen h63 [a, b, 1] rfl
    exact ⟨htwo.1, htwo.2.1, fun h => absurd (show 3 = 4 from h) (by decide)⟩
  | four a b c d =>
    exact actAsDefault_four hlast fun len hlen h63 c d => hwords len hlen h63 [0, 0, c, d] rfl

end Necessity

theorem ActAsDefault.agree {L : Locations} {seed : U64} {secret : Fin 4 → U64}
    (h : ActAsDefault L.locs.length seed secret) :
    L.Agree (wyhashNloc L.locs.length · · · seed secret)
      (wyhashNlocFixed L.locs.length · · · seed secret) := by
  intro key hcov
  beta_reduce
  rw [wyhashNloc_eq hcov, wyhashNlocFixed_eq hcov, wyhashNlocFixed_eq hcov]
  congr 1
  obtain ⟨h1, h0, h2⟩ := h
  cases L using byLength <;> simp at h0 h2 <;> simp [wyhashOfWordsWith, h0, h1, h2]

/-! ### The crc family -/

/-- The fixed hashes of `crc_wyhash_customs.hh` on the words they read, from the start value
of the register. -/
def crc32WyhashOfWordsFrom (res : U64) : List U64 → U64
  | [a] => mmCrc32U64 res a
  | [a, b] => mmCrc32U64 (mmCrc32U64 res a) b
  | [a, b, c] => mmCrc32U64 b (c + mmCrc32U64 res a)
  | [a, b, c, d] => mmCrc32U64 d (mmCrc32U64 b a ^^^ mmCrc32U64 res c)
  | _ => 0

section Crc

variable {L : Locations} {key : Str} (hcov : 8 * L.last + 8 ≤ key.size)
include hcov

/-- Beyond one location the variable hash drops its seed. -/
theorem crc32WyhashNloc_eq (seed : U64) :
    crc32WyhashNloc L.locs.length key.bytes key.size L.cached seed =
      crc32WyhashNlocFixed L.locs.length key.bytes key.size L.cached
        (if L.locs.length = 1 then seed else 0) := by
  have hle := endpoint_le hcov
  cases L using byLength <;>
    simp [crc32WyhashNloc, crc32Wyhash1loc, crc32Wyhash2loc, crc32Wyhash3loc, crc32Wyhash4loc,
      crc32WyhashNlocFixed, cached, ints] at hle ⊢ <;>
    simp [hle]

theorem crc32WyhashNlocFixed_eq (seed : U64) :
    crc32WyhashNlocFixed L.locs.length key.bytes key.size L.cached seed =
      some (crc32WyhashOfWordsFrom (seed + BitVec.ofNat 64 key.size)
        (L.locs.map fun l => word64 (key.word (wordIndex l)))) := by
  have hload := fun l hl => (Str.loads_of_covers (covers_wordIndex hcov l hl)).1
  cases L using byLength <;>
    simp only [List.mem_cons, List.not_mem_nil, or_false, forall_eq_or_imp, forall_eq] at hload <;>
    simp [crc32WyhashNlocFixed, crc32Wyhash1locFixed, crc32Wyhash2locFixed, crc32Wyhash3locFixed,
      crc32Wyhash4locFixed, cached, ints, wyr8, toNat_byteOffset, hload, crc32WyhashOfWordsFrom]

end Crc

theorem map_word64_zeroKey {L : Locations} {len : ℕ} {h : len < 2 ^ 63}
    (hcov : 8 * L.last + 8 ≤ (zeroKey h).size) :
    (L.locs.map fun l => word64 ((zeroKey h).word (wordIndex l))) = List.replicate L.locs.length 0 := by
  rw [List.eq_replicate_iff]
  refine ⟨List.length_map _, ?_⟩
  intro x hx
  obtain ⟨l, hl, rfl⟩ := List.mem_map.mp hx
  have := covers_wordIndex hcov l hl
  rw [Str.Covers, zeroKey, Str.size_ofWords] at this
  exact Str.word64_word_ofWords _ _ _ _ (by omega)

/-- Different results of an update stay different as data of the next one. -/
theorem mmCrc32U64_data_ne (crc : U64) {a a' b b' : U64} (h : mmCrc32U64 a b ≠ mmCrc32U64 a' b') :
    mmCrc32U64 crc (mmCrc32U64 a b) ≠ mmCrc32U64 crc (mmCrc32U64 a' b') := by
  have hne : (mmCrc32U64 a b).toNat ^^^ (mmCrc32U64 a' b').toNat ≠ 0 := by
    rw [Ne, Nat.xor_eq_zero_iff]
    exact fun heq => h (BitVec.eq_of_toNat_eq heq)
  have hlt := Nat.xor_lt_two_pow (toNat_mmCrc32U64_lt a b) (toNat_mmCrc32U64_lt a' b')
  exact mmCrc32U64_ne (p := 0) (by decide) hlt hne (by simp)

/-- On zero words the register shows its start value. -/
theorem crc32WyhashOfWordsFrom_zero_ne {res res' : U64} (h : res.setWidth 32 ≠ res'.setWidth 32) :
    ∀ n ∈ [2, 3, 4], crc32WyhashOfWordsFrom res (List.replicate n 0) ≠
      crc32WyhashOfWordsFrom res' (List.replicate n 0) := by
  have hfirst := mmCrc32U64_state_ne h 0
  have hzero : mmCrc32U64 0#64 0#64 = 0#64 := by decide +kernel
  simp only [List.forall_mem_cons, List.not_mem_nil, false_imp_iff, forall_const, and_true]
  refine ⟨mmCrc32U64_ne_of_ne hfirst 0, ?_, ?_⟩
  · simpa [crc32WyhashOfWordsFrom] using mmCrc32U64_data_ne 0 hfirst
  · simpa [crc32WyhashOfWordsFrom, hzero] using mmCrc32U64_data_ne 0 hfirst

theorem crc32WyhashOfWordsFrom_congr {res res' : U64} (h : res.setWidth 32 = res'.setWidth 32)
    (words : List U64) : crc32WyhashOfWordsFrom res words = crc32WyhashOfWordsFrom res' words := by
  unfold crc32WyhashOfWordsFrom
  simp only [mmCrc32U64_congr h]

theorem setWidth_add_length (seed : U64) (len : ℕ) :
    (seed + BitVec.ofNat 64 len).setWidth 32 = (0 + BitVec.ofNat 64 len).setWidth 32 ↔
      seed.setWidth 32 = 0 := by
  rw [BitVec.setWidth_add _ _ (by decide), BitVec.setWidth_add _ _ (by decide), BitVec.add_left_inj]
  rfl

theorem crc32Wyhash_agree_iff (L : Locations) (seed : U64) :
    L.Agree (crc32WyhashNloc L.locs.length · · · seed) (crc32WyhashNlocFixed L.locs.length · · · seed) ↔
      L.locs.length = 1 ∨ seed.setWidth 32 = 0 := by
  by_cases hone : L.locs.length = 1
  · refine iff_of_true (fun key hcov => ?_) (.inl hone)
    beta_reduce
    rw [crc32WyhashNloc_eq hcov, if_pos hone]
  · simp only [hone, false_or]
    constructor
    · intro h
      have h63 : 8 * L.last + 8 < 2 ^ 63 := by
        have := L.last_lt
        omega
      have hsize : (zeroKey h63).size = 8 * L.last + 8 := Str.size_ofWords ..
      have hcov : 8 * L.last + 8 ≤ (zeroKey h63).size := hsize.ge
      have hkey := h _ hcov
      beta_reduce at hkey
      rw [crc32WyhashNloc_eq hcov, if_neg hone, crc32WyhashNlocFixed_eq hcov,
        crc32WyhashNlocFixed_eq hcov, map_word64_zeroKey hcov] at hkey
      by_contra hseed
      have hlow := mt (setWidth_add_length seed (zeroKey h63).size).mp hseed
      have hmem : L.locs.length ∈ [2, 3, 4] := by
        have := L.one_le
        have := L.le_four
        simp only [List.mem_cons, List.not_mem_nil, or_false]
        omega
      exact crc32WyhashOfWordsFrom_zero_ne hlow _ hmem (Option.some.inj hkey).symm
    · intro hseed key hcov
      beta_reduce
      rw [crc32WyhashNloc_eq hcov, if_neg hone, crc32WyhashNlocFixed_eq hcov, crc32WyhashNlocFixed_eq hcov,
        crc32WyhashOfWordsFrom_congr ((setWidth_add_length seed _).mpr hseed)]

/-! ### XXH3 -/

section Xxh3

variable (L : Locations)

theorem functor_xxh3_eq (key : Str) :
    L.functor .xxh3 key = xxh3Nloc L.locs.length key.bytes key.size L.cached := by
  cases L using byLength <;> rfl

theorem fixed_xxh3_eq_nlocFixed (key : Str) :
    L.fixed .xxh3 key = xxh3NlocFixed L.locs.length key.bytes key.size L.cached := by
  cases L using byLength <;> rfl

/-- The guard fails on the key that ends with the last word, if the endpoint fits. -/
theorem not_guard_iff {key : Str} (hcov : 8 * L.last + 8 ≤ key.size) :
    ¬Family.Guard .xxh3 (endpoint L.last) key.size ↔
      key.size = 8 * L.last + 8 ∧ 8 * L.last + 8 < 2 ^ 32 := by
  have hlt := L.last_lt
  rw [Family.Guard, toNat_endpoint]
  omega

/-- The zero keys of up to 240 bytes tell the full hash from the fixed ones. -/
theorem xxh3_64bits_zero_ne : ∀ l < 30, ∀ k ∈ [1, 2, 4], (k = 2 → l ≠ 1) →
    xxh3_64bits (pack (8 * l + 8) fun _ => 0) (8 * l + 8) ≠
      some (xxh3OfWords (8 * l + 8) (List.replicate k 0)) := by
  decide +kernel

theorem length_readWords_mem : (L.readWords .xxh3).length ∈ [1, 2, 4] ∧
    ((L.readWords .xxh3).length = 2 → L.last = 1 → L.locs = [0, 1]) := by
  cases L using byLength with
  | one a => simp [readWords]
  | two a b h₁ h₄ hs hr hab =>
    simp [readWords, last]
    omega
  | three a b c => simp [readWords]
  | four a b c d => simp [readWords]

/-- Some key that ends with the last word has a full hash different from its fixed one. -/
theorem exists_full_ne_fixed (hne : L.locs ≠ [0, 1]) (h32 : 8 * L.last + 8 < 2 ^ 32) :
    ∃ key : Str, key.size = 8 * L.last + 8 ∧ Family.fullKey .xxh3 key ≠ L.fixed .xxh3 key := by
  have h63 : 8 * L.last + 8 < 2 ^ 63 := by omega
  have hsize : ∀ f, (Str.ofWords (8 * L.last + 8) h63 f).size = 8 * L.last + 8 := Str.size_ofWords _ _
  have hfixed : ∀ f, L.fixed .xxh3 (Str.ofWords (8 * L.last + 8) h63 f) =
      some (L.hashOfWords .xxh3 (8 * L.last + 8) f) := by
    intro f
    have hcov := covers_readWords (hsize f).ge .xxh3
    rw [fixed_xxh3_eq L hcov, hsize, hashOfWords_congr]
    intro r hr
    have := hcov r hr
    rw [Str.Covers, hsize] at this
    exact Str.word64_word_ofWords _ _ _ _ (by omega)
  have hfull : ∀ f, Family.fullKey .xxh3 (Str.ofWords (8 * L.last + 8) h63 f) =
      xxh3_64bits (pack (8 * L.last + 8) f) (8 * L.last + 8) :=
    fun f => congrArg (xxh3_64bits (pack (8 * L.last + 8) f)) (hsize f)
  rcases Nat.lt_or_ge 240 (8 * L.last + 8) with hlong | hshort
  · -- the fixed hash does not see the words in which two keys differ
    obtain ⟨hlen, -⟩ := L.length_readWords_mem
    have hfour : (L.readWords .xxh3).length ≤ 4 := by
      simp only [List.mem_cons, List.not_mem_nil, or_false] at hlen
      omega
    obtain ⟨f, g, hfg, hdiff⟩ := exists_ne_of_unread hlong hfour
    by_contra hall
    push Not at hall
    apply hdiff
    rw [← hfull f, ← hfull g, hall _ (hsize f), hall _ (hsize g), hfixed, hfixed,
      L.hashOfWords_congr .xxh3 _ hfg]
  · refine ⟨_, hsize fun _ => 0, ?_⟩
    obtain ⟨hlen, htwo⟩ := L.length_readWords_mem
    rw [hfull, hfixed, hashOfWords, List.map_const']
    exact xxh3_64bits_zero_ne L.last (by omega) _ hlen fun h2 h1 => hne (htwo h2 h1)

theorem xxh3_agree_iff :
    L.Agree (xxh3Nloc L.locs.length) (xxh3NlocFixed L.locs.length) ↔
      L.locs = [0, 1] ∨ 2 ^ 32 ≤ 8 * L.last + 8 := by
  have hagree : L.Agree (xxh3Nloc L.locs.length) (xxh3NlocFixed L.locs.length) ↔
      ∀ key : Str, 8 * L.last + 8 ≤ key.size → L.functor .xxh3 key = L.fixed .xxh3 key := by
    simp only [Agree, functor_xxh3_eq, fixed_xxh3_eq_nlocFixed]
  rw [hagree]
  constructor
  · intro h
    by_contra hcon
    push Not at hcon
    obtain ⟨key, hsize, hdiff⟩ := L.exists_full_ne_fixed hcon.1 hcon.2
    have hguard := (L.not_guard_iff hsize.ge).mpr ⟨hsize, hcon.2⟩
    have hkey := h key hsize.ge
    rw [functor_eq, if_neg hguard] at hkey
    exact hdiff hkey
  · intro h key hcov
    by_cases hguard : Family.Guard .xxh3 (endpoint L.last) key.size
    · rw [functor_eq, if_pos hguard]
    · obtain ⟨hsize, h32⟩ := (L.not_guard_iff hcov).mp hguard
      rw [functor_eq, if_neg hguard]
      rcases h with hlocs | hlarge
      · have hlast : L.last = 1 := by rw [last, hlocs]; rfl
        have hsixteen : key.size = 16 := by omega
        have hcached : L.cached = [0, 8, 16] := by
          rw [cached, ints, hlast, hlocs]
          rfl
        rw [fixed_xxh3_eq_nlocFixed, hlocs, hcached]
        exact (xxh3_2locFixed_eq_full hsixteen).symm
      · omega

end Xxh3

end Locations

/-- Variable against fixed length, for the three families: with wyhash exactly when the seed
and the secret act as the defaults, with crc for one location or a seed without a low half,
with XXH3 for the first two words or a wrapped endpoint. -/
theorem variable_agrees_iff (L : Locations) :
    (∀ seed secret, Locations.ActAsDefault L.locs.length seed secret →
      L.Agree (wyhashNloc L.locs.length · · · seed secret)
        (wyhashNlocFixed L.locs.length · · · seed secret)) ∧
    ((L.locs.map wordIndex).Nodup → ∀ seed secret,
      L.Agree (wyhashNloc L.locs.length · · · seed secret)
        (wyhashNlocFixed L.locs.length · · · seed secret) →
      Locations.ActAsDefault L.locs.length seed secret) ∧
    (∀ seed, L.Agree (crc32WyhashNloc L.locs.length · · · seed)
        (crc32WyhashNlocFixed L.locs.length · · · seed) ↔
      L.locs.length = 1 ∨ seed.setWidth 32 = 0) ∧
    (L.Agree (xxh3Nloc L.locs.length) (xxh3NlocFixed L.locs.length) ↔
      L.locs = [0, 1] ∨ 2 ^ 32 ≤ 8 * L.last + 8) :=
  ⟨fun _ _ h => h.agree, fun hnodup _ _ h => Locations.actAsDefault_of_agree hnodup h,
    L.crc32Wyhash_agree_iff, L.xxh3_agree_iff⟩

/-- The first word of a key, and its first two words. -/
def firstWord : Locations := ⟨[0], by decide, by decide, by decide, by decide⟩

def firstTwoWords : Locations := ⟨[0, 1], by decide, by decide, by decide, by decide⟩

/-- The default arguments on two words, and XXH3 on the same words. -/
theorem firstTwoWords_agree :
    firstTwoWords.Agree (wyhashNloc 2 · · · 0 wyp) (wyhashNlocFixed 2 · · · 0 wyp) ∧
      firstTwoWords.Agree (crc32WyhashNloc 2 · · · (1#64 <<< 32))
        (crc32WyhashNlocFixed 2 · · · (1#64 <<< 32)) ∧
      firstTwoWords.Agree (xxh3Nloc 2) (xxh3NlocFixed 2) :=
  ⟨(variable_agrees_iff firstTwoWords).1 0 wyp ⟨rfl, by decide, fun h => absurd h (by decide)⟩,
    ((variable_agrees_iff firstTwoWords).2.2.1 (1#64 <<< 32)).mpr (.inr (by decide)),
    (variable_agrees_iff firstTwoWords).2.2.2.mpr (.inl rfl)⟩

/-- The key of one zero word: the variable hashes drop the seed one and the strict
comparison leads to the full hash. -/
theorem firstWord_disagree :
    wyhashNloc 1 (Str.keyOfWords 1 0).bytes 8 firstWord.cached 1 wyp ≠
        wyhashNlocFixed 1 (Str.keyOfWords 1 0).bytes 8 firstWord.cached 1 wyp ∧
      xxh3Nloc 1 (Str.keyOfWords 1 0).bytes 8 firstWord.cached ≠
        xxh3NlocFixed 1 (Str.keyOfWords 1 0).bytes 8 firstWord.cached ∧
      crc32WyhashNloc 2 (Str.keyOfWords 2 0).bytes 16 firstTwoWords.cached 1 ≠
        crc32WyhashNlocFixed 2 (Str.keyOfWords 2 0).bytes 16 firstTwoWords.cached 1 := by
  decide +kernel

end EntropyLearnedHashing
