import EntropyLearnedHashing.Bench.Adequacy
import EntropyLearnedHashing.Filters.SelfBloom
import EntropyLearnedHashing.Hash.UpperHalf

/-! The functors that `bench_selfbloom` plugs into the Bloom filter. Double hashing takes
the step between the probes of a value from the upper half of its hash, and the probes
are scaled by the low 32 bits of the stored size. A CRC functor returns 32 bits, so all
of its probes fall on one bit. The other functors have a key of every length with two
different probes, except wyhash at the single length where its outer factor is the word
of ones: there the hash is zero or the word of ones, and the step is minus one. -/

namespace EntropyLearnedHashing

open LittleEndian WordMix MaskArray

/-! ### Probes of a hash -/

/-- The bit of probe `i` of the hash `h` when positions are scaled to `n` bits. -/
def probe (n : ℕ) (h : U64) (i : ℕ) : ℕ :=
  (h.toNat % 2 ^ 32 + i * (h.toNat / 2 ^ 32)) % 2 ^ 32 * n / 2 ^ 32

/-- The stored size is cut to 32 bits by the call of `mult_reduce`. -/
theorem SelfBloom.position_eq_probe {α : Type*} (f : SelfBloom α) (h : U64) (i : ℕ) :
    f.position (hash1 h) (hash2 h) i = probe (f.sizeInBits % 2 ^ 32) h i := by
  unfold position multReduce probe
  rw [toNat_multShift, toNat_doubleHash, BitVec.toNat_ofNat]

/-- Without an upper half there is no step between the probes. -/
theorem probe_eq_of_lt {h : U64} (hlt : h.toNat < 2 ^ 32) (n i : ℕ) : probe n h i = probe n h 0 := by
  unfold probe
  rw [Nat.div_eq_of_lt hlt, Nat.mul_zero, Nat.mul_zero]

theorem probe_zero (h : U64) (i : ℕ) : probe 0 h i = 0 := by
  rw [probe, Nat.mul_zero, Nat.zero_div]

/-- The probes of the word of ones walk down from the last bit. -/
theorem probe_allOnes {i : ℕ} (hi : i + 1 ≤ 2 ^ 32) (n : ℕ) :
    probe n (BitVec.allOnes 64) i = (2 ^ 32 - (i + 1)) * n / 2 ^ 32 := by
  have hsum : ((BitVec.allOnes 64).toNat % 2 ^ 32 + i * ((BitVec.allOnes 64).toNat / 2 ^ 32)) % 2 ^ 32 =
      2 ^ 32 - (i + 1) := by
    rw [BitVec.toNat_allOnes]
    omega
  rw [probe, hsum]

/-- They stay on the last bit for as long as the walk is shorter than the width of a bit. -/
theorem probe_allOnes_eq_last {n i : ℕ} (hn : 1 ≤ n) (h : (i + 1) * n ≤ 2 ^ 32) :
    probe n (BitVec.allOnes 64) i = n - 1 := by
  have hi : i + 1 ≤ 2 ^ 32 := (Nat.le_mul_of_pos_right _ hn).trans h
  have hpos : 1 ≤ (i + 1) * n := Nat.mul_pos i.succ_pos hn
  rw [probe_allOnes hi, Nat.sub_mul]
  omega

theorem probe_allOnes_lt_last {n i : ℕ} (hi : i + 1 ≤ 2 ^ 32) (h : 2 ^ 32 < (i + 1) * n) :
    probe n (BitVec.allOnes 64) i < n - 1 := by
  have hle : (i + 1) * n ≤ 2 ^ 32 * n := Nat.mul_le_mul_right n hi
  rw [probe_allOnes hi, Nat.sub_mul]
  omega

/-- Among `k` probes of the word of ones two differ exactly if the walk leaves a bit. -/
theorem exists_probe_allOnes_ne_iff {n k : ℕ} (hn : 2 ≤ n) (hn32 : n < 2 ^ 32) :
    (∃ i < k, probe n (BitVec.allOnes 64) i ≠ probe n (BitVec.allOnes 64) 0) ↔ 2 ^ 32 < k * n := by
  have hfirst : probe n (BitVec.allOnes 64) 0 = n - 1 := probe_allOnes_eq_last (by omega) (by omega)
  rw [hfirst]
  constructor
  · rintro ⟨i, hi, hne⟩
    by_contra hle
    have hwalk : (i + 1) * n ≤ k * n := Nat.mul_le_mul_right n hi
    exact hne (probe_allOnes_eq_last (by omega) (by omega))
  · intro hlt
    refine ⟨2 ^ 32 / n, (Nat.div_lt_iff_lt_mul (by omega)).mpr hlt, (probe_allOnes_lt_last ?_ ?_).ne⟩
    · have hhalf : 2 ^ 32 / n ≤ 2 ^ 32 / 2 := Nat.div_le_div_left hn (by norm_num)
      omega
    · exact Nat.lt_mul_of_div_lt (Nat.lt_succ_self _) (by omega)

/-! ### Two different bits -/

/-- `sizeInBits` of a filter that is constructed for `size` bits. -/
def storedBits (size : ℕ) : ℕ := 8 * (size / 8 + if size % 8 ≠ 0 then 1 else 0)

theorem storedBits_pos {size : ℕ} (h : 1 ≤ size) : 0 < storedBits size := by
  unfold storedBits
  split_ifs <;> omega

/-- The part of the stored size that is used is empty or a byte at least. -/
theorem le_storedBits_mod {size : ℕ} (h : storedBits size % 2 ^ 32 ≠ 0) :
    8 ≤ storedBits size % 2 ^ 32 := by
  unfold storedBits at h ⊢
  omega

/-- Some key of `len` bytes sets at least two different bits of an empty filter for `size`
bits with `k` hashes. -/
def SetsTwoBits (functor : HashFunctor) (len size k : ℕ) : Prop :=
  ∃ key : Str, key.size = len ∧ (functor key).isSome ∧
    let f := SelfBloom.new (fun s => (functor s).getD 0) k size
    ∃ bytes, f.addValue f.empty key = some bytes ∧ ∃ c ∈ ones bytes, ∃ c' ∈ ones bytes, c ≠ c'

theorem probe_lt_storedBits {size : ℕ} (hsize : 1 ≤ size) (v : U64) (i : ℕ) :
    probe (storedBits size % 2 ^ 32) v i < storedBits size := by
  rcases Nat.eq_zero_or_pos (storedBits size % 2 ^ 32) with hzero | hpos
  · rw [hzero, probe_zero]
    exact storedBits_pos hsize
  · exact (scale_lt (Nat.mod_lt _ (by norm_num)) hpos).trans_le (Nat.mod_le _ _)

theorem addValue_empty {functor : HashFunctor} {size k : ℕ} (hsize : 1 ≤ size) (hk : 1 ≤ k) {key : Str}
    {v : U64} (hv : functor key = some v) :
    let f := SelfBloom.new (fun s => (functor s).getD 0) k size
    ∃ bytes, f.addValue f.empty key = some bytes ∧
      ones bytes = {c | ∃ i < k, c = (probe (storedBits size % 2 ^ 32) v i / 8,
        probe (storedBits size % 2 ^ 32) v i % 8)} := by
  intro f
  have hhash : f.hash key = v := by simp [f, SelfBloom.new, hv]
  have hposition : ∀ i, f.position (hash1 (f.hash key)) (hash2 (f.hash key)) i =
      probe (storedBits size % 2 ^ 32) v i := by
    intro i
    rw [f.position_eq_probe, hhash]
    rfl
  obtain ⟨bytes, hbytes, hones⟩ := SelfBloom.addValue_positions hk hposition
    (probe_lt_storedBits hsize v) f.empty
  refine ⟨bytes, hbytes, hones.trans ?_⟩
  rw [SelfBloom.empty, ones_replicate_zero, Set.empty_union]
  rfl

theorem setsTwoBits_iff_probe_ne {functor : HashFunctor} {len size k : ℕ} (hsize : 1 ≤ size)
    (hk : 1 ≤ k) : SetsTwoBits functor len size k ↔ ∃ (key : Str) (v : U64), key.size = len ∧
      functor key = some v ∧
        ∃ i < k, probe (storedBits size % 2 ^ 32) v i ≠ probe (storedBits size % 2 ^ 32) v 0 := by
  constructor
  · rintro ⟨key, hkey, hsome, bytes, hbytes, c, hc, c', hc', hne⟩
    obtain ⟨v, hv⟩ := Option.isSome_iff_exists.mp hsome
    obtain ⟨bytes', hbytes', hones⟩ := addValue_empty hsize hk hv
    obtain rfl := Option.some.inj (hbytes.symm.trans hbytes')
    rw [hones] at hc hc'
    obtain ⟨i, hi, rfl⟩ := hc
    obtain ⟨j, hj, rfl⟩ := hc'
    refine ⟨key, v, hkey, hv, ?_⟩
    by_contra hall
    push Not at hall
    rw [hall i hi, hall j hj] at hne
    exact hne rfl
  · rintro ⟨key, v, hkey, hv, i, hi, hne⟩
    obtain ⟨bytes, hbytes, hones⟩ := addValue_empty hsize hk hv
    have hmem : ∀ j < k, (probe (storedBits size % 2 ^ 32) v j / 8,
        probe (storedBits size % 2 ^ 32) v j % 8) ∈ ones bytes := by
      intro j hj
      rw [hones]
      exact ⟨j, hj, rfl⟩
    refine ⟨key, hkey, by rw [hv]; rfl, bytes, hbytes, _, hmem i hi, _, hmem 0 (by omega), ?_⟩
    intro heq
    rw [Prod.mk.injEq] at heq
    omega

/-! ### The functors of the benchmark -/

/-- A functor that `bench_selfbloom` plugs into the filter: the hash of the whole key of a
family, or a functor of locations for keys of fixed or of variable length. -/
inductive Plugged where
  | fullKey (fam : Family)
  | nloc (fam : Family) (fixedLength : Bool) (L : Locations)

namespace Plugged

def functor : Plugged → HashFunctor
  | .fullKey fam => fam.fullKeyHash.functor
  | .nloc fam true L => L.fixed fam
  | .nloc fam false L => L.functor fam

def family : Plugged → Family
  | .fullKey fam => fam
  | .nloc fam _ _ => fam

/-- Keys of the length reach to the end of the last location, and the 32-bit offsets of the
locations reach different words. -/
def Covered (len : ℕ) : Plugged → Prop
  | .fullKey _ => True
  | .nloc _ _ L => 8 * L.last + 8 ≤ len ∧ (L.locs.map wordIndex).Nodup

variable {p : Plugged} {len : ℕ}

theorem functor_cases (hcov : p.Covered len) :
    (∀ key : Str, key.size = len → p.functor key = p.family.fullKey key) ∨
      ∃ L : Locations, 8 * L.last + 8 ≤ len ∧ (L.locs.map wordIndex).Nodup ∧
        ∀ key : Str, key.size = len → p.functor key = L.fixed p.family key := by
  cases p with
  | fullKey fam => exact .inl fun key _ => by cases fam <;> rfl
  | nloc fam fixedLength L =>
    obtain ⟨hlast, hnodup⟩ := hcov
    cases fixedLength with
    | true => exact .inr ⟨L, hlast, hnodup, fun key _ => rfl⟩
    | false =>
      rcases L.functor_eq_or fam len with heq | heq
      · exact .inr ⟨L, hlast, hnodup, heq⟩
      · exact .inl heq

theorem exists_mixed (hcov : p.Covered len) (hfree : UpperHalfFree p.family len) (h8 : 8 ≤ len)
    (h63 : len < 2 ^ 63) : ∃ key : Str, key.size = len ∧ ∃ v, p.functor key = some v ∧ Mixed v := by
  rcases functor_cases hcov with heq | ⟨L, hlast, hnodup, heq⟩
  · obtain ⟨key, hkey, v, hv, hmixed⟩ := exists_fullKey_mixed hfree h8 h63
    exact ⟨key, hkey, v, (heq key hkey).trans hv, hmixed⟩
  · obtain ⟨key, hkey, v, hv, hmixed⟩ := Locations.exists_fixed_mixed hnodup hlast hfree h63
    exact ⟨key, hkey, v, (heq key hkey).trans hv, hmixed⟩

theorem exists_allOnes (hcov : p.Covered onesLength) (hfam : p.family = .wyhash) :
    ∃ key : Str, key.size = onesLength ∧ p.functor key = some (BitVec.allOnes 64) := by
  rcases functor_cases hcov with heq | ⟨L, hlast, hnodup, heq⟩ <;> rw [hfam] at heq
  · obtain ⟨key, hkey, hv⟩ := exists_fullKey_allOnes
    exact ⟨key, hkey, (heq key hkey).trans hv⟩
  · obtain ⟨key, hkey, hv⟩ := Locations.exists_fixed_allOnes hnodup hlast
    exact ⟨key, hkey, (heq key hkey).trans hv⟩

theorem eq_zero_or_allOnes (hcov : p.Covered onesLength) (hfam : p.family = .wyhash) {key : Str}
    (hkey : key.size = onesLength) {v : U64} (hv : p.functor key = some v) :
    v = 0 ∨ v = BitVec.allOnes 64 := by
  rcases functor_cases hcov with heq | ⟨L, hlast, hnodup, heq⟩ <;> rw [hfam] at heq <;>
    rw [heq key hkey] at hv
  · exact fullKey_onesLength hkey hv
  · exact Locations.fixed_onesLength hlast hkey hv

theorem toNat_crc_lt (hcov : p.Covered len) (hfam : p.family = .crc32wyhash) (h8 : 8 ≤ len)
    {key : Str} (hkey : key.size = len) {v : U64} (hv : p.functor key = some v) : v.toNat < 2 ^ 32 := by
  subst hkey
  rcases functor_cases hcov with heq | ⟨L, hlast, hnodup, heq⟩ <;> rw [hfam] at heq <;>
    rw [heq key rfl] at hv
  · exact fullKey_crc_lt h8 hv
  · exact Locations.fixed_crc_lt hlast hv

/-- A functor of 32 bits sets a single bit. -/
theorem not_setsTwoBits_of_crc (hcov : p.Covered len) (hfam : p.family = .crc32wyhash) (h8 : 8 ≤ len)
    {size k : ℕ} (hsize : 1 ≤ size) (hk : 1 ≤ k) : ¬ SetsTwoBits p.functor len size k := by
  rw [setsTwoBits_iff_probe_ne hsize hk]
  rintro ⟨key, v, hkey, hv, i, -, hne⟩
  exact hne (probe_eq_of_lt (toNat_crc_lt hcov hfam h8 hkey hv) _ i)

end Plugged

/-- Some key sets two different bits exactly if the functor is not one of CRC, the low 32
bits of the stored size are not zero and, for wyhash at its single exceptional length, the
number of hashes times these bits exceeds `2 ^ 32`. -/
theorem setsTwoBits_iff (p : Plugged) {len size k : ℕ} (h8 : 8 ≤ len) (h63 : len < 2 ^ 63)
    (hcov : p.Covered len) (hsize : 2 ≤ size) (hk : 2 ≤ k) :
    SetsTwoBits p.functor len size k ↔
      p.family ≠ .crc32wyhash ∧ storedBits size % 2 ^ 32 ≠ 0 ∧
        (p.family = .wyhash → len = onesLength → 2 ^ 32 < k * (storedBits size % 2 ^ 32)) := by
  have hmod : storedBits size % 2 ^ 32 < 2 ^ 32 := Nat.mod_lt _ (by norm_num)
  constructor
  · intro hset
    have hcrc : p.family ≠ .crc32wyhash := fun hfam =>
      Plugged.not_setsTwoBits_of_crc hcov hfam h8 (by omega) (by omega) hset
    rw [setsTwoBits_iff_probe_ne (by omega) (by omega)] at hset
    obtain ⟨key, v, hkey, hv, i, hi, hne⟩ := hset
    have hpos : storedBits size % 2 ^ 32 ≠ 0 := by
      intro hzero
      rw [hzero, probe_zero, probe_zero] at hne
      exact hne rfl
    refine ⟨hcrc, hpos, ?_⟩
    rintro hfam rfl
    rcases Plugged.eq_zero_or_allOnes hcov hfam hkey hv with rfl | rfl
    · exact absurd (probe_eq_of_lt (by decide) _ i) hne
    · have hle := le_storedBits_mod hpos
      exact (exists_probe_allOnes_ne_iff (by omega) hmod).mp ⟨i, hi, hne⟩
  · rintro ⟨hcrc, hpos, hones⟩
    have hle := le_storedBits_mod hpos
    rw [setsTwoBits_iff_probe_ne (by omega) (by omega)]
    by_cases hfree : UpperHalfFree p.family len
    · obtain ⟨key, hkey, v, hv, hmixed⟩ := Plugged.exists_mixed hcov hfree h8 h63
      refine ⟨key, v, hkey, hv, 1, by omega, fun heq => hmixed.probes_ne hle ?_⟩
      simpa only [probe, Nat.zero_mul, Nat.one_mul, Nat.add_zero, Nat.mod_mod] using heq.symm
    · obtain ⟨hfam, rfl⟩ : p.family = .wyhash ∧ len = onesLength := by
        unfold UpperHalfFree at hfree
        push Not at hfree
        exact hfree hcrc
      obtain ⟨key, hkey, hv⟩ := Plugged.exists_allOnes hcov hfam
      exact ⟨key, _, hkey, hv, (exists_probe_allOnes_ne_iff (by omega) hmod).mpr (hones hfam rfl)⟩

/-- The variable wyhash functor of three locations on keys of 40 bytes, in a filter for 1000
bits with seven hashes. -/
theorem setsTwoBits_wyhash_gap :
    (Plugged.nloc .wyhash false gapLocations).Covered 40 ∧
      SetsTwoBits (Plugged.nloc .wyhash false gapLocations).functor 40 1000 7 :=
  have hcov : (Plugged.nloc .wyhash false gapLocations).Covered 40 := ⟨by decide, by decide⟩
  ⟨hcov, (setsTwoBits_iff _ (by decide) (by decide) hcov (by decide) (by decide)).mpr
    ⟨by decide, by decide, fun _ h => absurd h (by decide)⟩⟩

/-- `CRC32Hash_s` sets one bit of the same filter, whatever the eight bytes of the key are. -/
theorem not_setsTwoBits_crc32_eight : ¬ SetsTwoBits (Plugged.fullKey .crc32wyhash).functor 8 1000 7 :=
  Plugged.not_setsTwoBits_of_crc (p := .fullKey .crc32wyhash) trivial rfl (by decide) (by decide)
    (by decide)

end EntropyLearnedHashing
