import EntropyLearnedHashing.Filters.SelfBloom
import EntropyLearnedHashing.Filters.SelfBlockBloom512
import EntropyLearnedHashing.Library.RangeReduction

/-! How evenly the filters spread hash values. `mult_reduce` and `mult_reduce_block` are
fair for every range that fits 32 bits. The Bloom filter passes its `size_t` size as a
32-bit range, so at 512 MB the range is zero and all first probes meet at one bit. -/

namespace EntropyLearnedHashing

open LittleEndian WordMix RangeReduction

/-- A reduction of 32-bit words to the values below `n` that keeps their order and reaches
each value equally often, up to one. -/
structure FairReduction (reduce : U32 → U32) (n : U32) : Prop where
  mono : ∀ h h', h ≤ h' → reduce h ≤ reduce h'
  lt : ∀ h, reduce h < n
  hit : ∀ v < n, {h | reduce h = v}.ncard = 2 ^ 32 / n.toNat ∨
    {h | reduce h = v}.ncard = 2 ^ 32 ⌈/⌉ n.toNat

theorem fairReduction_multShift {n : U32} (hn : 1 ≤ n.toNat) :
    FairReduction (fun h => multShift h n) n where
  mono _ _ hle := multShift_mono n hle
  lt h := multShift_lt h n hn
  hit _ hv := ncard_multShift_eq hv

/-- Both reductions of the filters are fair. -/
theorem multReduce_fair (n : U32) (hn : 1 ≤ n.toNat) :
    FairReduction (fun h => multReduce h n) n ∧ FairReduction (fun h => multReduceBlock h n) n :=
  ⟨fairReduction_multShift hn, fairReduction_multShift hn⟩

/-- The range of three values. -/
theorem multReduce_fair_three :
    FairReduction (fun h => multReduce h 3) 3 ∧ FairReduction (fun h => multReduceBlock h 3) 3 :=
  multReduce_fair 3 (by decide)

namespace SelfBloom

variable {α : Type*} (f : SelfBloom α)

/-- `position1` of a hash value, as insertion and test compute it. -/
def position1 (hashFull : U64) : ℕ :=
  (multReduce (hash1 hashFull) (BitVec.ofNat 32 f.sizeInBits)).toNat

theorem position1_eq_position (hashFull : U64) :
    f.position1 hashFull = f.position (hash1 hashFull) (hash2 hashFull) 0 := by
  simp [position1, position]

/-- Every bit is the first position of some hash value, and positions are scaled hashes. -/
structure NoDeadBits : Prop where
  reached : ∀ bit < f.sizeInBits, ∃ hashFull : U64, f.position1 hashFull = bit
  scaled : ∀ hashFull : U64,
    f.position1 hashFull = (hash1 hashFull).toNat * f.sizeInBits / 2 ^ 32

theorem position1_eq (hashFull : U64) :
    f.position1 hashFull = (hash1 hashFull).toNat * (f.sizeInBits % 2 ^ 32) / 2 ^ 32 := by
  rw [position1, multReduce, toNat_multShift, BitVec.toNat_ofNat]

variable {f}

theorem noDeadBits_of_lt (hsize : f.sizeInBits < 2 ^ 32) : f.NoDeadBits where
  reached bit hbit := by
    obtain ⟨h, hlt, hscale⟩ := exists_scale_eq (by omega) hsize.le hbit
    have hfull : (BitVec.ofNat 64 h).toNat = h := by
      rw [BitVec.toNat_ofNat, Nat.mod_eq_of_lt (by omega)]
    refine ⟨BitVec.ofNat 64 h, ?_⟩
    rw [position1_eq, toNat_hash1, hfull, Nat.mod_eq_of_lt hlt, Nat.mod_eq_of_lt hsize, hscale]
  scaled hashFull := by rw [position1_eq, Nat.mod_eq_of_lt hsize]

/-- From `2 ^ 32` bits on the last bit is out of reach of a 32-bit range. -/
theorem not_noDeadBits_of_le (hsize : 2 ^ 32 ≤ f.sizeInBits) : ¬f.NoDeadBits := by
  intro hnone
  obtain ⟨hashFull, hlast⟩ := hnone.reached (f.sizeInBits - 1) (by omega)
  rw [position1_eq] at hlast
  have hbound : (hash1 hashFull).toNat * (f.sizeInBits % 2 ^ 32) / 2 ^ 32 < 2 ^ 32 - 1 := by
    have hrange : f.sizeInBits % 2 ^ 32 ≤ 2 ^ 32 - 1 := by omega
    calc (hash1 hashFull).toNat * (f.sizeInBits % 2 ^ 32) / 2 ^ 32
        ≤ (hash1 hashFull).toNat * (2 ^ 32 - 1) / 2 ^ 32 :=
          Nat.div_le_div_right (Nat.mul_le_mul_left _ hrange)
      _ < 2 ^ 32 - 1 := scale_lt (hash1 hashFull).isLt (by norm_num)
  omega

/-- Up to the documented 512 MB the filter has no dead bits exactly for the sizes whose
whole bytes stay below it. -/
theorem noDeadBits_new_iff (hash : α → U64) (numHashes : ℕ) {size : ℕ} (hlow : 1 ≤ size)
    (hhigh : size ≤ 2 ^ 32) : (new hash numHashes size).NoDeadBits ↔ size ≤ 2 ^ 32 - 8 := by
  have hbits := sizeInBits_new_eq hash numHashes size
  constructor
  · intro hnone
    by_contra hlarge
    exact not_noDeadBits_of_le (by omega) hnone
  · intro hsmall
    exact noDeadBits_of_lt (by omega)

theorem noDeadBits_new_one : (new (fun x : U64 => x) 1 1).NoDeadBits :=
  (noDeadBits_new_iff _ 1 (by norm_num) (by norm_num)).mpr (by norm_num)

/-- At 512 MB all hash values start at bit zero. -/
theorem deadBits_new_512MB :
    (∀ hashFull, (new (fun x : U64 => x) 1 (2 ^ 32)).position1 hashFull = 0) ∧
      ¬(new (fun x : U64 => x) 1 (2 ^ 32)).NoDeadBits := by
  have hbits := sizeInBits_new_eq (fun x : U64 => x) 1 (2 ^ 32)
  constructor
  · intro hashFull
    rw [position1_eq, hbits]
    simp
  · exact not_noDeadBits_of_le (by omega)

end SelfBloom

end EntropyLearnedHashing
