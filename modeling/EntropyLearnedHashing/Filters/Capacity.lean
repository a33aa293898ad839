import EntropyLearnedHashing.Filters.SelfBlockBloom64

/-! Sizes up to 2 TB. The header comments of both block filters promise 2 TB, which is
`2 ^ 44` bits. The block counts are `unsigned int`s, and so is the byte offset of a
512-bit block. The offset wraps from `2 ^ 26` blocks of 512 bits on, the count of
64-bit blocks is truncated from `2 ^ 32` of them on. A value is taken here to be its
own hash, so that a statement about all values is one about all hash values. -/

namespace EntropyLearnedHashing

open WordMix MaskArray

/-! ### `selfBlockBloom512` -/

namespace SelfBlockBloom512

section Accesses

variable {α : Type*} (f : SelfBlockBloom512 α)

/-- The position in its block that round `i` computes for a value. -/
def positionInBlock (z : α) (i : ℕ) : U32 :=
  (hash1 (f.hash z) + BitVec.ofNat 32 i * hash2 (f.hash z)) &&& 511

/-- The byte that round `i` accesses. -/
def accessedByte (z : α) (i : ℕ) : ℕ :=
  fullByte (f.blockOffset (hash1 (f.hash z))).toNat (f.positionInBlock z i).toNat

/-- Insertion writes the accessed bytes and no other. -/
theorem addValue_accesses (bytes : f.Bytes) (z : α) :
    f.addValue bytes z = (List.range' 1 f.numHashes).foldlM (fun bytes i =>
      orAt bytes (f.accessedByte z i) (1#8 <<< ((f.positionInBlock z i).toNat &&& 7))) bytes := rfl

/-- A query reads the accessed bytes in order, up to the first miss. -/
theorem testValue_accesses (bytes : f.Bytes) (z : α) :
    f.testValue bytes z = whileAll (fun i =>
      (maskAt bytes (f.accessedByte z i) (1#8 <<< ((f.positionInBlock z i).toNat &&& 7))).map
        (· != 0)) (f.numHashes + 1) true 1 := by
  have hloop := testLoop_eq_whileAll bytes (f.blockOffset (hash1 (f.hash z))) (hash1 (f.hash z))
    (hash2 (f.hash z)) true 0
  rw [show hash1 (f.hash z) + BitVec.ofNat 32 0 * hash2 (f.hash z) = hash1 (f.hash z) by simp]
    at hloop
  exact hloop

/-- What the header comment promises of a filter. -/
structure Works : Prop where
  numBlocks_eq : f.numBlocks.toNat = f.sizeInBytes / 64
  access_in_block : ∀ z i, 1 ≤ i → i ≤ f.numHashes →
    64 * f.block z ≤ f.accessedByte z i ∧ f.accessedByte z i < 64 * f.block z + 64
  blocks_disjoint : ∀ z z', f.block z ≠ f.block z' → ∀ i j, 1 ≤ i → i ≤ f.numHashes → 1 ≤ j →
    j ≤ f.numHashes → f.accessedByte z i ≠ f.accessedByte z' j

variable {f}

theorem works_of_numBlocks_le (hB : f.numBlocks.toNat = f.sizeInBytes / 64)
    (h₁ : 1 ≤ f.numBlocks.toNat) (h₂ : f.numBlocks.toNat ≤ 2 ^ 26) : f.Works := by
  have haccess : ∀ z i, f.accessedByte z i = fullByte (64 * f.block z) (f.bitInBlock i z) := by
    intro z i
    unfold accessedByte positionInBlock
    rw [toNat_blockOffset h₁ h₂, toNat_positionInBlock]
  refine ⟨hB, fun z i _ _ => ?_, fun z z' hne i j _ _ _ _ => ?_⟩
  · rw [haccess]
    exact fullByte_range z i
  · have hz := fullByte_range (f := f) z i
    have hz' := fullByte_range (f := f) z' j
    rw [haccess, haccess]
    omega

end Accesses

/-- The hash value that lies in the last block. -/
def lastHash : U64 := 2 ^ 32 - 1

theorem block_lastHash {f : SelfBlockBloom512 U64} (hid : f.hash = id) (h₁ : 1 ≤ f.numBlocks.toNat) :
    f.block lastHash = f.numBlocks.toNat - 1 := by
  have hlast : (f.hash lastHash).toNat % 2 ^ 32 = 2 ^ 32 - 1 := by rw [hid]; rfl
  have hlt := f.numBlocks.isLt
  unfold block
  rw [hlast]
  omega

/-- Beyond `2 ^ 26` blocks the last one has no 32-bit byte offset. -/
theorem not_works_of_lt_numBlocks {f : SelfBlockBloom512 U64} (hid : f.hash = id)
    (hk : 1 ≤ f.numHashes) (h : 2 ^ 26 < f.numBlocks.toNat) : ¬f.Works := by
  intro hworks
  have hin := (hworks.access_in_block lastHash 1 le_rfl hk).1
  rw [block_lastHash hid (by omega)] at hin
  -- a wrapped offset is a multiple of 64 below `2 ^ 32`
  have hoff := (f.blockOffset (hash1 (f.hash lastHash))).isLt
  have hmod : (f.blockOffset (hash1 (f.hash lastHash))).toNat % 64 = 0 := by
    unfold blockOffset
    rw [BitVec.toNat_mul, show (64 : U32).toNat = 64 from rfl]
    omega
  have hpos : (f.positionInBlock lastHash 1).toNat < 512 := by
    unfold positionInBlock
    rw [toNat_positionInBlock]
    exact bitInBlock_lt 1 lastHash
  unfold accessedByte fullByte at hin
  rw [Nat.shiftRight_eq_div_pow] at hin
  omega

theorem works_iff {k : ℕ} (hk : 1 ≤ k) {size : U64} (hsize : size.toNat ≤ 2 ^ 44) :
    (new id k size).Works ↔ size.toNat / 512 + 1 ≤ 2 ^ 26 := by
  set f := new id k size with hf
  have hbytes : f.sizeInBytes = 64 * (size.toNat / 512 + 1) := toNat_blockSizeInBytes (by omega)
  have hblocks : f.numBlocks.toNat = (size.toNat / 512 + 1) % 2 ^ 32 := by
    unfold numBlocks sizeInBits
    rw [BitVec.toNat_ofNat, hbytes]
    omega
  constructor
  · intro hworks
    by_contra hlarge
    have hB := hworks.numBlocks_eq
    exact not_works_of_lt_numBlocks rfl hk (by omega) hworks
  · intro hsmall
    exact works_of_numBlocks_le (by omega) (by omega) (by omega)

end SelfBlockBloom512

/-! ### `selfBlockBloom64` -/

namespace SelfBlockBloom64

section Accesses

variable {α : Type*} (f : SelfBlockBloom64 α)

/-- The 64-bit block of a value, in unbounded arithmetic. -/
def block (z : α) : ℕ := (f.hash z).toNat % 2 ^ 32 * f.numBlocks.toNat / 2 ^ 32

/-- What the header comment promises of a filter; a value accesses the word `wordNum`. -/
structure Works : Prop where
  numBlocks_eq : f.numBlocks.toNat = f.numWords
  access_in_block : ∀ z, f.wordNum z = f.block z
  blocks_disjoint : ∀ z z', f.block z ≠ f.block z' → f.wordNum z ≠ f.wordNum z'

variable {f}

theorem wordNum_eq_block (z : α) : f.wordNum z = f.block z := by
  unfold wordNum block multReduceBlock
  rw [toNat_multShift, toNat_hash1]

/-- Only the truncated block count can go wrong. -/
theorem works_iff_numBlocks : f.Works ↔ f.numBlocks.toNat = f.numWords := by
  refine ⟨Works.numBlocks_eq, fun h => ⟨h, wordNum_eq_block, fun z z' hne => ?_⟩⟩
  rwa [wordNum_eq_block, wordNum_eq_block]

end Accesses

theorem works_iff {α : Type*} (hash : α → U64) (k : ℕ) {size : U64} (hsize : size.toNat ≤ 2 ^ 44) :
    (new hash k size).Works ↔ size.toNat / 512 + 1 < 2 ^ 29 := by
  have hbytes : (new hash k size).sizeInBytes = 64 * (size.toNat / 512 + 1) :=
    toNat_blockSizeInBytes (by omega)
  rw [works_iff_numBlocks]
  unfold numBlocks numWords sizeInBits
  rw [BitVec.toNat_ofNat, hbytes]
  omega

end SelfBlockBloom64

/-! ### Both filters -/

/-- Up to 2 TB the filters work exactly below `2 ^ 35` and below `2 ^ 38 - 512` bits. -/
theorem blockFilters_work_iff (k : ℕ) (hk : 1 ≤ k) (size : U64) (hsize : size.toNat ≤ 2 ^ 44) :
    ((SelfBlockBloom512.new id k size).Works ↔ size.toNat / 512 + 1 ≤ 2 ^ 26) ∧
      ((SelfBlockBloom64.new id k size : SelfBlockBloom64 U64).Works ↔
        size.toNat / 512 + 1 < 2 ^ 29) :=
  ⟨SelfBlockBloom512.works_iff hk hsize, SelfBlockBloom64.works_iff id k hsize⟩

/-- A filter of 1 GB. -/
theorem blockFilters_work_one_gigabyte :
    (SelfBlockBloom512.new id 4 (2 ^ 33)).Works ∧
      (SelfBlockBloom64.new id 4 (2 ^ 33) : SelfBlockBloom64 U64).Works := by
  have h := blockFilters_work_iff 4 (by decide) (2 ^ 33) (by decide)
  exact ⟨h.1.mpr (by decide), h.2.mpr (by decide)⟩

/-- A filter of 2 TB. -/
theorem blockFilters_fail_two_terabytes :
    ¬(SelfBlockBloom512.new id 4 (2 ^ 44)).Works ∧
      ¬(SelfBlockBloom64.new id 2 (2 ^ 44) : SelfBlockBloom64 U64).Works := by
  rw [SelfBlockBloom512.works_iff (by decide) (by decide), SelfBlockBloom64.works_iff _ _ (by decide)]
  decide

end EntropyLearnedHashing
