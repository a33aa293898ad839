import EntropyLearnedHashing.Filters.SelfBloom

/-! `self_block_bloom.hh`: the Bloom filter that keeps all bits of a value in one
block of 512 bits. Insertion multiplies the second hash by the round number, a
query accumulates it; both wrap at 32 bits before the low nine bits are taken. -/

namespace EntropyLearnedHashing

open LittleEndian WordMix MaskArray

/-- `mult_reduce_block`. -/
def multReduceBlock (hash n : U32) : U32 := multShift hash n

/-- The `sizeInBytes` of both block filters: up to a full block of 512 bits is added, in
`size_t` arithmetic. -/
def blockSizeInBytes (sizeInBits : U64) : U64 := (sizeInBits + (512 - sizeInBits % 512)) / 8

theorem toNat_blockSizeInBytes {sizeInBits : U64} (h : sizeInBits.toNat + 512 < 2 ^ 64) :
    (blockSizeInBytes sizeInBits).toNat = 64 * (sizeInBits.toNat / 512 + 1) := by
  have h512 : (512 : U64).toNat = 512 := rfl
  have h8 : (8 : U64).toNat = 8 := rfl
  unfold blockSizeInBytes
  rw [BitVec.toNat_udiv, BitVec.toNat_add, BitVec.toNat_sub, BitVec.toNat_umod, h512, h8]
  omega

/-- The constant fields of `selfBlockBloom512`. The constructor tries one to four
hashes; the loop counters do not wrap below `2 ^ 32 - 1` of them. -/
structure SelfBlockBloom512 (α : Type*) where
  hash : α → U64
  numHashes : ℕ
  sizeInBytes : ℕ

namespace SelfBlockBloom512

variable {α : Type*}

/-- What the constructor leaves when it has chosen a number of hashes. -/
def new (hash : α → U64) (numHashes : ℕ) (sizeInBits : U64) : SelfBlockBloom512 α where
  hash := hash
  numHashes := numHashes
  sizeInBytes := (blockSizeInBytes sizeInBits).toNat

variable (f : SelfBlockBloom512 α)

def sizeInBits : ℕ := 8 * f.sizeInBytes

/-- `unsigned int numBlocks`. -/
def numBlocks : U32 := BitVec.ofNat 32 (f.sizeInBits / 512)

/-- `uint8_t* bytes`. -/
abbrev Bytes := Vector Byte f.sizeInBytes

/-- The cleared array of a fresh filter. -/
def empty : f.Bytes := Vector.replicate _ 0

/-- The index of the byte that holds a bit of a block. -/
def fullByte (blockOffset positionInBlock : ℕ) : ℕ := (positionInBlock >>> 3) + blockOffset

variable {f}

def setBit (bytes : f.Bytes) (blockOffset positionInBlock : ℕ) : Option f.Bytes :=
  orAt bytes (fullByte blockOffset positionInBlock) (1#8 <<< (positionInBlock &&& 7))

def testBit (bytes : f.Bytes) (blockOffset positionInBlock : ℕ) : Option Bool :=
  (maskAt bytes (fullByte blockOffset positionInBlock)
    (1#8 <<< (positionInBlock &&& 7))).map (· != 0)

variable (f)

def blockOffset (h1 : U32) : U32 := 64 * multReduceBlock h1 f.numBlocks

def addValue (bytes : f.Bytes) (x : α) : Option f.Bytes :=
  let h1 := hash1 (f.hash x)
  let h2 := hash2 (f.hash x)
  let blockOffset := f.blockOffset h1
  (List.range' 1 f.numHashes).foldlM (fun bytes i =>
    let doubleHash := h1 + BitVec.ofNat 32 i * h2
    let positionInBlock := doubleHash &&& 511
    setBit bytes blockOffset.toNat positionInBlock.toNat) bytes

/-- The `while` loop of `testValue`. -/
def testLoop (bytes : f.Bytes) (blockOffset h2 : U32) (returnVal : Bool) (i : ℕ)
    (doubleHash : U32) : Option Bool :=
  if returnVal = true ∧ i ≤ f.numHashes then do
    let doubleHash := doubleHash + h2
    let positionInBlock := doubleHash &&& 511
    let returnVal ← testBit bytes blockOffset.toNat positionInBlock.toNat
    testLoop bytes blockOffset h2 returnVal (i + 1) doubleHash
  else some returnVal
termination_by f.numHashes + 1 - i

def testValue (bytes : f.Bytes) (x : α) : Option Bool :=
  let h1 := hash1 (f.hash x)
  let h2 := hash2 (f.hash x)
  f.testLoop bytes (f.blockOffset h1) h2 true 1 h1

/-! ### Probed bits -/

/-- The block of a value, in unbounded arithmetic. -/
def block (z : α) : ℕ := (f.hash z).toNat % 2 ^ 32 * f.numBlocks.toNat / 2 ^ 32

/-- The bit in the block that probe `i` of a value reaches. -/
def bitInBlock (i : ℕ) (z : α) : ℕ :=
  ((f.hash z).toNat % 2 ^ 32 + i * ((f.hash z).toNat / 2 ^ 32)) % 512

variable {f}

theorem block_lt (hB : 1 ≤ f.numBlocks.toNat) (z : α) : f.block z < f.numBlocks.toNat :=
  scale_lt (Nat.mod_lt _ (by norm_num)) hB

theorem bitInBlock_lt (i : ℕ) (z : α) : f.bitInBlock i z < 512 := Nat.mod_lt _ (by norm_num)

/-- The truncated number of blocks is at most the allocated one. -/
theorem numBlocks_le : 64 * f.numBlocks.toNat ≤ f.sizeInBytes := by
  have h : f.numBlocks.toNat ≤ f.sizeInBits / 512 := by
    unfold numBlocks
    rw [BitVec.toNat_ofNat]
    exact Nat.mod_le _ _
  unfold sizeInBits at h
  omega

/-- With at most `2 ^ 26` blocks the 32-bit byte offset does not wrap. -/
theorem toNat_blockOffset (h₁ : 1 ≤ f.numBlocks.toNat) (h₂ : f.numBlocks.toNat ≤ 2 ^ 26) (z : α) :
    (f.blockOffset (hash1 (f.hash z))).toNat = 64 * f.block z := by
  have hlt := block_lt h₁ z
  have hblock : (multReduceBlock (hash1 (f.hash z)) f.numBlocks).toNat = f.block z := by
    unfold multReduceBlock block
    rw [toNat_multShift, toNat_hash1]
  unfold blockOffset
  rw [BitVec.toNat_mul, hblock, show (64 : U32).toNat = 64 from rfl]
  omega

theorem toNat_positionInBlock (i : ℕ) (z : α) :
    ((hash1 (f.hash z) + BitVec.ofNat 32 i * hash2 (f.hash z)) &&& 511).toNat =
      f.bitInBlock i z := by
  rw [BitVec.toNat_and, toNat_doubleHash]
  unfold bitInBlock
  rw [show (511 : U32).toNat = 2 ^ 9 - 1 from rfl, Nat.and_two_pow_sub_one_eq_mod,
    Nat.mod_mod_of_dvd _ (by norm_num)]

/-- The bytes of a block. -/
theorem fullByte_range (z : α) (i : ℕ) :
    64 * f.block z ≤ fullByte (64 * f.block z) (f.bitInBlock i z) ∧
      fullByte (64 * f.block z) (f.bitInBlock i z) < 64 * f.block z + 64 := by
  have hlt := bitInBlock_lt (f := f) i z
  unfold fullByte
  rw [Nat.shiftRight_eq_div_pow]
  omega

theorem fullByte_lt (hB : 1 ≤ f.numBlocks.toNat) (z : α) (i : ℕ) :
    fullByte (64 * f.block z) (f.bitInBlock i z) < f.sizeInBytes := by
  have h₁ := (fullByte_range (f := f) z i).2
  have h₂ := block_lt hB z
  have h₃ := numBlocks_le (f := f)
  omega

/-! ### Refinement of the filter over bits -/

variable (f)

/-- The cell of probe `i`: a byte of the array and a bit in it. -/
def cell (z : α) (i : ℕ) : ℕ × ℕ :=
  (fullByte (64 * f.block z) (f.bitInBlock i z), f.bitInBlock i z % 8)

def cells (z : α) : Set (ℕ × ℕ) := {c | ∃ i, 1 ≤ i ∧ i ≤ f.numHashes ∧ c = f.cell z i}

variable {f}

theorem setBit_spec (hB : 1 ≤ f.numBlocks.toNat) (bytes : f.Bytes) (z : α) (i : ℕ) :
    ∃ bytes', setBit bytes (64 * f.block z) (f.bitInBlock i z) = some bytes' ∧
      ones bytes' = ones bytes ∪ {f.cell z i} := by
  unfold setBit
  rw [Nat.and_two_pow_sub_one_eq_mod _ 3]
  exact orAt_bit_spec bytes (fullByte_lt hB z i) (Nat.mod_lt _ (by norm_num))

theorem testBit_spec (hB : 1 ≤ f.numBlocks.toNat) (bytes : f.Bytes) (z : α) (i : ℕ) :
    ∃ b, testBit bytes (64 * f.block z) (f.bitInBlock i z) = some b ∧
      (b = true ↔ f.cell z i ∈ ones bytes) := by
  obtain ⟨v, hv, hiff⟩ := maskAt_ne_zero_iff bytes (fullByte_lt hB z i)
    (Nat.mod_lt (f.bitInBlock i z) (by norm_num : 0 < 8))
  refine ⟨v != 0, ?_, by simpa [cell] using hiff⟩
  unfold testBit
  rw [Nat.and_two_pow_sub_one_eq_mod _ 3]
  simp [hv]

theorem addValue_spec (h₁ : 1 ≤ f.numBlocks.toNat) (h₂ : f.numBlocks.toNat ≤ 2 ^ 26)
    (bytes : f.Bytes) (x : α) :
    ∃ bytes', f.addValue bytes x = some bytes' ∧ ones bytes' = ones bytes ∪ f.cells x := by
  obtain ⟨b, hb, hones⟩ := foldlM_union ones
    (fun bytes i => setBit bytes (64 * f.block x) (f.bitInBlock i x)) (fun i => {f.cell x i})
    (List.range' 1 f.numHashes) (fun bytes i _ => setBit_spec h₁ bytes x i) bytes
  refine ⟨b, ?_, ?_⟩
  · simp only [addValue, toNat_blockOffset h₁ h₂, toNat_positionInBlock]
    exact hb
  · rw [hones]
    congr 1
    ext c
    simp only [cells, Set.mem_iUnion, List.mem_range'_1, Set.mem_singleton_iff, exists_prop,
      Set.mem_ofPred_eq, and_assoc, Nat.lt_add_one_iff, Nat.add_comm 1]

theorem doubleHash_succ (h1 h2 : U32) (i : ℕ) :
    h1 + BitVec.ofNat 32 i * h2 + h2 = h1 + BitVec.ofNat 32 (i + 1) * h2 := by
  rw [BitVec.ofNat_add, add_mul, BitVec.one_mul, add_assoc]

/-- Accumulation and multiplication give the same double hash in every round. -/
theorem accumulated_eq_multiplied (h1 h2 : U32) (i : ℕ) :
    (· + h2)^[i] h1 = h1 + BitVec.ofNat 32 i * h2 := by
  induction i with
  | zero => simp
  | succ i ih => rw [Function.iterate_succ_apply', ih, doubleHash_succ]

/-- The query loop is the loop over the multiplied double hashes. -/
theorem testLoop_eq_whileAll (bytes : f.Bytes) (off h1 h2 : U32) (r : Bool) (i : ℕ) :
    f.testLoop bytes off h2 r (i + 1) (h1 + BitVec.ofNat 32 i * h2) =
      whileAll (fun j => testBit bytes off.toNat ((h1 + BitVec.ofNat 32 j * h2) &&& 511).toNat)
        (f.numHashes + 1) r (i + 1) := by
  induction hn : f.numHashes - i generalizing r i with
  | zero =>
    rw [testLoop, whileAll, if_neg (by omega), if_neg (by omega)]
  | succ n ih =>
    rw [testLoop, whileAll]
    by_cases hr : r = true
    · rw [if_pos ⟨hr, by omega⟩, if_pos ⟨hr, by omega⟩]
      simp only [doubleHash_succ]
      congr 1
      funext r'
      exact ih r' (i + 1) (by omega)
    · rw [if_neg fun h => hr h.1, if_neg fun h => hr h.1]

theorem testValue_eq_whileAll (h₁ : 1 ≤ f.numBlocks.toNat) (h₂ : f.numBlocks.toNat ≤ 2 ^ 26)
    (bytes : f.Bytes) (y : α) :
    f.testValue bytes y =
      whileAll (fun i => testBit bytes (64 * f.block y) (f.bitInBlock i y)) (f.numHashes + 1)
        true 1 := by
  have hstart : hash1 (f.hash y) + BitVec.ofNat 32 0 * hash2 (f.hash y) = hash1 (f.hash y) := by
    simp
  have hloop := testLoop_eq_whileAll bytes (f.blockOffset (hash1 (f.hash y))) (hash1 (f.hash y))
    (hash2 (f.hash y)) true 0
  rw [hstart] at hloop
  unfold testValue
  simp only [hloop, toNat_blockOffset h₁ h₂, toNat_positionInBlock, Nat.zero_add]

theorem testValue_spec (h₁ : 1 ≤ f.numBlocks.toNat) (h₂ : f.numBlocks.toNat ≤ 2 ^ 26)
    (bytes : f.Bytes) (y : α) :
    ∃ b, f.testValue bytes y = some b ∧ (b = true ↔ f.cells y ⊆ ones bytes) := by
  obtain ⟨b, hb, hall⟩ := whileAll_spec (f.numHashes + 1) true 1
    fun j _ _ => testBit_spec h₁ bytes y j
  refine ⟨b, by rw [testValue_eq_whileAll h₁ h₂, hb], ?_⟩
  rw [hall]
  constructor
  · rintro ⟨-, hrest⟩ c ⟨i, hi, hk, rfl⟩
    exact hrest i hi (by omega)
  · intro hsub
    exact ⟨rfl, fun j hj hk => hsub ⟨j, hj, by omega, rfl⟩⟩

/-- The filter refines the filter over its bits. -/
def cellFilter (f : SelfBlockBloom512 α) (h₁ : 1 ≤ f.numBlocks.toNat)
    (h₂ : f.numBlocks.toNat ≤ 2 ^ 26) : CellFilter α f.Bytes (ℕ × ℕ) where
  cells := f.cells
  contents := ones
  add := f.addValue
  test := f.testValue
  add_spec := addValue_spec h₁ h₂
  test_spec := testValue_spec h₁ h₂

/-- Two probes share a cell exactly when they share the block and the bit in it. -/
theorem cell_eq_iff (y x : α) (i j : ℕ) :
    f.cell y i = f.cell x j ↔ f.block y = f.block x ∧ f.bitInBlock i y = f.bitInBlock j x := by
  have hy := bitInBlock_lt (f := f) i y
  have hx := bitInBlock_lt (f := f) j x
  simp only [cell, fullByte, Nat.shiftRight_eq_div_pow, Prod.mk.injEq]
  omega

/-- After any history of insertions, every access was inside the block of its value,
and a value tests true exactly when each of its bits is a bit of a value inserted into
the same block. -/
theorem selfBlockBloom512_membership (hash : α → U64) (k : ℕ) (size : U64)
    (h₁ : 1 ≤ (new hash k size).numBlocks.toNat)
    (h₂ : (new hash k size).numBlocks.toNat ≤ 2 ^ 26) (xs : List α) :
    let f := new hash k size
    (∀ z i, 1 ≤ i → i ≤ k →
      let off := (f.blockOffset (hash1 (hash z))).toNat
      let byte := fullByte off
        ((hash1 (hash z) + BitVec.ofNat 32 i * hash2 (hash z)) &&& 511).toNat
      64 * f.block z ≤ byte ∧ byte < 64 * f.block z + 64 ∧ byte < f.sizeInBytes) ∧
    (∀ z i, (· + hash2 (hash z))^[i] (hash1 (hash z)) =
      hash1 (hash z) + BitVec.ofNat 32 i * hash2 (hash z)) ∧
    ∃ bytes, xs.foldlM f.addValue f.empty = some bytes ∧
      (∀ y, ∃ b, f.testValue bytes y = some b ∧
        (b = true ↔ ∀ i, 1 ≤ i → i ≤ k → ∃ x ∈ xs, f.block y = f.block x ∧
          ∃ j, 1 ≤ j ∧ j ≤ k ∧ f.bitInBlock i y = f.bitInBlock j x)) ∧
      ∀ x ∈ xs, f.testValue bytes x = some true := by
  intro f
  refine ⟨fun z i _ _ => ?_, fun z i => accumulated_eq_multiplied _ _ i, ?_⟩
  · have hoff : (f.blockOffset (hash1 (hash z))).toNat = 64 * f.block z :=
      toNat_blockOffset h₁ h₂ z
    have hbit : ((hash1 (hash z) + BitVec.ofNat 32 i * hash2 (hash z)) &&& 511).toNat =
        f.bitInBlock i z := toNat_positionInBlock (f := f) i z
    simp only [hoff, hbit]
    exact ⟨(fullByte_range z i).1, (fullByte_range z i).2, fullByte_lt h₁ z i⟩
  · let F := f.cellFilter h₁ h₂
    have hempty : F.contents f.empty = ∅ := ones_replicate_zero
    obtain ⟨bytes, hrun, -⟩ := F.run_spec f.empty xs
    refine ⟨bytes, hrun, fun y => ?_, fun x hx => CellFilter.test_of_mem hempty hrun hx⟩
    obtain ⟨b, hb, hiff⟩ := CellFilter.test_of_run hempty hrun y
    refine ⟨b, hb, hiff.trans ?_⟩
    constructor
    · intro h i hi hik
      obtain ⟨x, hx, j, hj, hjk, hc⟩ := h _ ⟨i, hi, hik, rfl⟩
      obtain ⟨hblock, hbit⟩ := (cell_eq_iff y x i j).mp hc
      exact ⟨x, hx, hblock, j, hj, hjk, hbit⟩
    · rintro h c ⟨i, hi, hik, rfl⟩
      obtain ⟨x, hx, hblock, j, hj, hjk, hbit⟩ := h i hi hik
      exact ⟨x, hx, j, hj, hjk, (cell_eq_iff y x i j).mpr ⟨hblock, hbit⟩⟩

/-- A size of 100 bits gives one block. -/
theorem selfBlockBloom512_membership_one_block :
    let f := new (fun x : ℕ => BitVec.ofNat 64 (x * 0x123456789ABCDEF)) 4 100
    f.numBlocks.toNat = 1 ∧
      ∃ bytes, [7, 9].foldlM f.addValue f.empty = some bytes ∧ f.testValue bytes 7 = some true := by
  intro f
  have hB : f.numBlocks.toNat = 1 := by decide
  obtain ⟨-, -, bytes, hrun, -, hmem⟩ := selfBlockBloom512_membership
    (fun x : ℕ => BitVec.ofNat 64 (x * 0x123456789ABCDEF)) 4 100 hB.ge (hB.trans_le (by norm_num))
    [7, 9]
  exact ⟨hB, bytes, hrun, hmem 7 (by simp)⟩

end SelfBlockBloom512

end EntropyLearnedHashing
