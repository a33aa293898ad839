import EntropyLearnedHashing.Str
import EntropyLearnedHashing.Library.CellFilter
import EntropyLearnedHashing.Library.MaskArray
import EntropyLearnedHashing.Library.WordMix

/-! `self_reg_bloom.hh`: the Bloom filter with 32-bit double hashing. The object is
split into its constant fields and the byte array that insertions update. The
number of hashes, which the constructor computes in floating point from the number of
expected elements, is a parameter. -/

namespace EntropyLearnedHashing

open LittleEndian WordMix MaskArray

/-- `mult_reduce`. -/
def multReduce (hash n : U32) : U32 := multShift hash n

/-- The two halves of the 64-bit hash that drive double hashing. -/
def hash1 (hashFull : U64) : U32 := hashFull.setWidth 32

def hash2 (hashFull : U64) : U32 := (hashFull >>> 32).setWidth 32

theorem toNat_hash1 (h : U64) : (hash1 h).toNat = h.toNat % 2 ^ 32 := by
  simp [hash1]

theorem toNat_hash2 (h : U64) : (hash2 h).toNat = h.toNat / 2 ^ 32 := by
  have := h.isLt
  simp only [hash2, BitVec.toNat_setWidth, BitVec.toNat_ushiftRight, Nat.shiftRight_eq_div_pow]
  omega

/-- The 32-bit double hash is the sum and product of the halves modulo `2 ^ 32`. -/
theorem toNat_doubleHash (h : U64) (i : ℕ) :
    (hash1 h + BitVec.ofNat 32 i * hash2 h).toNat =
      (h.toNat % 2 ^ 32 + i * (h.toNat / 2 ^ 32)) % 2 ^ 32 := by
  rw [BitVec.toNat_add, BitVec.toNat_mul, BitVec.toNat_ofNat, toNat_hash1, toNat_hash2]
  rw [Nat.add_mod_mod, Nat.add_mod, Nat.mod_mul_mod, ← Nat.add_mod]

/-- The constant fields of `selfBloom`; `sizeInBits` is eight times `sizeInBytes`. -/
structure SelfBloom (α : Type*) where
  hash : α → U64
  numHashes : ℕ
  sizeInBytes : ℕ

namespace SelfBloom

variable {α : Type*}

/-- What the constructor leaves for a number of hashes. It rounds the size up to whole bytes. -/
def new (hash : α → U64) (numHashes sizeInBits : ℕ) : SelfBloom α where
  hash := hash
  numHashes := numHashes
  sizeInBytes := sizeInBits / 8 + if sizeInBits % 8 ≠ 0 then 1 else 0

variable (f : SelfBloom α)

def sizeInBits : ℕ := 8 * f.sizeInBytes

/-- `uint8_t* bytes`. -/
abbrev Bytes := Vector Byte f.sizeInBytes

/-- The cleared array of a fresh filter. -/
def empty : f.Bytes := Vector.replicate _ 0

variable {f}

def setBit (bytes : f.Bytes) (position : ℕ) : Option f.Bytes :=
  orAt bytes (position >>> 3) (1#8 <<< (position &&& 7))

def testBit (bytes : f.Bytes) (position : ℕ) : Option Bool :=
  (maskAt bytes (position >>> 3) (1#8 <<< (position &&& 7))).map (· != 0)

variable (f)

/-- The position of `hash1 + i * hash2`. -/
def position (h1 h2 : U32) (i : ℕ) : ℕ :=
  (multReduce (h1 + BitVec.ofNat 32 i * h2) (BitVec.ofNat 32 f.sizeInBits)).toNat

def addValue (bytes : f.Bytes) (x : α) : Option f.Bytes := do
  let hashFull := f.hash x
  let h1 := hash1 hashFull
  let h2 := hash2 hashFull
  let position1 := (multReduce h1 (BitVec.ofNat 32 f.sizeInBits)).toNat
  let bytes ← setBit bytes position1
  (List.range' 1 (f.numHashes - 1)).foldlM (fun bytes i => setBit bytes (f.position h1 h2 i)) bytes

def testValue (bytes : f.Bytes) (x : α) : Option Bool := do
  let hashFull := f.hash x
  let h1 := hash1 hashFull
  let h2 := hash2 hashFull
  let position1 := (multReduce h1 (BitVec.ofNat 32 f.sizeInBits)).toNat
  let returnVal ← testBit bytes position1
  whileAll (fun i => testBit bytes (f.position h1 h2 i)) f.numHashes returnVal 1

/-! ### Probed bits -/

/-- The bit that probe `i` of a value reaches, in unbounded arithmetic. -/
def pos (i : ℕ) (z : α) : ℕ :=
  ((f.hash z).toNat % 2 ^ 32 + i * ((f.hash z).toNat / 2 ^ 32)) % 2 ^ 32 * f.sizeInBits / 2 ^ 32

variable {f}

theorem setBit_spec (bytes : f.Bytes) {p : ℕ} (hp : p < f.sizeInBits) :
    ∃ bytes', setBit bytes p = some bytes' ∧ ones bytes' = ones bytes ∪ {(p / 8, p % 8)} := by
  have hand : p &&& 7 = p % 8 := Nat.and_two_pow_sub_one_eq_mod p 3
  have hbyte : p / 8 < f.sizeInBytes := by unfold sizeInBits at hp; omega
  unfold setBit
  rw [Nat.shiftRight_eq_div_pow, hand]
  exact orAt_bit_spec bytes hbyte (Nat.mod_lt p (by norm_num))

theorem testBit_spec (bytes : f.Bytes) {p : ℕ} (hp : p < f.sizeInBits) :
    ∃ b, testBit bytes p = some b ∧ (b = true ↔ (p / 8, p % 8) ∈ ones bytes) := by
  have hand : p &&& 7 = p % 8 := Nat.and_two_pow_sub_one_eq_mod p 3
  have hbyte : p / 8 < f.sizeInBytes := by unfold sizeInBits at hp; omega
  obtain ⟨v, hv, hiff⟩ := maskAt_ne_zero_iff bytes hbyte (Nat.mod_lt p (by norm_num : 0 < 8))
  refine ⟨v != 0, ?_, by simpa using hiff⟩
  unfold testBit
  rw [Nat.shiftRight_eq_div_pow, hand]
  simp [hv]

theorem position_eq_pos (hsize : f.sizeInBits < 2 ^ 32) (i : ℕ) (z : α) :
    f.position (hash1 (f.hash z)) (hash2 (f.hash z)) i = f.pos i z := by
  unfold position multReduce pos
  rw [toNat_multShift, toNat_doubleHash, BitVec.toNat_ofNat, Nat.mod_eq_of_lt hsize]

theorem position1_eq_pos (hsize : f.sizeInBits < 2 ^ 32) (z : α) :
    (multReduce (hash1 (f.hash z)) (BitVec.ofNat 32 f.sizeInBits)).toNat = f.pos 0 z := by
  rw [← position_eq_pos hsize]
  simp [position]

theorem pos_lt (hpos : 0 < f.sizeInBits) (i : ℕ) (z : α) : f.pos i z < f.sizeInBits :=
  scale_lt (Nat.mod_lt _ (by norm_num)) hpos

/-! ### Refinement of the filter over bits -/

variable (f)

/-- The probed bits of a value, as byte and bit in the byte. -/
def cells (z : α) : Set (ℕ × ℕ) := {c | ∃ i < f.numHashes, c = (f.pos i z / 8, f.pos i z % 8)}

variable {f}

/-- Insertion sets the bits at its positions, as long as these lie inside the array. -/
theorem addValue_positions (hk : 1 ≤ f.numHashes) {x : α} {p : ℕ → ℕ}
    (hp : ∀ i, f.position (hash1 (f.hash x)) (hash2 (f.hash x)) i = p i) (hlt : ∀ i, p i < f.sizeInBits)
    (bytes : f.Bytes) : ∃ bytes', f.addValue bytes x = some bytes' ∧
      ones bytes' = ones bytes ∪ {c | ∃ i < f.numHashes, c = (p i / 8, p i % 8)} := by
  have hfirst : (multReduce (hash1 (f.hash x)) (BitVec.ofNat 32 f.sizeInBits)).toNat = p 0 := by
    rw [← hp]
    simp [position]
  obtain ⟨b₁, hb₁, hones₁⟩ := setBit_spec bytes (hlt 0)
  obtain ⟨b₂, hb₂, hones₂⟩ := foldlM_union ones (fun bytes i => setBit bytes (p i))
    (fun i => {(p i / 8, p i % 8)}) (List.range' 1 (f.numHashes - 1))
    (fun bytes i _ => setBit_spec bytes (hlt i)) b₁
  refine ⟨b₂, ?_, ?_⟩
  · simp only [addValue, hfirst, hp]
    simp [hb₁, hb₂]
  · rw [hones₂, hones₁, Set.union_assoc]
    congr 1
    ext c
    simp only [Set.mem_union, Set.mem_singleton_iff, Set.mem_iUnion, List.mem_range'_1,
      exists_prop, Set.mem_ofPred_eq]
    constructor
    · rintro (h0 | ⟨i, hi, hc⟩)
      · exact ⟨0, by omega, h0⟩
      · exact ⟨i, by omega, hc⟩
    · rintro ⟨i, hi, hc⟩
      rcases Nat.eq_zero_or_pos i with rfl | hi0
      · exact .inl hc
      · exact .inr ⟨i, by omega, hc⟩

theorem addValue_spec (hk : 1 ≤ f.numHashes) (hpos : 0 < f.sizeInBits) (hsize : f.sizeInBits < 2 ^ 32)
    (bytes : f.Bytes) (x : α) :
    ∃ bytes', f.addValue bytes x = some bytes' ∧ ones bytes' = ones bytes ∪ f.cells x :=
  addValue_positions hk (fun i => position_eq_pos hsize i x) (fun i => pos_lt hpos i x) bytes

theorem testValue_spec (hk : 1 ≤ f.numHashes) (hpos : 0 < f.sizeInBits)
    (hsize : f.sizeInBits < 2 ^ 32) (bytes : f.Bytes) (y : α) :
    ∃ b, f.testValue bytes y = some b ∧ (b = true ↔ f.cells y ⊆ ones bytes) := by
  obtain ⟨r, hr, hiff⟩ := testBit_spec bytes (pos_lt hpos 0 y)
  obtain ⟨b, hb, hall⟩ := whileAll_spec f.numHashes r 1
    (fun j _ _ => testBit_spec bytes (pos_lt hpos j y))
  refine ⟨b, ?_, ?_⟩
  · simp only [testValue, position1_eq_pos hsize, position_eq_pos hsize]
    simp [hr, hb]
  · rw [hall, hiff]
    constructor
    · rintro ⟨h0, hrest⟩ c ⟨i, hi, rfl⟩
      rcases Nat.eq_zero_or_pos i with rfl | hi0
      · exact h0
      · exact hrest i hi0 hi
    · intro hsub
      exact ⟨hsub ⟨0, by omega, rfl⟩, fun j _ hj => hsub ⟨j, hj, rfl⟩⟩

/-- The filter refines the filter over its bits. -/
def cellFilter (f : SelfBloom α) (hk : 1 ≤ f.numHashes) (hpos : 0 < f.sizeInBits)
    (hsize : f.sizeInBits < 2 ^ 32) : CellFilter α f.Bytes (ℕ × ℕ) where
  cells := f.cells
  contents := ones
  add := f.addValue
  test := f.testValue
  add_spec := addValue_spec hk hpos hsize
  test_spec := testValue_spec hk hpos hsize

/-- The stored size is the requested one, rounded up to whole bytes. -/
theorem sizeInBits_new_eq (hash : α → U64) (k size : ℕ) :
    (new hash k size).sizeInBits = 8 * ((size + 7) / 8) := by
  unfold sizeInBits new
  split_ifs with h <;> simp only <;> omega

/-- The stored size of a fresh filter is positive and fits the 32-bit reduction. -/
theorem sizeInBits_new (hash : α → U64) (k : ℕ) {size : ℕ} (h₁ : 1 ≤ size) (h₂ : size ≤ 2 ^ 32 - 8) :
    0 < (new hash k size).sizeInBits ∧ (new hash k size).sizeInBits < 2 ^ 32 := by
  rw [sizeInBits_new_eq]
  omega

/-- After any history of insertions, no access has left the array, and a value tests
true exactly when each of its probed bits is a probed bit of an inserted value. -/
theorem selfBloom_membership (hash : α → U64) (k : ℕ) (hk : 1 ≤ k) (size : ℕ) (h₁ : 1 ≤ size)
    (h₂ : size ≤ 2 ^ 32 - 8) (xs : List α) :
    let f := new hash k size
    ∃ bytes, xs.foldlM f.addValue f.empty = some bytes ∧
      (∀ y, ∃ b, f.testValue bytes y = some b ∧
        (b = true ↔ ∀ i < k, ∃ x ∈ xs, ∃ j < k, f.pos i y = f.pos j x)) ∧
      (∀ x ∈ xs, f.testValue bytes x = some true) ∧
      ∀ ys : List α, ys.Perm xs → ∃ bytes', ys.foldlM f.addValue f.empty = some bytes' ∧
        ∀ y, f.testValue bytes' y = f.testValue bytes y := by
  intro f
  obtain ⟨hpos, hsize⟩ := sizeInBits_new hash k h₁ h₂
  let F := f.cellFilter hk hpos hsize
  have hempty : F.contents f.empty = ∅ := ones_replicate_zero
  obtain ⟨bytes, hrun, -⟩ := F.run_spec f.empty xs
  refine ⟨bytes, hrun, fun y => ?_, fun x hx => CellFilter.test_of_mem hempty hrun hx,
    fun ys hperm => ?_⟩
  · obtain ⟨b, hb, hiff⟩ := CellFilter.test_of_run hempty hrun y
    refine ⟨b, hb, hiff.trans ?_⟩
    constructor
    · intro h i hi
      obtain ⟨x, hx, j, hj, hc⟩ := h _ ⟨i, hi, rfl⟩
      simp only [Prod.mk.injEq] at hc
      exact ⟨x, hx, j, hj, by omega⟩
    · rintro h c ⟨i, hi, rfl⟩
      obtain ⟨x, hx, j, hj, hp⟩ := h i hi
      exact ⟨x, hx, j, hj, by rw [hp]⟩
  · obtain ⟨bytes', hrun', -⟩ := F.run_spec f.empty ys
    exact ⟨bytes', hrun', fun y => CellFilter.test_of_perm hempty hrun hrun' hperm y⟩

/-- Two inserted keys in a filter of 13 bits with three hashes. -/
theorem selfBloom_membership_thirteen :
    let f := new (fun x : ℕ => BitVec.ofNat 64 (x * 0x123456789ABCDEF)) 3 13
    ∃ bytes, [7, 9].foldlM f.addValue f.empty = some bytes ∧ f.testValue bytes 7 = some true := by
  intro f
  obtain ⟨bytes, hrun, -, hmem, -⟩ := selfBloom_membership
    (fun x : ℕ => BitVec.ofNat 64 (x * 0x123456789ABCDEF)) 3 (by norm_num) 13 (by norm_num)
    (by norm_num) [7, 9]
  exact ⟨bytes, hrun, hmem 7 (by simp)⟩

end SelfBloom

end EntropyLearnedHashing
