import EntropyLearnedHashing.Filters.SelfBlockBloom512

/-! `register_blocked_bloom.hh`: the Bloom filter that keeps all bits of a value in
one 64-bit word. The mask of a value is built from consecutive six-bit pieces of
the second hash. Insertion builds it in one loop, a query in a loop that is one
round shorter and a last round behind it. What `1 << positionInBlock` evaluates to
is a parameter. -/

namespace EntropyLearnedHashing

open LittleEndian WordMix MaskArray

/-- The constant fields of `selfBlockBloom64`. -/
structure SelfBlockBloom64 (α : Type*) where
  hash : α → U64
  numHashes : ℕ
  sizeInBytes : ℕ

namespace SelfBlockBloom64

variable {α : Type*}

/-- What the constructor leaves when it has chosen a number of hashes. -/
def new (hash : α → U64) (numHashes : ℕ) (sizeInBits : U64) : SelfBlockBloom64 α where
  hash := hash
  numHashes := numHashes
  sizeInBytes := (blockSizeInBytes sizeInBits).toNat

variable (f : SelfBlockBloom64 α)

def sizeInBits : ℕ := 8 * f.sizeInBytes

/-- `unsigned int numBlocks`. -/
def numBlocks : U32 := BitVec.ofNat 32 (f.sizeInBits / 64)

/-- The number of allocated words. -/
def numWords : ℕ := f.sizeInBytes / 8

/-- `uint64_t* words`. -/
abbrev Words := Vector U64 f.numWords

/-- The cleared array of a fresh filter. -/
def empty : f.Words := Vector.replicate _ 0

def wordNum (z : α) : ℕ := (multReduceBlock (hash1 (f.hash z)) f.numBlocks).toNat

variable (shl : U32 → U64)

/-- One round: `testWord |= 1 << (hash2 & 63); hash2 = hash2 >> 6`. -/
def round (s : U64 × U32) : U64 × U32 := (s.1 ||| shl (s.2 &&& 63), s.2 >>> 6)

def addValue (words : f.Words) (x : α) : Option f.Words :=
  let s := (List.range' 1 f.numHashes).foldl (fun s _ => round shl s) (0, hash2 (f.hash x))
  orAt words (f.wordNum x) s.1

def testValue (words : f.Words) (x : α) : Option Bool :=
  let s := (List.range' 1 (f.numHashes - 1)).foldl (fun s _ => round shl s) (0, hash2 (f.hash x))
  let testWord := s.1 ||| shl (s.2 &&& 63)
  (maskAt words (f.wordNum x) testWord).map (· == testWord)

/-- The mask that insertion writes. -/
def mask (z : α) : U64 :=
  ((List.range' 1 f.numHashes).foldl (fun s _ => round shl s) (0, hash2 (f.hash z))).1

variable {f}

/-- The shorter loop and the round behind it build the same mask. -/
theorem last_round_eq_mask (hk : 1 ≤ f.numHashes) (z : α) :
    (round shl ((List.range' 1 (f.numHashes - 1)).foldl (fun s _ => round shl s)
      (0, hash2 (f.hash z)))).1 = f.mask shl z := by
  obtain ⟨n, hn⟩ : ∃ n, f.numHashes = n + 1 := ⟨f.numHashes - 1, by omega⟩
  unfold mask
  rw [hn, Nat.add_sub_cancel, List.range'_1_concat, List.foldl_append]
  rfl

theorem wordNum_lt (h : 0 < f.numWords) (z : α) : f.wordNum z < f.numWords := by
  have hle : f.numBlocks.toNat ≤ f.numWords := by
    unfold numBlocks numWords sizeInBits
    rw [BitVec.toNat_ofNat]
    have := Nat.mod_le (8 * f.sizeInBytes / 64) (2 ^ 32)
    omega
  unfold wordNum multReduceBlock
  rcases Nat.eq_zero_or_pos f.numBlocks.toNat with h0 | hpos
  · -- a number of blocks that is truncated to zero sends every value to the first word
    rw [toNat_multShift, h0]
    simpa using h
  · exact lt_of_lt_of_le (multShift_lt _ _ hpos) hle

theorem addValue_spec (h : 0 < f.numWords) (words : f.Words) (x : α) :
    ∃ words', f.addValue shl words x = some words' ∧
      ones words' = ones words ∪ bits (f.wordNum x) (f.mask shl x) :=
  orAt_spec words (wordNum_lt h x) _

theorem testValue_spec (hk : 1 ≤ f.numHashes) (h : 0 < f.numWords) (words : f.Words) (y : α) :
    ∃ b, f.testValue shl words y = some b ∧
      (b = true ↔ bits (f.wordNum y) (f.mask shl y) ⊆ ones words) := by
  obtain ⟨v, hv, hiff⟩ := maskAt_eq_mask_iff words (wordNum_lt h y) (f.mask shl y)
  refine ⟨v == f.mask shl y, ?_, by simpa using hiff⟩
  rw [← last_round_eq_mask shl hk] at hv ⊢
  unfold testValue
  simp only [round] at hv ⊢
  rw [hv, Option.map_some]

/-- The filter refines the filter over the bits of its words. -/
def cellFilter (f : SelfBlockBloom64 α) (shl : U32 → U64) (hk : 1 ≤ f.numHashes)
    (h : 0 < f.numWords) : CellFilter α f.Words (ℕ × ℕ) where
  cells := fun z => bits (f.wordNum z) (f.mask shl z)
  contents := ones
  add := f.addValue shl
  test := f.testValue shl
  add_spec := addValue_spec shl h
  test_spec := testValue_spec shl hk h

theorem numWords_new_pos (hash : α → U64) (k : ℕ) {size : U64} (hsize : size.toNat + 512 < 2 ^ 64) :
    0 < (new hash k size).numWords := by
  have hbytes : (new hash k size).sizeInBytes = 64 * (size.toNat / 512 + 1) :=
    toNat_blockSizeInBytes hsize
  unfold numWords
  omega

/-- After any history of insertions, every index was inside the array and every inserted
value tests true. -/
theorem selfBlockBloom64_no_false_negative (hash : α → U64) (k : ℕ) (hk : 1 ≤ k) (size : U64)
    (hsize : size.toNat / 64 < 2 ^ 32) (xs : List α) :
    let f := new hash k size
    (∀ z, f.wordNum z < f.numWords) ∧
    ∃ words, xs.foldlM (f.addValue shl) f.empty = some words ∧
      ∀ x ∈ xs, f.testValue shl words x = some true := by
  intro f
  have hpos := numWords_new_pos hash k (show size.toNat + 512 < 2 ^ 64 by omega)
  refine ⟨wordNum_lt hpos, ?_⟩
  let F := f.cellFilter shl hk hpos
  have hempty : F.contents f.empty = ∅ := ones_replicate_zero
  obtain ⟨words, hrun, -⟩ := F.run_spec f.empty xs
  exact ⟨words, hrun, fun x hx => CellFilter.test_of_mem hempty hrun hx⟩

/-- With `1 << p` taken in 64 bits, two hashes and a request for 64 bits. -/
theorem selfBlockBloom64_no_false_negative_two_hashes :
    let f := new (fun x : ℕ => BitVec.ofNat 64 (x * 0x123456789ABCDEF)) 2 64
    ∃ words, [7, 9].foldlM (f.addValue fun p => 1#64 <<< p) f.empty = some words ∧
      f.testValue (fun p => 1#64 <<< p) words 7 = some true := by
  intro f
  obtain ⟨-, words, hrun, hmem⟩ := selfBlockBloom64_no_false_negative (fun p => 1#64 <<< p)
    (fun x : ℕ => BitVec.ofNat 64 (x * 0x123456789ABCDEF)) 2 (by norm_num) 64 (by decide) [7, 9]
  exact ⟨words, hrun, hmem 7 (by simp)⟩

/-! ### The bits of a word -/

/-- `1 << p` with the `int` literal, widened to 64 bits. Bit 31 is the sign and is extended.
From 32 on the shift is undefined, so nothing is known of its value there. -/
def IntShift (shl : U32 → U64) : Prop :=
  ∀ p : U32, p.toNat < 32 → shl p = (1#32 <<< p.toNat).signExtend 64

/-- The shift instruction takes its count modulo 32. -/
def shlInstruction (p : U32) : U64 := (1#32 <<< (p.toNat % 32)).signExtend 64

theorem intShift_shlInstruction : IntShift shlInstruction := by
  intro p hp
  rw [shlInstruction, Nat.mod_eq_of_lt hp]

/-- The `i`-th piece of six bits of the second hash, the shift count of round `i`. -/
def piece (f : SelfBlockBloom64 α) (z : α) (i : ℕ) : ℕ :=
  (hash2 (f.hash z)).toNat / 2 ^ (6 * i) % 64

theorem piece_eq (z : α) (i : ℕ) :
    ((hash2 (f.hash z) >>> (6 * i)) &&& 63).toNat = f.piece z i := by
  have h63 : (63 : U32).toNat = 2 ^ 6 - 1 := rfl
  rw [BitVec.toNat_and, h63, Nat.and_two_pow_sub_one_eq_mod, BitVec.toNat_ushiftRight,
    Nat.shiftRight_eq_div_pow, piece]

/-- After `k` rounds the word holds what the first `k` pieces shift in. -/
theorem foldl_round_spec (h : U32) (k : ℕ) :
    let s := (List.range' 1 k).foldl (fun s _ => round shl s) (0, h)
    s.2 = h >>> (6 * k) ∧
      ∀ b, s.1.getLsbD b = true ↔ ∃ i < k, (shl ((h >>> (6 * i)) &&& 63)).getLsbD b = true := by
  induction k with
  | zero => simp
  | succ k ih =>
    obtain ⟨hrest, hbits⟩ := ih
    rw [List.range'_1_concat, List.foldl_append]
    generalize (List.range' 1 k).foldl (fun s _ => round shl s) (0, h) = s at hrest hbits
    simp only [List.foldl_cons, List.foldl_nil, round]
    refine ⟨?_, fun b => ?_⟩
    · rw [hrest, ← BitVec.shiftRight_add, Nat.mul_succ]
    · rw [BitVec.getLsbD_or, Bool.or_eq_true, hbits, hrest]
      constructor
      · rintro (⟨i, hi, hb⟩ | hb)
        · exact ⟨i, by omega, hb⟩
        · exact ⟨k, by omega, hb⟩
      · rintro ⟨i, hi, hb⟩
        rcases Nat.lt_succ_iff_lt_or_eq.mp hi with hlt | rfl
        · exact .inl ⟨i, hlt, hb⟩
        · exact .inr hb

variable {shl}

/-- Below the sign bit the shift sets one bit. -/
theorem IntShift.getLsbD_iff (hshl : IntShift shl) {p : U32} (hp : p.toNat < 31) (b : ℕ) :
    (shl p).getLsbD b = true ↔ b = p.toNat := by
  have hwide : ∀ q : Fin 31, (1#32 <<< q.val).signExtend 64 = 1#64 <<< q.val := by decide
  have hval : (1#32 <<< p.toNat).signExtend 64 = 1#64 <<< p.toNat := hwide ⟨p.toNat, hp⟩
  rw [hshl p (by omega), hval, ← BitVec.twoPow_eq, BitVec.getLsbD_twoPow]
  simp only [Bool.and_eq_true, decide_eq_true_eq]
  omega

/-- The shift by 31 sets the whole upper half as well. -/
theorem IntShift.getLsbD_sign (hshl : IntShift shl) {p : U32} (hp : p.toNat = 31) :
    (shl p).getLsbD 63 = true := by
  rw [hshl p (by omega), hp]
  decide

theorem mask_getLsbD_iff (z : α) (b : ℕ) :
    (f.mask shl z).getLsbD b = true ↔ ∃ i < f.numHashes,
      (shl ((hash2 (f.hash z) >>> (6 * i)) &&& 63)).getLsbD b = true :=
  (foldl_round_spec shl (hash2 (f.hash z)) f.numHashes).2 b

/-- The mask of a value whose pieces are below the sign bit consists of its pieces. -/
theorem mask_getLsbD_iff_piece (hshl : IntShift shl) {z : α}
    (hz : ∀ i < f.numHashes, f.piece z i < 31) (b : ℕ) :
    (f.mask shl z).getLsbD b = true ↔ ∃ i < f.numHashes, b = f.piece z i := by
  rw [mask_getLsbD_iff]
  refine exists_congr fun i => and_congr_right fun hi => ?_
  have hp : ((hash2 (f.hash z) >>> (6 * i)) &&& 63).toNat < 31 := by rw [piece_eq]; exact hz i hi
  rw [hshl.getLsbD_iff hp, piece_eq]

variable (f shl) in
/-- The filter uses the bits of its words on a history of insertions: every shift count is
below the width of the shifted `int`, and the bits that are set are those the pieces of the
inserted values name. -/
def UsesWordBits (xs : List α) : Prop :=
  (∀ x ∈ xs, ∀ i < f.numHashes, f.piece x i < 32) ∧
    ∃ words, xs.foldlM (f.addValue shl) f.empty = some words ∧
      ∀ w p, p < 64 → ((w, p) ∈ ones words ↔
        ∃ x ∈ xs, w = (hash1 (f.hash x)).toNat * f.numBlocks.toNat / 2 ^ 32 ∧
          ∃ i < f.numHashes, p = f.piece x i)

variable (shl) in
theorem run_addValue (h : 0 < f.numWords) (xs : List α) :
    ∃ words, xs.foldlM (f.addValue shl) f.empty = some words ∧
      ∀ w p, (w, p) ∈ ones words ↔
        ∃ x ∈ xs, w = f.wordNum x ∧ (f.mask shl x).getLsbD p = true := by
  obtain ⟨words, hrun, hones⟩ := foldlM_union ones (f.addValue shl)
    (fun x => bits (f.wordNum x) (f.mask shl x)) xs (fun s x _ => addValue_spec shl h s x) f.empty
  refine ⟨words, hrun, fun w p => ?_⟩
  have hempty : ones f.empty = ∅ := ones_replicate_zero
  rw [hones, hempty, Set.empty_union]
  simp only [bits, Set.mem_iUnion, Set.mem_ofPred_eq, exists_prop]

theorem wordNum_eq (z : α) :
    f.wordNum z = (hash1 (f.hash z)).toNat * f.numBlocks.toNat / 2 ^ 32 := by
  rw [wordNum, multReduceBlock, toNat_multShift]

theorem usesWordBits_iff (hshl : IntShift shl) (h : 0 < f.numWords) (xs : List α) :
    UsesWordBits f shl xs ↔ ∀ x ∈ xs, ∀ i < f.numHashes, f.piece x i < 31 := by
  obtain ⟨words, hrun, hones⟩ := run_addValue shl h xs
  constructor
  · rintro ⟨hwidth, words', hrun', hbits⟩ x hx i hi
    obtain rfl : words' = words := Option.some.inj (hrun'.symm.trans hrun)
    by_contra hsign
    have hpiece : f.piece x i = 31 := by
      have := hwidth x hx i hi
      omega
    -- the sign extension sets bit 63, which is no piece below 32
    have hset : (f.wordNum x, 63) ∈ ones words' := by
      rw [hones]
      refine ⟨x, hx, rfl, (mask_getLsbD_iff x 63).mpr ⟨i, hi, hshl.getLsbD_sign ?_⟩⟩
      rw [piece_eq, hpiece]
    obtain ⟨y, hy, -, j, hj, hpj⟩ := (hbits _ 63 (by decide)).mp hset
    have := hwidth y hy j hj
    omega
  · intro hlow
    refine ⟨fun x hx i hi => by have := hlow x hx i hi; omega, words, hrun, fun w p _ => ?_⟩
    rw [hones]
    refine exists_congr fun x => and_congr_right fun hx => ?_
    rw [wordNum_eq, mask_getLsbD_iff_piece hshl (hlow x hx)]

/-- A fresh filter uses the bits of its words on a history of insertions exactly when no
inserted value has a piece from 31 on. -/
theorem new_usesWordBits_iff (hshl : IntShift shl) (hash : α → U64) (k : ℕ) (size : U64)
    (hsize : size.toNat + 512 < 2 ^ 64) (xs : List α) :
    UsesWordBits (new hash k size) shl xs ↔
      ∀ x ∈ xs, ∀ i < k, (hash2 (hash x)).toNat / 2 ^ (6 * i) % 64 < 31 :=
  usesWordBits_iff hshl (numWords_new_pos hash k hsize) xs

/-- Two values with the pieces 30, 5 and 0, 17. -/
theorem new_usesWordBits_low_pieces :
    UsesWordBits (new (BitVec.ofNat 64) 2 64) shlInstruction
      [(30 + 64 * 5) * 2 ^ 32, 64 * 17 * 2 ^ 32 + 7] :=
  (new_usesWordBits_iff intShift_shlInstruction (BitVec.ofNat 64) 2 64 (by decide) _).mpr (by decide)

/-- One value with the piece 31 sets the upper half of its word. -/
theorem new_not_usesWordBits_sign :
    ¬UsesWordBits (new (BitVec.ofNat 64) 1 64) shlInstruction [31 * 2 ^ 32] := by
  rw [usesWordBits_iff intShift_shlInstruction (numWords_new_pos _ _ (by decide))]
  intro hlow
  exact absurd (hlow (31 * 2 ^ 32) (by simp) 0 (by decide)) (by decide)

end SelfBlockBloom64

end EntropyLearnedHashing
