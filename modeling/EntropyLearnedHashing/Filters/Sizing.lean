import EntropyLearnedHashing.Filters.Construct
import EntropyLearnedHashing.Storage

/-! The size of the filters. `generateNumBits` multiplies in double precision and casts the
product to `int`, whose range ends at `2 ^ 31`, before it becomes a `size_t`. The
constructors round the size up, by three formulas. Up to the 210,000,000 lines of a
data set and 24 bits per element the cast is undefined from `2 ^ 31` bits on, and the
constructors of the block filters return only for one key to one for each stored bit. -/

namespace EntropyLearnedHashing

open LittleEndian BinaryRounding

/-- A positive `double`. -/
structure BitsPerElement where
  value : ℚ
  isDouble : toDouble value = value
  pos : 0 < value

/-- `selfBloomUtils::generateNumBits`; `none` when the cast to `int` is undefined. -/
def generateNumBits (bitsPerElement : BitsPerElement) (numElementsExpected : ℕ) : Option U64 :=
  let product := toDouble (toDouble numElementsExpected * bitsPerElement.value)
  if product < 2 ^ 31 then some (BitVec.ofInt 64 ⌊product⌋) else none

section

variable {b : BitsPerElement} {n : ℕ}

/-- The number of elements is a `double`. -/
theorem generateNumBits_eq (hn : n ≤ 210000000) : generateNumBits b n =
    if toDouble (n * b.value) < 2 ^ 31 then some (BitVec.ofInt 64 ⌊toDouble (n * b.value)⌋)
    else none := by
  unfold generateNumBits
  rw [toDouble_natCast_of_lt (by omega)]

theorem product_nonneg (b : BitsPerElement) (n : ℕ) : 0 ≤ n * b.value :=
  mul_nonneg n.cast_nonneg b.pos.le

theorem ulpExp_neg {x : ℚ} (hx : x < 2 ^ 31) : ulpExp 53 (-1074) x < 0 := by
  have hlog : Int.log 2 x < 31 := by
    rcases le_or_gt x 0 with hle | hpos
    · rw [Int.log_of_right_le_zero _ hle]
      norm_num
    · exact (Int.lt_zpow_iff_log_lt one_lt_two hpos).mp (by exact_mod_cast hx)
  unfold ulpExp
  omega

theorem two_pow_le_toDouble {x : ℚ} (hx : 2 ^ 31 ≤ x) (hlt : x < 2 ^ 53) : 2 ^ 31 ≤ toDouble x := by
  have hpos : 0 < x := lt_of_lt_of_le (by norm_num) hx
  have hlog : Int.log 2 x < 53 :=
    (Int.lt_zpow_iff_log_lt one_lt_two hpos).mp (by exact_mod_cast hlt)
  have hexp : ulpExp 53 (-1074) x ≤ 31 := by
    unfold ulpExp
    omega
  have hround := zpow_le_round hexp (by exact_mod_cast hx)
  exact_mod_cast hround

theorem generateNumBits_eq_none (hn : n ≤ 210000000) (hb : b.value ≤ 24)
    (hlarge : 2 ^ 31 ≤ n * b.value) : generateNumBits b n = none := by
  have hlt : n * b.value < 2 ^ 53 := by
    have hcast : (n : ℚ) ≤ 210000000 := by exact_mod_cast hn
    calc n * b.value ≤ 210000000 * 24 :=
          mul_le_mul hcast hb b.pos.le (by norm_num)
      _ < 2 ^ 53 := by norm_num
  rw [generateNumBits_eq hn]
  exact if_neg (not_lt.mpr (two_pow_le_toDouble hlarge hlt))

/-- Below `2 ^ 31` the result is the number of whole bits exactly when rounding keeps it. -/
theorem generateNumBits_eq_floor_iff (hn : n ≤ 210000000) (hsmall : n * b.value < 2 ^ 31) :
    (∃ g, generateNumBits b n = some g ∧ g.toNat = ⌊n * b.value⌋₊) ↔
      ⌊toDouble (n * b.value)⌋ = ⌊n * b.value⌋ := by
  set x := n * b.value with hx
  have hnonneg : 0 ≤ x := product_nonneg b n
  have hrnonneg : 0 ≤ toDouble x := round_nonneg hnonneg
  have hfloor : (⌊x⌋₊ : ℤ) = ⌊x⌋ := Int.natCast_floor_eq_floor hnonneg
  rw [generateNumBits_eq hn, ← hx]
  have hfloor31 : ⌊x⌋ < 2 ^ 31 := Int.floor_lt.mpr (by exact_mod_cast hsmall)
  constructor
  · rintro ⟨g, hg, hbits⟩
    split_ifs at hg with hfits
    obtain rfl := Option.some.inj hg
    have hlow : 0 ≤ ⌊toDouble x⌋ := Int.floor_nonneg.mpr hrnonneg
    have hhigh : ⌊toDouble x⌋ < 2 ^ 31 := Int.floor_lt.mpr (by exact_mod_cast hfits)
    rw [BitVec.toNat_ofInt, Int.emod_eq_of_lt hlow (by omega)] at hbits
    omega
  · intro heq
    have hfits : toDouble x < 2 ^ 31 := by
      have hlt := Int.lt_floor_add_one (toDouble x)
      rw [heq] at hlt
      have hle : ((⌊x⌋ + 1 : ℤ) : ℚ) ≤ 2 ^ 31 := by exact_mod_cast hfloor31
      push_cast at hle
      linarith
    refine ⟨_, if_pos hfits, ?_⟩
    rw [heq, BitVec.toNat_ofInt, Int.emod_eq_of_lt (Int.floor_nonneg.mpr hnonneg) (by omega)]
    omega

end

/-! ### Stored sizes -/

theorem SelfBlockBloom512.sizeInBits_new_eq {α : Type*} (hash : α → U64) (k : ℕ) {size : U64}
    (h : size.toNat + 512 < 2 ^ 64) :
    (SelfBlockBloom512.new hash k size).sizeInBits = 512 * (size.toNat / 512 + 1) := by
  unfold sizeInBits new
  dsimp only
  rw [toNat_blockSizeInBytes h]
  omega

theorem SelfBlockBloom64.sizeInBits_new_eq {α : Type*} (hash : α → U64) (k : ℕ) {size : U64}
    (h : size.toNat + 512 < 2 ^ 64) :
    (SelfBlockBloom64.new hash k size).sizeInBits = 512 * (size.toNat / 512 + 1) := by
  unfold sizeInBits new
  dsimp only
  rw [toNat_blockSizeInBytes h]
  omega

/-- The stored size covers the asked bits with at most a block to spare. -/
def Covers (bits sizeInBits : ℕ) : Prop := bits ≤ sizeInBits ∧ sizeInBits ≤ bits + 512

section

variable {α : Type*}

/-- The three constructors never lose a bit. -/
theorem covers_new (hash : α → U64) (k : ℕ) {g : U64} (hg : g.toNat + 512 < 2 ^ 64) :
    Covers g.toNat (SelfBloom.new hash k g.toNat).sizeInBits ∧
      Covers g.toNat (SelfBlockBloom512.new hash k g).sizeInBits ∧
        Covers g.toNat (SelfBlockBloom64.new hash k g).sizeInBits := by
  rw [SelfBloom.sizeInBits_new_eq, SelfBlockBloom512.sizeInBits_new_eq hash k hg,
    SelfBlockBloom64.sizeInBits_new_eq hash k hg]
  unfold Covers
  omega

/-- The computed size is the number of whole bits, and the three filters built from it for `n` keys
store that many or a few more. -/
def SizedRight (libm : Libm) (hash : α → U64) (b : BitsPerElement) (n : ℕ) : Prop :=
  ∃ g, generateNumBits b n = some g ∧ g.toNat = ⌊n * b.value⌋₊ ∧
    (∃ f, SelfBloom.construct libm hash g.toNat n = some f ∧
      Covers ⌊n * b.value⌋₊ f.sizeInBits) ∧
    (∃ f, (∃ enough, ∀ fuel ≥ enough,
        SelfBlockBloom512.construct libm hash g (BitVec.ofNat 64 n) fuel = some f) ∧
      Covers ⌊n * b.value⌋₊ f.sizeInBits) ∧
    ∃ f, (∃ enough, ∀ fuel ≥ enough,
        SelfBlockBloom64.construct libm hash g (BitVec.ofNat 64 n) fuel = some f) ∧
      Covers ⌊n * b.value⌋₊ f.sizeInBits

/-- There are keys, and not more than stored bits. -/
def KeysFit (b : BitsPerElement) (n : ℕ) : Prop := 1 ≤ n ∧ n ≤ 512 * (⌊n * b.value⌋₊ / 512 + 1)

theorem sizedRight_iff_keysFit (libm : Libm) (hash : α → U64) {b : BitsPerElement} {n : ℕ} {g : U64}
    (hn : n ≤ 210000000) (hg : generateNumBits b n = some g) (hbits : g.toNat = ⌊n * b.value⌋₊)
    (hlt : g.toNat < 2 ^ 31) : SizedRight libm hash b n ↔ KeysFit b n := by
  have hcast : (BitVec.ofNat 64 n).toNat = n := by
    rw [BitVec.toNat_ofNat]
    omega
  have hiff := SelfBlockBloom512.exists_construct_iff libm hash (n := BitVec.ofNat 64 n)
    (show g.toNat < 2 ^ 44 by omega)
  rw [hcast, hbits] at hiff
  constructor
  · rintro ⟨g', hg', -, -, ⟨f, hf, -⟩, -⟩
    obtain rfl := Option.some.inj (hg.symm.trans hg')
    exact hiff.mp ⟨f, hf⟩
  · rintro ⟨hpos, hle⟩
    obtain ⟨k₁, -, h₁⟩ := SelfBloom.exists_construct libm hash (show g.toNat ≤ 2 ^ 32 - 8 by omega)
      (show n < 2 ^ 53 by omega) (.inl hpos)
    obtain ⟨k₂, -, h₂⟩ := SelfBlockBloom512.exists_construct libm hash (n := BitVec.ofNat 64 n)
      (show g.toNat < 2 ^ 44 by omega) (by omega) (by rw [hcast, hbits]; exact hle)
    obtain ⟨k₃, -, h₃⟩ := SelfBlockBloom64.exists_construct libm hash (n := BitVec.ofNat 64 n)
      (show g.toNat < 2 ^ 44 by omega) (by omega) (by rw [hcast, hbits]; exact hle)
    rw [SizedRight, ← hbits]
    exact ⟨g, hg, rfl, ⟨_, h₁, (covers_new hash k₁ (by omega)).1⟩,
      ⟨_, ⟨8193, h₂⟩, (covers_new hash k₂ (by omega)).2.1⟩,
      ⟨_, ⟨8193, h₃⟩, (covers_new hash k₃ (by omega)).2.2⟩⟩

theorem sizedRight_iff_floor (libm : Libm) (hash : α → U64) {b : BitsPerElement} {n : ℕ}
    (hn : n ≤ 210000000) (hb : b.value ≤ 24) : SizedRight libm hash b n ↔
      (n * b.value < 2 ^ 31 ∧ ⌊toDouble (n * b.value)⌋ = ⌊n * b.value⌋) ∧ KeysFit b n := by
  by_cases hsize : n * b.value < 2 ^ 31 ∧ ⌊toDouble (n * b.value)⌋ = ⌊n * b.value⌋
  · obtain ⟨hsmall, hfloor⟩ := hsize
    obtain ⟨g, hg, hbits⟩ := (generateNumBits_eq_floor_iff hn hsmall).mpr hfloor
    have hlt : g.toNat < 2 ^ 31 := by
      rw [hbits, Nat.floor_lt (product_nonneg b n)]
      exact_mod_cast hsmall
    rw [sizedRight_iff_keysFit libm hash hn hg hbits hlt, and_iff_right ⟨hsmall, hfloor⟩]
  · refine iff_of_false ?_ fun h => hsize h.1
    rintro ⟨g, hg, hbits, -⟩
    have hsmall : n * b.value < 2 ^ 31 := by
      by_contra hlarge
      rw [generateNumBits_eq_none hn hb (not_lt.mp hlarge)] at hg
      cases hg
    exact hsize ⟨hsmall, (generateNumBits_eq_floor_iff hn hsmall).mp ⟨g, hg, hbits⟩⟩

/-- Filters are sized right exactly when the number of bits is an `int`, the next integer is more
than half a last place away, there are keys, and not more of them than stored bits. -/
theorem sizedRight_iff (libm : Libm) (hash : α → U64) (b : BitsPerElement) (n : ℕ)
    (hn : n ≤ 210000000) (hb : b.value ≤ 24) : SizedRight libm hash b n ↔
      (n * b.value < 2 ^ 31 ∧
        n * b.value + ulp 53 (-1074) (n * b.value) / 2 < ⌊n * b.value⌋ + 1) ∧
      1 ≤ n ∧ n ≤ 512 * (⌊n * b.value⌋₊ / 512 + 1) := by
  rw [sizedRight_iff_floor libm hash hn hb]
  exact and_congr_left' (and_congr_right fun hsmall => floor_round_eq_iff (ulpExp_neg hsmall))

/-- Twenty-four bits per element, the shipped `bits_per_element_rb`. -/
def twentyFour : BitsPerElement where
  value := 24
  isDouble := by exact_mod_cast toDouble_natCast_of_lt (n := 24) (by norm_num)
  pos := by norm_num

theorem sizedRight_thousand : SizedRight .rounded (fun x : U64 => x) twentyFour 1000 := by
  have hx : ((1000 : ℕ) : ℚ) * twentyFour.value = ((24000 : ℕ) : ℚ) := by norm_num [twentyFour]
  refine (sizedRight_iff .rounded _ twentyFour 1000 (by norm_num) le_rfl).mpr
    ⟨⟨?_, ?_⟩, by norm_num, ?_⟩
  · rw [hx]
    norm_num
  · rw [hx, ← floor_round_eq_iff (ulpExp_neg (by norm_num))]
    exact congrArg Int.floor (toDouble_natCast_of_lt (by norm_num))
  · rw [hx, Nat.floor_natCast]
    norm_num

/-- A hundred million elements of twenty-four bits each have no size. -/
theorem generateNumBits_hundred_million :
    generateNumBits twentyFour 100000000 = none ∧
      ¬SizedRight .rounded (fun x : U64 => x) twentyFour 100000000 := by
  have hnone : generateNumBits twentyFour 100000000 = none :=
    generateNumBits_eq_none (by norm_num) le_rfl (by norm_num [twentyFour])
  refine ⟨hnone, fun ⟨g, hg, _⟩ => ?_⟩
  rw [hnone] at hg
  cases hg

end

/-! ### Values read from the command line -/

/-- A product of a `float` and a number of lines is a `double`. -/
theorem exists_product_eq_mul_ulp {b : ℚ} (hb : 0 < b) (hfloat : toFloat b = b) {n : ℕ}
    (hn : n ≤ 210000000) : ∃ m : ℤ, n * b = m * ulp 53 (-1074) (n * b) := by
  rcases Nat.eq_zero_or_pos n with rfl | hpos
  · exact ⟨0, by simp⟩
  have hxpos : 0 < n * b := mul_pos (by exact_mod_cast hpos) hb
  have hlog : Int.log 2 (n * b) < Int.log 2 b + 29 := by
    refine (Int.lt_zpow_iff_log_lt one_lt_two hxpos).mp ?_
    have hcast : (n : ℚ) < 2 ^ (28 : ℤ) := by
      have hlt : (n : ℚ) < (2 ^ 28 : ℕ) := by exact_mod_cast (show n < 2 ^ 28 by omega)
      exact_mod_cast hlt
    rw [show Int.log 2 b + 29 = 28 + (Int.log 2 b + 1) by ring, zpow_add₀ (by norm_num)]
    exact_mod_cast mul_lt_mul'' hcast (lt_zpow_log_add_one b) n.cast_nonneg hb.le
  have hexp : ulpExp 53 (-1074) (n * b) ≤ ulpExp 24 (-149) b := by
    unfold ulpExp
    omega
  obtain ⟨m, hm⟩ := exists_mul_zpow hexp
  refine ⟨n * roundEven (b / ulp 24 (-149) b) * m, ?_⟩
  have hb' : b = roundEven (b / ulp 24 (-149) b) * ulp 24 (-149) b := hfloat.symm
  have hulp : ulp 24 (-149) b = m * ulp 53 (-1074) (n * b) := hm
  push_cast
  rw [mul_assoc, ← hulp, mul_assoc, ← hb']

/-- For the `float`s that `main` reads, the product needs no rounding. -/
theorem floor_toDouble_float {b : BitsPerElement} (hfloat : toFloat b.value = b.value) {n : ℕ}
    (hn : n ≤ 210000000) : ⌊toDouble (n * b.value)⌋ = ⌊n * b.value⌋ := by
  obtain ⟨m, hm⟩ := exists_product_eq_mul_ulp b.pos hfloat hn
  exact congrArg Int.floor (round_eq_self hm)

/-- For these `float`s only the range of `int` and the number of keys matter. -/
theorem sizedRight_float_iff {α : Type*} (libm : Libm) (hash : α → U64) (b : BitsPerElement)
    (hfloat : toFloat b.value = b.value) (n : ℕ) (hn : n ≤ 210000000) (hb : b.value ≤ 24) :
    SizedRight libm hash b n ↔ n * b.value < 2 ^ 31 ∧ KeysFit b n := by
  rw [sizedRight_iff_floor libm hash hn hb, and_iff_left (floor_toDouble_float hfloat hn)]

end EntropyLearnedHashing
