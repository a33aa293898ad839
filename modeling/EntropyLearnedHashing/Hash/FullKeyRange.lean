import EntropyLearnedHashing.Hash.Xxh3Long

/-! The values of the full-key hashes. A key of XXH3 that is zero behind its first two
words adds a constant to the product of these two, and on a long key the first four
words steer the first two lanes, so every value is reached. The merged seed of wyhash
takes any value through one word of its last block of 48 bytes, so the later rounds can
be made to clear it, and the last word of the key is then the whole inner product. -/

namespace EntropyLearnedHashing

open LittleEndian WordMix

theorem xxh3Avalanche_surjective : Function.Surjective xxh3Avalanche := by
  have : Finite U64 := Finite.of_injective BitVec.toFin fun _ _ => BitVec.eq_of_toFin_eq
  exact Finite.injective_iff_surjective.mp xxh3Avalanche_injective

/-! ### Keys of XXH3 up to 240 bytes -/

theorem pack_zero (len : ℕ) : pack len (fun _ => 0) = List.replicate len 0#8 := by
  apply List.ext_getElem
  · simp
  · intro i h₁ h₂
    simp [getElem_pack]

theorem load64_pack {len : ℕ} (f : ℕ → U64) {j : ℕ} (h : 8 * j + 8 ≤ len) :
    load64 (pack len f) (8 * j) = some (f j) := by
  rw [load64_eq_wordAt (by simpa using h), wordAt_pack f h]

/-- A read behind the first two words. -/
theorem load64_slotWords {len p : ℕ} (u v : U64) (hp : 16 ≤ p) (h : p + 8 ≤ len) :
    load64 (pack len (slotWords 0 u v)) p = some 0 := by
  have hdrop : (pack len (slotWords 0 u v)).drop (8 * 2) = (pack len fun _ => 0).drop (8 * 2) := by
    apply drop_pack_congr len 2
    intro j hj
    rw [slotWords, if_neg (by omega), if_neg (by omega)]
  have hbytes : ((pack len (slotWords 0 u v)).drop p).take 8 = List.replicate 8 0#8 := by
    obtain ⟨k, rfl⟩ := Nat.exists_eq_add_of_le hp
    rw [← List.drop_drop, hdrop, List.drop_drop, pack_zero, List.drop_replicate, List.take_replicate,
      Nat.min_eq_left (by omega)]
  rw [load64_eq_wordAt (by simpa using h), wordAt, hbytes]
  rfl

/-- What a mix behind the first two words adds. -/
def zeroMix (s : ℕ) : U64 := fold64 (secret64 xxh3KSecret s) (secret64 xxh3KSecret (s + 8))

theorem xxh3MixAll_cons (input : List Byte) (acc : U64) (p : ℕ × ℕ) (ps : List (ℕ × ℕ)) :
    xxh3MixAll input xxh3KSecret 0 acc (p :: ps) =
      (xxh3Mix16B input p.1 xxh3KSecret p.2 0).bind fun m =>
        xxh3MixAll input xxh3KSecret 0 (acc + m) ps := by
  simp [xxh3MixAll, Option.bind_assoc]

theorem xxh3MixAll_slotWords {len : ℕ} {ps : List (ℕ × ℕ)} (hps : ∀ p ∈ ps, 16 ≤ p.1 ∧ p.1 + 16 ≤ len)
    (u v acc : U64) : xxh3MixAll (pack len (slotWords 0 u v)) xxh3KSecret 0 acc ps =
      some (acc + (ps.map fun p => zeroMix p.2).sum) := by
  induction ps generalizing acc with
  | nil => simp [xxh3MixAll]
  | cons p ps ih =>
    obtain ⟨⟨hp, hlen⟩, hps⟩ := List.forall_mem_cons.mp hps
    have hload : ∀ q, p.1 ≤ q → q ≤ p.1 + 8 → load64 (pack len (slotWords 0 u v)) q = some 0 := by
      intro q h₁ h₂
      exact load64_slotWords u v (by omega) (by omega)
    have hmix : xxh3Mix16B (pack len (slotWords 0 u v)) p.1 xxh3KSecret p.2 0 = some (zeroMix p.2) := by
      simp [xxh3Mix16B, hload, zeroMix, xxh3Mul128Fold64]
    rw [xxh3MixAll_cons, hmix, Option.bind_some, ih hps, List.map_cons, List.sum_cons, ← add_assoc]

/-- The same for mixes behind a guard on the length. -/
theorem ite_xxh3MixAll_slotWords {len : ℕ} {P : Prop} [Decidable P] {ps : List (ℕ × ℕ)}
    (hps : P → ∀ p ∈ ps, 16 ≤ p.1 ∧ p.1 + 16 ≤ len) (u v acc : U64) (k : U64 → Option U64) :
    (if P then (xxh3MixAll (pack len (slotWords 0 u v)) xxh3KSecret 0 acc ps).bind k
      else (some acc).bind k) = k (acc + if P then (ps.map fun p => zeroMix p.2).sum else 0) := by
  split_ifs with h
  · rw [xxh3MixAll_slotWords (hps h), Option.bind_some]
  · rw [Option.bind_some, add_zero]

/-- The first two words such that their product is `x`. -/
def firstWords (x : U64) : ℕ → U64 :=
  slotWords 0 (x ^^^ secret64 xxh3KSecret 0) (1#64 ^^^ secret64 xxh3KSecret 8)

theorem xxh3Mix16B_firstWords {len : ℕ} (h : 16 ≤ len) (x : U64) :
    xxh3Mix16B (pack len (firstWords x)) 0 xxh3KSecret 0 0 = some x := by
  have h₀ : load64 (pack len (firstWords x)) 0 = some (firstWords x 0) :=
    load64_pack _ (j := 0) (by omega)
  have h₁ : load64 (pack len (firstWords x)) 8 = some (firstWords x 1) :=
    load64_pack _ (j := 1) (by omega)
  rw [xxh3Mix16B, h₀, h₁]
  simp [firstWords, slotWords, xxh3Mul128Fold64]

theorem xxh3Len17to128_firstWords {len : ℕ} (h48 : 48 ≤ len) : ∃ c, ∀ x,
    xxh3Len17to128 (pack len (firstWords x)) len xxh3KSecret 0 = some (xxh3Avalanche (c + x)) := by
  apply Exists.intro
  intro x
  unfold xxh3Len17to128
  simp only [Option.bind_eq_bind]
  rw [firstWords, ite_xxh3MixAll_slotWords (by simp; omega), ite_xxh3MixAll_slotWords (by simp; omega),
    ite_xxh3MixAll_slotWords (by simp; omega), ← firstWords, xxh3MixAll_cons,
    xxh3Mix16B_firstWords (by omega), Option.bind_some, firstWords,
    xxh3MixAll_slotWords (by simp; omega), Option.bind_some, add_right_comm]
  rfl

theorem xxh3Len129to240_firstWords {len : ℕ} (h128 : 128 < len) : ∃ c d, ∀ x,
    xxh3Len129to240 (pack len (firstWords x)) len xxh3KSecret 0 =
      some (xxh3Avalanche (xxh3Avalanche (c + x) + d)) := by
  apply Exists.intro
  apply Exists.intro
  intro x
  have hfirst : (List.range 8).map (fun i => (16 * i, 16 * i)) =
      (0, 0) :: (List.range' 1 7).map fun i => (16 * i, 16 * i) := rfl
  unfold xxh3Len129to240
  simp only [Option.bind_eq_bind, hfirst]
  rw [xxh3MixAll_cons, xxh3Mix16B_firstWords (by omega), Option.bind_some, firstWords,
    xxh3MixAll_slotWords (by simp; omega), Option.bind_some,
    xxh3MixAll_slotWords (by simp; omega), Option.bind_some,
    xxh3MixAll_slotWords (by simp; omega), Option.bind_some, add_right_comm _ x,
    add_assoc (xxh3Avalanche _)]
  rfl

/-! ### Long keys of XXH3 -/

theorem halfProduct_eq_zero {x : U64} (h : x.setWidth 32 = 0#32 ∨ x >>> 32 = 0#64) :
    halfProduct x = 0 := by
  have hmask : halfProduct x = (x.setWidth 32).setWidth 64 * (x >>> 32) := by
    unfold halfProduct
    congr 1
    apply BitVec.eq_of_toNat_eq
    rw [BitVec.toNat_and, BitVec.toNat_setWidth, BitVec.toNat_setWidth]
    exact (Nat.and_two_pow_sub_one_eq_mod _ 32).trans (by omega)
  rw [hmask]
  rcases h with h | h <;> rw [h] <;> simp

/-- Two words with any sum, one keyed to have a zero low half and one a zero high half. -/
theorem exists_add_eq (s t x : U64) :
    ∃ u v, halfProduct (u ^^^ s) = 0 ∧ halfProduct (v ^^^ t) = 0 ∧ u + v = x := by
  -- the low half of `v` makes the low half of `x - v` that of `s`
  let low : U64 := ((t ^^^ (x - s)).setWidth 32).setWidth 64
  have hhigh : low >>> 32 = 0#64 := by
    apply BitVec.eq_of_toNat_eq
    simp only [low, BitVec.toNat_ushiftRight, BitVec.toNat_setWidth, Nat.shiftRight_eq_div_pow,
      BitVec.toNat_ofNat]
    omega
  have hcut : (low ^^^ t).setWidth 32 = (x - s).setWidth 32 := by
    simp only [low]
    rw [BitVec.setWidth_xor, BitVec.setWidth_setWidth_of_le _ (by norm_num), BitVec.setWidth_eq,
      BitVec.setWidth_xor, xor_xor_cancel_comm]
  have hlow : (x - (low ^^^ t)).setWidth 32 = s.setWidth 32 := by
    apply BitVec.eq_of_toNat_eq
    have := congrArg BitVec.toNat hcut
    simp only [BitVec.toNat_setWidth, BitVec.toNat_sub] at this ⊢
    omega
  refine ⟨x - (low ^^^ t), low ^^^ t, ?_, ?_, by ring⟩
  · exact halfProduct_eq_zero (.inl (by rw [BitVec.setWidth_xor, hlow, BitVec.xor_self]))
  · exact halfProduct_eq_zero (.inr (by rw [xor_cancel_right, hhigh]))

/-- The words of a key that steer the first two lanes. -/
def laneWords (u v u' v' : U64) : ℕ → U64 :=
  fun j => if j = 0 then u else if j = 1 then u' else if j = 8 then v else if j = 9 then v' else 0

/-- The first two lanes can be given any values, with everything else as in the zero key. -/
theorem exists_firstLanes {len : ℕ} (h128 : 128 ≤ len) (lane₀ lane₁ : U64) : ∃ f : ℕ → U64,
    (pack len f).drop 128 = (pack len fun _ => 0).drop 128 ∧
      firstLanes (pack len f) 0 = lane₀ ∧ firstLanes (pack len f) 1 = lane₁ ∧
      ∀ i, 2 ≤ i → i < 8 → firstLanes (pack len f) i = firstLanes (pack len fun _ => 0) i := by
  obtain ⟨u, v, hu, hv, huv⟩ := exists_add_eq (secret64 xxh3KSecret 0) (secret64 xxh3KSecret 8)
    (lane₁ - xxh3InitAcc.getD 1 0)
  obtain ⟨u', v', hu', hv', huv'⟩ := exists_add_eq (secret64 xxh3KSecret 8) (secret64 xxh3KSecret 16)
    (lane₀ - xxh3InitAcc.getD 0 0)
  refine ⟨laneWords u v u' v', ?_, ?_, ?_, ?_⟩
  · apply drop_pack_congr len 16
    intro j hj
    rw [laneWords, if_neg (by omega), if_neg (by omega), if_neg (by omega), if_neg (by omega)]
  · have hsum : xxh3InitAcc.getD 0 0 + u' + v' = lane₀ := by rw [add_assoc, huv', add_sub_cancel]
    rw [firstLanes_pack h128 _ (by norm_num)]
    simpa [laneWords, hu, hv] using hsum
  · have hsum : xxh3InitAcc.getD 1 0 + u + v = lane₁ := by rw [add_assoc, huv, add_sub_cancel]
    rw [firstLanes_pack h128 _ (by norm_num)]
    simpa [laneWords, hu', hv'] using hsum
  · intro i h2 h8
    rw [firstLanes_pack h128 _ h8, firstLanes_pack h128 _ h8]
    interval_cases i <;> simp [laneWords]

theorem exists_xxh3_long {len : ℕ} (hlen : 240 < len) (h : U64) :
    ∃ f, xxh3_64bits (pack len f) len = some h := by
  obtain ⟨φ, hφ⟩ := xxh3_64bits_long hlen ((pack len fun _ => 0).drop 128)
  obtain ⟨x, rfl⟩ := xxh3Avalanche_surjective h
  let g := fun i => φ i (firstLanes (pack len fun _ => 0) i)
  let rest := mergePair g 1 + mergePair g 2 + mergePair g 3
  -- lane 0 becomes the factor one, lane 1 the missing summand
  obtain ⟨f, hdrop, h₀, h₁, hother⟩ := exists_firstLanes (show 128 ≤ len by omega)
    ((φ 0).symm (1#64 ^^^ secret64 xxh3KSecret 11))
    ((φ 1).symm (x - BitVec.ofNat 64 len * xxhPrime64_1 - rest ^^^ secret64 xxh3KSecret 19))
  have hpair : ∀ i, 1 ≤ i → i < 4 →
      mergePair (fun i => φ i (firstLanes (pack len f) i)) i = mergePair g i := by
    intro i h1 h4
    unfold mergePair
    beta_reduce
    rw [hother _ (by omega) (by omega), hother _ (by omega) (by omega)]
  have hfirst : mergePair (fun i => φ i (firstLanes (pack len f) i)) 0 =
      x - BitVec.ofNat 64 len * xxhPrime64_1 - rest := by
    simp [mergePair, h₀, h₁]
  refine ⟨f, ?_⟩
  rw [hφ _ (length_pack _ _) hdrop]
  simp only [hfirst, hpair, le_refl, Nat.one_le_ofNat, Nat.reduceLT, rest]
  congr 2
  ring

/-- From 48 bytes on XXH3 reaches every value. -/
theorem exists_xxh3_64bits {len : ℕ} (h48 : 48 ≤ len) (h : U64) :
    ∃ f, xxh3_64bits (pack len f) len = some h := by
  obtain ⟨x, rfl⟩ := xxh3Avalanche_surjective h
  rcases Nat.lt_or_ge 240 len with hlong | h240
  · exact exists_xxh3_long hlong _
  rcases Nat.lt_or_ge 128 len with h128 | h128
  · obtain ⟨c, d, hcd⟩ := xxh3Len129to240_firstWords h128
    obtain ⟨y, hy⟩ := xxh3Avalanche_surjective (x - d)
    refine ⟨firstWords (y - c), ?_⟩
    rw [xxh3_64bits, if_neg (by omega), if_neg (by omega), if_pos h240, hcd, add_sub_cancel, hy,
      sub_add_cancel]
  · obtain ⟨c, hc⟩ := xxh3Len17to128_firstWords h48
    refine ⟨firstWords (x - c), ?_⟩
    rw [xxh3_64bits, if_neg (by omega), if_pos h128, hc, add_sub_cancel]

/-! ### Long keys of wyhash -/

theorem wordAt_append_left {pre rest : List Byte} {p : ℕ} (h : p + 8 ≤ pre.length) :
    wordAt (pre ++ rest) p = wordAt pre p := by
  rw [wordAt, wordAt, List.drop_append_of_le_length (by omega),
    List.take_append_of_le_length (by rw [List.length_drop]; omega)]

theorem wordAt_append_right {pre rest : List Byte} {p k : ℕ} (h : p = pre.length + k) :
    wordAt (pre ++ rest) p = wordAt rest k := by
  rw [wordAt, wordAt, h, ← List.drop_drop, List.drop_left]

theorem wordAt_leBytes (w : U64) : wordAt (leBytes 8 w.toNat) 0 = w := by
  have hlt : w.toNat < 256 ^ 8 := lt_of_lt_of_eq w.isLt (by norm_num)
  rw [wordAt, List.drop_zero, List.take_of_length_le (by simp), word64, leNat_leBytes 8 _ hlt,
    BitVec.ofNat_toNat, BitVec.setWidth_eq]

/-- The merged seed after a block of 48 bytes at offset `p`. -/
def mergedSeed (key : List Byte) (p : ℕ) (seed see1 see2 : U64) : U64 :=
  wymix (wordAt key p ^^^ wyp 1) (wordAt key (p + 8) ^^^ seed) ^^^
    (wymix (wordAt key (p + 16) ^^^ wyp 2) (wordAt key (p + 24) ^^^ see1) ^^^
      wymix (wordAt key (p + 32) ^^^ wyp 3) (wordAt key (p + 40) ^^^ see2))

theorem wyhashRounds48_eq {key : List Byte} {p : ℕ} (h : p + 48 ≤ key.length) (i : ℕ)
    (seed see1 see2 : U64) : wyhashRounds48 key wyp p i seed see1 see2 =
      if 48 < i - 48 then wyhashRounds48 key wyp (p + 48) (i - 48)
        (wymix (wordAt key p ^^^ wyp 1) (wordAt key (p + 8) ^^^ seed))
        (wymix (wordAt key (p + 16) ^^^ wyp 2) (wordAt key (p + 24) ^^^ see1))
        (wymix (wordAt key (p + 32) ^^^ wyp 3) (wordAt key (p + 40) ^^^ see2))
      else some (p + 48, i - 48, mergedSeed key p seed see1 see2) := by
  have hload : ∀ q, q ≤ p + 40 → wyr8 key q = some (wordAt key q) := fun q hq =>
    load64_eq_wordAt (by omega)
  rw [wyhashRounds48]
  simp [hload, mergedSeed]

theorem wyhashRounds16_eq {key : List Byte} {p : ℕ} (i : ℕ) (h : 16 < i → p + 16 ≤ key.length) (seed : U64) :
    wyhashRounds16 key wyp p i seed =
      if 16 < i then wyhashRounds16 key wyp (p + 16) (i - 16)
        (wymix (wordAt key p ^^^ wyp 1) (wordAt key (p + 8) ^^^ seed))
      else some (p, i, seed) := by
  rw [wyhashRounds16]
  split_ifs with hi
  · have hload : ∀ q, q ≤ p + 8 → wyr8 key q = some (wordAt key q) := fun q hq =>
      load64_eq_wordAt (by have := h hi; omega)
    simp [hload]
  · rfl

/-- The loop over blocks of 48 bytes: only the seeds remain of all but the last block. -/
theorem wyhashRounds48_append (n : ℕ) {i : ℕ} (h48 : 48 < i) (h96 : i ≤ 96) {pre : List Byte} {p : ℕ}
    (hpre : pre.length = p + 48 * n) (seed see1 see2 : U64) :
    ∃ seed' see1' see2', ∀ rest : List Byte, rest.length = i →
      wyhashRounds48 (pre ++ rest) wyp p (48 * n + i) seed see1 see2 =
        some (pre.length + 48, i - 48, mergedSeed rest 0 seed' see1' see2') := by
  induction n generalizing p seed see1 see2 with
  | zero =>
    refine ⟨seed, see1, see2, fun rest hrest => ?_⟩
    have hlen : (pre ++ rest).length = p + i := by simp; omega
    have hfirst : wordAt (pre ++ rest) p = wordAt rest 0 := wordAt_append_right (by omega)
    have hword : ∀ k, wordAt (pre ++ rest) (p + k) = wordAt rest k := fun k =>
      wordAt_append_right (by omega)
    rw [wyhashRounds48_eq (by omega), if_neg (by omega), mergedSeed, mergedSeed]
    simp [hfirst, hword, hpre]
  | succ n ih =>
    obtain ⟨seed', see1', see2', hrest'⟩ := ih (p := p + 48) (by omega)
      (wymix (wordAt pre p ^^^ wyp 1) (wordAt pre (p + 8) ^^^ seed))
      (wymix (wordAt pre (p + 16) ^^^ wyp 2) (wordAt pre (p + 24) ^^^ see1))
      (wymix (wordAt pre (p + 32) ^^^ wyp 3) (wordAt pre (p + 40) ^^^ see2))
    refine ⟨seed', see1', see2', fun rest hrest => ?_⟩
    have hlen : (pre ++ rest).length = p + 48 * (n + 1) + i := by simp; omega
    have hi : 48 * (n + 1) + i - 48 = 48 * n + i := by omega
    rw [wyhashRounds48_eq (by omega), if_pos (by omega), hi, ← hrest' rest hrest]
    congr 1 <;> rw [wordAt_append_left (by omega), wordAt_append_left (by omega)]

/-- Bytes whose first word makes a factor of one and whose second word is `w`. -/
def steered (w : U64) (rest : List Byte) : List Byte :=
  leBytes 8 (1#64 ^^^ wyp 1).toNat ++ (leBytes 8 w.toNat ++ rest)

section

variable (w : U64) (rest : List Byte)

theorem length_steered : (steered w rest).length = rest.length + 16 := by
  simp [steered]
  omega

theorem wordAt_steered_zero : wordAt (steered w rest) 0 = 1#64 ^^^ wyp 1 := by
  rw [steered, wordAt_append_left (by simp), wordAt_leBytes]

theorem wordAt_steered_eight : wordAt (steered w rest) 8 = w := by
  rw [steered, wordAt_append_right (k := 0) (by simp), wordAt_append_left (by simp), wordAt_leBytes]

theorem wordAt_steered {p k : ℕ} (h : p = 16 + k) : wordAt (steered w rest) p = wordAt rest k := by
  rw [steered, wordAt_append_right (k := 8 + k) (by simp; omega), wordAt_append_right (k := k) (by simp)]

end

/-- The merged seed takes any value through the second word of the last block. -/
theorem exists_mergedSeed (rest : List Byte) (seed see1 see2 m : U64) :
    ∃ w, mergedSeed (steered w rest) 0 seed see1 see2 = m := by
  let c := wymix (wordAt rest 0 ^^^ wyp 2) (wordAt rest 8 ^^^ see1) ^^^
    wymix (wordAt rest 16 ^^^ wyp 3) (wordAt rest 24 ^^^ see2)
  refine ⟨m ^^^ c ^^^ seed, ?_⟩
  have hword : ∀ w k, wordAt (steered w rest) (16 + k) = wordAt rest k := fun w k =>
    wordAt_steered w rest rfl
  have h24 : ∀ w, wordAt (steered w rest) 24 = wordAt rest 8 := fun w => hword w 8
  have h32 : ∀ w, wordAt (steered w rest) 32 = wordAt rest 16 := fun w => hword w 16
  have h40 : ∀ w, wordAt (steered w rest) 40 = wordAt rest 24 := fun w => hword w 24
  have h16 : ∀ w, wordAt (steered w rest) 16 = wordAt rest 0 := fun w => hword w 0
  simp only [mergedSeed, Nat.zero_add, wordAt_steered_zero, wordAt_steered_eight, h16, h24, h32, h40,
    wymix, xor_cancel_right, fold64_one_left]
  exact xor_cancel_right m c

/-- The last bytes of a key: the two words `1 ^ secret[1]` and `y` at the end and, as far
as they reach, words `1 ^ secret[1]` from the start. -/
def tailBytes (i : ℕ) (y : U64) : List Byte := pack (i - 32) (fun _ => 1#64 ^^^ wyp 1) ++ steered y []

theorem length_tailBytes {i : ℕ} (h : 48 < i) (y : U64) : (tailBytes i y).length = i - 16 := by
  simp [tailBytes, length_steered]
  omega

/-- Some merged seed is cleared by the loop over 16 bytes. -/
theorem exists_wyhashRounds16 {i : ℕ} (h48 : 48 < i) (h96 : i ≤ 96) (pre : List Byte) (y : U64) :
    ∃ m p' i', p' + i' = pre.length + i ∧ ∀ w,
      wyhashRounds16 (pre ++ steered w (tailBytes i y)) wyp (pre.length + 48) (i - 48) m =
        some (p', i', 0) := by
  let z := wordAt (tailBytes i y)
  have hword : ∀ w k, wordAt (pre ++ steered w (tailBytes i y)) (pre.length + 48 + k) = z (32 + k) := by
    intro w k
    rw [wordAt_append_right (k := 48 + k) (by omega), wordAt_steered w _ (k := 32 + k) (by omega)]
  have hround : ∀ w k m, 16 < i - 48 - k → wyhashRounds16 (pre ++ steered w (tailBytes i y)) wyp
      (pre.length + 48 + k) (i - 48 - k) m = wyhashRounds16 (pre ++ steered w (tailBytes i y)) wyp
        (pre.length + 48 + (k + 16)) (i - 48 - (k + 16))
        (wymix (z (32 + k) ^^^ wyp 1) (z (32 + k + 8) ^^^ m)) := by
    intro w k m hk
    have hlen : (pre ++ steered w (tailBytes i y)).length = pre.length + i := by
      simp [length_steered, length_tailBytes h48]
      omega
    rw [wyhashRounds16_eq _ (by omega), if_pos hk, hword, Nat.add_assoc _ k 8, hword]
    rfl
  have hend : ∀ w k m, i - 48 - k ≤ 16 → wyhashRounds16 (pre ++ steered w (tailBytes i y)) wyp
      (pre.length + 48 + k) (i - 48 - k) m = some (pre.length + 48 + k, i - 48 - k, m) := by
    intro w k m hk
    rw [wyhashRounds16_eq _ (by omega), if_neg (by omega)]
  rcases Nat.lt_or_ge 64 i with h64 | h64
  · rcases Nat.lt_or_ge 80 i with h80 | h80
    · -- the first round leaves the second word of the second one
      have hone : z 32 = 1#64 ^^^ wyp 1 :=
        (wordAt_append_left (by rw [length_pack]; omega)).trans (wordAt_pack _ (j := 4) (by omega))
      refine ⟨z 40 ^^^ z 56, pre.length + 48 + 32, i - 48 - 32, by omega, fun w => ?_⟩
      refine (hround w 0 _ (by omega)).trans ?_
      rw [hround w 16 _ (by omega), hend w 32 _ (by omega)]
      simp [hone, wymix]
    · refine ⟨z 40, pre.length + 48 + 16, i - 48 - 16, by omega, fun w => ?_⟩
      refine (hround w 0 _ (by omega)).trans ?_
      rw [hend w 16 _ (by omega)]
      simp [wymix]
  · exact ⟨0, pre.length + 48, i - 48, by omega, fun w => hend w 0 0 (by omega)⟩

/-- Beyond 48 bytes the inner product of wyhash takes any value. -/
theorem exists_wyhash {len : ℕ} (hlen : 48 < len) (y : U64) : ∃ key : List Byte, key.length = len ∧
    wyhash key len 0 wyp = some (wymix (wyp 1 ^^^ BitVec.ofNat 64 len) y) := by
  obtain ⟨n, i, h48, h96, rfl⟩ : ∃ n i, 48 < i ∧ i ≤ 96 ∧ len = 48 * n + i :=
    ⟨(len - 49) / 48, len - 48 * ((len - 49) / 48), by omega, by omega, by omega⟩
  let pre : List Byte := List.replicate (48 * n) 0
  have hpre : pre.length = 48 * n := List.length_replicate
  obtain ⟨seed, see1, see2, hrounds⟩ := wyhashRounds48_append n h48 h96 (hpre.trans (Nat.zero_add _).symm)
    (wyp 0) (wyp 0) (wyp 0)
  obtain ⟨m, p', i', hend, h16⟩ := exists_wyhashRounds16 h48 h96 pre y
  obtain ⟨w, hw⟩ := exists_mergedSeed (tailBytes i y) seed see1 see2 m
  have hrest : (steered w (tailBytes i y)).length = i := by
    rw [length_steered, length_tailBytes h48]
    omega
  have hlen' : (pre ++ steered w (tailBytes i y)).length = 48 * n + i := by
    rw [List.length_append, hpre, hrest]
  have hword : ∀ k, wordAt (pre ++ steered w (tailBytes i y)) (48 * n + i - 16 + k) =
      wordAt (steered y []) k := by
    intro k
    rw [wordAt_append_right (k := i - 16 + k) (by omega), wordAt_steered w _ (k := i - 32 + k) (by omega),
      tailBytes, wordAt_append_right (by rw [length_pack])]
  have ha : wyr8 (pre ++ steered w (tailBytes i y)) (p' + i' - 16) = some (1#64 ^^^ wyp 1) := by
    rw [wyr8, load64_eq_wordAt (by omega), hend, hpre]
    exact congrArg some ((hword 0).trans (wordAt_steered_zero y []))
  have hb : wyr8 (pre ++ steered w (tailBytes i y)) (p' + i' - 8) = some y := by
    rw [wyr8, load64_eq_wordAt (by omega), show p' + i' - 8 = 48 * n + i - 16 + 8 by omega]
    exact congrArg some ((hword 8).trans (wordAt_steered_eight y []))
  refine ⟨pre ++ steered w (tailBytes i y), hlen', ?_⟩
  simp only [wyhash, wyhashTail]
  have hseed : 0 ^^^ wyp 0 = wyp 0 := BitVec.zero_xor
  rw [if_neg (by omega), if_pos (by omega), hseed, hrounds _ hrest, hw]
  simp [h16, ha, hb, wymix]

end EntropyLearnedHashing
