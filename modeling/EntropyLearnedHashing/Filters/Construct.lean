import EntropyLearnedHashing.Filters.EstimateBounds

/-! When the constructors of the filters return, and what they leave. The block filters need at least
one key and at most as many keys as stored bits. The number of hashes is then at least one, as
all later results ask. -/

namespace EntropyLearnedHashing

open Binary64

/-! ### The number of hashes of `selfBloom` -/

section Bloom

theorem exists_toUnsigned {x : ℚ} (h₁ : 1 ≤ x) (h₂ : x < 2 ^ 32) :
    ∃ k, 1 ≤ k ∧ toUnsigned (.finite x) = some k := by
  refine ⟨⌊x⌋₊, Nat.le_floor (by exact_mod_cast h₁), ?_⟩
  rw [toUnsigned, if_pos ⟨by linarith, h₂⟩]

theorem exists_toUnsigned_stdMax {x : ℚ} (hx : x < 2 ^ 32) :
    ∃ k, 1 ≤ k ∧ toUnsigned (stdMax 1 (.finite x)) = some k := by
  have hone : (1 : Binary64) = .finite (1 : ℕ) := ofNat_eq (by norm_num)
  rw [stdMax, hone, Nat.cast_one]
  split_ifs with hlt
  · have h1 : 1 < x := of_decide_eq_true hlt
    exact exists_toUnsigned h1.le hx
  · exact exists_toUnsigned le_rfl (by norm_num)

variable (libm : Libm)

theorem exists_log_two : ∃ l : ℚ, libm.log 2 = .finite l ∧ (0 : ℝ) ≤ l ∧ (l : ℝ) ≤ 7 / 10 := by
  have htwo : (2 : Binary64) = .finite (2 : ℕ) := ofNat_eq (by norm_num)
  have hlow := Real.log_two_gt_d9
  have hhigh := Real.log_two_lt_d9
  have hlog2 : |Real.log (((2 : ℕ) : ℚ) : ℝ)| ≤ 1 := by
    push_cast
    rw [abs_of_nonneg (by linarith)]
    linarith
  obtain ⟨l, hl, hlog⟩ := (libm.log_finite (2 : ℕ) (by norm_num) (by norm_num)).near hlog2 le_rfl
  push_cast at hlog
  rw [abs_le] at hlog
  refine ⟨l, htwo ▸ hl, ?_, ?_⟩ <;> linarith [hlog.1, hlog.2]

/-- The numerator of the number of hashes, for up to `2 ^ 32` bits. -/
theorem exists_log_two_mul {sizeInBytes : ℕ} (hsize : sizeInBytes ≤ 2 ^ 29) :
    ∃ p : ℚ, libm.log 2 * ((sizeInBytes : Binary64) * 8) = .finite p ∧
      |(p : ℝ)| ≤ 7 / 10 * 2 ^ 32 + 1 ∧ (sizeInBytes = 0 → p = 0) := by
  obtain ⟨l, hl, hl0, hl7⟩ := exists_log_two libm
  have hbits : (sizeInBytes : Binary64) * 8 = .finite (sizeInBytes * 8 : ℕ) :=
    natCast_mul (n := 8) (by omega) (by norm_num) (by omega)
  have hbitsR : ((sizeInBytes * 8 : ℕ) : ℝ) ≤ 2 ^ 32 := by
    exact_mod_cast (show sizeInBytes * 8 ≤ 2 ^ 32 by omega)
  have hnonneg : (0 : ℝ) ≤ l * (sizeInBytes * 8 : ℕ) := mul_nonneg hl0 (Nat.cast_nonneg _)
  have hle : (l : ℝ) * (sizeInBytes * 8 : ℕ) ≤ 7 / 10 * 2 ^ 32 :=
    mul_le_mul hl7 hbitsR (Nat.cast_nonneg _) (by norm_num)
  obtain ⟨p, hp, hproduct⟩ := near_ofRat (v := l * (sizeInBytes * 8 : ℕ)) (M := 2 ^ 32)
    (by push_cast at hnonneg hle ⊢; rw [abs_of_nonneg hnonneg]; linarith) (by norm_num) (by norm_num)
  refine ⟨p, by rw [hl, hbits, finite_mul, hp], ?_, ?_⟩
  · push_cast at hproduct hnonneg hle
    rw [abs_le] at hproduct ⊢
    constructor <;> linarith [hproduct.1, hproduct.2]
  · rintro rfl
    have hzero : ofRat 0 = .finite ((0 : ℕ) : ℚ) := by exact_mod_cast natCast_eq (n := 0) (by norm_num)
    rw [Nat.zero_mul, Nat.cast_zero, mul_zero, hzero, Nat.cast_zero] at hp
    exact (Binary64.finite.inj hp).symm

/-- Without bits and keys the quotient is no number, and the maximum is one. -/
theorem exists_toUnsigned_quotient {p : ℚ} {n : ℕ} (hp : |(p : ℝ)| ≤ 7 / 10 * 2 ^ 32 + 1)
    (hn : n < 2 ^ 53) (h : 1 ≤ n ∨ p = 0) :
    ∃ k, 1 ≤ k ∧ toUnsigned (stdMax 1 (.finite p / (n : Binary64))) = some k := by
  rw [natCast_eq hn]
  rcases Nat.eq_zero_or_pos n with rfl | hpos
  · have hone : (1 : Binary64) = .finite (1 : ℕ) := ofNat_eq (by norm_num)
    rw [h.resolve_left (by norm_num), Nat.cast_zero, zero_div_zero, stdMax, lt_nan,
      if_neg Bool.false_ne_true, hone, Nat.cast_one]
    exact exists_toUnsigned le_rfl (by norm_num)
  · have hnR : (1 : ℝ) ≤ n := by exact_mod_cast hpos
    have hnQ : (n : ℚ) ≠ 0 := by exact_mod_cast hpos.ne'
    have hquot : |((p / n : ℚ) : ℝ)| ≤ 7 / 10 * 2 ^ 32 + 1 := by
      push_cast
      rw [abs_div, abs_of_nonneg (show (0 : ℝ) ≤ n from n.cast_nonneg)]
      exact (div_le_self (abs_nonneg _) hnR).trans hp
    obtain ⟨x, hx, hdiv⟩ := near_ofRat (hquot.trans (by norm_num : _ ≤ (2 : ℝ) ^ 32))
      (by norm_num) (by norm_num)
    rw [finite_div _ hnQ, hx]
    refine exists_toUnsigned_stdMax ?_
    have hlt : (x : ℝ) < 2 ^ 32 := by
      linarith [(abs_le.mp hdiv).2, (abs_le.mp hquot).2]
    exact_mod_cast hlt

/-- For up to `2 ^ 32` bits and at least one key, or no bits, the number of hashes fits. -/
theorem exists_bloomNumHashes {sizeInBytes n : ℕ} (hsize : sizeInBytes ≤ 2 ^ 29)
    (hn : n < 2 ^ 53) (h : 1 ≤ n ∨ sizeInBytes = 0) :
    ∃ k, 1 ≤ k ∧ bloomNumHashes libm sizeInBytes n = some k := by
  obtain ⟨p, hnumber, hp, hp0⟩ := exists_log_two_mul libm hsize
  obtain ⟨k, hk, hconvert⟩ := exists_toUnsigned_quotient hp hn (h.imp_right hp0)
  refine ⟨k, hk, ?_⟩
  unfold bloomNumHashes
  dsimp only
  rw [hnumber, hconvert]
  exact if_pos hk

end Bloom

/-! ### The number of hashes of the block filters -/

section Choice

theorem exists_foldlM_choice (values : ℕ → Binary64) (ks : List ℕ) (v : Binary64) {k : ℕ}
    (hk : 1 ≤ k) (hks : ∀ k ∈ ks, 1 ≤ k) : ∃ v' k', 1 ≤ k' ∧
      ks.foldlM (fun s numHashes => (some (values numHashes)).bind fun tempFPR =>
        some (if lt tempFPR s.1 then (tempFPR, some numHashes) else s)) (v, some k) =
        some (v', some k') := by
  induction ks generalizing v k with
  | nil => exact ⟨v, k, hk, rfl⟩
  | cons k₁ ks ih =>
    have hk₁ := hks k₁ List.mem_cons_self
    have hrest : ∀ k ∈ ks, 1 ≤ k := fun k h => hks k (List.mem_cons_of_mem _ h)
    simp only [List.foldlM_cons, Option.bind_some, Option.bind_eq_bind]
    split_ifs
    · exact ih _ hk₁ hrest
    · exact ih _ hk hrest

theorem exists_chooseNumHashes (values : ℕ → Binary64) (ks : List ℕ) (hks : ∀ k ∈ ks, 1 ≤ k)
    (hone : lt (values 1) 1 = true) : ∃ v k, 1 ≤ k ∧
      chooseNumHashes (fun k => some (values k)) (1 :: ks) = some (v, some k) := by
  obtain ⟨v, k, hk, hrest⟩ := exists_foldlM_choice values ks (values 1) le_rfl hks
  refine ⟨v, k, hk, ?_⟩
  rw [chooseNumHashes, List.foldlM_cons]
  simp only [Option.bind_eq_bind, Option.bind_some, hone, if_true]
  exact hrest

variable (libm : Libm) {size n : U64}

theorem toNat_stored (hsize : size.toNat < 2 ^ 44) :
    (8 * blockSizeInBytes size).toNat = 512 * (size.toNat / 512 + 1) := by
  have h8 : (8 : U64).toNat = 8 := rfl
  rw [BitVec.toNat_mul, toNat_blockSizeInBytes (by omega), h8]
  omega

theorem blocks_eq (hsize : size.toNat < 2 ^ 44) {w width : U64}
    (hwidth : width.toNat = 8 * w.toNat) :
    8 * blockSizeInBytes size / width = blockSizeInBytes size / (width / 8) := by
  have h8 : (8 : U64).toNat = 8 := rfl
  refine BitVec.eq_of_toNat_eq ?_
  rw [BitVec.toNat_udiv, BitVec.toNat_udiv, BitVec.toNat_udiv, toNat_stored hsize,
    toNat_blockSizeInBytes (by omega), hwidth, h8, Nat.mul_div_cancel_left _ (by norm_num),
    show 512 * (size.toNat / 512 + 1) = 8 * (64 * (size.toNat / 512 + 1)) by ring]
  exact Nat.mul_div_mul_left _ _ (by norm_num)

variable {width : ℕ} (h₁ : 64 ≤ width) (h₂ : width ≤ 512) {ks : List ℕ} {w : U64}

include h₁ h₂

/-- With as many stored bits as keys a number of hashes is chosen. -/
theorem exists_blockNumHashes (hks : ∀ k ∈ ks, 1 ≤ k) (hsize : size.toNat < 2 ^ 44)
    (hw : 8 * blockSizeInBytes size / w = blockSizeInBytes size / (w / 8)) (hn : 1 ≤ n.toNat)
    (hle : n.toNat ≤ 512 * (size.toNat / 512 + 1)) : ∃ k, 1 ≤ k ∧ ∀ fuel, 8192 < fuel →
      blockNumHashes (fun b k => estimateFPR libm width b k fuel) (1 :: ks) w size n = some k := by
  have hn0 : n ≠ 0 := by
    rintro rfl
    exact absurd hn (by decide)
  have hquot : (8 * blockSizeInBytes size / n).toNat = 512 * (size.toNat / 512 + 1) / n.toNat := by
    rw [BitVec.toNat_udiv, toNat_stored hsize]
  have hq : 1 ≤ (8 * blockSizeInBytes size / n).toNat := by
    rw [hquot]
    exact Nat.div_pos hle hn
  have hq' : (8 * blockSizeInBytes size / n).toNat ≤ 2 ^ 45 := by
    rw [hquot]
    exact (Nat.div_le_self _ _).trans (by omega)
  have hvalues := fun k => exists_estimateFPR libm h₁ h₂ hq hq' k
  choose values hrun using hvalues
  obtain ⟨value, hlt, hone⟩ := estimateFPR_one_lt libm h₁ h₂ hq hq'
  have heq : values 1 = value :=
    Option.some.inj ((hrun 1 8193 (by norm_num)).symm.trans (hone 8193 (by norm_num)))
  obtain ⟨v, k, hk, hchoose⟩ := exists_chooseNumHashes values ks hks (heq ▸ hlt)
  refine ⟨k, hk, fun fuel hfuel => ?_⟩
  have hestimate : (fun k => estimateFPR libm width
      ((8 * blockSizeInBytes size / n).toNat : Binary64) k fuel) = fun k => some (values k) :=
    funext fun k => hrun k fuel hfuel
  unfold blockNumHashes
  simp only [if_neg hn0, hestimate, hchoose, Option.bind_eq_bind, Option.bind_some]
  exact if_pos ⟨hk, hw⟩

/-- Without keys the division is undefined, and with more keys than stored bits no estimate
ends. -/
theorem blockNumHashes_eq_none (hsize : size.toNat < 2 ^ 44)
    (h : ¬(1 ≤ n.toNat ∧ n.toNat ≤ 512 * (size.toNat / 512 + 1))) (fuel : ℕ) :
    blockNumHashes (fun b k => estimateFPR libm width b k fuel) (1 :: ks) w size n = none := by
  unfold blockNumHashes
  split_ifs with hn0
  · rfl
  have hn : 1 ≤ n.toNat := by
    rw [Nat.one_le_iff_ne_zero]
    exact fun h0 => hn0 (BitVec.eq_of_toNat_eq h0)
  have hquot : (8 * blockSizeInBytes size / n).toNat = 0 := by
    rw [BitVec.toNat_udiv, toNat_stored hsize]
    exact Nat.div_eq_of_lt (by omega)
  dsimp only
  rw [hquot, chooseNumHashes, List.foldlM_cons, estimateFPR_zero libm h₁ h₂]
  rfl

end Choice

/-! ### The constructors -/

section

variable {α : Type*} (libm : Libm) (hash : α → U64)

theorem SelfBloom.exists_construct {size n : ℕ} (hsize : size ≤ 2 ^ 32 - 8) (hn : n < 2 ^ 53)
    (h : 1 ≤ n ∨ size = 0) :
    ∃ k, 1 ≤ k ∧ construct libm hash size n = some (new hash k size) := by
  have hbytes : (new hash 0 size).sizeInBytes ≤ 2 ^ 29 ∧
      (size = 0 → (new hash 0 size).sizeInBytes = 0) := by
    unfold new
    dsimp only
    split_ifs <;> omega
  obtain ⟨k, hk, hchosen⟩ := exists_bloomNumHashes libm hbytes.1 hn (h.imp_right hbytes.2)
  refine ⟨k, hk, ?_⟩
  rw [construct, hchosen]
  rfl

variable {size n : U64} (hsize : size.toNat < 2 ^ 44)

include hsize

theorem SelfBlockBloom512.exists_construct (hn : 1 ≤ n.toNat)
    (hle : n.toNat ≤ 512 * (size.toNat / 512 + 1)) : ∃ k, 1 ≤ k ∧ ∀ fuel, 8192 < fuel →
      SelfBlockBloom512.construct libm hash size n fuel = some (new hash k size) := by
  obtain ⟨k, hk, hrun⟩ := exists_blockNumHashes libm (by norm_num) le_rfl
    (show ∀ k ∈ [2, 3, 4], 1 ≤ k by decide) hsize
    (blocks_eq hsize (show (512 : U64).toNat = 8 * (64 : U64).toNat by decide)) hn hle
  refine ⟨k, hk, fun fuel hfuel => ?_⟩
  exact congrArg (Option.map fun k => new hash k size) (hrun fuel hfuel)

theorem SelfBlockBloom64.exists_construct (hn : 1 ≤ n.toNat)
    (hle : n.toNat ≤ 512 * (size.toNat / 512 + 1)) : ∃ k, 1 ≤ k ∧ ∀ fuel, 8192 < fuel →
      SelfBlockBloom64.construct libm hash size n fuel = some (new hash k size) := by
  obtain ⟨k, hk, hrun⟩ := exists_blockNumHashes libm le_rfl (by norm_num)
    (show ∀ k ∈ [2], 1 ≤ k by decide) hsize
    (blocks_eq hsize (show (64 : U64).toNat = 8 * (8 : U64).toNat by decide)) hn hle
  refine ⟨k, hk, fun fuel hfuel => ?_⟩
  exact congrArg (Option.map fun k => new hash k size) (hrun fuel hfuel)

/-- The constructor returns exactly for at least one key and at most as many keys as stored
bits. -/
theorem SelfBlockBloom512.exists_construct_iff :
    (∃ f enough, ∀ fuel ≥ enough, construct libm hash size n fuel = some f) ↔
      1 ≤ n.toNat ∧ n.toNat ≤ 512 * (size.toNat / 512 + 1) := by
  constructor
  · rintro ⟨f, enough, hf⟩
    by_contra hnot
    have hnone := hf enough le_rfl
    simp only [construct, calculateFPRGivenK,
      blockNumHashes_eq_none libm (show 64 ≤ 512 by norm_num) le_rfl hsize hnot] at hnone
    cases hnone
  · rintro ⟨hn, hle⟩
    obtain ⟨k, -, hrun⟩ := exists_construct libm hash hsize hn hle
    exact ⟨_, 8193, hrun⟩

theorem SelfBlockBloom64.exists_construct_iff :
    (∃ f enough, ∀ fuel ≥ enough, construct libm hash size n fuel = some f) ↔
      1 ≤ n.toNat ∧ n.toNat ≤ 512 * (size.toNat / 512 + 1) := by
  constructor
  · rintro ⟨f, enough, hf⟩
    by_contra hnot
    have hnone := hf enough le_rfl
    simp only [construct, calculateFPRGivenK64,
      blockNumHashes_eq_none libm le_rfl (show 64 ≤ 512 by norm_num) hsize hnot] at hnone
    cases hnone
  · rintro ⟨hn, hle⟩
    obtain ⟨k, -, hrun⟩ := exists_construct libm hash hsize hn hle
    exact ⟨_, 8193, hrun⟩

end

end EntropyLearnedHashing
