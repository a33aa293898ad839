import EntropyLearnedHashing.Hash.ErrorDetection

/-! Which bytes of the chosen words reach the three- and four-location CRC hashes. A
word that stands in the place of the CRC state is cut to its low half by the
intrinsic, so four of its bytes are lost unless another chosen word overlaps them.
Every other chosen byte matters: among keys that are zero elsewhere, two values of
it have different hashes. -/

namespace EntropyLearnedHashing

open LittleEndian ShiftRegister

/-! ### The register after one word -/

/-- The register after the 64 bits of a word. -/
def updateWord (c : ℕ) : ℕ := (step castagnoli)^[64] c

theorem toNat_mmCrc32U64_eq (crc v : U64) :
    (mmCrc32U64 crc v).toNat = updateWord (crc.toNat % 2 ^ 32 ^^^ v.toNat) := by
  rw [toNat_mmCrc32U64, BitVec.toNat_setWidth, updateWord]

theorem updateWord_xor (a b : ℕ) : updateWord (a ^^^ b) = updateWord a ^^^ updateWord b :=
  iterate_step_xor castagnoli 64 a b

@[simp] theorem updateWord_zero : updateWord 0 = 0 := by decide +kernel

theorem updateWord_lt {c : ℕ} (hc : c < 2 ^ 64) : updateWord c < 2 ^ 32 := by
  have heq : updateWord c = (mmCrc32U64 0 (BitVec.ofNat 64 c)).toNat := by
    rw [toNat_mmCrc32U64_eq, BitVec.toNat_ofNat, Nat.mod_eq_of_lt hc]
    simp
  rw [heq]
  exact toNat_mmCrc32U64_lt _ _

theorem updateWord_ne_zero {c : ℕ} (hc : c < 2 ^ 32) (h : c ≠ 0) : updateWord c ≠ 0 :=
  iterate_step_ne_zero (w := 31) (by decide) (by decide) 64 hc h

theorem updateWord_ne {a b : ℕ} (h : updateWord (a ^^^ b) ≠ 0) : updateWord a ≠ updateWord b := by
  rwa [updateWord_xor, Ne, Nat.xor_eq_zero_iff] at h

/-- On 33 bits only the polynomial itself divides out, and it ends in the bits 01. -/
theorem updateWord_ne_of_mod_four {a b : ℕ} (ha : a < 2 ^ 33) (hb : b < 2 ^ 33)
    (h : 2 ≤ (a ^^^ b) % 4) : updateWord a ≠ updateWord b := by
  apply updateWord_ne
  have hlt : a ^^^ b < 2 ^ 33 := Nat.xor_lt_two_pow ha hb
  generalize a ^^^ b = c at h hlt
  have hstep : step castagnoli c ≠ 0 := by
    unfold step castagnoli
    split_ifs with hodd
    · rw [Ne, Nat.xor_eq_zero_iff]
      omega
    · omega
  have hstep_lt : step castagnoli c < 2 ^ 32 := by
    have hhalf : c / 2 < 2 ^ 32 := by omega
    unfold step
    split_ifs
    · exact Nat.xor_lt_two_pow hhalf (by decide)
    · exact hhalf
  have hfirst : updateWord c = (step castagnoli)^[63] (step castagnoli c) :=
    Function.iterate_succ_apply _ 63 c
  rw [hfirst]
  exact iterate_step_ne_zero (w := 31) (by decide) (by decide) 63 hstep_lt hstep

/-! ### One byte of a word -/

/-- The weight of the `i`-th byte of a word; the index 8 stands for a byte outside. -/
def slot (i : Fin 9) : ℕ := if i.val < 8 then 256 ^ i.val else 0

/-- The index of the byte at offset `o` in the word at offset `p`. -/
def slotOf (p o : ℕ) : Fin 9 :=
  if h : p ≤ o ∧ o < p + 8 then ⟨o - p, by omega⟩ else 8

theorem slotOf_of_mem {p o : ℕ} (h₁ : p ≤ o) (h₂ : o < p + 8) : (slotOf p o).val = o - p := by
  simp [slotOf, h₁, h₂]

theorem slotOf_ne {p q : ℕ} (h : p ≠ q) (o : ℕ) : slotOf p o = 8 ∨ slotOf p o ≠ slotOf q o := by
  unfold slotOf
  split_ifs with hp hq
  · right
    intro heq
    have := congrArg Fin.val heq
    simp only at this
    omega
  · right
    intro heq
    have := congrArg Fin.val heq
    simp only at this
    have : o - p = 8 := this
    omega
  · exact .inl rfl
  · exact .inl rfl

theorem mul_slot_lt {b : ℕ} (hb : b < 256) (i : Fin 9) : b * slot i < 2 ^ 64 := by
  have hslot : slot i ≤ 256 ^ 7 := by revert i; decide
  calc b * slot i ≤ 255 * 256 ^ 7 := Nat.mul_le_mul (by omega) hslot
    _ < 2 ^ 64 := by norm_num

section SingleByte

variable {len o : ℕ} (h63 : len < 2 ^ 63) (b : Byte)

theorem Str.toNat_wordAt_singleByte {p : U32} (hp : p.toNat + 8 ≤ len) :
    ((Str.singleByte len h63 o b).wordAt p).toNat = b.toNat * slot (slotOf p.toNat o) := by
  have hlt := mul_slot_lt b.isLt (slotOf p.toNat o)
  have hle : leNat (((Str.singleByte len h63 o b).bytes.drop p.toNat).take 8) =
      b.toNat * slot (slotOf p.toNat o) := by
    by_cases hin : p.toNat ≤ o ∧ o < p.toNat + 8
    · have hval := slotOf_of_mem hin.1 hin.2
      have hset : ((Str.singleByte len h63 o b).bytes.drop p.toNat).take 8 =
          (List.replicate 8 0#8).set (o - p.toNat) b := by
        rw [Str.singleByte, List.drop_set, if_neg (by omega), List.take_set, List.drop_replicate,
          List.take_replicate, Nat.min_eq_left (by omega)]
      rw [hset, leNat_replicate_set, if_pos (by omega), slot, if_pos (by omega), hval]
    · have hout : slotOf p.toNat o = 8 := by rw [slotOf, dif_neg hin]
      have hset : ((Str.singleByte len h63 o b).bytes.drop p.toNat).take 8 =
          (List.replicate 8 0#8).set 8 b := by
        rw [Str.singleByte, List.drop_set]
        split_ifs with ho
        · rw [List.set_eq_of_length_le (by simp), List.drop_replicate, List.take_replicate,
            Nat.min_eq_left (by omega)]
        · rw [List.take_set, List.drop_replicate, List.take_replicate, Nat.min_eq_left (by omega),
            List.set_eq_of_length_le (by simp; omega), List.set_eq_of_length_le (by simp)]
      rw [hset, leNat_replicate_set, if_neg (by omega), hout]
      simp [slot]
  rw [Str.wordAt, word64, BitVec.toNat_ofNat, hle, Nat.mod_eq_of_lt hlt]

end SingleByte

/-! ### Two values of one byte -/

/-- What the three-location hash makes of the value `b` of one byte: `i₀`, `i₁` and `i₂` are
its places in the three words and `t` is the update by the length. -/
def threeOfByte (t : ℕ) (i₀ i₁ i₂ : Fin 9) (b : ℕ) : ℕ :=
  updateWord (b * slot i₁ % 2 ^ 32 ^^^ (b * slot i₂ + (t ^^^ updateWord (b * slot i₀))))

section ThreeLocations

variable {t : ℕ} {i₀ i₁ i₂ : Fin 9}

/-- A byte of the second word alone, in the part that is read. -/
theorem threeOfByte_state_ne (h₀ : i₀ = 8) (h₂ : i₂ = 8) (h₁ : i₁.val < 4) :
    threeOfByte t i₀ i₁ i₂ 0 ≠ threeOfByte t i₀ i₁ i₂ 1 := by
  subst h₀ h₂
  have hstate : ∀ i : Fin 9, i.val < 4 → slot i % 2 ^ 32 ≠ 0 := by decide
  have hzero : slot 8 = 0 := rfl
  apply updateWord_ne
  rw [xor_xor_xor_comm, hzero, Nat.mul_zero, Nat.xor_self, Nat.xor_zero, Nat.zero_mul, Nat.one_mul,
    Nat.zero_mod, Nat.zero_xor]
  exact updateWord_ne_zero (by omega) (hstate i₁ h₁)

/-- A byte of the third word that the first does not hold: one of two neighbouring values
is even at its place in the sum, and the next one only sets that bit. -/
theorem threeOfByte_data_ne (h₀ : i₀ = 8) (h₂ : i₂ ≠ 8) (h₁₂ : i₁ = 8 ∨ i₁ ≠ i₂) :
    ∃ b < 2, threeOfByte t i₀ i₁ i₂ b ≠ threeOfByte t i₀ i₁ i₂ (b + 1) := by
  subst h₀
  have hpow : ∀ i : Fin 9, i ≠ 8 → slot i = 2 ^ (8 * i.val) := by decide
  have hslot := hpow i₂ h₂
  have hzero : slot 8 = 0 := rfl
  obtain ⟨b, hb, heven⟩ : ∃ b < 2, (b * slot i₂ + t) / 2 ^ (8 * i₂.val) % 2 = 0 := by
    have hdiv : ∀ b, (b * slot i₂ + t) / 2 ^ (8 * i₂.val) = b + t / 2 ^ (8 * i₂.val) := by
      intro b
      rw [hslot, Nat.add_comm, Nat.add_mul_div_right _ _ (by positivity), Nat.add_comm]
    exact ⟨t / 2 ^ (8 * i₂.val) % 2, by omega, by rw [hdiv]; omega⟩
  refine ⟨b, hb, updateWord_ne ?_⟩
  have hcases : ∀ i j : Fin 9, j ≠ 8 → i = 8 ∨ i ≠ j → ∀ b < 2,
      updateWord (b * slot i % 2 ^ 32 ^^^ (b + 1) * slot i % 2 ^ 32 ^^^ slot j) ≠ 0 := by
    decide +kernel
  have hsum : (b * slot i₂ + t) ^^^ ((b + 1) * slot i₂ + t) = slot i₂ := by
    have hnext : (b + 1) * slot i₂ + t = b * slot i₂ + t + 2 ^ (8 * i₂.val) := by
      rw [← hslot]; ring
    rw [hnext, xor_add_two_pow heven, hslot]
  rw [xor_xor_xor_comm, hzero, Nat.mul_zero, Nat.mul_zero, updateWord_zero, Nat.xor_zero, hsum]
  exact hcases i₁ i₂ h₂ h₁₂ b hb

/-- A byte of the first word that also lies in the high half of the third: the sum has no
carry. -/
theorem threeOfByte_high_ne (ht : t < 2 ^ 32) (h₀ : i₀ ≠ 8) (h₂ : 2 ^ 32 ≤ slot i₂) :
    threeOfByte t i₀ i₁ i₂ 0 ≠ threeOfByte t i₀ i₁ i₂ 1 := by
  apply updateWord_ne
  have hcases : ∀ i₀ i₁ i₂ : Fin 9, i₀ ≠ 8 → 2 ^ 32 ≤ slot i₂ →
      updateWord (slot i₁ % 2 ^ 32 ^^^ slot i₂ ^^^ updateWord (slot i₀)) ≠ 0 := by decide +kernel
  have hslot : ∀ i : Fin 9, slot i < 2 ^ 64 := by decide
  have hlow : t ^^^ updateWord (slot i₀) < 2 ^ 32 :=
    Nat.xor_lt_two_pow ht (updateWord_lt (hslot i₀))
  have hmul : ∀ i : Fin 9, slot i = 2 ^ 32 * (slot i / 2 ^ 32) ∨ slot i < 2 ^ 32 := by decide
  have hsum : slot i₂ + (t ^^^ updateWord (slot i₀)) = slot i₂ ^^^ (t ^^^ updateWord (slot i₀)) := by
    rw [(hmul i₂).resolve_right (by omega), Nat.add_comm, add_two_pow_mul_eq_xor hlow, Nat.xor_comm]
  have hdiff : ∀ a b u : ℕ, t ^^^ (a ^^^ (b ^^^ (t ^^^ u))) = t ^^^ t ^^^ (a ^^^ b ^^^ u) := by
    intro a b u
    ac_rfl
  rw [Nat.one_mul, Nat.one_mul, Nat.one_mul, Nat.zero_mul, Nat.zero_mul, Nat.zero_mul, hsum,
    updateWord_zero, Nat.xor_zero, Nat.zero_add, Nat.zero_mod, Nat.zero_xor, hdiff, Nat.xor_self,
    Nat.zero_xor]
  exact hcases i₀ i₁ i₂ h₀ h₂

/-- A byte of the first word that the high half of the third does not hold. A multiple of
four leaves the two lowest bits of the summands alone, so they show the update. -/
theorem threeOfByte_low_ne (ht : t < 2 ^ 32) (h₀ : i₀ ≠ 8) (h₂ : ¬2 ^ 32 ≤ slot i₂) :
    ∃ b < 256, threeOfByte t i₀ i₁ i₂ b ≠ threeOfByte t i₀ i₁ i₂ 0 := by
  have hcases : ∀ i : Fin 9, i ≠ 8 → ∃ b < 256, b % 4 = 0 ∧ 2 ≤ updateWord (b * slot i) % 4 := by
    decide +kernel
  obtain ⟨b, hb, hfour, htwo⟩ := hcases i₀ h₀
  have hsmall : ∀ i : Fin 9, slot i < 2 ^ 32 → slot i ≤ 2 ^ 24 := by decide
  have hbound : ∀ b < 256,
      b * slot i₁ % 2 ^ 32 ^^^ (b * slot i₂ + (t ^^^ updateWord (b * slot i₀))) < 2 ^ 33 := by
    intro b hb
    have hlow := Nat.xor_lt_two_pow ht (updateWord_lt (mul_slot_lt hb i₀))
    have hprod : b * slot i₂ ≤ 255 * 2 ^ 24 :=
      Nat.mul_le_mul (by omega) (hsmall i₂ (by omega))
    exact Nat.xor_lt_two_pow (by omega) (by omega)
  refine ⟨b, hb, updateWord_ne_of_mod_four (hbound b hb) (hbound 0 (by decide)) ?_⟩
  have hmod : ∀ i, b * slot i % 4 = 0 := by
    intro i
    rw [Nat.mul_mod, hfour, Nat.zero_mul, Nat.zero_mod]
  have hxor : ∀ a c : ℕ, (a ^^^ c) % 4 = a % 4 ^^^ c % 4 := fun a c => Nat.xor_mod_two_pow (n := 2)
  have hstate : b * slot i₁ % 2 ^ 32 % 4 = 0 := by
    have := hmod i₁
    omega
  have hdata : (b * slot i₂ + (t ^^^ updateWord (b * slot i₀))) % 4 =
      t % 4 ^^^ updateWord (b * slot i₀) % 4 := by
    have := hmod i₂
    rw [← hxor]
    omega
  rw [Nat.zero_mul, Nat.zero_mul, Nat.zero_mul, updateWord_zero, Nat.xor_zero, Nat.zero_mod,
    Nat.zero_add, Nat.zero_xor, hxor, hxor, hstate, hdata, Nat.zero_xor, Nat.xor_comm, ← Nat.xor_assoc,
    Nat.xor_self, Nat.zero_xor]
  exact htwo

theorem exists_byte_three (ht : t < 2 ^ 32) (h₁₂ : i₁ = 8 ∨ i₁ ≠ i₂)
    (h : i₀ ≠ 8 ∨ i₁.val < 4 ∨ i₂ ≠ 8) :
    ∃ b < 256, ∃ b' < 256, threeOfByte t i₀ i₁ i₂ b ≠ threeOfByte t i₀ i₁ i₂ b' := by
  by_cases h₀ : i₀ = 8
  · by_cases h₂ : i₂ = 8
    · have h₁ : i₁.val < 4 := by simpa [h₀, h₂] using h
      exact ⟨0, by decide, 1, by decide, threeOfByte_state_ne h₀ h₂ h₁⟩
    · obtain ⟨b, hb, hne⟩ := threeOfByte_data_ne (t := t) h₀ h₂ h₁₂
      exact ⟨b, by omega, b + 1, by omega, hne⟩
  · by_cases h₂ : 2 ^ 32 ≤ slot i₂
    · exact ⟨0, by decide, 1, by decide, threeOfByte_high_ne ht h₀ h₂⟩
    · obtain ⟨b, hb, hne⟩ := @threeOfByte_low_ne t i₀ i₁ i₂ ht h₀ h₂
      exact ⟨b, hb, 0, by decide, hne⟩

end ThreeLocations

/-- What the four-location hash makes of the value `b` of one byte, `t` again the update by
the length. -/
def fourOfByte (t : ℕ) (i₀ i₁ i₂ i₃ : Fin 9) (b : ℕ) : ℕ :=
  updateWord (b * slot i₃ % 2 ^ 32 ^^^
    (updateWord (b * slot i₁ % 2 ^ 32 ^^^ b * slot i₀) ^^^ (t ^^^ updateWord (b * slot i₂))))

/-- All of the four-location hash is linear. -/
theorem fourOfByte_ne {t : ℕ} {i₀ i₁ i₂ i₃ : Fin 9} (h₀₁ : i₀ = 8 ∨ i₀ ≠ i₁) (h₀₂ : i₀ = 8 ∨ i₀ ≠ i₂)
    (h₁₂ : i₁ = 8 ∨ i₁ ≠ i₂) (h : i₀ ≠ 8 ∨ i₁.val < 4 ∨ i₂ ≠ 8 ∨ i₃.val < 4) :
    fourOfByte t i₀ i₁ i₂ i₃ 0 ≠ fourOfByte t i₀ i₁ i₂ i₃ 1 := by
  -- the combined update of the first three words is never a byte of the fourth
  have hcases : ∀ i₀ i₁ i₂ : Fin 9, (i₀ = 8 ∨ i₀ ≠ i₁) → (i₀ = 8 ∨ i₀ ≠ i₂) → (i₁ = 8 ∨ i₁ ≠ i₂) →
      i₀ ≠ 8 ∨ i₁.val < 4 ∨ i₂ ≠ 8 →
      updateWord (slot i₁ % 2 ^ 32 ^^^ slot i₀ ^^^ slot i₂) ∉ [0, 1, 256, 65536, 16777216] := by
    decide +kernel
  have hfourth : ∀ i : Fin 9, slot i % 2 ^ 32 ∈ [0, 1, 256, 65536, 16777216] := by decide
  have hstate : ∀ i : Fin 9, i.val < 4 ↔ slot i % 2 ^ 32 ≠ 0 := by decide
  have hslot : ∀ i : Fin 9, slot i < 2 ^ 64 := by decide
  have hmix : slot i₁ % 2 ^ 32 ^^^ slot i₀ ^^^ slot i₂ < 2 ^ 64 :=
    Nat.xor_lt_two_pow (Nat.xor_lt_two_pow (by omega) (hslot i₀)) (hslot i₂)
  have hdiff : ∀ a u v : ℕ, t ^^^ (a ^^^ (u ^^^ (t ^^^ v))) = t ^^^ t ^^^ (a ^^^ (u ^^^ v)) := by
    intro a u v
    ac_rfl
  apply updateWord_ne
  rw [Nat.one_mul, Nat.one_mul, Nat.one_mul, Nat.one_mul, Nat.zero_mul, Nat.zero_mul, Nat.zero_mul,
    Nat.zero_mul, Nat.zero_mod, Nat.xor_zero, updateWord_zero, Nat.xor_zero, Nat.zero_xor,
    Nat.zero_xor, hdiff, Nat.xor_self, Nat.zero_xor, ← updateWord_xor]
  apply updateWord_ne_zero (Nat.xor_lt_two_pow (by omega) (updateWord_lt hmix))
  rw [Ne, Nat.xor_eq_zero_iff]
  intro heq
  by_cases hfirst : i₀ ≠ 8 ∨ i₁.val < 4 ∨ i₂ ≠ 8
  · exact hcases i₀ i₁ i₂ h₀₁ h₀₂ h₁₂ hfirst (heq ▸ hfourth i₃)
  · -- only the fourth word holds the byte
    obtain ⟨h₀, h₁, h₂⟩ : i₀ = 8 ∧ ¬i₁.val < 4 ∧ i₂ = 8 := by simpa [not_or] using hfirst
    have hs₁ : slot i₁ % 2 ^ 32 = 0 := by simpa [hstate] using h₁
    have h₃ : i₃.val < 4 := by simpa [h₀, h₁, h₂] using h
    have hs₃ := (hstate i₃).mp h₃
    have hs₀ : slot 8 = 0 := rfl
    rw [hs₁, h₀, h₂, hs₀, Nat.xor_self, Nat.xor_self, updateWord_zero] at heq
    exact hs₃ heq

/-! ### The hashes -/

section Hashes

variable {s : Str} (seed : U64) {p q r t : U32}

theorem crc32Wyhash3locFixed_eq (hp : p.toNat + 8 ≤ s.size) (hq : q.toNat + 8 ≤ s.size)
    (hr : r.toNat + 8 ≤ s.size) :
    crc32Wyhash3locFixed s.bytes s.size [p, q, r] seed =
      some (mmCrc32U64 (s.wordAt q)
        (s.wordAt r + mmCrc32U64 (seed + BitVec.ofNat 64 s.size) (s.wordAt p))) := by
  simp [crc32Wyhash3locFixed, wyr8_eq_wordAt hp, wyr8_eq_wordAt hq, wyr8_eq_wordAt hr]

theorem crc32Wyhash4locFixed_eq (hp : p.toNat + 8 ≤ s.size) (hq : q.toNat + 8 ≤ s.size)
    (hr : r.toNat + 8 ≤ s.size) (ht : t.toNat + 8 ≤ s.size) :
    crc32Wyhash4locFixed s.bytes s.size [p, q, r, t] seed =
      some (mmCrc32U64 (s.wordAt t) (mmCrc32U64 (s.wordAt q) (s.wordAt p) ^^^
        mmCrc32U64 (seed + BitVec.ofNat 64 s.size) (s.wordAt r))) := by
  simp [crc32Wyhash4locFixed, wyr8_eq_wordAt hp, wyr8_eq_wordAt hq, wyr8_eq_wordAt hr,
    wyr8_eq_wordAt ht]

end Hashes

/-- The eight bytes at an offset. -/
def Str.load8 (s : Str) (p : ℕ) : U64 := word64 ((s.bytes.drop p).take 8)

section Operands

variable {x y : Str} {o : ℕ}

/-- A word that does not hold the byte is the same in both keys. -/
theorem Str.DifferInByte.load8_eq (h : x.DifferInByte y o) {p : ℕ} (ho : ¬(p ≤ o ∧ o < p + 8)) : x.load8 p = y.load8 p := by
  rw [Str.load8, Str.load8]
  congr 1
  apply List.ext_getElem?
  intro j
  simp only [List.getElem?_take, List.getElem?_drop]
  split_ifs with hj
  · exact h.2.2 _ (by omega)
  · rfl

theorem Str.DifferInByte.wordAt_eq (h : x.DifferInByte y o) {p : U32}
    (ho : ¬(p.toNat ≤ o ∧ o < p.toNat + 8)) : x.wordAt p = y.wordAt p :=
  h.load8_eq ho

/-- A byte of the high half of a word does not change the low half. -/
theorem Str.DifferInByte.wordAt_setWidth_eq (h : x.DifferInByte y o) {p : U32}
    (hp : p.toNat + 8 ≤ x.size) (ho : ¬(p.toNat ≤ o ∧ o < p.toNat + 4)) :
    (x.wordAt p).setWidth 32 = (y.wordAt p).setWidth 32 := by
  have hlength : ∀ s : Str, s.size = x.size → ((s.bytes.drop p.toNat).take 8).length = 8 := by
    intro s hs
    have : s.bytes.length = x.size := hs
    rw [List.length_take, List.length_drop]
    omega
  rw [Str.wordAt, Str.wordAt, ← (word32_halves (hlength x rfl)).1,
    ← (word32_halves (hlength y h.1.symm)).1]
  congr 1
  apply List.ext_getElem?
  intro j
  simp only [List.getElem?_take, List.getElem?_drop]
  split_ifs with hj hj'
  · exact h.2.2 _ (by omega)
  · rfl
  · rfl

theorem mmCrc32U64_congr {crc crc' : U64} (h : crc.setWidth 32 = crc'.setWidth 32) (v : U64) :
    mmCrc32U64 crc v = mmCrc32U64 crc' v := by
  rw [mmCrc32U64, mmCrc32U64, h]

end Operands

/-- How many bytes of its `k`-th word the hash over `n` locations takes in. A word in the
place of the CRC state counts with its low half. -/
def operandBytes : ℕ → ℕ → ℕ
  | 3, 1 | 4, 1 | 4, 3 => 4
  | _, _ => 8

/-- The byte at offset `o` lies in an operand of the hash over these locations. -/
def InOperand (locations : List U32) (o : ℕ) : Prop :=
  ∃ k, ∃ hk : k < locations.length, (locations[k]).toNat ≤ o ∧
    o < (locations[k]).toNat + operandBytes locations.length k

theorem inOperand_three (p q r : U32) (o : ℕ) : InOperand [p, q, r] o ↔
    (p.toNat ≤ o ∧ o < p.toNat + 8) ∨ (q.toNat ≤ o ∧ o < q.toNat + 4) ∨
      (r.toNat ≤ o ∧ o < r.toNat + 8) := by
  constructor
  · rintro ⟨k, hk, h⟩
    match k, hk, h with
    | 0, _, h => exact .inl h
    | 1, _, h => exact .inr (.inl h)
    | 2, _, h => exact .inr (.inr h)
  · rintro (h | h | h)
    · exact ⟨0, by simp, h⟩
    · exact ⟨1, by simp, h⟩
    · exact ⟨2, by simp, h⟩

theorem inOperand_four (p q r t : U32) (o : ℕ) : InOperand [p, q, r, t] o ↔
    (p.toNat ≤ o ∧ o < p.toNat + 8) ∨ (q.toNat ≤ o ∧ o < q.toNat + 4) ∨
      (r.toNat ≤ o ∧ o < r.toNat + 8) ∨ (t.toNat ≤ o ∧ o < t.toNat + 4) := by
  constructor
  · rintro ⟨k, hk, h⟩
    match k, hk, h with
    | 0, _, h => exact .inl h
    | 1, _, h => exact .inr (.inl h)
    | 2, _, h => exact .inr (.inr (.inl h))
    | 3, _, h => exact .inr (.inr (.inr h))
  · rintro (h | h | h | h)
    · exact ⟨0, by simp, h⟩
    · exact ⟨1, by simp, h⟩
    · exact ⟨2, by simp, h⟩
    · exact ⟨3, by simp, h⟩

theorem slotOf_ne_eight {p o : ℕ} (h : p ≤ o ∧ o < p + 8) : slotOf p o ≠ 8 := by
  intro heq
  have hval := slotOf_of_mem h.1 h.2
  rw [heq] at hval
  have : 8 = o - p := hval
  omega

theorem slotOf_lt_four {p o : ℕ} (h : p ≤ o ∧ o < p + 4) : (slotOf p o).val < 4 := by
  rw [slotOf_of_mem h.1 (by omega)]
  omega

theorem toNat_ne {p q : U32} (h : p ≠ q) : p.toNat ≠ q.toNat := fun heq => h (BitVec.eq_of_toNat_eq heq)

/-- Two byte values with different hashes give two keys. -/
theorem exists_keys_of_bytes {len o : ℕ} (h63 : len < 2 ^ 63) (ho : o < len)
    {hash : Str → Option U64} {value : ℕ → ℕ}
    (hvalue : ∀ b : Byte, ∃ u, hash (Str.singleByte len h63 o b) = some u ∧ u.toNat = value b.toNat)
    (hne : ∃ b < 256, ∃ b' < 256, value b ≠ value b') :
    ∃ x y : Str, x.size = len ∧ x.DifferInByte y o ∧
      ∃ u v, hash x = some u ∧ hash y = some v ∧ u ≠ v := by
  obtain ⟨b, hb, b', hb', hne⟩ := hne
  obtain ⟨u, hu, hub⟩ := hvalue (BitVec.ofNat 8 b)
  obtain ⟨v, hv, hvb⟩ := hvalue (BitVec.ofNat 8 b')
  rw [BitVec.toNat_ofNat, Nat.mod_eq_of_lt hb] at hub
  rw [BitVec.toNat_ofNat, Nat.mod_eq_of_lt hb'] at hvb
  have huv : u ≠ v := by
    rintro rfl
    exact hne (hub.symm.trans hvb)
  refine ⟨_, _, Str.size_singleByte len h63 o _, Str.singleByte_differInByte h63 ho ?_, u, v, hu, hv, huv⟩
  intro heq
  rw [heq, hv] at hu
  exact huv (Option.some.inj hu).symm

section Matters

variable {len : ℕ} (h63 : len < 2 ^ 63) (seed : U64) {p q r t : U32} {o : ℕ}
  (hp : p.toNat + 8 ≤ len) (hq : q.toNat + 8 ≤ len) (hr : r.toNat + 8 ≤ len)
include hp hq hr

theorem toNat_three_singleByte (b : Byte) :
    ∃ u, crc32Wyhash3locFixed (Str.singleByte len h63 o b).bytes (Str.singleByte len h63 o b).size
        [p, q, r] seed = some u ∧
      u.toNat = threeOfByte (updateWord ((seed + BitVec.ofNat 64 len).toNat % 2 ^ 32))
        (slotOf p.toNat o) (slotOf q.toNat o) (slotOf r.toNat o) b.toNat := by
  refine ⟨_, crc32Wyhash3locFixed_eq seed (by simpa using hp) (by simpa using hq)
    (by simpa using hr), ?_⟩
  have hT : (mmCrc32U64 (seed + BitVec.ofNat 64 len) ((Str.singleByte len h63 o b).wordAt p)).toNat =
      updateWord ((seed + BitVec.ofNat 64 len).toNat % 2 ^ 32) ^^^
        updateWord (b.toNat * slot (slotOf p.toNat o)) := by
    rw [toNat_mmCrc32U64_eq, updateWord_xor, Str.toNat_wordAt_singleByte h63 b hp]
  have hTlt := toNat_mmCrc32U64_lt (seed + BitVec.ofNat 64 len)
    ((Str.singleByte len h63 o b).wordAt p)
  have hslot : ∀ i : Fin 9, slot i ≤ 256 ^ 7 := by decide
  have hprod : b.toNat * slot (slotOf r.toNat o) ≤ 255 * 256 ^ 7 :=
    Nat.mul_le_mul (by have := b.isLt; omega) (hslot _)
  have hsum : (b.toNat * slot (slotOf r.toNat o) + (mmCrc32U64 (seed + BitVec.ofNat 64 len)
      ((Str.singleByte len h63 o b).wordAt p)).toNat) % 2 ^ 64 = _ := Nat.mod_eq_of_lt (by omega)
  rw [toNat_mmCrc32U64_eq, BitVec.toNat_add, Str.size_singleByte, Str.toNat_wordAt_singleByte h63 b hq,
    Str.toNat_wordAt_singleByte h63 b hr, hsum, hT, threeOfByte]

theorem toNat_four_singleByte (ht : t.toNat + 8 ≤ len) (b : Byte) :
    ∃ u, crc32Wyhash4locFixed (Str.singleByte len h63 o b).bytes (Str.singleByte len h63 o b).size
        [p, q, r, t] seed = some u ∧
      u.toNat = fourOfByte (updateWord ((seed + BitVec.ofNat 64 len).toNat % 2 ^ 32))
        (slotOf p.toNat o) (slotOf q.toNat o) (slotOf r.toNat o) (slotOf t.toNat o) b.toNat := by
  refine ⟨_, crc32Wyhash4locFixed_eq seed (by simpa using hp) (by simpa using hq)
    (by simpa using hr) (by simpa using ht), ?_⟩
  rw [toNat_mmCrc32U64_eq, BitVec.toNat_xor, toNat_mmCrc32U64_eq, toNat_mmCrc32U64_eq,
    Str.size_singleByte, Str.toNat_wordAt_singleByte h63 b hp, Str.toNat_wordAt_singleByte h63 b hq,
    Str.toNat_wordAt_singleByte h63 b hr, Str.toNat_wordAt_singleByte h63 b ht,
    updateWord_xor (BitVec.toNat (seed + BitVec.ofNat 64 len) % _), fourOfByte]

end Matters

/-- A byte outside the operands does not reach the hash. -/
theorem crc32WyhashNlocFixed_congr {locations : List U32}
    (hn : locations.length = 3 ∨ locations.length = 4) {x y : Str} {o : ℕ} (seed : U64)
    (hrange : ∀ p ∈ locations, p.toNat + 8 ≤ x.size) (hxy : x.DifferInByte y o)
    (ho : ¬InOperand locations o) :
    crc32WyhashNlocFixed locations.length x.bytes x.size locations seed =
      crc32WyhashNlocFixed locations.length y.bytes y.size locations seed := by
  have hrange' : ∀ p ∈ locations, p.toNat + 8 ≤ y.size := hxy.1 ▸ hrange
  match locations, hn with
  | [p, q, r], _ =>
    simp only [List.mem_cons, List.not_mem_nil, or_false, forall_eq_or_imp, forall_eq] at hrange hrange'
    rw [inOperand_three, not_or, not_or] at ho
    have hx := crc32Wyhash3locFixed_eq seed hrange.1 hrange.2.1 hrange.2.2
    have hy := crc32Wyhash3locFixed_eq seed hrange'.1 hrange'.2.1 hrange'.2.2
    rw [hxy.wordAt_eq ho.1, hxy.wordAt_eq ho.2.2,
      mmCrc32U64_congr (hxy.wordAt_setWidth_eq hrange.2.1 ho.2.1), hxy.1] at hx
    rw [hxy.1]
    exact hx.trans hy.symm
  | [p, q, r, t], _ =>
    simp only [List.mem_cons, List.not_mem_nil, or_false, forall_eq_or_imp, forall_eq] at hrange hrange'
    rw [inOperand_four, not_or, not_or, not_or] at ho
    have hx := crc32Wyhash4locFixed_eq seed hrange.1 hrange.2.1 hrange.2.2.1 hrange.2.2.2
    have hy := crc32Wyhash4locFixed_eq seed hrange'.1 hrange'.2.1 hrange'.2.2.1 hrange'.2.2.2
    rw [hxy.wordAt_eq ho.1, hxy.wordAt_eq ho.2.2.1,
      mmCrc32U64_congr (hxy.wordAt_setWidth_eq hrange.2.1 ho.2.1),
      mmCrc32U64_congr (hxy.wordAt_setWidth_eq hrange.2.2.2 ho.2.2.2), hxy.1] at hx
    rw [hxy.1]
    exact hx.trans hy.symm

/-- A byte inside an operand does. -/
theorem exists_keys_of_inOperand {locations : List U32}
    (hn : locations.length = 3 ∨ locations.length = 4) (hnodup : locations.Nodup) {len : ℕ}
    (h63 : len < 2 ^ 63) (hrange : ∀ p ∈ locations, p.toNat + 8 ≤ len) (seed : U64) {o : ℕ}
    (ho : InOperand locations o) :
    ∃ x y : Str, x.size = len ∧ x.DifferInByte y o ∧
      ∃ u v, crc32WyhashNlocFixed locations.length x.bytes x.size locations seed = some u ∧
        crc32WyhashNlocFixed locations.length y.bytes y.size locations seed = some v ∧ u ≠ v := by
  have hdistinct : ∀ {p q : U32}, p ≠ q → slotOf p.toNat o = 8 ∨ slotOf p.toNat o ≠ slotOf q.toNat o :=
    fun h => slotOf_ne (toNat_ne h) o
  match locations, hn with
  | [p, q, r], _ =>
    obtain ⟨hp, hq, hr⟩ : p.toNat + 8 ≤ len ∧ q.toNat + 8 ≤ len ∧ r.toNat + 8 ≤ len := by
      simpa using hrange
    obtain ⟨-, hqr⟩ : (p ≠ q ∧ p ≠ r) ∧ q ≠ r := by simpa using hnodup
    rw [inOperand_three] at ho
    refine exists_keys_of_bytes h63 (by omega) (toNat_three_singleByte h63 seed hp hq hr) ?_
    apply exists_byte_three (updateWord_lt (by omega)) (hdistinct hqr)
    exact ho.imp slotOf_ne_eight (Or.imp slotOf_lt_four slotOf_ne_eight)
  | [p, q, r, t], _ =>
    obtain ⟨hp, hq, hr, ht⟩ : p.toNat + 8 ≤ len ∧ q.toNat + 8 ≤ len ∧ r.toNat + 8 ≤ len ∧
        t.toNat + 8 ≤ len := by
      simpa using hrange
    obtain ⟨⟨hpq, hpr, -⟩, ⟨hqr, -⟩, -⟩ : (p ≠ q ∧ p ≠ r ∧ p ≠ t) ∧ (q ≠ r ∧ q ≠ t) ∧ r ≠ t := by
      simpa using hnodup
    rw [inOperand_four] at ho
    refine exists_keys_of_bytes h63 (by omega) (toNat_four_singleByte h63 seed hp hq hr ht) ?_
    refine ⟨0, by decide, 1, by decide, fourOfByte_ne (hdistinct hpq) (hdistinct hpr)
      (hdistinct hqr) ?_⟩
    exact ho.imp slotOf_ne_eight (Or.imp slotOf_lt_four (Or.imp slotOf_ne_eight slotOf_lt_four))

/-- A byte of the key decides between two hashes exactly when it lies in an operand. The words
may overlap. -/
theorem crc32Wyhash_byte_matters_iff (locations : List U32)
    (hn : locations.length = 3 ∨ locations.length = 4) (hnodup : locations.Nodup) (len : ℕ)
    (h63 : len < 2 ^ 63) (hrange : ∀ p ∈ locations, p.toNat + 8 ≤ len) (seed : U64) (o : ℕ) :
    (∃ x y : Str, x.size = len ∧ x.DifferInByte y o ∧
      ∃ u v, crc32WyhashNlocFixed locations.length x.bytes x.size locations seed = some u ∧
        crc32WyhashNlocFixed locations.length y.bytes y.size locations seed = some v ∧ u ≠ v) ↔
      InOperand locations o := by
  constructor
  · rintro ⟨x, y, rfl, hxy, u, v, hu, hv, huv⟩
    by_contra ho
    have hsame := crc32WyhashNlocFixed_congr hn seed hrange hxy ho
    rw [hu, hv] at hsame
    exact huv (Option.some.inj hsame)
  · exact exists_keys_of_inOperand hn hnodup h63 hrange seed

/-- The first byte of the second word is read. -/
theorem crc32Wyhash_byte_eight_matters :
    ∃ x y : Str, x.size = 24 ∧ x.DifferInByte y 8 ∧
      ∃ u v, crc32WyhashNlocFixed 3 x.bytes x.size [0, 8, 16] 0 = some u ∧
        crc32WyhashNlocFixed 3 y.bytes y.size [0, 8, 16] 0 = some v ∧ u ≠ v :=
  (crc32Wyhash_byte_matters_iff [0, 8, 16] (.inl rfl) (by decide) 24 (by decide) (by simp) 0 8).mpr
    ((inOperand_three 0 8 16 8).mpr (by decide))

/-- The fifth byte of the second word is chosen and ignored. -/
theorem crc32Wyhash_byte_twelve_ignored :
    ¬∃ x y : Str, x.size = 24 ∧ x.DifferInByte y 12 ∧
      ∃ u v, crc32WyhashNlocFixed 3 x.bytes x.size [0, 8, 16] 0 = some u ∧
        crc32WyhashNlocFixed 3 y.bytes y.size [0, 8, 16] 0 = some v ∧ u ≠ v := by
  rintro ⟨x, y, hsize, hxy, u, v, hu, hv, huv⟩
  have hout : ¬InOperand [0, 8, 16] 12 := by
    rw [inOperand_three]
    decide
  have hthree : ([0, 8, 16] : List U32).length = 3 ∨ ([0, 8, 16] : List U32).length = 4 := .inl rfl
  have hsame := crc32WyhashNlocFixed_congr hthree 0 (by simp [hsize]) hxy hout
  rw [List.length_cons, List.length_cons, List.length_cons, List.length_nil] at hsame
  rw [hu, hv] at hsame
  exact huv (Option.some.inj hsame)

end EntropyLearnedHashing
