import EntropyLearnedHashing.Hash.Customs
import EntropyLearnedHashing.Library.ShiftRegister

/-! What the one- and two-location CRC hashes detect. The intrinsic is 64 steps of the
shift register with the Castagnoli polynomial, started from the exclusive or of the
low half of the state and the word. So a change inside 32 consecutive bits of a word
changes the result, and so does every change of the low half of the state, such as
the one a different length makes. -/

namespace EntropyLearnedHashing

open LittleEndian ShiftRegister

/-! ### The intrinsic as a shift register -/

/-- The reflected Castagnoli polynomial. -/
def castagnoli : ℕ := 0x82f63b78

theorem toNat_crcBit (c : U32) : (crcBit c).toNat = step castagnoli c.toNat := by
  have hlow : c.getLsbD 0 = decide (c.toNat % 2 = 1) := by
    simp [BitVec.getLsbD, Nat.testBit_zero]
  unfold crcBit step castagnoli
  rw [hlow]
  split_ifs with h <;> simp_all [Nat.shiftRight_eq_div_pow]

theorem toNat_crcByte (c : U32) (b : Byte) :
    (crcByte c b).toNat = (step castagnoli)^[8] (c.toNat ^^^ b.toNat) := by
  have hb : (b.setWidth 32).toNat = b.toNat := by
    have := b.isLt
    simp only [BitVec.toNat_setWidth]
    omega
  rw [crcByte, ← hb, ← BitVec.toNat_xor]
  exact Function.Semiconj.iterate_right (f := BitVec.toNat) toNat_crcBit 8 _

theorem toNat_foldl_crcByte (bs : List Byte) (c : U32) :
    (bs.foldl crcByte c).toNat = (step castagnoli)^[8 * bs.length] (c.toNat ^^^ leNat bs) := by
  rw [← foldl_bytes]
  induction bs generalizing c with
  | nil => rfl
  | cons b bs ih => rw [List.foldl_cons, List.foldl_cons, ih, toNat_crcByte]

theorem toNat_mmCrc32U64 (crc v : U64) :
    (mmCrc32U64 crc v).toNat =
      (step castagnoli)^[64] ((crc.setWidth 32).toNat ^^^ v.toNat) := by
  have hv : v.toNat < 256 ^ 8 := lt_of_lt_of_eq v.isLt (by norm_num)
  rw [mmCrc32U64, BitVec.toNat_setWidth_of_le (by decide), toNat_foldl_crcByte, length_leBytes,
    leNat_leBytes 8 _ hv]

/-- The low half of a result is the whole result. -/
theorem mmCrc32U64_setWidth (crc v : U64) :
    ((mmCrc32U64 crc v).setWidth 32).setWidth 64 = mmCrc32U64 crc v := by
  have hlow : ∀ x : U32, (x.setWidth 64).setWidth 32 = x := fun x => by
    rw [BitVec.setWidth_setWidth_of_le x (by decide), BitVec.setWidth_eq]
  rw [mmCrc32U64, hlow]

/-! ### Changes that are detected -/

/-- A nonzero difference of the register inside 32 consecutive bits survives the update. -/
theorem mmCrc32U64_ne {crc crc' v v' : U64} {p e : ℕ} (hp : p ≤ 64) (he : e < 2 ^ 32) (h0 : e ≠ 0)
    (hd : (crc.setWidth 32).toNat ^^^ (crc'.setWidth 32).toNat ^^^ (v.toNat ^^^ v'.toNat) =
      2 ^ p * e) :
    mmCrc32U64 crc v ≠ mmCrc32U64 crc' v' := by
  intro h
  have hiter := congrArg BitVec.toNat h
  rw [toNat_mmCrc32U64, toNat_mmCrc32U64, ← Nat.xor_eq_zero_iff, ← iterate_step_xor] at hiter
  have hswap : (crc.setWidth 32).toNat ^^^ v.toNat ^^^ ((crc'.setWidth 32).toNat ^^^ v'.toNat) =
      2 ^ p * e := by
    rw [← hd]
    ac_rfl
  rw [hswap] at hiter
  exact iterate_step_window_ne_zero (w := 31) (by decide) (by decide) hp he h0 hiter

/-- Different words that agree outside `k` consecutive bits. -/
def DifferWithin (k : ℕ) (u v : U64) : Prop :=
  u ≠ v ∧ ∃ p, ∀ j, u.getLsbD j ≠ v.getLsbD j → p ≤ j ∧ j < p + k

theorem DifferWithin.exists_window {k : ℕ} {u v : U64} (h : DifferWithin k u v) :
    ∃ p e, p ≤ 64 ∧ e < 2 ^ k ∧ e ≠ 0 ∧ u.toNat ^^^ v.toNat = 2 ^ p * e := by
  obtain ⟨hne, p, hwin⟩ := h
  have hd : u.toNat ^^^ v.toNat ≠ 0 := by
    rw [Ne, Nat.xor_eq_zero_iff]
    exact fun h => hne (BitVec.eq_of_toNat_eq h)
  obtain ⟨e, he, heq⟩ := ShiftRegister.exists_window (d := u.toNat ^^^ v.toNat) (p := p) (k := k) (by
    intro j hj
    apply hwin
    simpa [BitVec.getLsbD, Nat.testBit_xor] using hj)
  have he0 : e ≠ 0 := by
    rintro rfl
    exact hd (by simpa using heq)
  refine ⟨p, e, ?_, he, he0, heq⟩
  -- the difference is below `2 ^ 64`, so its window starts there
  by_contra hp
  have hlt : u.toNat ^^^ v.toNat < 2 ^ 64 := Nat.xor_lt_two_pow u.isLt v.isLt
  have hge : 2 ^ 64 ≤ 2 ^ p * e :=
    (Nat.pow_le_pow_right (by decide) (by omega)).trans (Nat.le_mul_of_pos_right _ (by omega))
  omega

/-- The update by a word detects a change inside 32 consecutive bits of it. -/
theorem mmCrc32U64_word_ne (crc : U64) {u v : U64} (h : DifferWithin 32 u v) :
    mmCrc32U64 crc u ≠ mmCrc32U64 crc v := by
  obtain ⟨p, e, hp, he, h0, heq⟩ := h.exists_window
  refine mmCrc32U64_ne hp he h0 ?_
  rw [Nat.xor_self, Nat.zero_xor, heq]

/-- The update is injective in the low half of the state. -/
theorem mmCrc32U64_state_ne {crc crc' : U64} (h : crc.setWidth 32 ≠ crc'.setWidth 32) (v : U64) :
    mmCrc32U64 crc v ≠ mmCrc32U64 crc' v := by
  have hne : (crc.setWidth 32).toNat ^^^ (crc'.setWidth 32).toNat ≠ 0 := by
    rw [Ne, Nat.xor_eq_zero_iff]
    exact fun heq => h (BitVec.eq_of_toNat_eq heq)
  have hlt := Nat.xor_lt_two_pow (crc.setWidth 32).isLt (crc'.setWidth 32).isLt
  exact mmCrc32U64_ne (p := 0) (by decide) hlt hne (by simp)

theorem mmCrc32U64_setWidth_ne {crc crc' u u' : U64} (h : mmCrc32U64 crc u ≠ mmCrc32U64 crc' u') :
    (mmCrc32U64 crc u).setWidth 32 ≠ (mmCrc32U64 crc' u').setWidth 32 := by
  intro heq
  apply h
  rw [← mmCrc32U64_setWidth crc u, heq, mmCrc32U64_setWidth]

/-- A difference made by one update is kept by the next. -/
theorem mmCrc32U64_ne_of_ne {crc crc' u u' : U64} (h : mmCrc32U64 crc u ≠ mmCrc32U64 crc' u')
    (v : U64) : mmCrc32U64 (mmCrc32U64 crc u) v ≠ mmCrc32U64 (mmCrc32U64 crc' u') v :=
  mmCrc32U64_state_ne (mmCrc32U64_setWidth_ne h) v

theorem setWidth_length_ne {m n : ℕ} (hm : m < 2 ^ 32) (hn : n < 2 ^ 32) (h : m ≠ n) :
    (BitVec.ofNat 64 m).setWidth 32 ≠ (BitVec.ofNat 64 n).setWidth 32 := by
  intro heq
  have := congrArg BitVec.toNat heq
  simp only [BitVec.toNat_setWidth, BitVec.toNat_ofNat] at this
  omega

/-! ### The hashes -/

/-- The fixed hash of `crc_wyhash_customs.hh` over `n` locations. -/
def crc32WyhashNlocFixed (n : ℕ) : List Byte → ℕ → List U32 → U64 → Option U64 :=
  match n with
  | 1 => crc32Wyhash1locFixed
  | 2 => crc32Wyhash2locFixed
  | 3 => crc32Wyhash3locFixed
  | _ => crc32Wyhash4locFixed

/-- The 8 bytes at a byte offset, aligned or not. -/
def Str.wordAt (s : Str) (p : U32) : U64 := word64 ((s.bytes.drop p.toNat).take 8)

theorem Str.wordAt_eq {s : Str} {p : U32} {r : ℕ} (h : p.toNat = 8 * r) :
    s.wordAt p = word64 (s.word r) := by
  rw [Str.wordAt, Str.word, chunk, h]

theorem wyr8_eq_wordAt {s : Str} {p : U32} (h : p.toNat + 8 ≤ s.size) :
    wyr8 s.bytes p.toNat = some (s.wordAt p) := by
  have h' : p.toNat + 8 ≤ s.bytes.length := h
  simp [wyr8, load64, load, h', Str.wordAt, word64]

/-- Two keys differ, among the words at the given offsets, only inside `k` consecutive bits
of one of them. -/
def DifferInOneWord (k : ℕ) (locations : List U32) (x y : Str) : Prop :=
  ∃ p ∈ locations, DifferWithin k (x.wordAt p) (y.wordAt p) ∧
    ∀ q ∈ locations, q ≠ p → x.wordAt q = y.wordAt q

theorem crc32Wyhash1locFixed_eq {s : Str} {p : U32} (h : p.toNat + 8 ≤ s.size) :
    crc32Wyhash1locFixed s.bytes s.size [p] 0 =
      some (mmCrc32U64 (BitVec.ofNat 64 s.size) (s.wordAt p)) := by
  simp [crc32Wyhash1locFixed, wyr8_eq_wordAt h]

theorem crc32Wyhash2locFixed_eq {s : Str} {p q : U32} (hp : p.toNat + 8 ≤ s.size)
    (hq : q.toNat + 8 ≤ s.size) :
    crc32Wyhash2locFixed s.bytes s.size [p, q] 0 =
      some (mmCrc32U64 (mmCrc32U64 (BitVec.ofNat 64 s.size) (s.wordAt p)) (s.wordAt q)) := by
  simp [crc32Wyhash2locFixed, wyr8_eq_wordAt hp, wyr8_eq_wordAt hq]

/-- Error detection: keys of one length that differ inside 32 consecutive bits of one chosen
word have different hashes, and so have keys with equal chosen words and different lengths. -/
theorem crc32Wyhash_detects (locations : List U32)
    (hn : locations.length = 1 ∨ locations.length = 2) (hnodup : locations.Nodup) (x y : Str)
    (hx : ∀ p ∈ locations, p.toNat + 8 ≤ x.size) (hy : ∀ p ∈ locations, p.toNat + 8 ≤ y.size) :
    ∃ u v, crc32WyhashNlocFixed locations.length x.bytes x.size locations 0 = some u ∧
      crc32WyhashNlocFixed locations.length y.bytes y.size locations 0 = some v ∧
      (x.size = y.size → DifferInOneWord 32 locations x y → u ≠ v) ∧
      ((∀ p ∈ locations, x.wordAt p = y.wordAt p) → x.size ≠ y.size → x.size < 2 ^ 32 →
        y.size < 2 ^ 32 → u ≠ v) := by
  match locations, hn with
  | [p], _ =>
    simp only [List.mem_singleton, forall_eq] at hx hy
    refine ⟨_, _, crc32Wyhash1locFixed_eq hx, crc32Wyhash1locFixed_eq hy, ?_, ?_⟩
    · rintro hsize ⟨p', hp', hdiff, -⟩
      obtain rfl : p' = p := by simpa using hp'
      rw [hsize]
      exact mmCrc32U64_word_ne _ hdiff
    · intro hwords hsize hx32 hy32
      rw [hwords p (by simp)]
      exact mmCrc32U64_state_ne (setWidth_length_ne hx32 hy32 hsize) _
  | [p, q], _ =>
    have hpq : p ≠ q := by simpa using hnodup
    simp only [List.mem_cons, List.not_mem_nil, or_false, forall_eq_or_imp, forall_eq] at hx hy
    refine ⟨_, _, crc32Wyhash2locFixed_eq hx.1 hx.2, crc32Wyhash2locFixed_eq hy.1 hy.2, ?_, ?_⟩
    · rintro hsize ⟨p', hp', hdiff, hsame⟩
      rw [hsize]
      obtain rfl | rfl : p' = p ∨ p' = q := by simpa using hp'
      · rw [hsame q (by simp) hpq.symm]
        exact mmCrc32U64_ne_of_ne (mmCrc32U64_word_ne _ hdiff) _
      · rw [hsame p (by simp) hpq]
        exact mmCrc32U64_word_ne _ hdiff
    · intro hwords hsize hx32 hy32
      rw [hwords p (by simp), hwords q (by simp)]
      exact mmCrc32U64_ne_of_ne (mmCrc32U64_state_ne (setWidth_length_ne hx32 hy32 hsize) _) _

/-- Two keys of 16 bytes that differ in one bit of their first word. -/
theorem crc32Wyhash_detects_one_bit :
    ∃ u v, crc32WyhashNlocFixed 2 (Str.keyOfWords 2 1).bytes 16 [8, 0] 0 = some u ∧
      crc32WyhashNlocFixed 2 (Str.keyOfWords 2 0).bytes 16 [8, 0] 0 = some v ∧ u ≠ v := by
  have hsize : ∀ first, (Str.keyOfWords 2 first).size = 16 := fun first => Str.size_ofWords ..
  have hrange : ∀ first, ∀ p ∈ [8#32, 0#32], p.toNat + 8 ≤ (Str.keyOfWords 2 first).size := by
    simp [hsize]
  have hword : ∀ first, (Str.keyOfWords 2 first).wordAt 0 = first := fun first => by
    rw [Str.wordAt_eq (r := 0) rfl, Str.keyOfWords, Str.word64_word_ofWords _ _ _ _ (by decide)]
    rfl
  have hrest : ∀ first, (Str.keyOfWords 2 first).wordAt 8 = 0 := fun first => by
    rw [Str.wordAt_eq (r := 1) rfl, Str.keyOfWords, Str.word64_word_ofWords _ _ _ _ (by decide)]
    rfl
  have hdiffer : DifferInOneWord 32 [8, 0] (Str.keyOfWords 2 1) (Str.keyOfWords 2 0) := by
    refine ⟨0, by decide, ⟨by rw [hword, hword]; decide, 0, fun j hj => ?_⟩, ?_⟩
    · rw [hword, hword] at hj
      have hj0 : j = 0 := by simpa [BitVec.getLsbD_one] using hj
      omega
    · intro q hq hne
      obtain rfl | rfl : q = 8 ∨ q = 0 := by simpa using hq
      · rw [hrest, hrest]
      · exact absurd rfl hne
  obtain ⟨u, v, hu, hv, hburst, -⟩ := crc32Wyhash_detects [8, 0] (by decide) (by decide)
    (Str.keyOfWords 2 1) (Str.keyOfWords 2 0) (hrange 1) (hrange 0)
  rw [hsize] at hu hv
  exact ⟨u, v, hu, hv, hburst (by rw [hsize, hsize]) hdiffer⟩

end EntropyLearnedHashing
