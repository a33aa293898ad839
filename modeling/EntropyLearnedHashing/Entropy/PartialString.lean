import EntropyLearnedHashing.Entropy.Estimator
import EntropyLearnedHashing.Library.Decimal

/-! What `formPartialString` encodes. A position is stored when it is at most the number
of whole chunks of the key, compared as an `int`. So the position that equals this
number passes the test and its chunk is read past the end of the key, and from
`2 ^ 31` chunks on the number itself is truncated. Where the test agrees with lying
inside the key, the result holds exactly the chosen chunks and the length, and it
separates keys of different sizes because a number is determined by its digits. -/

namespace EntropyLearnedHashing

open LittleEndian

/-! ### Decimal lengths -/

theorem stdToString_injective : Function.Injective stdToString :=
  Function.LeftInverse.injective Decimal.digitsValue_decimal

/-! ### The range test -/

section

variable {w : ℕ} {positions : List ℤ} {size : ℕ}

/-- The test `positions[k] <= (int) x_size` on a key of the given size. -/
def Stored (w size : ℕ) (p : ℤ) : Prop := p ≤ (BitVec.ofNat 32 (size / w)).toInt

instance (w size : ℕ) (p : ℤ) : Decidable (Stored w size p) := inferInstanceAs (Decidable (_ ≤ _))

/-- The indices of the bytes that the assignments to `hash_data` read. -/
def bytesRead (w : ℕ) (s : Str) (positions : List ℤ) : Set ℤ :=
  {b | ∃ p ∈ positions, Stored w s.size p ∧ w * p ≤ b ∧ b < w * p + w}

/-- The chunk at a position if it lies inside the key, and zero otherwise. -/
def insideChunk (w : ℕ) (s : Str) (p : ℤ) : List Byte :=
  if s.Covers w p.toNat then chunk w s.bytes p.toNat else List.replicate w 0

/-- On keys of one size the partial string encodes exactly the chosen chunks. -/
structure EncodesChunks (w : ℕ) (positions : List ℤ) (size : ℕ) : Prop where
  reads : ∀ s : Str, s.size = size → ∀ b ∈ bytesRead w s positions, b < size
  chunks : ∀ (out : Str → ℤ → Vector Byte w) (s : Str), s.size = size →
    formPartialString w out s positions = positions.flatMap (insideChunk w s) ++ stdToString size
  separates : ∀ (out : Str → ℤ → Vector Byte w) (s t : Str), s.size = size →
    (formPartialString w out s positions = formPartialString w out t positions ↔
      s.size = t.size ∧ ∀ p ∈ positions, s.Covers w p.toNat →
        chunk w s.bytes p.toNat = chunk w t.bytes p.toNat)

/-- The test is exact on every position: none equals the number of whole chunks or, where
that number no longer fits an `int`, none lies above its truncation. -/
def TestExact (w : ℕ) (positions : List ℤ) (size : ℕ) : Prop :=
  if size / w < 2 ^ 31 then ((size / w : ℕ) : ℤ) ∉ positions
  else ∀ p ∈ positions, Stored w size p

theorem stored_iff_le (h : size / w < 2 ^ 31) (p : ℤ) : Stored w size p ↔ p ≤ (size / w : ℕ) := by
  have hnat : (BitVec.ofNat 32 (size / w)).toNat = size / w := by
    rw [BitVec.toNat_ofNat, Nat.mod_eq_of_lt (h.trans (by norm_num))]
  rw [Stored, BitVec.toInt_eq_toNat_of_lt (by rw [hnat]; linarith), hnat]

theorem partialChunk_of_stored {out : Str → ℤ → Vector Byte w} {s : Str} {p : ℤ}
    (h : Stored w s.size p) : partialChunk w out s p = chunkAt w out s p := if_pos h

theorem partialChunk_of_not_stored {out : Str → ℤ → Vector Byte w} {s : Str} {p : ℤ}
    (h : ¬Stored w s.size p) : partialChunk w out s p = List.replicate w 0 := if_neg h

theorem covers_iff_lt (hw : 0 < w) {s : Str} (hs : s.size = size) (i : ℕ) :
    s.Covers w i ↔ i < size / w := by
  rw [Str.Covers, hs, Nat.lt_iff_add_one_le, Nat.le_div_iff_mul_le hw, Nat.mul_comm]

theorem TestExact.stored_iff_covers (hw : 0 < w) (hpos : ∀ p ∈ positions, 0 ≤ p ∧ p < 2 ^ 31)
    (h : TestExact w positions size) {s : Str} (hs : s.size = size) {p : ℤ} (hp : p ∈ positions) :
    Stored w size p ↔ s.Covers w p.toNat := by
  obtain ⟨h0, h31⟩ := hpos p hp
  rw [covers_iff_lt hw hs]
  unfold TestExact at h
  split_ifs at h with hsmall
  · have hne : p ≠ (size / w : ℕ) := fun heq => h (heq ▸ hp)
    rw [stored_iff_le hsmall]
    omega
  · exact iff_of_true (h p hp) (by omega)

/-! ### The encoding -/

variable (hw : 0 < w) (hpos : ∀ p ∈ positions, 0 ≤ p ∧ p < 2 ^ 31)
include hw hpos

theorem TestExact.partialChunk_eq (h : TestExact w positions size) (out : Str → ℤ → Vector Byte w)
    {s : Str} (hs : s.size = size) {p : ℤ} (hp : p ∈ positions) :
    partialChunk w out s p = insideChunk w s p := by
  have hiff := h.stored_iff_covers hw hpos hs hp
  have h0 := (hpos p hp).1
  rw [← hs] at hiff
  by_cases hcov : s.Covers w p.toNat
  · rw [partialChunk_of_stored (hiff.mpr hcov), chunkAt, if_pos ⟨h0, hcov⟩, insideChunk, if_pos hcov]
  · rw [partialChunk_of_not_stored (mt hiff.mp hcov), insideChunk, if_neg hcov]

theorem TestExact.encodesChunks (h : TestExact w positions size) : EncodesChunks w positions size where
  reads := by
    rintro s hs b ⟨p, hp, hstored, -, hb⟩
    rw [hs] at hstored
    have hcov : w * (p.toNat + 1) ≤ size := hs ▸ (h.stored_iff_covers hw hpos hs hp).mp hstored
    have h0 := (hpos p hp).1
    have hcast : (w : ℤ) * p + w ≤ size := by
      have : (p.toNat : ℤ) = p := Int.toNat_of_nonneg h0
      calc (w : ℤ) * p + w = (w * (p.toNat + 1) : ℕ) := by push_cast [this]; ring
        _ ≤ size := by exact_mod_cast hcov
    omega
  chunks := by
    intro out s hs
    rw [formPartialString, hs, List.flatMap_def, List.flatMap_def,
      List.map_congr_left fun p hp => h.partialChunk_eq hw hpos out hs hp]
  separates := by
    intro out s t hs
    rw [formPartialString_eq_iff, stdToString_injective.eq_iff]
    constructor
    · rintro ⟨hall, hsize⟩
      refine ⟨hsize, fun p hp hcov => ?_⟩
      have hcov' : t.Covers w p.toNat := by rwa [Str.Covers, ← hsize]
      have hchunk := hall p hp
      rw [h.partialChunk_eq hw hpos out hs hp, h.partialChunk_eq hw hpos out (hsize ▸ hs) hp,
        insideChunk, insideChunk, if_pos hcov, if_pos hcov'] at hchunk
      exact hchunk
    · rintro ⟨hsize, hall⟩
      refine ⟨fun p hp => ?_, hsize⟩
      rw [h.partialChunk_eq hw hpos out hs hp, h.partialChunk_eq hw hpos out (hsize ▸ hs) hp,
        insideChunk, insideChunk]
      by_cases hcov : s.Covers w p.toNat
      · have hcov' : t.Covers w p.toNat := by rwa [Str.Covers, ← hsize]
        rw [if_pos hcov, if_pos hcov', hall p hp hcov]
      · have hcov' : ¬t.Covers w p.toNat := by rwa [Str.Covers, ← hsize]
        rw [if_neg hcov, if_neg hcov']

omit hpos in
/-- The key of ones shows whether a chunk was stored, whatever lies behind it. -/
theorem EncodesChunks.stored_of_lt (h63 : size < 2 ^ 63) (h : EncodesChunks w positions size)
    {p : ℤ} (hp : p ∈ positions) (hlt : p.toNat < size / w) : Stored w size p := by
  by_contra hnot
  let ones : Str := ⟨List.replicate size 1, by simpa using h63⟩
  have hsize : ones.size = size := List.length_replicate
  have hcov := (covers_iff_lt hw hsize p.toNat).mpr hlt
  have hsep : positions.flatMap (partialChunk w (zeroFill w) ones) ++ stdToString ones.size =
      positions.flatMap (insideChunk w ones) ++ stdToString size := h.chunks (zeroFill w) ones hsize
  have hinside : ∀ p, (insideChunk w ones p).length = w := by
    intro p
    unfold insideChunk
    split_ifs with hc
    · exact Str.length_chunk hc
    · exact List.length_replicate
  have hchunk := (flatMap_chunks_inj (length_partialChunk ones) hinside hsep).1 p hp
  rw [partialChunk_of_not_stored (by rwa [hsize]), insideChunk, if_pos hcov] at hchunk
  have hbyte := congrArg (·[0]?) hchunk
  have hbound : w * p.toNat < size := by
    have := (covers_iff_lt hw hsize p.toNat).mpr hlt
    rw [Str.Covers, hsize, Nat.mul_succ] at this
    omega
  simp [chunk, ones, hw, hbound] at hbyte

theorem EncodesChunks.testExact (h63 : size < 2 ^ 63) (h : EncodesChunks w positions size) :
    TestExact w positions size := by
  unfold TestExact
  split_ifs with hsmall
  · intro hmem
    let zeros : Str := ⟨List.replicate size 0, by simpa using h63⟩
    have hsize : zeros.size = size := List.length_replicate
    -- the last byte of the chunk at the number of whole chunks
    have hread := h.reads zeros hsize (w * (size / w : ℕ) + w - 1)
      ⟨_, hmem, by rw [hsize, stored_iff_le hsmall], by omega, by omega⟩
    have hmod := Nat.mod_lt size hw
    have hdiv := Nat.div_add_mod size w
    have hcast : (w : ℤ) * (size / w : ℕ) = ((w * (size / w) : ℕ) : ℤ) := by push_cast; rfl
    rw [hcast] at hread
    omega
  · intro p hp
    have hp' := hpos p hp
    exact h.stored_of_lt hw h63 hp (by omega)

end

/-- The partial strings of the keys of one size hold exactly the chosen chunks if and only
if the range test is exact on every position. -/
theorem encodesChunks_iff {w : ℕ} (hw : w ∈ [1, 4, 8]) {positions : List ℤ}
    (hpos : ∀ p ∈ positions, 0 ≤ p ∧ p < 2 ^ 31) {size : ℕ} (hsize : size < 2 ^ 63) :
    EncodesChunks w positions size ↔ TestExact w positions size := by
  have hw0 : 0 < w := by
    rcases hw with _ | ⟨_, _ | ⟨_, _ | ⟨_, ⟨⟩⟩⟩⟩ <;> norm_num
  exact ⟨fun h => h.testExact hw0 hpos hsize, fun h => h.encodesChunks hw0 hpos⟩

/-- Eight bytes hold the word at zero and none at two. -/
theorem encodesChunks_eight : EncodesChunks 8 [0, 2] 8 :=
  (encodesChunks_iff (by simp) (by simp) (by norm_num)).mpr (by simp [TestExact])

/-- The word at one is read behind a key of eight bytes. -/
theorem not_encodesChunks_eight : ¬EncodesChunks 8 [1] 8 := by
  intro h
  have hread := h.reads (Str.keyOfWords 1 0) (Str.size_ofWords _ _ _) 8
    ⟨1, by simp, by decide, by norm_num, by norm_num⟩
  norm_num at hread

end EntropyLearnedHashing
