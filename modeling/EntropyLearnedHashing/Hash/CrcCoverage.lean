import EntropyLearnedHashing.Hash.ByteCoverage

/-! `crcHash` covers its key. The loop takes whole words while more than a word is left
behind the current one, and the last eight bytes are fed once more; so the offsets
of the loads lie inside the key and every byte is in one or two of the words. A
difference in one byte survives: alone it is a window of the register, and where
the last two words overlap it enters twice, `8 * t` bits apart with `t` from 1 to 8.
No byte is mapped to itself by that many steps of the register, so the two never
cancel. -/

namespace EntropyLearnedHashing

open LittleEndian ShiftRegister

/-! ### Loads -/

/-- The offsets that the loop of `crcHash` loads from, starting at `pos`. -/
def crcLoopOffsets (size pos : ℕ) : List ℕ :=
  if _h : pos + 8 + 8 < size then pos :: crcLoopOffsets size (pos + 8) else [pos]
termination_by size - pos

/-- All offsets that `crcHash` loads from, in order. -/
def crcOffsets (size : ℕ) : List ℕ := crcLoopOffsets size 0 ++ [size - 8]

/-- One round: load a word and update the register. -/
def crcFeed (data : List Byte) (res : U64) (p : ℕ) : Option U64 := do
  return mmCrc32U64 res (← load64 data p)

theorem crcHashLoop_eq (data : List Byte) (size pos : ℕ) (res : U64) :
    crcHashLoop data size pos res = (crcLoopOffsets size pos).foldlM (crcFeed data) res := by
  fun_induction crcHashLoop data size pos res with
  | case1 pos res ih =>
    rw [crcLoopOffsets]
    cases hload : load64 data pos with
    | none => split_ifs <;> simp [crcFeed, hload]
    | some v =>
      by_cases hnext : pos + 8 + 8 < size
      · simp [crcFeed, hload, hnext, ih v hnext]
      · simp [crcFeed, hload, hnext]

/-- `crcHash` feeds the words at its offsets to the register. -/
theorem crcHash_eq_foldlM (data : List Byte) {size : ℕ} (h : 8 ≤ size) :
    crcHash data size = (crcOffsets size).foldlM (crcFeed data) (BitVec.allOnes 64) := by
  rw [crcHash, if_neg (by omega), if_neg (by omega), crcOffsets, List.foldlM_append, crcHashLoop_eq]
  simp [crcFeed]

theorem crcLoopOffsets_bounds {size pos : ℕ} (h : pos + 8 ≤ size) :
    ∀ p ∈ crcLoopOffsets size pos, pos ≤ p ∧ p + 8 ≤ size := by
  fun_induction crcLoopOffsets size pos with
  | case1 pos hnext ih =>
    intro p hp
    rcases List.mem_cons.mp hp with rfl | hp
    · omega
    · have := ih (by omega) p hp
      omega
  | case2 pos hlast =>
    intro p hp
    obtain rfl : p = pos := by simpa using hp
    omega

/-- The loads stay inside the key. -/
theorem crcOffsets_inside {size : ℕ} (h : 8 ≤ size) : ∀ p ∈ crcOffsets size, p + 8 ≤ size := by
  intro p hp
  rcases List.mem_append.mp hp with hp | hp
  · exact (crcLoopOffsets_bounds (by omega) p hp).2
  · obtain rfl : p = size - 8 := by simpa using hp
    omega

/-- The loop leaves at most eight bytes, which the last load takes. -/
theorem crcLoopOffsets_cover {size pos o : ℕ} (hpos : pos ≤ o) (ho : o < size) :
    (∃ p ∈ crcLoopOffsets size pos, p ≤ o ∧ o < p + 8) ∨ size - 8 ≤ o := by
  fun_induction crcLoopOffsets size pos with
  | case1 pos hnext ih =>
    by_cases hin : o < pos + 8
    · exact .inl ⟨pos, by simp, hpos, hin⟩
    · rcases ih (by omega) with ⟨p, hp, hpo⟩ | hlast
      · exact .inl ⟨p, List.mem_cons_of_mem pos hp, hpo⟩
      · exact .inr hlast
  | case2 pos hlast =>
    by_cases hin : o < pos + 8
    · exact .inl ⟨pos, by simp, hpos, hin⟩
    · exact .inr (by omega)

theorem crcOffsets_cover {size o : ℕ} (ho : o < size) : ∃ p ∈ crcOffsets size, p ≤ o ∧ o < p + 8 := by
  rcases crcLoopOffsets_cover (Nat.zero_le o) ho with ⟨p, hp, hpo⟩ | hlast
  · exact ⟨p, List.mem_append_left _ hp, hpo⟩
  · exact ⟨size - 8, by simp [crcOffsets], hlast, by omega⟩

/-! ### The register over a key -/

/-- The register after the words at the given offsets. -/
def crcFold (s : Str) (c : U64) (offsets : List ℕ) : U64 :=
  offsets.foldl (fun c p => mmCrc32U64 c (s.load8 p)) c

theorem foldlM_crcFeed {s : Str} {offsets : List ℕ} (h : ∀ p ∈ offsets, p + 8 ≤ s.size) (c : U64) :
    offsets.foldlM (crcFeed s.bytes) c = some (crcFold s c offsets) := by
  induction offsets generalizing c with
  | nil => rfl
  | cons p offsets ih =>
    have hp : p + 8 ≤ s.bytes.length := h p List.mem_cons_self
    have hfeed : crcFeed s.bytes c p = some (mmCrc32U64 c (s.load8 p)) := by
      simp [crcFeed, load64, load, hp, Str.load8, word64]
    rw [List.foldlM_cons, hfeed, Option.bind_eq_bind, Option.bind_some,
      ih fun q hq => h q (List.mem_cons_of_mem p hq)]
    rfl

theorem crcHash_eq_crcFold {s : Str} (h : 8 ≤ s.size) :
    crcHash s.bytes s.size = some (crcFold s (BitVec.allOnes 64) (crcOffsets s.size)) := by
  rw [crcHash_eq_foldlM s.bytes h, foldlM_crcFeed (crcOffsets_inside h)]

/-! ### One byte of difference -/

/-- The byte that two keys differ by at an offset. -/
def Str.byteXor (x y : Str) (o : ℕ) : ℕ := (x.bytes.getD o 0 ^^^ y.bytes.getD o 0).toNat

section Difference

variable {x y : Str} {o : ℕ} (hxy : x.DifferInByte y o)
include hxy

theorem Str.DifferInByte.lt_size : o < x.size := by
  by_contra ho
  have hlength : x.bytes.length = y.bytes.length := hxy.1
  apply hxy.2.1
  rw [List.getElem?_eq_none (not_lt.mp ho), List.getElem?_eq_none (hlength ▸ not_lt.mp ho)]

theorem Str.DifferInByte.byteXor_ne_zero : x.byteXor y o ≠ 0 := by
  have hox : o < x.bytes.length := hxy.lt_size
  have hoy : o < y.bytes.length := lt_of_lt_of_eq hox hxy.1
  intro h
  have hzero : x.bytes.getD o 0 ^^^ y.bytes.getD o 0 = 0#8 := BitVec.eq_of_toNat_eq h
  have heq := BitVec.xor_eq_zero_iff.mp hzero
  rw [List.getD_eq_getElem _ _ hox, List.getD_eq_getElem _ _ hoy] at heq
  apply hxy.2.1
  rw [List.getElem?_eq_getElem hox, List.getElem?_eq_getElem hoy, heq]

/-- A word that holds the byte differs by it, moved to its place. -/
theorem Str.DifferInByte.load8_xor {p : ℕ} (hpo : p ≤ o) (ho : o < p + 8) (hp : p + 8 ≤ x.size) :
    (x.load8 p).toNat ^^^ (y.load8 p).toNat = 2 ^ (8 * (o - p)) * x.byteXor y o := by
  have hlx : p + 8 ≤ x.bytes.length := hp
  have hly : p + 8 ≤ y.bytes.length := le_of_le_of_eq hlx hxy.1
  have hlength : ∀ s : Str, p + 8 ≤ s.bytes.length → ((s.bytes.drop p).take 8).length = 8 := by
    intro s hs
    rw [List.length_take, List.length_drop]
    omega
  have htoNat : ∀ s : Str, p + 8 ≤ s.bytes.length →
      (s.load8 p).toNat = leNat ((s.bytes.drop p).take 8) := by
    intro s hs
    have hlt := leNat_lt ((s.bytes.drop p).take 8)
    rw [hlength s hs] at hlt
    rw [Str.load8, word64, BitVec.toNat_ofNat, Nat.mod_eq_of_lt (lt_of_lt_of_eq hlt (by norm_num))]
  have hzip : List.zipWith (· ^^^ ·) ((x.bytes.drop p).take 8) ((y.bytes.drop p).take 8) =
      (List.replicate 8 0#8).set (o - p) (x.bytes.getD o 0 ^^^ y.bytes.getD o 0) := by
    apply List.ext_getElem
    · simp only [List.length_zipWith, hlength x hlx, hlength y hly, List.length_set,
        List.length_replicate, Nat.min_self]
    · intro j h₁ h₂
      have hj : j < 8 := by simpa using h₂
      rw [List.getElem_zipWith, List.getElem_set]
      simp only [List.getElem_take, List.getElem_drop, List.getElem_replicate]
      split_ifs with hoj
      · subst hoj
        rw [List.getD_eq_getElem _ _ (show o < x.bytes.length by omega),
          List.getD_eq_getElem _ _ (show o < y.bytes.length by omega)]
        simp only [Nat.add_sub_cancel' hpo]
      · have hsame := hxy.2.2 (p + j) (by omega)
        rw [List.getElem?_eq_getElem (by omega), List.getElem?_eq_getElem (by omega)] at hsame
        rw [Option.some.inj hsame, BitVec.xor_self]
  rw [htoNat x hlx, htoNat y hly, ← leNat_zipWith_xor ((hlength x hlx).trans (hlength y hly).symm),
    hzip, leNat_replicate_set, if_pos (by omega), Str.byteXor, Nat.pow_mul, Nat.mul_comm]

end Difference

theorem mmCrc32U64_byte_ne (c : U64) {u v : U64} {k d : ℕ} (hk : k ≤ 64) (hd : d < 2 ^ 8) (h0 : d ≠ 0)
    (h : u.toNat ^^^ v.toNat = 2 ^ k * d) : mmCrc32U64 c u ≠ mmCrc32U64 c v := by
  apply mmCrc32U64_ne hk (show d < 2 ^ 32 by omega) h0
  rw [Nat.xor_self, Nat.zero_xor, h]

/-- No byte returns to itself within eight bytes of zeros. -/
theorem iterate_step_byte_ne {t d : ℕ} (ht : t < 8) (hd : d < 2 ^ 8) (h0 : d ≠ 0) :
    (step castagnoli)^[8 * (t + 1)] d ≠ d := by
  have hcases : ∀ t < 8, ∀ d < 256, d ≠ 0 → (step castagnoli)^[8 * (t + 1)] d ≠ d := by decide +kernel
  exact hcases t ht d hd h0

/-- A byte that enters two consecutive words, in the second at a place not above its place in
the first. -/
theorem mmCrc32U64_fed_twice_ne (c : U64) {u u' v v' : U64} {i j d : ℕ} (hi : i < 8) (hj : j ≤ i)
    (hd : d < 2 ^ 8) (h0 : d ≠ 0) (hu : u.toNat ^^^ u'.toNat = 2 ^ (8 * i) * d)
    (hv : v.toNat ^^^ v'.toNat = 2 ^ (8 * j) * d) :
    mmCrc32U64 (mmCrc32U64 c u) v ≠ mmCrc32U64 (mmCrc32U64 c u') v' := by
  intro h
  have htoNat : ∀ u v : U64, (mmCrc32U64 (mmCrc32U64 c u) v).toNat =
      updateWord (updateWord (c.toNat % 2 ^ 32) ^^^ updateWord u.toNat ^^^ v.toNat) := by
    intro u v
    rw [toNat_mmCrc32U64_eq, Nat.mod_eq_of_lt (toNat_mmCrc32U64_lt c u), toNat_mmCrc32U64_eq,
      updateWord_xor (c.toNat % 2 ^ 32)]
  have hfinal := congrArg BitVec.toNat h
  rw [htoNat, htoNat, ← Nat.xor_eq_zero_iff, ← updateWord_xor] at hfinal
  have hdiff : ∀ s a a' b b' : ℕ, s ^^^ a ^^^ b ^^^ (s ^^^ a' ^^^ b') = s ^^^ s ^^^ (a ^^^ a' ^^^ (b ^^^ b')) := by
    intro s a a' b b'
    ac_rfl
  rw [hdiff, Nat.xor_self, Nat.zero_xor, ← updateWord_xor, hu, hv, updateWord, updateWord,
    iterate_step_fed_twice castagnoli (by omega) (by omega)] at hfinal
  obtain ⟨t, ht, hshift⟩ : ∃ t < 8, 64 - (8 * i - 8 * j) = 8 * (t + 1) := ⟨7 - (i - j), by omega, by omega⟩
  rw [hshift] at hfinal
  have hd32 : d < 2 ^ 32 := by omega
  have hstate : (step castagnoli)^[8 * (t + 1)] d < 2 ^ 32 := iterate_step_lt (by decide) _ hd32
  refine iterate_step_ne_zero (w := 31) (by decide) (by decide) _ (Nat.xor_lt_two_pow hstate hd32) ?_ hfinal
  rw [Ne, Nat.xor_eq_zero_iff]
  exact iterate_step_byte_ne ht hd h0

/-! ### Detection -/

theorem crcFold_cons (s : Str) (c : U64) (p : ℕ) (offsets : List ℕ) :
    crcFold s c (p :: offsets) = crcFold s (mmCrc32U64 c (s.load8 p)) offsets := rfl

theorem crcFold_ne {x y : Str} {offsets : List ℕ} (hsame : ∀ p ∈ offsets, x.load8 p = y.load8 p)
    {c c' : U64} (h : c.setWidth 32 ≠ c'.setWidth 32) :
    (crcFold x c offsets).setWidth 32 ≠ (crcFold y c' offsets).setWidth 32 := by
  induction offsets generalizing c c' with
  | nil => exact h
  | cons p offsets ih =>
    rw [crcFold_cons, crcFold_cons, hsame p List.mem_cons_self]
    apply ih fun q hq => hsame q (List.mem_cons_of_mem p hq)
    exact mmCrc32U64_setWidth_ne (mmCrc32U64_state_ne h _)

section Run

variable {x y : Str} {o : ℕ} (hxy : x.DifferInByte y o)
include hxy

theorem Str.DifferInByte.mmCrc32U64_ne {p : ℕ} (hpo : p ≤ o) (hop : o < p + 8) (hp : p + 8 ≤ x.size)
    (c : U64) : mmCrc32U64 c (x.load8 p) ≠ mmCrc32U64 c (y.load8 p) :=
  mmCrc32U64_byte_ne c (by omega) (BitVec.isLt _) hxy.byteXor_ne_zero (hxy.load8_xor hpo hop hp)

/-- One byte of difference at or behind `pos` changes the register of the rest of the run. -/
theorem crcFold_loop_ne {pos : ℕ} (hpos : pos ≤ o) (hin : pos + 8 ≤ x.size) (c : U64) :
    (crcFold x c (crcLoopOffsets x.size pos ++ [x.size - 8])).setWidth 32 ≠
      (crcFold y c (crcLoopOffsets x.size pos ++ [x.size - 8])).setWidth 32 := by
  have ho := hxy.lt_size
  fun_induction crcLoopOffsets x.size pos generalizing c with
  | case1 pos hnext ih =>
    rw [List.cons_append, crcFold_cons, crcFold_cons]
    by_cases hword : o < pos + 8
    · -- the byte is in this word and in no later one
      apply crcFold_ne _ (mmCrc32U64_setWidth_ne (hxy.mmCrc32U64_ne hpos hword hin c))
      intro p hp
      apply hxy.load8_eq
      rcases List.mem_append.mp hp with hp | hp
      · have := (crcLoopOffsets_bounds (by omega) p hp).1
        omega
      · have : p = x.size - 8 := by simpa using hp
        omega
    · rw [hxy.load8_eq (show ¬(pos ≤ o ∧ o < pos + 8) by omega)]
      exact ih (by omega) (by omega) _
  | case2 pos hlast =>
    rw [List.singleton_append, crcFold_cons, crcFold_cons, crcFold_cons, crcFold_cons]
    apply mmCrc32U64_setWidth_ne
    by_cases hword : o < pos + 8
    · by_cases hagain : x.size - 8 ≤ o
      · -- the overlap of the last two words
        exact mmCrc32U64_fed_twice_ne c (by omega) (by omega) (BitVec.isLt _) hxy.byteXor_ne_zero
          (hxy.load8_xor hpos hword hin) (hxy.load8_xor hagain (by omega) (by omega))
      · rw [hxy.load8_eq (show ¬(x.size - 8 ≤ o ∧ o < x.size - 8 + 8) by omega)]
        exact mmCrc32U64_ne_of_ne (hxy.mmCrc32U64_ne hpos hword hin c) _
    · rw [hxy.load8_eq (show ¬(pos ≤ o ∧ o < pos + 8) by omega)]
      exact hxy.mmCrc32U64_ne (by omega) (by omega) (by omega) _

end Run

/-- `crcHash` covers its key: it terminates, its loads lie inside the key and together hold
every byte, and keys of one size that differ in one byte have different hashes. -/
theorem crcHash_covers (size : ℕ) (h : 8 ≤ size) :
    (∀ data, crcHash data size = (crcOffsets size).foldlM (crcFeed data) (BitVec.allOnes 64)) ∧
    (∀ p ∈ crcOffsets size, p + 8 ≤ size) ∧
    (∀ o < size, ∃ p ∈ crcOffsets size, p ≤ o ∧ o < p + 8) ∧
    (∀ x : Str, x.size = size → ∃ u, crcHash x.bytes size = some u) ∧
    ∀ (x y : Str) (o : ℕ), x.size = size → x.DifferInByte y o →
      crcHash x.bytes size ≠ crcHash y.bytes size := by
  refine ⟨fun data => crcHash_eq_foldlM data h, crcOffsets_inside h, fun o ho => crcOffsets_cover ho,
    ?_, ?_⟩
  · rintro x rfl
    exact ⟨_, crcHash_eq_crcFold h⟩
  · rintro x y o rfl hxy heq
    have hy : crcHash y.bytes x.size =
        some (crcFold y (BitVec.allOnes 64) (crcOffsets x.size)) := by
      rw [hxy.1]
      exact crcHash_eq_crcFold (hxy.1 ▸ h)
    rw [crcHash_eq_crcFold h, hy] at heq
    apply crcFold_loop_ne hxy (Nat.zero_le o) (by omega) (BitVec.allOnes 64)
    exact congrArg (BitVec.setWidth 32) (Option.some.inj heq)

theorem crcHash_covers_eleven :
    (∀ p ∈ crcOffsets 11, p + 8 ≤ 11) ∧
      crcHash (Str.singleByte 11 (by decide) 5 1).bytes 11 ≠
        crcHash (Str.singleByte 11 (by decide) 5 0).bytes 11 := by
  obtain ⟨-, hinside, -, -, hdetect⟩ := crcHash_covers 11 (by decide)
  refine ⟨hinside, hdetect _ _ 5 (Str.size_singleByte ..) ?_⟩
  exact Str.singleByte_differInByte _ (by decide) (by decide)

end EntropyLearnedHashing
