import EntropyLearnedHashing.Entropy.Estimator
import EntropyLearnedHashing.Hash.SubsetHash
import EntropyLearnedHashing.Library.FoldWindow
import EntropyLearnedHashing.Library.WordMix

/-! Collisions of the hashes of a variable number of locations. Each is a fold, from the length
on, over what it reads at the locations inside the key. A round of `hash_sub4_mmh2`
loses neither its state nor its chunk, so one changed chunk is always seen. A round of
`hash_sub1_sdbm` is a digit in base 65599 modulo `2 ^ 64`, which has room for four bytes. For up to
four locations the entropy that the estimator computes is therefore that of the hash itself. -/

namespace EntropyLearnedHashing

open LittleEndian FoldWindow Tally

/-! ### MurmurHash2 -/

/-- The multiplication of a 32-bit word by `m`. -/
theorem mulMmh2_injective :
    Function.Injective fun k : U32 => (k.setWidth 64 * mmh2M).setWidth 32 := by
  have hmul : ∀ k : U32, (k.setWidth 64 * mmh2M).setWidth 32 = k * 0x5bd1e995#32 := by
    intro k
    rw [BitVec.setWidth_mul _ _ (by decide), BitVec.setWidth_setWidth_of_le _ (by decide),
      BitVec.setWidth_eq]
    rfl
  simp only [hmul]
  exact WordMix.mul_right_injective_of_inverse
    (show 0x5bd1e995#32 * 0xe59b19bd#32 = 1#32 by decide)

theorem mixMmh2_injective (k : U32) : Function.Injective (mixMmh2 · k) := by
  intro h h' heq
  have hinverse : mmh2M * 0x39c9eb52e59b19bd#64 = 1#64 := by decide
  exact WordMix.mul_right_injective_of_inverse hinverse ((BitVec.xor_left_inj _).mp heq)

theorem mixMmh2_chunk_injective (h : U64) : Function.Injective (mixMmh2 h) := by
  intro k k' heq
  have hwide := (BitVec.xor_right_inj _).mp heq
  have hword := congrArg (BitVec.setWidth 32) hwide
  rw [BitVec.setWidth_setWidth_of_le _ (by decide), BitVec.setWidth_eq,
    BitVec.setWidth_setWidth_of_le _ (by decide), BitVec.setWidth_eq] at hword
  exact mulMmh2_injective (WordMix.xorshift_injective (k := 24) (by decide)
    (mulMmh2_injective hword))

/-! ### SDBM -/

/-- A round for a byte inside the key. -/
def sdbmMix (hash : U64) (c : Byte) : U64 :=
  c.signExtend 64 + (hash <<< 6) + (hash <<< 16) - hash + c.signExtend 64

/-- The byte enters twice. -/
theorem sdbmMix_eq (hash : U64) (c : Byte) :
    sdbmMix hash c = hash * 65599#64 + BitVec.ofInt 64 (2 * c.toInt) := by
  have hdouble : BitVec.ofInt 64 (2 * c.toInt) = c.signExtend 64 + c.signExtend 64 := by
    rw [two_mul, BitVec.ofInt_add]
    rfl
  have hshifts : hash * 65599#64 = (hash <<< 6) + (hash <<< 16) - hash := by
    have hconst : 65599#64 = BitVec.twoPow 64 6 + BitVec.twoPow 64 16 - 1#64 := by decide
    rw [hconst, mul_sub, mul_add, BitVec.mul_one, BitVec.shiftLeft_eq_mul_twoPow,
      BitVec.shiftLeft_eq_mul_twoPow]
  rw [sdbmMix, hdouble, hshifts]
  abel

theorem sdbmMix_injective (c : Byte) : Function.Injective (sdbmMix · c) := by
  intro h h' heq
  simp only [sdbmMix_eq] at heq
  have hinverse : 65599#64 * 0xdf24161e8e7aefbf#64 = 1#64 := by decide
  exact WordMix.mul_right_injective_of_inverse hinverse (add_right_cancel heq)

theorem abs_byte_difference (c c' : Byte) : |2 * (c.toInt - c'.toInt)| ≤ 510 := by
  have hc := BitVec.toInt_lt (x := c)
  have hc' := BitVec.toInt_lt (x := c')
  have hge := BitVec.le_toInt (x := c)
  have hge' := BitVec.le_toInt (x := c')
  rw [abs_le]
  constructor <;> omega

theorem ofInt_round (D a b : ℤ) : BitVec.ofInt 64 (65599 * D + 2 * (a - b)) =
    BitVec.ofInt 64 D * 65599#64 + (BitVec.ofInt 64 (2 * a) - BitVec.ofInt 64 (2 * b)) := by
  rw [mul_sub, sub_eq_add_neg, BitVec.ofInt_add, BitVec.ofInt_add, BitVec.ofInt_neg, BitVec.ofInt_mul,
    mul_comm, sub_eq_add_neg]
  rfl

/-- After equal numbers of bytes two states differ by a number that is small and tells the bytes
apart. -/
theorem exists_sdbm_difference (s : U64) (m m' : List Byte) (hlength : m.length = m'.length) :
    ∃ D : ℤ, m.foldl sdbmMix s = m'.foldl sdbmMix s + BitVec.ofInt 64 D ∧
      64 * |D| < 65599 ^ m.length ∧ (D = 0 → m = m') := by
  induction m using List.reverseRecOn generalizing m' with
  | nil =>
    obtain rfl := List.length_eq_zero_iff.mp hlength.symm
    exact ⟨0, by simp, by simp, fun _ => rfl⟩
  | append_singleton m c ih =>
    obtain rfl | ⟨m', c', rfl⟩ := m'.eq_nil_or_concat'
    · simp at hlength
    · obtain ⟨D, hfold, hbound, hzero⟩ := ih m' (by simpa using hlength)
      have hsmall : |2 * (c.toInt - c'.toInt)| ≤ 510 := abs_byte_difference c c'
      refine ⟨65599 * D + 2 * (c.toInt - c'.toInt), ?_, ?_, fun hD => ?_⟩
      · rw [List.foldl_concat, List.foldl_concat, sdbmMix_eq, sdbmMix_eq, hfold, ofInt_round]
        rw [add_mul]
        abel
      · have htriangle := abs_add_le (65599 * D) (2 * (c.toInt - c'.toInt))
        rw [abs_mul, abs_of_pos (show (0 : ℤ) < 65599 by norm_num)] at htriangle
        rw [List.length_append, List.length_singleton, pow_succ]
        linarith
      · have hdigit : 65599 * |D| ≤ 510 := by
          rw [← abs_of_pos (show (0 : ℤ) < 65599 by norm_num), ← abs_mul, eq_neg_of_add_eq_zero_left hD,
            abs_neg]
          exact hsmall
        obtain rfl : D = 0 := by
          have hnonneg := abs_nonneg D
          rw [← abs_eq_zero]
          omega
        have hbyte : c.toInt = c'.toInt := by linarith
        rw [hzero rfl, BitVec.toInt_inj.mp hbyte]

/-- Up to four bytes can be told apart. -/
theorem sdbm_window (s : U64) (m m' : List Byte) (hlength : m.length = m'.length)
    (hfour : m.length ≤ 4) (heq : m.foldl sdbmMix s = m'.foldl sdbmMix s) : m = m' := by
  obtain ⟨D, hfold, hbound, hzero⟩ := exists_sdbm_difference s m m' hlength
  have hpow : (65599 : ℤ) ^ m.length ≤ 65599 ^ 4 := pow_le_pow_right₀ (by norm_num) hfour
  have hD : BitVec.ofInt 64 D = 0#64 := by
    rw [heq] at hfold
    exact left_eq_add.mp hfold
  refine hzero ?_
  have hmod : D % 2 ^ 64 = 0 := by
    have hnat := congrArg BitVec.toNat hD
    rw [BitVec.toNat_ofInt, BitVec.toNat_ofNat, Nat.zero_mod] at hnat
    have hnonneg : 0 ≤ D % 2 ^ 64 := Int.emod_nonneg _ (by norm_num)
    omega
  have hlt : |D| < 2 ^ 64 := by
    norm_num at hpow hbound ⊢
    linarith
  exact Int.eq_zero_of_abs_lt_dvd (Int.dvd_of_emod_eq_zero hmod) hlt

/-! ### What the hashes read -/

namespace SortedLocations

variable (L : SortedLocations)

/-- The chunks that `hash_sub4_mmh2` mixes. -/
def chunks (str : Str) : List U32 :=
  (L.locs.filter (· < str.size / 4)).map fun l => word32 (chunk 4 str.bytes l)

/-- The locations that `hash_sub1_sdbm` compares as smaller than the length. -/
def inside (str : Str) : List ℕ := L.locs.filter fun l => l < (BitVec.ofNat 32 str.size).toInt

/-- The bytes that `hash_sub1_sdbm` mixes. -/
def chosen (str : Str) : List Byte := (L.inside str).map fun l => str.bytes.getD l 0

theorem mixInside_eq_foldl (str : Str) :
    mixInside str L.locs = (L.chunks str).foldl mixMmh2 (BitVec.ofNat 64 str.size) := by
  rw [chunks, List.foldl_map]
  rfl

variable {L} {x y : Str}

theorem toInt_size_le (str : Str) : (BitVec.ofNat 32 str.size).toInt ≤ str.size := by
  rw [BitVec.toInt_eq_toNat_cond, BitVec.toNat_ofNat]
  split_ifs <;> omega

theorem sdbmRound_eq {str : Str} {i l : ℕ} (hl : l < 2 ^ 31) {locations : ℕ → Option ℤ}
    (hread : locations i = some (l : ℤ)) (hash : U64) : sdbmRound str locations hash i =
      some (if l < (BitVec.ofNat 32 str.size).toInt then sdbmMix hash (str.bytes.getD l 0)
        else hash) := by
  have hle := toInt_size_le str
  simp only [sdbmRound, hread, Option.bind_eq_bind, Option.bind_some]
  split_ifs with hlt
  · have hin : l < str.bytes.length := by
      have hsize : (l : ℤ) < str.size := by omega
      exact_mod_cast hsize
    rw [BitVec.ofInt_natCast, BitVec.toNat_ofNat, Nat.mod_eq_of_lt (by omega),
      List.getElem?_eq_getElem hin, List.getD_eq_getElem _ _ hin]
    rfl
  · rfl

variable (L)

theorem hashSub1Sdbm_eq (str : Str) : hashSub1Sdbm str L.array L.locs.length =
    some ((L.chosen str).foldl sdbmMix (BitVec.ofNat 64 str.size)) := by
  have hround : ∀ s j (hj : j < L.locs.length), sdbmRound str L.array s j =
      some (if (L.locs[j] : ℤ) < (BitVec.ofNat 32 str.size).toInt then
        sdbmMix s (str.bytes.getD L.locs[j] 0) else s) := by
    intro s j hj
    have hread := L.holdsAt_array j hj
    rw [Nat.zero_add] at hread
    exact sdbmRound_eq (L.int_range _ (List.getElem_mem hj)) hread s
  rw [hashSub1Sdbm, foldlM_range_eq (g := fun s l =>
    if (l : ℤ) < (BitVec.ofNat 32 str.size).toInt then sdbmMix s (str.bytes.getD l 0) else s) hround,
    chosen, inside, List.foldl_map, List.foldl_filter]
  simp only [decide_eq_true_eq]

theorem length_chosen (hsize : x.size = y.size) :
    (L.chosen x).length = (L.chosen y).length := by
  rw [chosen, chosen, List.length_map, List.length_map, inside, inside, hsize]

/-- Keys of equal length that agree on all chunks but one at the locations have equal hashes only
if they agree on that one too. -/
theorem mmh2_chunk_separates (hsize : x.size = y.size) {j : ℕ}
    (h : AgreeOutside j 1 (L.chunks x) (L.chunks y)) :
    hashSub4Mmh2Cust x L.array L.locs.length = hashSub4Mmh2Cust y L.array L.locs.length ↔
      L.chunks x = L.chunks y := by
  have hlength : (L.chunks x).length = (L.chunks y).length := by
    rw [chunks, chunks, List.length_map, List.length_map, hsize]
  rw [hashSub4Mmh2Cust_eq L.holdsAt_array, hashSub4Mmh2Cust_eq L.holdsAt_array, Option.some_inj,
    mixInside_eq_foldl, mixInside_eq_foldl, hsize]
  refine foldl_eq_iff mixMmh2_injective (fun s m m' hm hone heq => ?_) h hlength _
  match m, m' with
  | [], [] => rfl
  | [k], [k'] =>
    rw [mixMmh2_chunk_injective s heq]
  | _ :: _ :: _, _ => simp at hone

/-- Locations with a gap. -/
def gapped : SortedLocations := ⟨[0, 1, 3], by decide, by decide, by decide, by decide⟩

/-- Only the middle one of three chunks is different. -/
theorem mmh2_middle_chunk_separates :
    hashSub4Mmh2Cust ⟨[0, 1, 2, 3, 4, 5, 6, 7, 8, 9, 10, 11, 12, 13, 14, 15], by decide⟩
        gapped.array 3 ≠
      hashSub4Mmh2Cust ⟨[0, 1, 2, 3, 4, 5, 255, 7, 8, 9, 10, 11, 12, 13, 14, 15], by decide⟩
        gapped.array 3 := by
  intro heq
  have hchunks := (gapped.mmh2_chunk_separates (j := 1) (by decide) (by decide)).mp heq
  exact absurd hchunks (by decide)

/-- Keys of equal length that agree on all bytes but four consecutive ones at the locations have
equal hashes only if they agree on those too. -/
theorem sdbm_bytes_separate (hsize : x.size = y.size) {a : ℕ}
    (h : AgreeOutside a 4 (L.chosen x) (L.chosen y)) :
    hashSub1Sdbm x L.array L.locs.length = hashSub1Sdbm y L.array L.locs.length ↔
      L.chosen x = L.chosen y := by
  rw [hashSub1Sdbm_eq, hashSub1Sdbm_eq, Option.some_inj, hsize]
  exact foldl_eq_iff sdbmMix_injective sdbm_window h (L.length_chosen hsize) _

/-- All three bytes are different; the one in between is not read. -/
theorem sdbm_three_bytes_separate :
    hashSub1Sdbm ⟨[0, 128, 7, 255], by decide⟩ gapped.array 3 ≠
      hashSub1Sdbm ⟨[255, 1, 7, 0], by decide⟩ gapped.array 3 := by
  intro heq
  have hbytes := (gapped.sdbm_bytes_separate (a := 0) (by decide) (by decide)).mp heq
  exact absurd hbytes (by decide)

/-! ### The estimator -/

section Estimator

variable {L} {len : ℕ} (hlast : L.last < len) (hlen : len < 2 ^ 31)
include hlen

theorem toInt_size (hx : x.size = len) : (BitVec.ofNat 32 x.size).toInt = len := by
  rw [hx, BitVec.toInt_eq_toNat_cond, BitVec.toNat_ofNat, Nat.mod_eq_of_lt (by omega),
    if_pos (by omega)]

include hlast

/-- Keys that hold all locations are read at all of them. -/
theorem inside_eq (hx : x.size = len) : L.inside x = L.locs := by
  rw [inside, toInt_size hlen hx]
  refine List.filter_eq_self.mpr fun l hl => ?_
  have hle := L.le_last hl
  simp only [decide_eq_true_eq]
  omega

theorem partialChunk_one (out : Str → ℤ → Vector Byte 1) (hx : x.size = len) {l : ℕ}
    (hl : l ∈ L.locs) : partialChunk 1 out x l = [x.bytes.getD l 0] := by
  have hle := L.le_last hl
  have hin : l < x.bytes.length := by
    change l < x.size
    omega
  have hcov : x.Covers 1 l := by
    rw [Str.Covers, hx]
    omega
  rw [partialChunk, Nat.div_one, toInt_size hlen hx, if_pos (by omega), chunkAt, Int.toNat_natCast,
    if_pos ⟨Int.natCast_nonneg l, hcov⟩, chunk, one_mul, List.drop_eq_getElem_cons hin,
    List.take_succ_cons, List.take_zero, List.getD_eq_getElem _ _ hin]

/-- For up to four locations the hash collides exactly where the partial strings do. -/
theorem formPartialString_eq_iff_sdbm (hfour : L.locs.length ≤ 4) {P : List ℤ}
    (hP : P.Perm (L.locs.map (↑))) (out : Str → ℤ → Vector Byte 1) (hx : x.size = len)
    (hy : y.size = len) :
    formPartialString 1 out x P = formPartialString 1 out y P ↔
      hashSub1Sdbm x L.array L.locs.length = hashSub1Sdbm y L.array L.locs.length := by
  have hsize : x.size = y.size := hx.trans hy.symm
  have hshort : (L.chosen x).length ≤ 4 := by
    rw [chosen, List.length_map]
    exact (List.length_filter_le _ _).trans hfour
  have hsdbm : hashSub1Sdbm x L.array L.locs.length = hashSub1Sdbm y L.array L.locs.length ↔
      L.chosen x = L.chosen y := by
    rw [hashSub1Sdbm_eq, hashSub1Sdbm_eq, Option.some_inj, hsize]
    exact ⟨sdbm_window _ _ _ (L.length_chosen hsize) hshort, fun h => by rw [h]⟩
  rw [hsdbm, formPartialString_eq_iff, chosen, chosen, inside_eq hlast hlen hx,
    inside_eq hlast hlen hy, List.map_inj_left, hsize, and_iff_left rfl]
  constructor
  · intro h l hl
    have hchunk := h l (hP.mem_iff.mpr (List.mem_map_of_mem hl))
    rw [partialChunk_one hlast hlen out hx hl, partialChunk_one hlast hlen out hy hl] at hchunk
    exact List.singleton_inj.mp hchunk
  · intro h p hp
    obtain ⟨l, hl, rfl⟩ := List.mem_map.mp (hP.mem_iff.mp hp)
    rw [partialChunk_one hlast hlen out hx hl, partialChunk_one hlast hlen out hy hl, h l hl]

end Estimator

/-- On keys of one length, and up to four locations inside them, the entropy that the estimator
computes is that of the share of pairs that collide under `hash_sub1_sdbm`. -/
theorem evaluateEntropy_eq_sdbm (hfour : L.locs.length ≤ 4) {P : List ℤ}
    (hP : P.Perm (L.locs.map (↑))) (out : Str → ℤ → Vector Byte 1) {data : List Str} {len : ℕ}
    (hdata : ∀ x ∈ data, x.size = len) (hlast : L.last < len) (hlen : len < 2 ^ 31)
    (h₂ : 2 ≤ data.length) (hcount : data.length < 2 ^ 31) :
    evaluateEntropy 1 out data P =
      .negLog2 ((collidingPairs (fun x => hashSub1Sdbm x L.array L.locs.length) data : ℚ) /
        (data.length * (data.length - 1) : ℕ)) := by
  rw [evaluateEntropy_eq h₂ hcount, collidingPairs_congr _
    (fun x => hashSub1Sdbm x L.array L.locs.length) fun x hx y hy =>
      formPartialString_eq_iff_sdbm hlast hlen hfour hP out (hdata x hx) (hdata y hy)]

/-- Three keys, of which the first two differ only at the byte that is not read. -/
def threeKeys : List Str :=
  [⟨[1, 2, 3, 4], by decide⟩, ⟨[1, 2, 9, 4], by decide⟩, ⟨[1, 2, 3, 5], by decide⟩]

/-- Two of the six ordered pairs collide. -/
theorem evaluateEntropy_threeKeys :
    evaluateEntropy 1 (zeroFill 1) threeKeys [3, 0, 1] = .negLog2 (2 / 6) := by
  have hpairs : collidingPairs (fun x => hashSub1Sdbm x gapped.array 3) threeKeys = 2 := by decide
  have hdata : ∀ x ∈ threeKeys, x.size = 4 := by decide
  have hexact := gapped.evaluateEntropy_eq_sdbm (by decide) (P := [3, 0, 1]) (by decide) (zeroFill 1)
    hdata (by decide) (by decide) (by decide) (by decide)
  rw [hexact, show gapped.locs.length = 3 from rfl, hpairs]
  rfl

end SortedLocations

end EntropyLearnedHashing
