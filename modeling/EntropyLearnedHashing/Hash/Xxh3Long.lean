import EntropyLearnedHashing.Hash.Words
import Mathlib.Algebra.Group.Units.Equiv
import Mathlib.Tactic.IntervalCases

/-! The long-key loop of XXH3 as a program of lane updates. A stripe adds to every lane
a word and a product of halves, a scramble applies an invertible function to every
lane, so whatever follows the first two stripes is a permutation of the values of each
lane that depends on the bytes from 128 on. The lanes meet in pairs at the end. With
one factor of a pair set to one, the other one passes into the hash. -/

namespace EntropyLearnedHashing

open LittleEndian WordMix

/-! ### The program of a length -/

/-- An update of the accumulator: a stripe at offset `p` of the key with the secret at
offset `s`, or a scramble. -/
inductive LaneOp where
  | stripe (p s : ℕ)
  | scramble

def LaneOp.apply (input : List Byte) : LaneOp → List U64 → Option (List U64)
  | .stripe p s, acc => xxh3Accumulate512 input p xxh3KSecret s acc
  | .scramble, acc => some (xxh3ScrambleAcc xxh3KSecret 128 acc)

def runLanes (input : List Byte) (ops : List LaneOp) (acc : List U64) : Option (List U64) :=
  ops.foldlM (fun acc op => op.apply input acc) acc

/-- Consecutive stripes from an offset on. -/
def stripes (p n : ℕ) : List LaneOp := (List.range n).map fun k => .stripe (p + k * 64) (k * 8)

/-- The updates for a key of `len` bytes: blocks of 16 stripes, the remaining stripes and
the last 64 bytes. -/
def laneOps (len : ℕ) : List LaneOp :=
  ((List.range ((len - 1) / 1024)).flatMap fun n => stripes (n * 1024) 16 ++ [.scramble]) ++
    stripes ((len - 1) / 1024 * 1024) ((len - 1 - 1024 * ((len - 1) / 1024)) / 64) ++
    [.stripe (len - 64) 121]

theorem runLanes_append (input : List Byte) (ops ops' : List LaneOp) (acc : List U64) :
    runLanes input (ops ++ ops') acc = (runLanes input ops acc).bind (runLanes input ops') :=
  List.foldlM_append

theorem runLanes_stripes (input : List Byte) (p n : ℕ) (acc : List U64) :
    runLanes input (stripes p n) acc = xxh3Accumulate input p xxh3KSecret n acc := by
  unfold runLanes stripes xxh3Accumulate
  rw [List.foldlM_map]
  rfl

theorem runLanes_flatMap (input : List Byte) (f : ℕ → List LaneOp) (ns : List ℕ) (acc : List U64) :
    runLanes input (ns.flatMap f) acc = ns.foldlM (fun acc n => runLanes input (f n) acc) acc := by
  induction ns generalizing acc with
  | nil => rfl
  | cons n ns ih =>
    rw [List.flatMap_cons, runLanes_append, List.foldlM_cons]
    congr 1
    funext acc'
    exact ih acc'

/-- The loop of the source is the program. -/
theorem xxh3HashLongInternalLoop_eq (input : List Byte) (len : ℕ) (acc : List U64) :
    xxh3HashLongInternalLoop input len xxh3KSecret acc = runLanes input (laneOps len) acc := by
  have hblock : (fun (acc : List U64) n => runLanes input (stripes (n * 1024) 16 ++ [.scramble]) acc) =
      fun acc n => do
        let acc ← xxh3Accumulate input (n * 1024) xxh3KSecret 16 acc
        return xxh3ScrambleAcc xxh3KSecret 128 acc := by
    funext acc n
    rw [runLanes_append, runLanes_stripes]
    rfl
  have hsize : xxh3KSecret.length = 192 := by rfl
  have hlast : ∀ acc, runLanes input [.stripe (len - 64) 121] acc =
      xxh3Accumulate512 input (len - 64) xxh3KSecret 121 acc := by
    intro acc
    simp [runLanes, LaneOp.apply]
  rw [laneOps, runLanes_append, runLanes_append, runLanes_flatMap, hblock, Option.bind_assoc]
  unfold xxh3HashLongInternalLoop
  simp only [hsize, Nat.reduceSub, Nat.reduceDiv, Nat.reduceMul, Option.bind_eq_bind]
  congr 1
  funext acc
  rw [runLanes_stripes]
  congr 1
  funext acc
  exact (hlast acc).symm

/-! ### Lanes -/

/-- The accumulator with given lanes. -/
def ofLanes (f : ℕ → U64) : List U64 := (List.range 8).map f

/-- The eight bytes at an offset. -/
def wordAt (input : List Byte) (p : ℕ) : U64 := word64 ((input.drop p).take 8)

theorem load64_eq_wordAt {input : List Byte} {p : ℕ} (h : p + 8 ≤ input.length) :
    load64 input p = some (wordAt input p) := by
  simp [load64, load, h, wordAt, word64]

/-- The product of the two halves of a keyed word. -/
def halfProduct (x : U64) : U64 := (x &&& 0xFFFFFFFF) * (x >>> 32)

/-- What a stripe adds to a lane. -/
def stripeLane (input : List Byte) (p s i : ℕ) : U64 :=
  wordAt input (p + 8 * (i ^^^ 1)) +
    halfProduct (wordAt input (p + 8 * i) ^^^ secret64 xxh3KSecret (s + 8 * i))

theorem xxh3Accumulate512_ofLanes {input : List Byte} {p : ℕ} (h : p + 64 ≤ input.length) (s : ℕ)
    (f : ℕ → U64) :
    xxh3Accumulate512 input p xxh3KSecret s (ofLanes f) =
      some (ofLanes fun i => f i + stripeLane input p s i) := by
  have hload : ∀ i ∈ List.range 8, load64 input (p + 8 * i) = some (wordAt input (p + 8 * i)) := by
    intro i hi
    have := List.mem_range.mp hi
    exact load64_eq_wordAt (by omega)
  have hrange : List.range 8 = [0, 1, 2, 3, 4, 5, 6, 7] := rfl
  unfold xxh3Accumulate512 ofLanes
  rw [hrange] at hload ⊢
  simp only [List.forall_mem_cons] at hload
  obtain ⟨h0, h1, h2, h3, h4, h5, h6, h7, -⟩ := hload
  have hprod : ∀ x : U64, (x &&& 0xFFFFFFFF) * (x >>> 32) = halfProduct x := fun x => rfl
  simp only [List.foldlM_cons, List.foldlM_nil, h0, h1, h2, h3, h4, h5, h6, h7, List.map_cons, List.map_nil,
    Option.bind_eq_bind, Option.bind_some, Option.pure_def, Nat.reduceXor, List.modify_succ_cons,
    List.modify_zero_cons, hprod, stripeLane, BitVec.add_assoc, BitVec.add_comm (halfProduct _)]

/-- What a scramble does to a lane. -/
def scrambleLane (i : ℕ) (acc64 : U64) : U64 :=
  (xxhXorshift64 acc64 47 ^^^ secret64 xxh3KSecret (128 + 8 * i)) * xxhPrime32_1

theorem xxh3ScrambleAcc_ofLanes (f : ℕ → U64) :
    xxh3ScrambleAcc xxh3KSecret 128 (ofLanes f) = ofLanes fun i => scrambleLane i (f i) := by
  apply List.ext_getElem
  · simp [xxh3ScrambleAcc, ofLanes]
  · intro i h₁ h₂
    simp [xxh3ScrambleAcc, ofLanes, scrambleLane]

theorem scrambleLane_bijective (i : ℕ) : Function.Bijective (scrambleLane i) := by
  have hmul : (xxhPrime32_1 : U64) * 0xCFA4A56B0E8B2F51#64 = 1#64 := by decide
  have hxor : Function.Injective fun x : U64 => x ^^^ secret64 xxh3KSecret (128 + 8 * i) :=
    fun _ _ h => (BitVec.xor_left_inj _).mp h
  have : Finite U64 := Finite.of_injective BitVec.toFin fun _ _ => BitVec.eq_of_toFin_eq
  apply Finite.injective_iff_bijective.mp
  exact (mul_right_injective_of_inverse hmul).comp (hxor.comp (xorshift_injective (by norm_num)))

/-- The stripe of an operation lies between two offsets. -/
def LaneOp.Within (first len : ℕ) : LaneOp → Prop
  | .stripe p _ => first ≤ p ∧ p + 64 ≤ len
  | .scramble => True

/-- An operation changes every lane by itself and loses nothing. -/
theorem LaneOp.exists_perm {first len : ℕ} {op : LaneOp} (h : op.Within first len) (input : List Byte)
    (hlen : input.length = len) : ∃ φ : ℕ → Equiv.Perm U64, ∀ f,
      op.apply input (ofLanes f) = some (ofLanes fun i => φ i (f i)) := by
  cases op with
  | stripe p s =>
    refine ⟨fun i => Equiv.addRight (stripeLane input p s i), fun f => ?_⟩
    exact xxh3Accumulate512_ofLanes (hlen ▸ h.2) s f
  | scramble =>
    refine ⟨fun i => Equiv.ofBijective _ (scrambleLane_bijective i), fun f => ?_⟩
    exact congrArg some (xxh3ScrambleAcc_ofLanes f)

theorem exists_perm_runLanes {first len : ℕ} {ops : List LaneOp} (h : ∀ op ∈ ops, op.Within first len)
    (input : List Byte) (hlen : input.length = len) : ∃ φ : ℕ → Equiv.Perm U64, ∀ f,
      runLanes input ops (ofLanes f) = some (ofLanes fun i => φ i (f i)) := by
  induction ops with
  | nil => exact ⟨fun _ => Equiv.refl _, fun f => rfl⟩
  | cons op ops ih =>
    obtain ⟨hop, hops⟩ := List.forall_mem_cons.mp h
    obtain ⟨φ, hφ⟩ := LaneOp.exists_perm hop input hlen
    obtain ⟨ψ, hψ⟩ := ih hops
    refine ⟨fun i => (φ i).trans (ψ i), fun f => ?_⟩
    have hcons : runLanes input (op :: ops) (ofLanes f) =
        (op.apply input (ofLanes f)).bind (runLanes input ops) := rfl
    rw [hcons, hφ, Option.bind_some, hψ]
    rfl

/-- Keys that agree from an offset on are treated alike by later stripes. -/
theorem LaneOp.apply_congr {first len : ℕ} {op : LaneOp} (h : op.Within first len)
    {input input' : List Byte} (hlen : input.length = input'.length)
    (hdrop : input.drop first = input'.drop first) (acc : List U64) :
    op.apply input acc = op.apply input' acc := by
  cases op with
  | stripe p s =>
    have hload : ∀ i, load64 input (p + 8 * i) = load64 input' (p + 8 * i) := by
      intro i
      have hsplit : p + 8 * i = first + (p + 8 * i - first) := by have := h.1; omega
      unfold load64 load
      rw [hlen, hsplit, ← List.drop_drop, ← List.drop_drop, hdrop]
    simp only [apply, xxh3Accumulate512, hload]
  | scramble => rfl

theorem runLanes_congr {first len : ℕ} {ops : List LaneOp} (h : ∀ op ∈ ops, op.Within first len)
    {input input' : List Byte} (hlen : input.length = input'.length)
    (hdrop : input.drop first = input'.drop first) (acc : List U64) :
    runLanes input ops acc = runLanes input' ops acc := by
  induction ops generalizing acc with
  | nil => rfl
  | cons op ops ih =>
    obtain ⟨hop, hops⟩ := List.forall_mem_cons.mp h
    have hcons : ∀ input acc, runLanes input (op :: ops) acc =
        (op.apply input acc).bind (runLanes input ops) := fun _ _ => rfl
    rw [hcons, hcons, LaneOp.apply_congr hop hlen hdrop]
    congr 1
    funext acc'
    exact ih hops acc'

/-! ### The first two stripes -/

theorem stripes_zero_add_two (n : ℕ) : stripes 0 (n + 2) = .stripe 0 0 :: .stripe 64 8 ::
    (List.range' 2 n).map fun k => .stripe (k * 64) (k * 8) := by
  rw [stripes, List.range_eq_range', Nat.add_comm, ← List.range'_append]
  simp [List.range'_succ]

theorem stripes_within {first len p n : ℕ} (hp : first ≤ p) (hn : p + n * 64 ≤ len) :
    ∀ op ∈ stripes p n, op.Within first len := by
  intro op hop
  obtain ⟨k, hk, rfl⟩ := List.mem_map.mp hop
  have := List.mem_range.mp hk
  exact ⟨by omega, by omega⟩

theorem laterStripes_within {len n : ℕ} (hn : (n + 2) * 64 ≤ len) :
    ∀ op ∈ (List.range' 2 n).map fun k => LaneOp.stripe (k * 64) (k * 8), op.Within 128 len := by
  intro op hop
  obtain ⟨k, hk, rfl⟩ := List.mem_map.mp hop
  rw [List.mem_range'_1] at hk
  exact ⟨by omega, by omega⟩

/-- The stripes of a later block. -/
theorem block_within {len n : ℕ} (h1 : 1 ≤ n) (hn : (n + 1) * 1024 ≤ len) :
    ∀ op ∈ stripes (n * 1024) 16 ++ [.scramble], op.Within 128 len := by
  rw [List.forall_mem_append]
  exact ⟨stripes_within (by omega) (by omega), by simp [LaneOp.Within]⟩

/-- Two stripes of the first 128 bytes come first, all others lie behind them. -/
theorem laneOps_eq {len : ℕ} (h : 240 < len) : ∃ rest,
    laneOps len = .stripe 0 0 :: .stripe 64 8 :: rest ∧ ∀ op ∈ rest, op.Within 128 len := by
  have hlast : ∀ op ∈ [LaneOp.stripe (len - 64) 121], op.Within 128 len := by
    intro op hop
    rw [List.mem_singleton.mp hop]
    exact ⟨by omega, by omega⟩
  unfold laneOps
  obtain hB | ⟨b, hB⟩ : (len - 1) / 1024 = 0 ∨ ∃ b, (len - 1) / 1024 = b + 1 :=
    (Nat.eq_zero_or_pos _).imp_right fun h => ⟨_, (Nat.succ_pred_eq_of_pos h).symm⟩
  · obtain ⟨m, hm⟩ : ∃ m, (len - 1) / 64 = m + 2 := ⟨(len - 1) / 64 - 2, by omega⟩
    refine ⟨(List.range' 2 m).map (fun k => .stripe (k * 64) (k * 8)) ++ [.stripe (len - 64) 121], ?_,
      List.forall_mem_append.mpr ⟨laterStripes_within (by omega), hlast⟩⟩
    rw [hB]
    simp [hm, stripes_zero_add_two]
  · -- the first block starts with the two stripes, the later ones begin at 1024
    have hblocks : (List.range (b + 1)).flatMap (fun n => stripes (n * 1024) 16 ++ [.scramble]) =
        stripes 0 (14 + 2) ++ [.scramble] ++
          (List.range' 1 b).flatMap fun n => stripes (n * 1024) 16 ++ [.scramble] := by
      rw [List.range_eq_range', List.range'_succ, List.flatMap_cons]
    have hlater : ∀ op ∈ (List.range' 1 b).flatMap (fun n => stripes (n * 1024) 16 ++ [.scramble]),
        op.Within 128 len := by
      intro op hop
      obtain ⟨n, hn, hop⟩ := List.mem_flatMap.mp hop
      rw [List.mem_range'_1] at hn
      exact block_within hn.1 (by omega) op hop
    rw [hB, hblocks, stripes_zero_add_two]
    simp only [List.cons_append]
    refine ⟨_, rfl, ?_⟩
    simp only [List.forall_mem_append]
    exact ⟨⟨⟨⟨laterStripes_within (by omega), by simp [LaneOp.Within]⟩, hlater⟩,
      stripes_within (by omega) (by omega)⟩, hlast⟩

/-- The lanes after the first two stripes. -/
def firstLanes (input : List Byte) (i : ℕ) : U64 :=
  xxh3InitAcc.getD i 0 + stripeLane input 0 0 i + stripeLane input 64 8 i

/-- The product of a pair of lanes in `XXH3_mergeAccs`. -/
def mergePair (f : ℕ → U64) (i : ℕ) : U64 :=
  fold64 (f (2 * i) ^^^ secret64 xxh3KSecret (11 + 16 * i))
    (f (2 * i + 1) ^^^ secret64 xxh3KSecret (11 + 16 * i + 8))

theorem xxh3MergeAccs_ofLanes (f : ℕ → U64) (start : U64) :
    xxh3MergeAccs (ofLanes f) xxh3KSecret 11 start =
      xxh3Avalanche (start + mergePair f 0 + mergePair f 1 + mergePair f 2 + mergePair f 3) := by
  rfl

/-- The hash of a long key: the lanes after 128 bytes are permuted, each by itself and as
the remaining bytes say, and merged in pairs. -/
theorem xxh3_64bits_long {len : ℕ} (h : 240 < len) (rest : List Byte) :
    ∃ φ : ℕ → Equiv.Perm U64, ∀ input : List Byte, input.length = len → input.drop 128 = rest →
      let f := fun i => φ i (firstLanes input i)
      xxh3_64bits input len = some (xxh3Avalanche (BitVec.ofNat 64 len * xxhPrime64_1 +
        mergePair f 0 + mergePair f 1 + mergePair f 2 + mergePair f 3)) := by
  obtain ⟨ops, hops, hwithin⟩ := laneOps_eq h
  by_cases hex : ∃ key : List Byte, key.length = len ∧ key.drop 128 = rest
  · obtain ⟨key, hkey, hrest⟩ := hex
    obtain ⟨φ, hφ⟩ := exists_perm_runLanes hwithin key hkey
    refine ⟨φ, fun input hlen hdrop => ?_⟩
    have hinit : xxh3InitAcc = ofLanes fun i => xxh3InitAcc.getD i 0 := rfl
    have hrun : runLanes input (laneOps len) xxh3InitAcc =
        some (ofLanes fun i => φ i (firstLanes input i)) := by
      rw [hops, hinit]
      change (xxh3Accumulate512 input 0 xxh3KSecret 0 (ofLanes _)).bind (fun acc =>
        (xxh3Accumulate512 input 64 xxh3KSecret 8 acc).bind (runLanes input ops)) = _
      rw [xxh3Accumulate512_ofLanes (by omega), Option.bind_some,
        xxh3Accumulate512_ofLanes (by omega), Option.bind_some,
        runLanes_congr hwithin (hlen.trans hkey.symm) (hdrop.trans hrest.symm), hφ]
      rfl
    rw [xxh3_64bits, if_neg (by omega), if_neg (by omega), if_neg (by omega), xxh3HashLong,
      xxh3HashLongInternalLoop_eq, hrun]
    exact congrArg some (xxh3MergeAccs_ofLanes _ _)
  · exact ⟨fun _ => Equiv.refl _, fun input hlen hdrop => absurd ⟨input, hlen, hdrop⟩ hex⟩

/-! ### Words of the first two stripes -/

theorem wordAt_pack {len : ℕ} (f : ℕ → U64) {j : ℕ} (h : 8 * j + 8 ≤ len) :
    wordAt (pack len f) (8 * j) = f j :=
  word64_chunk_pack len f j h

/-- The lanes in terms of the first sixteen words. -/
theorem firstLanes_pack {len : ℕ} (h : 128 ≤ len) (f : ℕ → U64) {i : ℕ} (hi : i < 8) :
    firstLanes (pack len f) i = xxh3InitAcc.getD i 0 +
      (f (i ^^^ 1) + halfProduct (f i ^^^ secret64 xxh3KSecret (8 * i))) +
      (f (8 + (i ^^^ 1)) + halfProduct (f (8 + i) ^^^ secret64 xxh3KSecret (8 + 8 * i))) := by
  have hxor : i ^^^ 1 < 8 := Nat.xor_lt_two_pow (n := 3) hi (by norm_num)
  have hoffset : ∀ j, 64 + 8 * j = 8 * (8 + j) := fun j => by ring
  unfold firstLanes stripeLane
  rw [Nat.zero_add, Nat.zero_add, hoffset, hoffset, wordAt_pack f (by omega),
    wordAt_pack f (by omega), wordAt_pack f (by omega), wordAt_pack f (by omega)]

/-- The words of a key that is zero outside the slot `m`, that is, a pair of lanes in one of
the first two stripes. -/
def slotWords (m : ℕ) (u v : U64) : ℕ → U64 :=
  fun j => if j = 2 * m then u else if j = 2 * m + 1 then v else 0

/-- The secret that keys the first word of a slot. -/
def slotSecret (m : ℕ) : U64 := secret64 xxh3KSecret (8 * (m / 4) + 16 * (m % 4))

section

variable {len : ℕ} (hlen : 128 ≤ len) {m : ℕ} (hm : m < 5)
include hlen hm

theorem firstLanes_slot_even {u v : U64} (hu : halfProduct (u ^^^ slotSecret m) = 0) :
    firstLanes (pack len (slotWords m u v)) (2 * (m % 4)) =
      firstLanes (pack len (slotWords m (slotSecret m) 0)) (2 * (m % 4)) + v := by
  have hzero : halfProduct (slotSecret m ^^^ slotSecret m) = 0 := by
    rw [BitVec.xor_self]
    rfl
  rw [firstLanes_pack hlen _ (by omega), firstLanes_pack hlen _ (by omega)]
  interval_cases m <;> simp [slotWords, slotSecret] at hu hzero ⊢ <;> rw [hu, hzero] <;> ring

theorem firstLanes_slot_odd (u v : U64) :
    firstLanes (pack len (slotWords m u v)) (2 * (m % 4) + 1) =
      firstLanes (pack len (slotWords m 0 v)) (2 * (m % 4) + 1) + u := by
  rw [firstLanes_pack hlen _ (by omega), firstLanes_pack hlen _ (by omega)]
  interval_cases m <;> simp [slotWords] <;> ring

theorem firstLanes_slot_other (u u' v : U64) {i : ℕ} (hi : i < 8) (he : i ≠ 2 * (m % 4))
    (ho : i ≠ 2 * (m % 4) + 1) :
    firstLanes (pack len (slotWords m u v)) i = firstLanes (pack len (slotWords m u' v)) i := by
  rw [firstLanes_pack hlen _ hi, firstLanes_pack hlen _ hi]
  interval_cases m <;> interval_cases i <;> simp [slotWords] at he ho ⊢

end

/-- A single pair of merged lanes that differs changes the hash. -/
theorem mergePairs_ne {f g : ℕ → U64} {i : ℕ} (hi : i < 4) (start : U64)
    (hother : ∀ j < 8, j ≠ 2 * i → j ≠ 2 * i + 1 → f j = g j) (hne : mergePair f i ≠ mergePair g i) :
    xxh3Avalanche (start + mergePair f 0 + mergePair f 1 + mergePair f 2 + mergePair f 3) ≠
      xxh3Avalanche (start + mergePair g 0 + mergePair g 1 + mergePair g 2 + mergePair g 3) := by
  have heq : ∀ k < 4, k ≠ i → mergePair f k = mergePair g k := by
    intro k hk hki
    unfold mergePair
    rw [hother _ (by omega) (by omega) (by omega), hother _ (by omega) (by omega) (by omega)]
  intro h
  have hsum := xxh3Avalanche_injective h
  apply hne
  interval_cases i <;> simpa [heq] using hsum

/-- Every slot of the first 80 bytes matters for the hash of a long key. -/
theorem exists_slot_ne {len : ℕ} (hlen : 240 < len) {m : ℕ} (hm : m < 5) :
    ∃ u u' v : U64, xxh3_64bits (pack len (slotWords m u v)) len ≠
      xxh3_64bits (pack len (slotWords m u' v)) len := by
  obtain ⟨φ, hφ⟩ := xxh3_64bits_long hlen ((pack len fun _ => 0).drop 128)
  have hdrop : ∀ u v, (pack len (slotWords m u v)).drop 128 = (pack len fun _ => 0).drop 128 := by
    intro u v
    apply drop_pack_congr len 16
    intro j hj
    rw [slotWords, if_neg (by omega), if_neg (by omega)]
  have h128 : 128 ≤ len := by omega
  -- the even lane of the pair becomes one after the secret of the merge
  let e := 2 * (m % 4)
  let v := (φ e).symm (secret64 xxh3KSecret (11 + 16 * (m % 4)) ^^^ 1#64) -
    firstLanes (pack len (slotWords m (slotSecret m) 0)) e
  refine ⟨slotSecret m, slotSecret m ^^^ 1#64, v, ?_⟩
  rw [hφ _ (by simp) (hdrop _ _), hφ _ (by simp) (hdrop _ _)]
  intro h
  refine mergePairs_ne (i := m % 4) (by omega) _ ?_ ?_ (Option.some.inj h)
  · intro j hj he ho
    rw [firstLanes_slot_other h128 hm _ _ v hj he ho]
  · have hone : ∀ u, halfProduct (u ^^^ slotSecret m) = 0 →
        mergePair (fun i => φ i (firstLanes (pack len (slotWords m u v)) i)) (m % 4) =
          φ (e + 1) (firstLanes (pack len (slotWords m 0 v)) (e + 1) + u) ^^^
            secret64 xxh3KSecret (11 + 16 * (m % 4) + 8) := by
      intro u hu
      unfold mergePair
      beta_reduce
      rw [firstLanes_slot_even h128 hm hu, firstLanes_slot_odd h128 hm, add_sub_cancel,
        Equiv.apply_symm_apply, xor_xor_cancel_comm, fold64_one_left]
    have hzero : halfProduct (slotSecret m ^^^ slotSecret m) = 0 := by
      rw [BitVec.xor_self]
      rfl
    have hflip : halfProduct (slotSecret m ^^^ 1#64 ^^^ slotSecret m) = 0 := by
      rw [xor_xor_cancel_comm]
      rfl
    rw [hone _ hzero, hone _ hflip]
    intro heq
    have hlane := (φ (e + 1)).injective ((BitVec.xor_left_inj _).mp heq)
    exact xor_one_ne_self _ ((BitVec.add_right_inj _).mp hlane).symm

/-- Four words cannot determine the hash of a long key: one of five slots is left. -/
theorem exists_ne_of_unread {len : ℕ} (hlen : 240 < len) {reads : List ℕ} (hreads : reads.length ≤ 4) :
    ∃ f g : ℕ → U64, (∀ r ∈ reads, f r = g r) ∧
      xxh3_64bits (pack len f) len ≠ xxh3_64bits (pack len g) len := by
  obtain ⟨m, hm, hunread⟩ : ∃ m < 5, m ∉ reads.map (· / 2) := by
    by_contra hall
    push Not at hall
    have hsub : List.range 5 ⊆ reads.map (· / 2) := fun m hm => hall m (List.mem_range.mp hm)
    have hle := (List.subperm_of_subset List.nodup_range hsub).length_le
    rw [List.length_range, List.length_map] at hle
    omega
  obtain ⟨u, u', v, hne⟩ := exists_slot_ne hlen hm
  refine ⟨_, _, fun r hr => ?_, hne⟩
  have hslot : r ≠ 2 * m := by
    rintro rfl
    exact hunread (List.mem_map.mpr ⟨_, hr, by omega⟩)
  rw [slotWords, slotWords, if_neg hslot, if_neg hslot]

end EntropyLearnedHashing
