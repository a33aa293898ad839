import EntropyLearnedHashing.Bench.FilterStats
import Mathlib.Algebra.BigOperators.Group.List.Basic
import Mathlib.Data.List.Basic
import Mathlib.Tactic.Positivity

/-! `benchPartition`: the counts behind the reported variance. The partition of a key is its
hash under a mask, which is an `int` and widened with its sign. The lines that store a
key in its partition are commented out in the warm-up and in the measured loop, but the
sizes of the partitions are still what is counted. -/

namespace EntropyLearnedHashing

open CountedLoop

section

variable {κ : Type} (hash fullKeyHash : κ → U64) (m : ℕ) (data : List κ)

/-- `int mask = numPartitions - 1` for `2 ^ m` partitions. -/
def partitionMask : U32 := BitVec.ofNat 32 (2 ^ m) - 1

/-- `(hashfn.operator()(data[i])) & mask` as an `int`. -/
def partitionNum (h : U64) : ℤ := ((h &&& (partitionMask m).signExtend 64).setWidth 32).toInt

/-- `dummy += partitionNum`. -/
def addPartitionNum (dummy : U64) (x : κ) : U64 := dummy + BitVec.ofInt 64 (partitionNum m (hash x))

/-- One block of the measured loop: the dummy hashes and the partition numbers. -/
def partitionBlock (fuel start bound : ℕ) (dummy : U64) : Option U64 := do
  let dummy ← forLoop (2 ^ 32) (fun dummy x => dummy + fullKeyHash x) data bound fuel start dummy
  forLoop (2 ^ 32) (addPartitionNum hash m) data bound fuel start dummy

/-- The measured loop. -/
def partitionLoop (fuel : ℕ) (dummy : U64) : Option U64 :=
  blockLoop (2 ^ 32) stepSize (data.length / stepSize) (partitionBlock hash fullKeyHash m data) fuel 0
    dummy

/-- The counts and the dummy value that `relay_partition_statistics` is given; `none` when the
fuel is used up. -/
def benchPartition (fuel : ℕ) : Option (List ℤ × U64) := do
  let partitions : List (List κ) := List.replicate (2 ^ m) []
  -- the warm-up; no partition is touched
  let dummy ← forLoop (2 ^ 32) (addPartitionNum hash m) data data.length fuel 0 0
  let partitions : List (List κ) := partitions.map fun _ => []
  let dummy ← partitionLoop hash fullKeyHash m data fuel dummy
  let partitionCounts := partitions.map fun partition => toInt32 partition.length
  some (partitionCounts, dummy)

variable {hash fullKeyHash m data}

/-! ### The partition of a key -/

theorem toNat_partitionMask (hm : m ≤ 30) : (partitionMask m).toNat = 2 ^ m - 1 := by
  have hpos : 0 < 2 ^ m := Nat.two_pow_pos m
  have hle : 2 ^ m ≤ 2 ^ 30 := Nat.pow_le_pow_right (by norm_num) hm
  have hmod : 2 ^ m % 2 ^ 32 = 2 ^ m := Nat.mod_eq_of_lt (by omega)
  have hone : (1 : U32) ≤ BitVec.ofNat 32 (2 ^ m) := by
    rw [BitVec.le_def, BitVec.toNat_ofNat, hmod]
    exact hpos
  rw [partitionMask, BitVec.toNat_sub_of_le hone, BitVec.toNat_ofNat, hmod]
  rfl

/-- The mask is not negative, so widening it adds no ones. -/
theorem toNat_signExtend_partitionMask (hm : m ≤ 30) :
    ((partitionMask m).signExtend 64).toNat = 2 ^ m - 1 := by
  have hmask := toNat_partitionMask hm
  have hle : 2 ^ m ≤ 2 ^ 30 := Nat.pow_le_pow_right (by norm_num) hm
  have hmsb : (partitionMask m).msb = false := by
    rw [BitVec.msb_eq_decide, decide_eq_false_iff_not]
    omega
  rw [BitVec.signExtend_eq_setWidth_of_msb_false hmsb, BitVec.toNat_setWidth, hmask]
  omega

theorem partitionNum_eq (hm : m ≤ 30) (h : U64) : partitionNum m h = h.toNat % 2 ^ m := by
  have hpos : 0 < 2 ^ m := Nat.two_pow_pos m
  have hle : 2 ^ m ≤ 2 ^ 30 := Nat.pow_le_pow_right (by norm_num) hm
  have hlt : h.toNat % 2 ^ m < 2 ^ m := Nat.mod_lt _ hpos
  have htoNat : ((h &&& (partitionMask m).signExtend 64).setWidth 32).toNat = h.toNat % 2 ^ m := by
    rw [BitVec.toNat_setWidth, BitVec.toNat_and, toNat_signExtend_partitionMask hm,
      Nat.and_two_pow_sub_one_eq_mod, Nat.mod_eq_of_lt (by omega)]
  rw [partitionNum, BitVec.toInt_eq_toNat_of_lt (by omega), htoNat]
  push_cast
  rfl

theorem partitionNum_range (hm : m ≤ 30) (h : U64) :
    0 ≤ partitionNum m h ∧ partitionNum m h < 2 ^ m := by
  rw [partitionNum_eq hm]
  exact ⟨Int.emod_nonneg _ (by positivity), Int.emod_lt_of_pos _ (by positivity)⟩

/-! ### The counts -/

/-- Whatever the data, a run that ends reports empty partitions. -/
theorem counts_eq_zero {fuel : ℕ} {counts : List ℤ} {dummy : U64}
    (h : benchPartition hash fullKeyHash m data fuel = some (counts, dummy)) :
    counts = List.replicate (2 ^ m) 0 := by
  unfold benchPartition at h
  simp only [Option.bind_eq_bind, Option.bind_eq_some_iff, Option.some.injEq, Prod.mk.injEq] at h
  obtain ⟨_, _, _, _, hcounts, _⟩ := h
  rw [← hcounts]
  simp [toInt32]

theorem partitionLoop_isSome (hdata : data.length < 2 ^ 32) {fuel : ℕ}
    (hfuel : data.length / stepSize + stepSize < fuel) (dummy : U64) :
    (partitionLoop hash fullKeyHash m data fuel dummy).isSome := by
  have hvisited : data.length / stepSize * stepSize < 2 ^ 32 :=
    (Nat.div_mul_le_self _ _).trans_lt hdata
  let g (dummy : U64) (i : ℕ) : U64 := (segment stepSize data i).foldl (addPartitionNum hash m)
    ((segment stepSize data i).foldl (fun dummy x => dummy + fullKeyHash x) dummy)
  have hblock : ∀ fuel i dummy, i < data.length / stepSize → stepSize < fuel →
      partitionBlock hash fullKeyHash m data fuel (i * stepSize) ((i + 1) * stepSize) dummy =
        some (g dummy i) := by
    intro fuel i dummy hi hfuel
    simp only [partitionBlock, forLoop_segment hvisited hi hfuel, Option.bind_eq_bind,
      Option.bind_some, g]
  rw [partitionLoop, blockLoop_eq (by decide) hvisited hblock (Nat.zero_le _) hfuel]
  rfl

theorem benchPartition_eq (hdata : data.length < 2 ^ 32) {fuel : ℕ}
    (hfuel : data.length + stepSize < fuel) : ∃ dummy,
      benchPartition hash fullKeyHash m data fuel = some (List.replicate (2 ^ m) 0, dummy) := by
  have hblocks : data.length / stepSize ≤ data.length := Nat.div_le_self _ _
  have hwarmup := @forLoop_eq κ U64 (2 ^ 32) (addPartitionNum hash m) data data.length hdata le_rfl fuel 0
    (Nat.zero_le _) (by omega) 0
  obtain ⟨dummy, hloop⟩ := Option.isSome_iff_exists.mp
    (@partitionLoop_isSome κ hash fullKeyHash m data hdata fuel (by omega)
      (((data.take data.length).drop 0).foldl (addPartitionNum hash m) 0))
  have hrun : ∃ counts, benchPartition hash fullKeyHash m data fuel = some (counts, dummy) := by
    unfold benchPartition
    simp only [hwarmup, hloop, Option.bind_eq_bind, Option.bind_some]
    exact ⟨_, rfl⟩
  obtain ⟨counts, hcounts⟩ := hrun
  rw [counts_eq_zero hcounts] at hcounts
  exact ⟨dummy, hcounts⟩

variable (hash m data) in
/-- The counts are the sizes of the partitions of the data. -/
structure Describes (counts : List ℤ) : Prop where
  length_eq : counts.length = 2 ^ m
  count_eq : ∀ j < 2 ^ m, counts[j]? = some (data.countP fun x => (hash x).toNat % 2 ^ m = j : ℤ)
  sum_eq : counts.sum = data.length

variable (hash fullKeyHash m data) in
/-- Every partition number is in range, the run ends, and its counts describe the data. -/
def PartitionRight : Prop :=
  (∀ x ∈ data, 0 ≤ partitionNum m (hash x) ∧ partitionNum m (hash x) < 2 ^ m) ∧
    ∃ enough counts, Describes hash m data counts ∧ ∀ fuel ≥ enough, ∃ dummy,
      benchPartition hash fullKeyHash m data fuel = some (counts, dummy)

theorem describes_nil : Describes hash m [] (List.replicate (2 ^ m) 0) where
  length_eq := List.length_replicate
  count_eq j hj := by simp [hj]
  sum_eq := by simp

/-- Counts of empty partitions do not add up to the keys. -/
theorem not_describes_of_ne_nil (hne : data ≠ []) :
    ¬Describes hash m data (List.replicate (2 ^ m) 0) := by
  intro h
  have hsum := h.sum_eq
  have hpos := List.length_pos_of_ne_nil hne
  rw [List.sum_replicate, nsmul_zero] at hsum
  omega

/-- The statistics are right only for an empty data set; the partition numbers always are. -/
theorem partitionRight_iff (hash fullKeyHash : κ → U64) (hm : m ≤ 30) (data : List κ) :
    PartitionRight hash fullKeyHash m data ↔ data = [] := by
  constructor
  · rintro ⟨-, enough, counts, hdescribes, hrun⟩
    by_contra hne
    obtain ⟨dummy, hcounts⟩ := hrun enough le_rfl
    rw [counts_eq_zero hcounts] at hdescribes
    exact not_describes_of_ne_nil hne hdescribes
  · rintro rfl
    refine ⟨fun x _ => partitionNum_range hm (hash x), stepSize + 1, _, describes_nil, ?_⟩
    intro fuel hfuel
    refine benchPartition_eq (by simp) ?_
    rw [List.length_nil]
    omega

theorem partitionRight_nil : PartitionRight (fun _ : Str => 0) (fun _ => 0) 2 [] :=
  (partitionRight_iff _ _ (by norm_num) []).mpr rfl

/-- One key and one partition: the key is counted nowhere. -/
theorem not_partitionRight_single_key :
    ¬PartitionRight (fun _ : Str => 0) (fun _ => 0) 0 [Str.keyOfWords 1 0] := by
  rintro ⟨-, enough, counts, hdescribes, hrun⟩
  obtain ⟨dummy, hcounts⟩ := hrun enough le_rfl
  rw [counts_eq_zero hcounts] at hdescribes
  exact not_describes_of_ne_nil (by simp) hdescribes

end

end EntropyLearnedHashing
