import EntropyLearnedHashing.Hash.Customs
import Mathlib.Data.List.Sort

/-! How the benchmarks pick an 8-byte functor. Each counts the locations whose entropy
reaches what it needs, caps the count, copies and sorts that many locations, and
selects a functor by a ladder over the count. The seven copies differ in the count
they start from, in the cap and in the last branch of the ladder. The entropies come
from `read_entropies`, whose `read_lines` stops at 210,000,000 lines, so the `int`
counts are natural numbers. -/

namespace EntropyLearnedHashing

/-- `std::sort` on `int`s. -/
def sortInts (l : List ℤ) : List ℤ := l.insertionSort (· ≤ ·)

/-- The full-key functors that a ladder can end in. -/
inductive FullKeyHash where
  | hashXxh64S | hashWyhashS | crc32HashS
  deriving DecidableEq

/-- The hash of the whole key that belongs to a family. -/
def Family.fullKeyHash : Family → FullKeyHash
  | .xxh3 => .hashXxh64S
  | .wyhash => .hashWyhashS
  | .crc32wyhash => .crc32HashS

def FullKeyHash.functor : FullKeyHash → HashFunctor
  | .hashXxh64S => hashXxh64
  | .hashWyhashS => wyhashDefault
  | .crc32HashS => crc32Hash

/-- What a ladder instantiates; some benchmarks have no branch for a family. -/
inductive Choice where
  | nloc (fixedLength : Bool) (arity : ℕ)
  | fullKey (hash : FullKeyHash)
  | nothing
  deriving DecidableEq

/-- The functor object built from `hash_locations.data()`; `none` when its constructor
reads past the array or when there is none to build. -/
def Choice.functor (fam : Family) (hashLocations : List ℤ) : Choice → Option HashFunctor
  | .nloc true arity => fam.nlocFixedS arity hashLocations
  | .nloc false arity => fam.nlocS arity hashLocations
  | .fullKey hash => some hash.functor
  | .nothing => none

/-- The ladder that ends in the functor of four locations. -/
def ladderToFour (fixedLength : Bool) (n : ℕ) : Choice :=
  if n = 1 then .nloc fixedLength 1
  else if n = 2 then .nloc fixedLength 2
  else if n = 3 then .nloc fixedLength 3
  else .nloc fixedLength 4

/-- The ladder that ends in a full-key hash. -/
def ladderToFull (hash : FullKeyHash) (fixedLength : Bool) (n : ℕ) : Choice :=
  if n = 1 then .nloc fixedLength 1
  else if n = 2 then .nloc fixedLength 2
  else if n = 3 then .nloc fixedLength 3
  else if n = 4 then .nloc fixedLength 4
  else .fullKey hash

/-- The parts in which the selection code of the benchmarks differs. `start` is the count
when no entropy suffices, from the number of entropies, which is not zero. -/
structure Bench where
  start : ℕ → ℕ
  cap : ℕ
  ladder : Family → Bool → ℕ → Choice

def benchStdTable : Bench := ⟨fun size => size - 1, 4, fun _ => ladderToFour⟩

def benchSwissTable : Bench := ⟨fun size => size - 1, 4, fun _ => ladderToFour⟩

def benchSwissTableMt : Bench := ⟨fun size => size - 1, 4, fun _ => ladderToFour⟩

/-- The CRC ladder has no full-key branch although the cap is five. -/
def benchSelfbloom : Bench where
  start size := size - 1
  cap := 5
  ladder
    | .xxh3 => ladderToFull .hashXxh64S
    | .wyhash => ladderToFull .hashWyhashS
    | .crc32wyhash => ladderToFour

/-- The count is not initialised: the map creates it as zero. -/
def benchBlockbloom : Bench where
  start _ := 0
  cap := 4
  ladder
    | .xxh3 => ladderToFour
    | .wyhash => ladderToFour
    | .crc32wyhash => fun _ _ => .nothing

def benchRegisterBlockBloom : Bench where
  start size := size - 1
  cap := 5
  ladder
    | .xxh3 => ladderToFull .hashXxh64S
    | .wyhash => ladderToFull .hashWyhashS
    | .crc32wyhash => fun _ _ => .nothing

/-- The CRC ladders end in different full-key hashes. -/
def benchPartitioners : Bench where
  start size := size - 1
  cap := 5
  ladder
    | .xxh3 => ladderToFull .hashXxh64S
    | .wyhash => ladderToFull .hashWyhashS
    | .crc32wyhash => fun fixedLength =>
      ladderToFull (if fixedLength then .hashWyhashS else .crc32HashS) fixedLength

/-- The benchmarks that select an 8-byte functor. -/
inductive BenchName where
  | stdTable | swissTable | swissTableMt
  | selfbloom | blockbloom | registerBlockBloom | partitioners
  deriving DecidableEq

def BenchName.bench : BenchName → Bench
  | .stdTable => benchStdTable
  | .swissTable => benchSwissTable
  | .swissTableMt => benchSwissTableMt
  | .selfbloom => benchSelfbloom
  | .blockbloom => benchBlockbloom
  | .registerBlockBloom => benchRegisterBlockBloom
  | .partitioners => benchPartitioners

namespace Bench

section

variable {ε : Type*} [LT ε] [DecidableLT ε]

/-- `numLocationsForChunkSize[8]` after the loop over the entropies and the cap. -/
def numLocations (b : Bench) (entropies : List ε) (neededEntropy : ε) : ℕ :=
  let n := match entropies.findIdx? (neededEntropy < ·) with
    | some i => i + 1
    | none => b.start entropies.length
  if 4 < n then b.cap else n

def choose (b : Bench) (fam : Family) (fixedLength : Bool) (entropies : List ε)
    (neededEntropy : ε) : Choice :=
  b.ladder fam fixedLength (b.numLocations entropies neededEntropy)

/-- The sorted copy of `&locations[8][0] .. &locations[8][n]`; `none` when the second
pointer leaves the vector. -/
def hashLocations (b : Bench) (locations : List ℤ) (entropies : List ε) (neededEntropy : ε) :
    Option (List ℤ) :=
  let n := b.numLocations entropies neededEntropy
  if n ≤ locations.length then some (sortInts (locations.take n)) else none

end

end Bench

/-! ### Sorted copies -/

@[simp] theorem length_sortInts (l : List ℤ) : (sortInts l).length = l.length :=
  List.length_insertionSort _ l

theorem sortInts_append_of_le {l : List ℤ} {x : ℤ} (h : ∀ y ∈ l, y ≤ x) :
    sortInts (l ++ [x]) = sortInts l ++ [x] := by
  have hperm : (sortInts (l ++ [x])).Perm (sortInts l ++ [x]) :=
    (List.perm_insertionSort _ _).trans ((List.perm_insertionSort _ _).symm.append_right [x])
  refine hperm.eq_of_pairwise' (List.pairwise_insertionSort _ _) ?_
  refine List.pairwise_append.mpr ⟨List.pairwise_insertionSort _ _, List.pairwise_singleton _ _, ?_⟩
  intro y hy z hz
  rw [List.mem_singleton.mp hz]
  exact h y ((List.mem_insertionSort _).mp hy)

/-- Sorting one more entry keeps the first ones exactly when it is the largest. -/
theorem take_sortInts_append (l : List ℤ) (x : ℤ) :
    (sortInts (l ++ [x])).take l.length = sortInts l ↔ ∀ y ∈ l, y ≤ x := by
  constructor
  · intro h
    have hlen : ((sortInts (l ++ [x])).drop l.length).length = 1 := by simp
    obtain ⟨z, hz⟩ := List.length_eq_one_iff.mp hlen
    have hsplit : sortInts (l ++ [x]) = sortInts l ++ [z] := by
      rw [← h, ← hz, List.take_append_drop]
    have hperm : (l ++ [z]).Perm (l ++ [x]) :=
      ((List.perm_insertionSort (· ≤ ·) l).symm.append_right [z]).trans
        (hsplit ▸ List.perm_insertionSort (· ≤ ·) (l ++ [x]))
    obtain rfl : z = x := by
      simpa using (List.perm_append_left_iff l).mp hperm
    have hsorted : (sortInts l ++ [z]).Pairwise (· ≤ ·) :=
      hsplit ▸ List.pairwise_insertionSort (· ≤ ·) (l ++ [z])
    intro y hy
    exact (List.pairwise_append.mp hsorted).2.2 y ((List.mem_insertionSort _).mpr hy) z (by simp)
  · intro h
    rw [sortInts_append_of_le h, ← length_sortInts l, List.take_left']
    rfl

/-! ### The count -/

namespace Bench

variable {ε : Type*} [LT ε] [DecidableLT ε] {b : Bench} {entropies : List ε} {neededEntropy : ε}

/-- The count before the cap: one past the first sufficient entropy, or the start value. -/
theorem numLocations_cases (b : Bench) (entropies : List ε) (neededEntropy : ε) :
    (∃ i, ∃ h : i < entropies.length, neededEntropy < entropies[i] ∧
      (∀ e ∈ entropies.take i, ¬ neededEntropy < e) ∧
      b.numLocations entropies neededEntropy = if 4 < i + 1 then b.cap else i + 1) ∨
    ((∀ e ∈ entropies, ¬ neededEntropy < e) ∧
      b.numLocations entropies neededEntropy =
        if 4 < b.start entropies.length then b.cap else b.start entropies.length) := by
  cases hidx : entropies.findIdx? (neededEntropy < ·) with
  | some i =>
    obtain ⟨hi, hsuff, hbefore⟩ := List.findIdx?_eq_some_iff_getElem.mp hidx
    refine .inl ⟨i, hi, by simpa using hsuff, fun e he => ?_, by simp [numLocations, hidx]⟩
    obtain ⟨j, hj, rfl⟩ := List.mem_take_iff_getElem.mp he
    simpa using hbefore j (by omega)
  | none =>
    rw [List.findIdx?_eq_none_iff] at hidx
    refine .inr ⟨fun e he => by simpa using hidx e he, ?_⟩
    have hnone : entropies.findIdx? (neededEntropy < ·) = none :=
      List.findIdx?_eq_none_iff.mpr hidx
    simp [numLocations, hnone]

theorem numLocations_pos_iff (hcap : 0 < b.cap) :
    0 < b.numLocations entropies neededEntropy ↔
      (∃ e ∈ entropies, neededEntropy < e) ∨ 0 < b.start entropies.length := by
  rcases b.numLocations_cases entropies neededEntropy with ⟨i, hi, hsuff, -, hn⟩ | ⟨hnone, hn⟩
  · rw [hn]
    refine iff_of_true (by split_ifs <;> omega) (.inl ⟨_, List.getElem_mem hi, hsuff⟩)
  · rw [hn]
    constructor
    · intro h
      right
      split_ifs at h <;> omega
    · rintro (⟨e, he, hsuff⟩ | h)
      · exact absurd hsuff (hnone e he)
      · split_ifs <;> omega

/-- The cap is applied when none of the first four entropies suffices and the count does
not stay below five for want of entropies. -/
theorem four_lt_numLocations_iff (hcap : 4 < b.cap) :
    4 < b.numLocations entropies neededEntropy ↔
      (∀ e ∈ entropies.take 4, ¬ neededEntropy < e) ∧
        ((∃ e ∈ entropies, neededEntropy < e) ∨ 4 < b.start entropies.length) := by
  rcases b.numLocations_cases entropies neededEntropy with ⟨i, hi, hsuff, hbefore, hn⟩ | ⟨hnone, hn⟩
  · have hex : ∃ e ∈ entropies, neededEntropy < e := ⟨_, List.getElem_mem hi, hsuff⟩
    rw [hn]
    by_cases hfour : 4 ≤ i
    · refine iff_of_true (by rw [if_pos (by omega)]; exact hcap) ⟨fun e he => ?_, .inl hex⟩
      exact hbefore e (List.take_subset_take_left entropies hfour he)
    · refine iff_of_false (by rw [if_neg (by omega)]; omega) fun h => ?_
      refine h.1 entropies[i] (List.mem_take_iff_getElem.mpr ⟨i, by omega, rfl⟩) hsuff
  · rw [hn]
    constructor
    · intro h
      refine ⟨fun e he => hnone e (List.mem_of_mem_take he), .inr ?_⟩
      split_ifs at h <;> omega
    · rintro ⟨-, ⟨e, he, hsuff⟩ | h⟩
      · exact absurd hsuff (hnone e he)
      · rw [if_pos h]
        exact hcap

theorem numLocations_le_length (hcap : b.cap ≤ 5) (hstart : b.start entropies.length ≤ entropies.length) :
    b.numLocations entropies neededEntropy ≤ entropies.length := by
  rcases b.numLocations_cases entropies neededEntropy with ⟨i, hi, -, -, hn⟩ | ⟨-, hn⟩ <;>
    rw [hn] <;> split_ifs <;> omega

theorem numLocations_le (hcap : 4 ≤ b.cap) : b.numLocations entropies neededEntropy ≤ b.cap := by
  rcases b.numLocations_cases entropies neededEntropy with ⟨i, hi, -, -, hn⟩ | ⟨-, hn⟩ <;>
    rw [hn] <;> split_ifs <;> omega

end Bench

namespace BenchName

theorem cap_le (name : BenchName) : name.bench.cap ≤ 5 := by
  cases name <;> decide

theorem start_le (name : BenchName) (size : ℕ) : name.bench.start size ≤ size := by
  cases name with
  | blockbloom => exact Nat.zero_le size
  | stdTable | swissTable | swissTableMt | selfbloom | registerBlockBloom | partitioners =>
    exact Nat.sub_le size 1

end BenchName

end EntropyLearnedHashing
