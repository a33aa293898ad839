import EntropyLearnedHashing.Str
import EntropyLearnedHashing.Library.Tally
import Mathlib.Analysis.SpecialFunctions.Log.Base
import Mathlib.Data.EReal.Basic

/-! `entropy_estimators.hh`: the collision entropy of a list of keys under a list of
positions. A key is reduced to its chunks at the positions and its length, the
reduced keys are tallied, and the counts give the Renyi entropy of order two. The
frequencies are summed exactly here, so an entropy is the exact argument of the
logarithm; a chunk that is read outside its key is an arbitrary value. -/

namespace EntropyLearnedHashing

open LittleEndian Tally

/-! ### Entropies -/

/-- The value `-log2(p)`, or the undefined result of a division by zero. -/
inductive Entropy where
  | nan
  | negLog2 (p : ℚ)
  deriving DecidableEq

namespace Entropy

/-- `a > b`, false when a side is undefined; the logarithm reverses the order. -/
def gt : Entropy → Entropy → Prop
  | .negLog2 p, .negLog2 q => p < q
  | _, _ => False

@[simp] theorem negLog2_gt_negLog2 (p q : ℚ) : gt (.negLog2 p) (.negLog2 q) ↔ p < q := Iff.rfl

instance : DecidableRel gt := fun a b =>
  match a, b with
  | .negLog2 p, .negLog2 q => inferInstanceAs (Decidable (p < q))
  | .negLog2 _, .nan => .isFalse id
  | .nan, .negLog2 _ => .isFalse id
  | .nan, .nan => .isFalse id

instance : IsTrans Entropy gt where
  trans a b c hab hbc := by
    cases a <;> cases b <;> cases c <;> simp_all only [gt]
    exact lt_trans hab hbc

/-- The entropy `0.0`. -/
def zero : Entropy := .negLog2 1

/-- The real value of a defined entropy, infinite when no pair collides. -/
noncomputable def value (p : ℚ) : EReal := if p = 0 then ⊤ else ((-Real.logb 2 p : ℝ) : EReal)

/-- The order on the arguments is the order on the logarithms. -/
theorem gt_iff_value_lt {p q : ℚ} (hp : 0 ≤ p) (hq : 0 ≤ q) :
    gt (.negLog2 p) (.negLog2 q) ↔ value q < value p := by
  rw [negLog2_gt_negLog2]
  unfold value
  rcases hp.eq_or_lt with rfl | hp0 <;> rcases hq.eq_or_lt with rfl | hq0
  · simp
  · rw [if_pos rfl, if_neg hq0.ne']
    exact iff_of_true hq0 (EReal.coe_lt_top _)
  · simp [hp0.ne', hp0.le]
  · rw [if_neg hp0.ne', if_neg hq0.ne', EReal.coe_lt_coe_iff, neg_lt_neg_iff,
      Real.logb_lt_logb_iff one_lt_two (by exact_mod_cast hp0) (by exact_mod_cast hq0)]
    exact_mod_cast Iff.rfl

end Entropy

/-! ### Partial strings -/

/-- A chunk outside the key read as zero. -/
def zeroFill (w : ℕ) (_ : Str) (_ : ℤ) : Vector Byte w := Vector.replicate w 0

section PartialString

variable (w : ℕ) (out : Str → ℤ → Vector Byte w)

/-- `x_data[p]`: a chunk inside the key, or whatever lies there. -/
def chunkAt (s : Str) (p : ℤ) : List Byte :=
  if 0 ≤ p ∧ s.Covers w p.toNat then chunk w s.bytes p.toNat else (out s p).toList

/-- `to_string(n)`. -/
def stdToString (n : ℕ) : List Byte := (Nat.toDigits 10 n).map fun c => BitVec.ofNat 8 c.toNat

/-- The chunk that `formPartialString` stores for a position: the key's when the position
is at most the number of its chunks, in `int` arithmetic, and zero otherwise. -/
def partialChunk (s : Str) (p : ℤ) : List Byte :=
  if p ≤ (BitVec.ofNat 32 (s.size / w)).toInt then chunkAt w out s p else List.replicate w 0

def formPartialString (s : Str) (positions : List ℤ) : List Byte :=
  positions.flatMap (partialChunk w out s) ++ stdToString s.size

variable {w out}

@[simp] theorem length_chunkAt (s : Str) (p : ℤ) : (chunkAt w out s p).length = w := by
  unfold chunkAt
  split_ifs with h
  · exact Str.length_chunk h.2
  · simp

@[simp] theorem length_partialChunk (s : Str) (p : ℤ) : (partialChunk w out s p).length = w := by
  unfold partialChunk
  split_ifs <;> simp

/-- Chunks of equal width can be recovered from their concatenation. -/
theorem flatMap_chunks_inj {f g : ℤ → List Byte} (hf : ∀ p, (f p).length = w)
    (hg : ∀ p, (g p).length = w) {positions : List ℤ} {t t' : List Byte}
    (h : positions.flatMap f ++ t = positions.flatMap g ++ t') :
    (∀ p ∈ positions, f p = g p) ∧ t = t' := by
  induction positions with
  | nil => exact ⟨by simp, by simpa using h⟩
  | cons p positions ih =>
    simp only [List.flatMap_cons, List.append_assoc] at h
    obtain ⟨hp, hrest⟩ := List.append_inj h ((hf p).trans (hg p).symm)
    obtain ⟨hall, ht⟩ := ih hrest
    exact ⟨by simpa [hp] using hall, ht⟩

theorem formPartialString_eq_iff {x y : Str} {positions : List ℤ} :
    formPartialString w out x positions = formPartialString w out y positions ↔
      (∀ p ∈ positions, partialChunk w out x p = partialChunk w out y p) ∧
        stdToString x.size = stdToString y.size := by
  constructor
  · exact flatMap_chunks_inj (length_partialChunk x) (length_partialChunk y)
  · rintro ⟨hall, ht⟩
    unfold formPartialString
    rw [ht, List.flatMap_def, List.flatMap_def, List.map_congr_left hall]

/-- More positions separate more keys. -/
theorem formPartialString_eq_of_subset {x y : Str} {P Q : List ℤ} (hPQ : P ⊆ Q)
    (h : formPartialString w out x Q = formPartialString w out y Q) :
    formPartialString w out x P = formPartialString w out y P := by
  obtain ⟨hall, ht⟩ := formPartialString_eq_iff.mp h
  exact formPartialString_eq_iff.mpr ⟨fun p hp => hall p (hPQ hp), ht⟩

end PartialString

/-! ### Renyi entropy -/

/-- An `int` made from a size and passed on as a `uint64_t`. -/
def intToU64 (n : ℕ) : U64 := (BitVec.ofNat 32 n).signExtend 64

def fallingPower (x : U64) (power : ℕ) : U64 :=
  if power = 0 then 1
  else (List.range' 1 (power - 1)).foldl (fun returnVal i => returnVal * (x - BitVec.ofNat 64 i)) x

/-- A denominator that vanishes meets numerators that vanish too. -/
def evaluateRenyiEntropy {κ : Type*} (frequencyMap : List (κ × ℕ)) (numItems : ℕ) : Entropy :=
  let denominator := (fallingPower (intToU64 numItems) 2).toNat
  if denominator = 0 ∧ frequencyMap ≠ [] then .nan
  else .negLog2 (frequencyMap.map fun keyVal =>
    ((fallingPower (intToU64 keyVal.2) 2).toNat : ℚ) / denominator).sum

theorem toNat_intToU64 {n : ℕ} (h : n < 2 ^ 31) : (intToU64 n).toNat = n := by
  have hmsb : (BitVec.ofNat 32 n).msb = false := by
    rw [BitVec.msb_eq_false_iff_two_mul_lt, BitVec.toNat_ofNat]
    omega
  rw [intToU64, BitVec.signExtend_eq_setWidth_of_msb_false hmsb, BitVec.toNat_setWidth,
    BitVec.toNat_ofNat]
  omega

theorem toNat_fallingPower_two {n : ℕ} (h : n < 2 ^ 31) :
    (fallingPower (intToU64 n) 2).toNat = n * (n - 1) := by
  have hx := toNat_intToU64 h
  have hfold : fallingPower (intToU64 n) 2 = intToU64 n * (intToU64 n - 1#64) := rfl
  rw [hfold, BitVec.toNat_mul, BitVec.toNat_sub, hx, BitVec.toNat_ofNat]
  rcases Nat.eq_zero_or_pos n with rfl | hn
  · simp
  · have hpred : (2 ^ 64 - 1 % 2 ^ 64 + n) % 2 ^ 64 = n - 1 := by omega
    have hlt : n * (n - 1) < 2 ^ 31 * 2 ^ 31 := Nat.mul_lt_mul'' h (by omega)
    rw [hpred, Nat.mod_eq_of_lt (by omega)]

/-- The sum of the numerators that `evaluateRenyiEntropy` divides. -/
def numerator {κ : Type*} (frequencyMap : List (κ × ℕ)) : ℕ :=
  total (fun c => (fallingPower (intToU64 c) 2).toNat) frequencyMap

/-- The denominator that `evaluateRenyiEntropy` divides by. -/
def denominator (numItems : ℕ) : ℕ := (fallingPower (intToU64 numItems) 2).toNat

/-- The entropy is that of the quotient, in whatever order the map is traversed. -/
theorem evaluateRenyiEntropy_eq {κ : Type*} {m m' : List (κ × ℕ)} (h : m'.Perm m) {n : ℕ}
    (hn : denominator n ≠ 0) :
    evaluateRenyiEntropy m' n = .negLog2 ((numerator m : ℚ) / denominator n) := by
  rw [← show numerator m' = numerator m from total_perm _ h]
  unfold evaluateRenyiEntropy numerator total
  rw [denominator] at hn ⊢
  simp only [if_neg fun hc : _ ∧ _ => hn hc.1]
  rw [Nat.cast_list_sum, List.map_map, div_eq_mul_inv, ← List.sum_map_mul_right]
  rfl

theorem denominator_eq {n : ℕ} (h : n < 2 ^ 31) : denominator n = n * (n - 1) :=
  toNat_fallingPower_two h

theorem exists_eq_singleton {vec : List Str} (hne : vec ≠ []) (hlt : vec.length < 2) :
    ∃ s, vec = [s] := by
  have hpos := List.length_pos_of_ne_nil hne
  exact List.length_eq_one_iff.mp (by omega)

section Evaluate

variable (w : ℕ) (out : Str → ℤ → Vector Byte w)

/-- The frequency map of the partial strings. -/
def stringComboAndFrequencyMap (vec : List Str) (positions : List ℤ) : List (List Byte × ℕ) :=
  tally (vec.map (formPartialString w out · positions))

def evaluateEntropy (testVec : List Str) (positions : List ℤ) : Entropy :=
  evaluateRenyiEntropy (stringComboAndFrequencyMap w out testVec positions) testVec.length

variable {w out} {vec : List Str} {positions : List ℤ}

/-- The numerators of fewer than `2 ^ 31` keys are computed without overflow. -/
theorem total_fallingPower (h : vec.length < 2 ^ 31) :
    total (fun c => (fallingPower (intToU64 c) 2).toNat)
        (stringComboAndFrequencyMap w out vec positions) =
      total (fun c => c * (c - 1)) (stringComboAndFrequencyMap w out vec positions) := by
  unfold total stringComboAndFrequencyMap
  congr 1
  apply List.map_congr_left
  intro e he
  have hle := le_length_of_mem_tally he
  rw [List.length_map] at hle
  exact toNat_fallingPower_two (by omega)

theorem numerator_eq (h : vec.length < 2 ^ 31) :
    numerator (stringComboAndFrequencyMap w out vec positions) =
      collidingPairs (formPartialString w out · positions) vec := by
  rw [numerator, total_fallingPower h]
  exact total_falling_tally _ _

/-- The entropy of at least two keys is that of the share of colliding pairs. -/
theorem evaluateEntropy_eq (h₂ : 2 ≤ vec.length) (h : vec.length < 2 ^ 31) :
    evaluateEntropy w out vec positions =
      .negLog2 ((collidingPairs (formPartialString w out · positions) vec : ℚ) /
        (vec.length * (vec.length - 1) : ℕ)) := by
  have hden : denominator vec.length ≠ 0 := by
    rw [denominator_eq h]
    exact Nat.mul_ne_zero (by omega) (by omega)
  rw [evaluateEntropy, evaluateRenyiEntropy_eq (List.Perm.refl _) hden, numerator_eq h,
    denominator_eq h]

/-- A single key leaves no pair to divide by. -/
theorem evaluateEntropy_singleton (s : Str) : evaluateEntropy w out [s] positions = .nan := by
  have hden : (fallingPower (intToU64 1) 2).toNat = 0 := toNat_fallingPower_two (by norm_num)
  unfold evaluateEntropy evaluateRenyiEntropy
  simp [hden, stringComboAndFrequencyMap, tally, bump]

/-- The entropy is positive exactly when two keys have different partial strings. -/
theorem evaluateEntropy_gt_zero_iff (hne : vec ≠ []) (h : vec.length < 2 ^ 31) :
    (evaluateEntropy w out vec positions).gt .zero ↔
      ∃ x ∈ vec, ∃ y ∈ vec,
        formPartialString w out x positions ≠ formPartialString w out y positions := by
  rcases Nat.lt_or_ge vec.length 2 with hlt | h₂
  · obtain ⟨s, rfl⟩ := exists_eq_singleton hne hlt
    simp [evaluateEntropy_singleton, Entropy.gt]
  · have hden : (0 : ℚ) < (vec.length * (vec.length - 1) : ℕ) := by
      exact_mod_cast Nat.mul_pos (by omega) (by omega)
    rw [evaluateEntropy_eq h₂ h, ← collidingPairs_lt_iff (formPartialString w out · positions)]
    rw [Entropy.zero, Entropy.negLog2_gt_negLog2, div_lt_one hden]
    exact_mod_cast Iff.rfl

end Evaluate

end EntropyLearnedHashing
