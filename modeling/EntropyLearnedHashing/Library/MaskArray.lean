import Mathlib.Data.Set.Basic
import Mathlib.Data.BitVec
import Mathlib.Tactic.Ring

/-! Arrays of machine words that are written with `|=` and read through a mask.
An access outside the array fails. The abstract content is the set of bits that
are one, each named by its word and its place in the word; a write adds the bits
of its mask and clears none. -/

namespace EntropyLearnedHashing.MaskArray

variable {w n : ℕ}

/-- `words[i] |= mask`. -/
def orAt (words : Vector (BitVec w) n) (i : ℕ) (mask : BitVec w) :
    Option (Vector (BitVec w) n) :=
  if h : i < n then some (words.set i (words[i] ||| mask)) else none

/-- `mask & words[i]`. -/
def maskAt (words : Vector (BitVec w) n) (i : ℕ) (mask : BitVec w) : Option (BitVec w) :=
  if h : i < n then some (mask &&& words[i]) else none

/-- The bits that are one. -/
def ones (words : Vector (BitVec w) n) : Set (ℕ × ℕ) :=
  {c | ∃ h : c.1 < n, words[c.1].getLsbD c.2 = true}

/-- The bits of a mask placed in word `i`. -/
def bits (i : ℕ) (mask : BitVec w) : Set (ℕ × ℕ) := {c | c.1 = i ∧ mask.getLsbD c.2 = true}

@[simp] theorem ones_replicate_zero : ones (Vector.replicate n (0 : BitVec w)) = ∅ := by
  ext c
  simp [ones]

theorem orAt_spec (words : Vector (BitVec w) n) {i : ℕ} (hi : i < n) (mask : BitVec w) :
    ∃ words', orAt words i mask = some words' ∧ ones words' = ones words ∪ bits i mask := by
  refine ⟨_, dif_pos hi, ?_⟩
  ext ⟨a, b⟩
  simp only [ones, bits, Set.mem_union, Set.mem_ofPred_eq, Vector.getElem_set]
  by_cases ha : i = a
  · subst ha
    simp [hi]
  · simp [ha, Ne.symm ha]

/-- A masked word equals its mask exactly when the mask is contained in the array. -/
theorem maskAt_eq_mask_iff (words : Vector (BitVec w) n) {i : ℕ} (hi : i < n) (mask : BitVec w) :
    ∃ v, maskAt words i mask = some v ∧ (v = mask ↔ bits i mask ⊆ ones words) := by
  refine ⟨_, dif_pos hi, ?_⟩
  constructor
  · rintro h ⟨a, b⟩ ⟨rfl, hb⟩
    refine ⟨hi, ?_⟩
    have := congrArg (·.getLsbD b) h
    simpa [hb] using this
  · intro h
    apply BitVec.eq_of_getLsbD_eq
    intro b _
    rw [BitVec.getLsbD_and]
    cases hb : mask.getLsbD b with
    | false => rfl
    | true =>
      obtain ⟨_, hw⟩ := h (show (i, b) ∈ bits i mask from ⟨rfl, hb⟩)
      simpa using hw

theorem bits_one_shiftLeft (i : ℕ) {b : ℕ} (hb : b < w) : bits i (1#w <<< b) = {(i, b)} := by
  ext ⟨a, c⟩
  simp only [bits, Set.mem_ofPred_eq, Set.mem_singleton_iff, Prod.mk.injEq]
  refine and_congr_right fun _ => ?_
  rw [← BitVec.twoPow_eq, BitVec.getLsbD_twoPow]
  simp [hb, eq_comm]

theorem orAt_bit_spec (words : Vector (BitVec w) n) {i b : ℕ} (hi : i < n) (hb : b < w) :
    ∃ words', orAt words i (1#w <<< b) = some words' ∧ ones words' = ones words ∪ {(i, b)} := by
  rw [← bits_one_shiftLeft i hb]
  exact orAt_spec words hi _

/-- A word masked with one bit is not zero exactly when that bit is one. -/
theorem maskAt_ne_zero_iff (words : Vector (BitVec w) n) {i b : ℕ} (hi : i < n) (hb : b < w) :
    ∃ v, maskAt words i (1#w <<< b) = some v ∧ (v ≠ 0 ↔ (i, b) ∈ ones words) := by
  refine ⟨_, dif_pos hi, ?_⟩
  rw [← BitVec.twoPow_eq, BitVec.twoPow_and]
  have hne : BitVec.twoPow w b ≠ 0#w := by
    intro h
    have := congrArg (·.getLsbD b) h
    simp [hb] at this
  cases hbit : words[i].getLsbD b <;> simp [ones, hi, hbit, hne]

end EntropyLearnedHashing.MaskArray
