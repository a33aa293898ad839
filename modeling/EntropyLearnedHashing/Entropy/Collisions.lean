import EntropyLearnedHashing.Entropy.Estimator
import EntropyLearnedHashing.Hash.PartialKey

/-! The estimator against the hashes. The estimator fills missing chunks with zeros
and appends the length; a partial-key hash falls back to the whole key. Keys with
equal views have equal hashes in the wyhash and CRC families and equal partial
strings under every order of the locations, so the estimator counts at least the
collisions that the views create. The one-location XXH3 hash is a bijection of its
word, so on keys of one length it collides exactly where the estimator says. -/

namespace EntropyLearnedHashing

open LittleEndian Tally

theorem partialChunk_eq_of_word_eq {x y : Str} (hsize : x.size = y.size) {l : ℕ}
    (hword : x.word l = y.word l) :
    partialChunk 8 (zeroFill 8) x l = partialChunk 8 (zeroFill 8) y l := by
  have hcov : x.Covers 8 l ↔ y.Covers 8 l := by simp only [Str.Covers, hsize]
  have hchunk : chunk 8 x.bytes l = chunk 8 y.bytes l := hword
  unfold partialChunk chunkAt
  simp only [hsize, Int.toNat_natCast, hcov, hchunk, zeroFill]

namespace Locations

variable {L : Locations}

/-- The view determines the partial string under every order of the locations. -/
theorem formPartialString_eq_of_view_eq {P : List ℤ} (hP : P.Perm L.ints) {x y : Str}
    (h : L.view x = L.view y) :
    formPartialString 8 (zeroFill 8) x P = formPartialString 8 (zeroFill 8) y P := by
  rcases view_eq_cases h with rfl | ⟨-, hsize, hword⟩
  · rfl
  · refine formPartialString_eq_iff.mpr ⟨fun p hp => ?_, by rw [hsize]⟩
    obtain ⟨l, hl, rfl⟩ := List.mem_map.mp (hP.mem_iff.mp hp)
    exact partialChunk_eq_of_word_eq hsize (hword l hl)

/-- The hash is a function of the view, so is the partial string, and the estimator's
sum bounds the number of pairs with equal views. -/
theorem view_collisions_le_estimated (hL : 8 * (L.last + 1) < 2 ^ 31) (fam : Family)
    (hfam : fam ≠ .xxh3) (P : List ℤ) (hP : P.Perm L.ints) :
    (∀ x y : Str, L.view x = L.view y → L.functor fam x = L.functor fam y) ∧
    (∀ x y : Str, L.view x = L.view y →
      formPartialString 8 (zeroFill 8) x P = formPartialString 8 (zeroFill 8) y P) ∧
    ∀ data : List Str,
      let frequencyMap := stringComboAndFrequencyMap 8 (zeroFill 8) data P
      collidingPairs L.view data ≤ total (fun c => c * (c - 1)) frequencyMap ∧
        (data.length < 2 ^ 31 →
          total (fun c => (fallingPower (intToU64 c) 2).toNat) frequencyMap =
            total (fun c => c * (c - 1)) frequencyMap) := by
  refine ⟨fun x y h => functor_eq_of_view_eq hL hfam h,
    fun x y h => formPartialString_eq_of_view_eq hP h, fun data => ⟨?_, total_fallingPower⟩⟩
  rw [stringComboAndFrequencyMap, total_falling_tally]
  exact collidingPairs_mono _ _ data fun x y h => formPartialString_eq_of_view_eq hP h

/-- Words 4, 0 and 2 in this order, under `wyhash_3loc`. -/
theorem gapLocations_view_collisions :
    ([4, 0, 2] : List ℤ).Perm gapLocations.ints ∧
      ∀ data : List Str, collidingPairs gapLocations.view data ≤
        total (fun c => c * (c - 1)) (stringComboAndFrequencyMap 8 (zeroFill 8) data [4, 0, 2]) := by
  have hP : ([4, 0, 2] : List ℤ).Perm gapLocations.ints := by decide
  refine ⟨hP, fun data => ?_⟩
  exact ((view_collisions_le_estimated (by decide) .wyhash (by decide) _ hP).2.2 data).1

end Locations

/-! ### One location under XXH3 -/

theorem word_eq_of_word64_eq {x y : Str} {r : ℕ} (hx : x.Covers 8 r) (hy : y.Covers 8 r)
    (h : word64 (x.word r) = word64 (y.word r)) : x.word r = y.word r := by
  have hlt : ∀ s : Str, s.Covers 8 r → leNat (s.word r) < 2 ^ 64 := by
    intro s hs
    have := leNat_lt (s.word r)
    rw [Str.length_word hs] at this
    exact lt_of_lt_of_eq this (by norm_num)
  have hnat := congrArg BitVec.toNat h
  simp only [word64, BitVec.toNat_ofNat, Nat.mod_eq_of_lt (hlt x hx), Nat.mod_eq_of_lt (hlt y hy)]
    at hnat
  exact leNat_injective ((Str.length_word hx).trans (Str.length_word hy).symm) hnat

theorem xxh3Word_injective (len : ℕ) : Function.Injective (xxh3Word len) := by
  intro a b h
  have hsum := xxh3Avalanche_injective h
  exact (BitVec.xor_left_inj _).mp (BitVec.add_left_inj _ |>.mp hsum)

variable (out : Str → ℤ → Vector Byte 8) in
/-- A one-location functor on keys of one length: hashes are equal exactly when the chosen words
are, so keys with equal hashes were counted as a collision by the estimator. -/
def WordInjective (functor : Option HashFunctor) (l len : ℕ) : Prop :=
  ∃ hash, functor = some hash ∧ ∀ x y : Str, x.size = len → y.size = len →
    ∃ u v, hash x = some u ∧ hash y = some v ∧ (u = v ↔ x.word l = y.word l) ∧
      (u = v → formPartialString 8 out x [(l : ℤ)] = formPartialString 8 out y [(l : ℤ)])

theorem formPartialString_eq_of_word_eq (out : Str → ℤ → Vector Byte 8) {x y : Str} {l : ℕ}
    (hsize : x.size = y.size) (hx : x.Covers 8 l) (hword : x.word l = y.word l) :
    formPartialString 8 out x [(l : ℤ)] = formPartialString 8 out y [(l : ℤ)] := by
  have hy : y.Covers 8 l := by rwa [Str.Covers, ← hsize]
  have hchunk : chunk 8 x.bytes l = chunk 8 y.bytes l := hword
  refine formPartialString_eq_iff.mpr ⟨fun p hp => ?_, by rw [hsize]⟩
  obtain rfl : p = l := by simpa using hp
  have hin : (0 : ℤ) ≤ l := Int.natCast_nonneg l
  simp only [partialChunk, chunkAt, hsize, Int.toNat_natCast, hx, hy, hchunk, hin, and_self, if_true]

/-- The list of one location. -/
def Locations.single (l : ℕ) (hl : l < 2 ^ 31) : Locations :=
  ⟨[l], by simp, by simp, by simp, by simpa using hl⟩

section Single

variable {l : ℕ} (hl : l < 2 ^ 31) (fam : Family)

@[simp] theorem Locations.last_single : (Locations.single l hl).last = l := rfl

@[simp] theorem Locations.readWords_single : (Locations.single l hl).readWords fam = [wordIndex l] := by
  cases fam <;> rfl

end Single

theorem xxh3_1loc_eq {l : ℕ} (hl : l < 2 ^ 31) {x : Str} (hx : 8 * (l + 1) ≤ x.size) :
    (Locations.single l hl).fixed .xxh3 x = some (xxh3Word x.size (word64 (x.word (wordIndex l)))) := by
  rw [Locations.fixed_eq _ _ (Locations.covers_readWords (by simpa using hx) .xxh3),
    Locations.hashOfWords, Locations.readWords_single]
  rfl

section OneLocation

variable {out : Str → ℤ → Vector Byte 8} {l len : ℕ} (hl : l < 2 ^ 31) (h63 : len < 2 ^ 63)
  (hlen : 8 * (l + 1) ≤ len) {hash : HashFunctor}
  (hhash : ∀ x : Str, x.size = len → hash x = (Locations.single l hl).fixed .xxh3 x)
include hlen hhash

/-- While the byte offset fits 32 bits, the chosen word is the one that is read. -/
theorem wordInjective_of_lt (hfit : l < 2 ^ 29) : WordInjective out (some hash) l len := by
  refine ⟨hash, rfl, fun x y hx hy => ?_⟩
  have hcovx : x.Covers 8 l := by rw [Str.Covers, hx]; exact hlen
  have hcovy : y.Covers 8 l := by rw [Str.Covers, hy]; exact hlen
  have hu := (hhash x hx).trans (xxh3_1loc_eq hl hcovx)
  have hv := (hhash y hy).trans (xxh3_1loc_eq hl hcovy)
  rw [wordIndex_of_lt hfit, hx] at hu
  rw [wordIndex_of_lt hfit, hy] at hv
  have hiff : xxh3Word len (word64 (x.word l)) = xxh3Word len (word64 (y.word l)) ↔
      x.word l = y.word l := by
    rw [(xxh3Word_injective len).eq_iff]
    exact ⟨word_eq_of_word64_eq hcovx hcovy, fun h => by rw [h]⟩
  exact ⟨_, _, hu, hv, hiff, fun h =>
    formPartialString_eq_of_word_eq out (hx.trans hy.symm) hcovx (hiff.mp h)⟩

include h63

/-- From `2 ^ 29` on another word is read, and the chosen one is free. -/
theorem not_wordInjective_of_ge (hwrap : 2 ^ 29 ≤ l) : ¬WordInjective out (some hash) l len := by
  rintro ⟨hash', heq, hinj⟩
  obtain rfl : hash = hash' := Option.some.inj heq
  obtain ⟨u, v, hu, hv, hiff, -⟩ := hinj (Str.ofWords len h63 (Function.update 0 l 1))
    (Str.ofWords len h63 0) (by simp) (by simp)
  rw [hhash _ (by simp), xxh3_1loc_eq hl (by simpa using hlen), Str.size_ofWords] at hu hv
  have hread : wordIndex l ≠ l := by
    have : wordIndex l < 2 ^ 29 := Nat.mod_lt _ (by decide)
    omega
  have hle : wordIndex l ≤ l := Nat.mod_le _ _
  rw [Str.word64_word_ofWords _ _ _ _ (by omega), Function.update_of_ne hread] at hu
  rw [Str.word64_word_ofWords _ _ _ _ (by omega)] at hv
  have hword := hiff.mp (Option.some.inj (hu.symm.trans hv))
  have hword64 := congrArg word64 hword
  rw [Str.word64_word_ofWords _ _ _ _ (by omega), Str.word64_word_ofWords _ _ _ _ (by omega),
    Function.update_self] at hword64
  rw [Pi.zero_apply] at hword64
  exact absurd hword64 (by decide)

theorem wordInjective_iff : WordInjective out (some hash) l len ↔ l < 2 ^ 29 := by
  constructor
  · intro h
    by_contra hwrap
    exact not_wordInjective_of_ge hl h63 hlen hhash (by omega) h
  · exact wordInjective_of_lt hl hlen hhash

end OneLocation

theorem hashXxh3_1locFixedS_eq {l : ℕ} (hl : l < 2 ^ 31) :
    hashXxh3_1locFixedS [(l : ℤ)] = some ((Locations.single l hl).fixed .xxh3) := rfl

theorem hashXxh3_1locS_eq {l : ℕ} (hl : l < 2 ^ 31) :
    hashXxh3_1locS [(l : ℤ)] = some ((Locations.single l hl).functor .xxh3) := rfl

/-- Both one-location functors are injective on the chosen word exactly when its byte offset
fits 32 bits. -/
theorem xxh3_1loc_wordInjective_iff (out : Str → ℤ → Vector Byte 8) (l : ℕ) (hl : l < 2 ^ 31) (len : ℕ)
    (h63 : len < 2 ^ 63) :
    (8 * l + 8 < len → (WordInjective out (hashXxh3_1locS [(l : ℤ)]) l len ↔ l < 2 ^ 29)) ∧
      (8 * l + 8 ≤ len → (WordInjective out (hashXxh3_1locFixedS [(l : ℤ)]) l len ↔ l < 2 ^ 29)) := by
  constructor
  · intro hlen
    rw [hashXxh3_1locS_eq hl]
    refine wordInjective_iff hl h63 (by omega) fun x hx => ?_
    exact Locations.functor_eq_fixed (by rw [hx]; exact hlen) .xxh3
  · intro hlen
    rw [hashXxh3_1locFixedS_eq hl]
    exact wordInjective_iff hl h63 (by omega) fun x _ => rfl

theorem xxh3_1loc_wordInjective_five :
    WordInjective (zeroFill 8) (hashXxh3_1locS [5]) 5 49 :=
  ((xxh3_1loc_wordInjective_iff (zeroFill 8) 5 (by decide) 49 (by decide)).1 (by decide)).mpr (by decide)

/-- Location `2 ^ 29` on keys of `2 ^ 32 + 9` bytes: the functor reads the first word. -/
theorem xxh3_1loc_not_wordInjective :
    ¬WordInjective (zeroFill 8) (hashXxh3_1locS [(2 ^ 29 : ℕ)]) (2 ^ 29) (2 ^ 32 + 9) := by
  have hl : 2 ^ 29 < 2 ^ 31 := by decide
  rw [hashXxh3_1locS_eq hl]
  refine not_wordInjective_of_ge hl (by decide) (by decide) (fun x hx => ?_) le_rfl
  exact Locations.functor_eq_fixed (by rw [hx, Locations.last_single]; decide) .xxh3

end EntropyLearnedHashing
