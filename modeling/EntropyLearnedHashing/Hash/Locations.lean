import EntropyLearnedHashing.Hash.Customs

/-! Sorted location lists and the functors built from them. A byte offset is a
32-bit product, so a location reaches the word with its residue modulo `2 ^ 29`.
The functor of variable length is the fixed one behind a guard on the length. -/

namespace EntropyLearnedHashing

open LittleEndian

/-- One to four distinct non-negative `int` locations in increasing order. -/
structure Locations where
  locs : List ℕ
  one_le : 1 ≤ locs.length
  le_four : locs.length ≤ 4
  increasing : locs.Pairwise (· < ·)
  int_range : ∀ l ∈ locs, l < 2 ^ 31

/-- Three locations, no two of them adjacent. -/
def gapLocations : Locations := ⟨[0, 2, 4], by decide, by decide, by decide, by decide⟩

/-! ### Byte offsets -/

/-- The word that the 32-bit byte offset of a location reaches. -/
def wordIndex (l : ℕ) : ℕ := l % 2 ^ 29

theorem wordIndex_of_lt {l : ℕ} (h : l < 2 ^ 29) : wordIndex l = l := Nat.mod_eq_of_lt h

theorem toNat_byteOffset (l : ℕ) : (byteOffset l).toNat = 8 * wordIndex l := by
  simp only [byteOffset, wordIndex, BitVec.ofInt_natCast, BitVec.ofNat_eq_ofNat, BitVec.toNat_mul,
    BitVec.toNat_ofNat]
  omega

theorem toNat_endpoint (l : ℕ) : (endpoint l).toNat = (8 * l + 8) % 2 ^ 32 := by
  simp only [endpoint, BitVec.ofInt_natCast, BitVec.ofNat_eq_ofNat, BitVec.toNat_mul,
    BitVec.toNat_add, BitVec.toNat_ofNat]
  omega

/-- Dropping the high bits never moves the endpoint up. -/
theorem toNat_endpoint_le (l : ℕ) : (endpoint l).toNat ≤ 8 * l + 8 := by
  rw [toNat_endpoint]; exact Nat.mod_le _ _

theorem toNat_endpoint_of_lt {l : ℕ} (h : 8 * (l + 1) < 2 ^ 31) :
    (endpoint l).toNat = 8 * (l + 1) := by
  rw [toNat_endpoint, Nat.mod_eq_of_lt (by omega)]; ring

/-! ### The functors of a location list -/

namespace Locations

/-- A location list by its length, with its order written out. -/
@[elab_as_elim]
theorem byLength {motive : Locations → Prop}
    (one : ∀ a h₁ h₄ hs hr, motive ⟨[a], h₁, h₄, hs, hr⟩)
    (two : ∀ a b h₁ h₄ hs hr, a < b → motive ⟨[a, b], h₁, h₄, hs, hr⟩)
    (three : ∀ a b c h₁ h₄ hs hr, a < b → b < c → motive ⟨[a, b, c], h₁, h₄, hs, hr⟩)
    (four : ∀ a b c d h₁ h₄ hs hr, a < b → b < c → c < d →
      motive ⟨[a, b, c, d], h₁, h₄, hs, hr⟩)
    (L : Locations) : motive L := by
  obtain ⟨locs, h₁, h₄, hs, hr⟩ := L
  match locs, h₁, h₄, hs, hr with
  | [a], h₁, h₄, hs, hr => exact one a h₁ h₄ hs hr
  | [a, b], h₁, h₄, hs, hr => exact two a b h₁ h₄ hs hr (by simpa using hs)
  | [a, b, c], h₁, h₄, hs, hr =>
    have ⟨⟨hab, _⟩, hbc⟩ : (a < b ∧ a < c) ∧ b < c := by simpa using hs
    exact three a b c h₁ h₄ hs hr hab hbc
  | [a, b, c, d], h₁, h₄, hs, hr =>
    have ⟨⟨hab, _, _⟩, ⟨hbc, _⟩, hcd⟩ : (a < b ∧ a < c ∧ a < d) ∧ (b < c ∧ b < d) ∧ c < d := by
      simpa using hs
    exact four a b c d h₁ h₄ hs hr hab hbc hcd

/-- The `int` array handed to the functor. -/
def ints (L : Locations) : List ℤ := L.locs.map Nat.cast

/-- The last and largest location. -/
def last (L : Locations) : ℕ := L.locs.getLastD 0

theorem le_last (L : Locations) : ∀ l ∈ L.locs, l ≤ L.last := by
  cases L using byLength <;> simp [last] <;> omega

/-- The arrays have enough entries, and the variable functor is the guarded fixed one. -/
theorem functors_spec (L : Locations) (fam : Family) :
    ∃ functor fixed, fam.nlocS L.locs.length L.ints = some functor ∧
      fam.nlocFixedS L.locs.length L.ints = some fixed ∧
      ∀ s, functor s = if fam.Guard (endpoint L.last) s.size then fixed s else fam.fullKey s := by
  cases L using byLength <;> cases fam <;> exact ⟨_, _, rfl, rfl, fun s => rfl⟩

/-- The functor of variable length. -/
def functor (L : Locations) (fam : Family) : HashFunctor :=
  fun s => (fam.nlocS L.locs.length L.ints).bind (· s)

/-- The functor of fixed length. -/
def fixed (L : Locations) (fam : Family) : HashFunctor :=
  fun s => (fam.nlocFixedS L.locs.length L.ints).bind (· s)

theorem functor_eq (L : Locations) (fam : Family) (s : Str) :
    L.functor fam s = if fam.Guard (endpoint L.last) s.size then L.fixed fam s
      else fam.fullKey s := by
  obtain ⟨functor, fixed, h₁, h₂, h⟩ := L.functors_spec fam
  simp only [Locations.functor, Locations.fixed, h₁, h₂, Option.bind_some, h s]

end Locations

end EntropyLearnedHashing
