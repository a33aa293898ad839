import EntropyLearnedHashing.Hash.PartialKey

/-! What the XXH3 functors depend on. The one- and two-location hashes read the
chosen words. With three and four locations the hash reads 16 bytes at two of the
locations, so it sees the chosen words and no others only when these pairs are
adjacent. A word that is read can always be made to matter: the other factor of
its folded product is set to one and the remaining product to zero. -/

namespace EntropyLearnedHashing

open LittleEndian WordMix

namespace Locations

/-- Keys of length `len` that agree on the chosen words have equal hashes, and each
chosen word alone can change the hash. -/
def DependsOnChosen (L : Locations) (fam : Family) (len : ℕ) : Prop :=
  (∀ x y : Str, x.size = len → y.size = len → (∀ l ∈ L.locs, x.word l = y.word l) →
    L.functor fam x = L.functor fam y) ∧
  ∀ l ∈ L.locs, ∃ x y : Str, x.size = len ∧ y.size = len ∧ x.DifferOnlyIn y l ∧
    L.functor fam x ≠ L.functor fam y

/-- The words that XXH3 reads are the chosen ones: no 32-bit offset wraps, and every
16-byte read covers two adjacent chosen words. -/
def ReadsChosen (L : Locations) : Prop :=
  match L.locs with
  | [a] => a < 2 ^ 29
  | [_, b] => b < 2 ^ 29
  | [a, b, c] => b = a + 1 ∧ c = b + 1 ∧ b < 2 ^ 29
  | [a, b, c, d] => b = a + 1 ∧ d = c + 1 ∧ c < 2 ^ 29
  | _ => False

/-- A chosen word that is not read cannot change the hash. -/
theorem mem_readWords_of_dependsOnChosen {L : Locations} {fam : Family} {len : ℕ}
    (hlen : 8 * L.last + 8 < len) (h : L.DependsOnChosen fam len) :
    ∀ l ∈ L.locs, l ∈ L.readWords fam := by
  intro l hl
  by_contra hr
  obtain ⟨x, y, hx, hy, hdiff, hne⟩ := h.2 l hl
  refine hne (functor_congr (by omega) (by omega) fun r hmem => hdiff.word_eq ?_)
  rintro rfl
  exact hr hmem

/-! ### Words that matter -/

theorem xxh3Word_ne (len : ℕ) (a : U64) : xxh3Word len (a ^^^ 1#64) ≠ xxh3Word len a := by
  intro h
  have hxor := (BitVec.add_left_inj _).mp (xxh3Avalanche_injective h)
  exact xor_one_ne_self a ((BitVec.xor_left_inj _).mp hxor)

/-- The bits that `XXH3_2loc_fixed` flips in its two words. -/
def bitflip1 : U64 := secret64 xxh3KSecret 24 ^^^ secret64 xxh3KSecret 32

def bitflip2 : U64 := secret64 xxh3KSecret 40 ^^^ secret64 xxh3KSecret 48

theorem xxh3TwoWords_ne_left (len : ℕ) :
    xxh3TwoWords len (bitflip1 ^^^ 1#64) bitflip2 ≠ xxh3TwoWords len bitflip1 bitflip2 := by
  intro h
  have hsum := xxh3Avalanche_injective h
  rw [← bitflip1, ← bitflip2, xor_xor_cancel_comm, BitVec.xor_self, BitVec.xor_self] at hsum
  simp only [fold64_zero_right, BitVec.add_left_inj, BitVec.add_right_inj] at hsum
  exact absurd hsum (by decide)

theorem xxh3TwoWords_ne_right (len : ℕ) :
    xxh3TwoWords len bitflip1 (bitflip2 ^^^ 1#64) ≠ xxh3TwoWords len bitflip1 bitflip2 := by
  intro h
  have hsum := xxh3Avalanche_injective h
  rw [← bitflip1, ← bitflip2, xor_xor_cancel_comm, BitVec.xor_self, BitVec.xor_self] at hsum
  simp only [fold64_zero_left, BitVec.add_left_inj, BitVec.add_right_inj] at hsum
  exact absurd hsum (by decide)

/-- With the partner at one, a factor passes through its folded product. -/
theorem xxh3TwoPairs_ne_first (len : ℕ) (a b b' : U64) :
    xxh3TwoPairs len (a ^^^ 1#64) (secret64 xxh3KSecret 8 ^^^ 1#64) b b' ≠
      xxh3TwoPairs len a (secret64 xxh3KSecret 8 ^^^ 1#64) b b' := by
  unfold xxh3TwoPairs
  rw [xor_xor_cancel_comm, fold64_one_right, fold64_one_right]
  simp only [ne_eq, BitVec.add_left_inj, BitVec.add_right_inj, BitVec.xor_left_inj]
  exact xor_one_ne_self a

theorem xxh3TwoPairs_ne_second (len : ℕ) (a' b b' : U64) :
    xxh3TwoPairs len (secret64 xxh3KSecret 0 ^^^ 1#64) (a' ^^^ 1#64) b b' ≠
      xxh3TwoPairs len (secret64 xxh3KSecret 0 ^^^ 1#64) a' b b' := by
  unfold xxh3TwoPairs
  rw [xor_xor_cancel_comm, fold64_one_left, fold64_one_left]
  simp only [ne_eq, BitVec.add_left_inj, BitVec.add_right_inj, BitVec.xor_left_inj]
  exact xor_one_ne_self a'

theorem xxh3TwoPairs_ne_third (len : ℕ) (a a' b : U64) :
    xxh3TwoPairs len a a' (b ^^^ 1#64) (secret64 xxh3KSecret 24 ^^^ 1#64) ≠
      xxh3TwoPairs len a a' b (secret64 xxh3KSecret 24 ^^^ 1#64) := by
  unfold xxh3TwoPairs
  rw [xor_xor_cancel_comm, fold64_one_right, fold64_one_right]
  simp only [ne_eq, BitVec.add_right_inj, BitVec.xor_left_inj]
  exact xor_one_ne_self b

theorem xxh3TwoPairs_ne_fourth (len : ℕ) (a a' b' : U64) :
    xxh3TwoPairs len a a' (secret64 xxh3KSecret 16 ^^^ 1#64) (b' ^^^ 1#64) ≠
      xxh3TwoPairs len a a' (secret64 xxh3KSecret 16 ^^^ 1#64) b' := by
  unfold xxh3TwoPairs
  rw [xor_xor_cancel_comm, fold64_one_left, fold64_one_left]
  simp only [ne_eq, BitVec.add_right_inj, BitVec.xor_left_inj]
  exact xor_one_ne_self b'

/-- A word that ends the first pair and starts the second one: a zero partner removes
the second product. -/
theorem xxh3TwoPairs_ne_shared (len : ℕ) (b : U64) :
    xxh3TwoPairs len (secret64 xxh3KSecret 0 ^^^ 1#64) (b ^^^ 1#64) (b ^^^ 1#64) (secret64 xxh3KSecret 24) ≠
      xxh3TwoPairs len (secret64 xxh3KSecret 0 ^^^ 1#64) b b (secret64 xxh3KSecret 24) := by
  unfold xxh3TwoPairs
  rw [xor_xor_cancel_comm, fold64_one_left, fold64_one_left, BitVec.xor_self]
  simp only [fold64_zero_right, ne_eq, BitVec.add_left_inj, BitVec.add_right_inj,
    BitVec.xor_left_inj]
  exact xor_one_ne_self b

/-- Every chosen word that is read can change the hash. -/
theorem exists_update_ne {L : Locations} (h : L.ReadsChosen) (len : ℕ) :
    ∀ l ∈ L.locs, ∃ f v, L.hashOfWords .xxh3 len (Function.update f l v) ≠ L.hashOfWords .xxh3 len f := by
  cases L using byLength <;>
    simp only [ReadsChosen] at h <;>
    simp only [List.mem_cons, List.not_mem_nil, or_false, forall_eq_or_imp, forall_eq, hashOfWords,
      Family.ofWords, xxh3OfWords, readWords, List.map_cons, List.map_nil]
  case one a _ _ _ _ =>
    refine ⟨fun _ => 0, 0 ^^^ 1#64, ?_⟩
    simpa only [wordIndex_of_lt h, Function.update_self] using xxh3Word_ne len 0
  case two a b _ _ _ _ hlt =>
    have ha : wordIndex a = a := wordIndex_of_lt (by omega)
    have hb : wordIndex b = b := wordIndex_of_lt h
    have hab : a ≠ b := by omega
    rw [ha, hb]
    -- both factors of the folded product start at zero
    refine ⟨⟨Function.update (fun _ => bitflip1) b bitflip2, bitflip1 ^^^ 1#64, ?_⟩,
      Function.update (fun _ => bitflip1) b bitflip2, bitflip2 ^^^ 1#64, ?_⟩
    · simpa [hab, hab.symm] using xxh3TwoWords_ne_left len
    · simpa [hab, hab.symm] using xxh3TwoWords_ne_right len
  case three a b c _ _ _ _ _ _ =>
    obtain ⟨rfl, rfl, hlt⟩ := h
    have ha : wordIndex a = a := wordIndex_of_lt (by omega)
    have n₁ : a + 1 ≠ a := by omega
    have n₂ : a + 1 + 1 ≠ a := by omega
    have n₃ : a + 1 + 1 ≠ a + 1 := by omega
    rw [ha, wordIndex_of_lt hlt]
    refine ⟨⟨Function.update (fun _ => 0) (a + 1) (secret64 xxh3KSecret 8 ^^^ 1#64), 0 ^^^ 1#64, ?_⟩,
      ⟨Function.update (Function.update (fun _ => 0) a (secret64 xxh3KSecret 0 ^^^ 1#64)) (a + 1 + 1)
        (secret64 xxh3KSecret 24), 0 ^^^ 1#64, ?_⟩,
      Function.update (fun _ => 0) (a + 1) (secret64 xxh3KSecret 16 ^^^ 1#64), 0 ^^^ 1#64, ?_⟩ <;>
      simp only [Function.update_self, Function.update_of_ne, n₁, n₁.symm, n₂, n₂.symm, n₃,
        n₃.symm, ne_eq, not_false_eq_true]
    · exact xxh3TwoPairs_ne_first len 0 _ _
    · exact xxh3TwoPairs_ne_shared len 0
    · exact xxh3TwoPairs_ne_fourth len _ _ 0
  case four a b c d _ _ _ _ _ _ _ =>
    obtain ⟨rfl, rfl, hlt⟩ := h
    have ha : wordIndex a = a := wordIndex_of_lt (by omega)
    have n₁ : a + 1 ≠ a := by omega
    have n₂ : c ≠ a := by omega
    have n₃ : c + 1 ≠ a := by omega
    have n₄ : c ≠ a + 1 := by omega
    have n₅ : c + 1 ≠ a + 1 := by omega
    have n₆ : c + 1 ≠ c := by omega
    rw [ha, wordIndex_of_lt hlt]
    refine ⟨⟨Function.update (fun _ => 0) (a + 1) (secret64 xxh3KSecret 8 ^^^ 1#64), 0 ^^^ 1#64, ?_⟩,
      ⟨Function.update (fun _ => 0) a (secret64 xxh3KSecret 0 ^^^ 1#64), 0 ^^^ 1#64, ?_⟩,
      ⟨Function.update (fun _ => 0) (c + 1) (secret64 xxh3KSecret 24 ^^^ 1#64), 0 ^^^ 1#64, ?_⟩,
      Function.update (fun _ => 0) c (secret64 xxh3KSecret 16 ^^^ 1#64), 0 ^^^ 1#64, ?_⟩ <;>
      simp only [Function.update_self, Function.update_of_ne, n₁, n₁.symm, n₂, n₂.symm, n₃,
        n₃.symm, n₄, n₄.symm, n₅, n₅.symm, n₆, n₆.symm, ne_eq, not_false_eq_true]
    · exact xxh3TwoPairs_ne_first len 0 _ _
    · exact xxh3TwoPairs_ne_second len 0 _ _
    · exact xxh3TwoPairs_ne_third len _ _ 0
    · exact xxh3TwoPairs_ne_fourth len _ _ 0

/-- With three locations, a gap after the first one is read as well. -/
theorem exists_update_ne_of_gap {L : Locations} {a b : ℕ} (hlocs : L.locs = [a, b, b + 1])
    (hab : a + 1 < b) (hb : b < 2 ^ 29) (len : ℕ) :
    ∃ f v, L.hashOfWords .xxh3 len (Function.update f (a + 1) v) ≠ L.hashOfWords .xxh3 len f := by
  have n₁ : a ≠ a + 1 := by omega
  have n₂ : b ≠ a + 1 := by omega
  have n₃ : b + 1 ≠ a + 1 := by omega
  refine ⟨Function.update (fun _ => 0) a (secret64 xxh3KSecret 0 ^^^ 1#64), 0 ^^^ 1#64, ?_⟩
  simp only [hashOfWords, Family.ofWords, xxh3OfWords, readWords, hlocs, List.map_cons, List.map_nil,
    wordIndex_of_lt (show a < 2 ^ 29 by omega), wordIndex_of_lt hb, Function.update_self,
    Function.update_of_ne, n₁, n₁.symm, n₂, n₃, ne_eq, not_false_eq_true]
  exact xxh3TwoPairs_ne_second len 0 _ _

/-! ### When the hash depends on exactly the chosen words -/

theorem mem_locs_of_readsChosen {L : Locations} (h : L.ReadsChosen) :
    ∀ r ∈ L.readWords .xxh3, r ∈ L.locs := by
  cases L using byLength <;>
    simp only [ReadsChosen] at h <;>
    simp only [readWords, wordIndex, List.map_cons, List.map_nil, List.mem_cons, List.not_mem_nil,
      or_false, forall_eq_or_imp, forall_eq] <;>
    omega

/-- If every chosen word is read then only a gap among three locations is left. -/
theorem readsChosen_or_gap {L : Locations} (h : ∀ l ∈ L.locs, l ∈ L.readWords .xxh3) :
    L.ReadsChosen ∨ ∃ a b, L.locs = [a, b, b + 1] ∧ a + 1 < b ∧ b < 2 ^ 29 := by
  cases L using byLength <;>
    simp only [readWords, wordIndex, List.map_cons, List.map_nil, List.mem_cons, List.not_mem_nil,
      or_false, forall_eq_or_imp, forall_eq] at h
  case one a _ _ _ _ => left; show a < 2 ^ 29; omega
  case two a b _ _ _ _ _ => left; show b < 2 ^ 29; omega
  case three a b c _ _ _ _ _ _ =>
    obtain rfl | hne := eq_or_ne b (a + 1)
    · left; show a + 1 = a + 1 ∧ c = a + 1 + 1 ∧ a + 1 < 2 ^ 29; omega
    · right
      obtain rfl : c = b + 1 := by omega
      exact ⟨a, b, rfl, by omega, by omega⟩
  case four a b c d _ _ _ _ _ _ _ => left; show b = a + 1 ∧ d = c + 1 ∧ c < 2 ^ 29; omega

/-- XXH3 depends on exactly the chosen words if and only if it reads exactly these. -/
theorem xxh3_dependsOnChosen_iff (L : Locations) (len : ℕ) (h63 : len < 2 ^ 63)
    (hlen : 8 * L.last + 8 < len) : L.DependsOnChosen .xxh3 len ↔ L.ReadsChosen := by
  constructor
  · intro h
    rcases readsChosen_or_gap (mem_readWords_of_dependsOnChosen hlen h) with
      hreads | ⟨a, b, hlocs, hab, hb⟩
    · exact hreads
    · exfalso
      obtain ⟨f, v, hne⟩ := exists_update_ne_of_gap hlocs hab hb len
      obtain ⟨x, y, hx, hy, hdiff, hxy⟩ := exists_differOnlyIn L .xxh3 h63 hlen f v hne
      refine hxy (h.1 x y hx hy fun l hl => hdiff.word_eq ?_)
      rw [hlocs] at hl
      simp only [List.mem_cons, List.not_mem_nil, or_false] at hl
      omega
  · intro h
    refine ⟨fun x y hx hy hword => ?_, fun l hl => ?_⟩
    · exact functor_congr (by omega) (by omega) fun r hr => hword r (mem_locs_of_readsChosen h r hr)
    · obtain ⟨f, v, hne⟩ := exists_update_ne h len l hl
      exact exists_differOnlyIn L .xxh3 h63 hlen f v hne

/-- Two adjacent words and a third one behind them are read as they are chosen. -/
theorem run_of_three_dependsOnChosen :
    (Locations.mk [0, 1, 2] (by decide) (by decide) (by decide) (by decide)).DependsOnChosen
      .xxh3 25 :=
  (xxh3_dependsOnChosen_iff _ 25 (by norm_num) (by decide)).mpr ⟨rfl, rfl, by norm_num⟩

/-- Words 0, 2 and 4 are chosen, words 0 to 3 are read. -/
theorem gapLocations_not_dependsOnChosen : ¬ gapLocations.DependsOnChosen .xxh3 41 := by
  intro h
  have hmem := mem_readWords_of_dependsOnChosen (by decide) h 4 (by decide)
  exact absurd hmem (by decide)

end Locations

end EntropyLearnedHashing
