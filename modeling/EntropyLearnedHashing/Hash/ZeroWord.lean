import EntropyLearnedHashing.Hash.Words
import Mathlib.Tactic.IntervalCases
import Mathlib.Tactic.FinCases

/-! Keys with a zero word under the fixed wyhash functions. A word that enters a
product without a secret erases its partner when it is zero: the high half of a
single location, the third of three, and either of the first two of four. Every
other chosen word leaves each remaining one able to change the hash. -/

namespace EntropyLearnedHashing

open LittleEndian WordMix

/-- The fixed hash of `wyhash_customs.hh` over `n` locations. -/
def wyhashNlocFixed (n : ℕ) : List Byte → ℕ → List U32 → U64 → (Fin 4 → U64) → Option U64 :=
  match n with
  | 1 => wyhash1locFixed
  | 2 => wyhash2locFixed
  | 3 => wyhash3locFixed
  | _ => wyhash4locFixed

/-- One to four distinct words in any order, with byte offsets that fit an `unsigned int`. -/
structure ChosenWords where
  locs : List ℕ
  one_le : 1 ≤ locs.length
  le_four : locs.length ≤ 4
  nodup : locs.Nodup
  offset_lt : ∀ l ∈ locs, 8 * l < 2 ^ 32

/-! ### Parts of a key -/

namespace Str

/-- The bytes from `p.1` on, `p.2` of them. -/
def slice (s : Str) (p : ℕ × ℕ) : List Byte := (s.bytes.drop p.1).take p.2

/-- The bytes of the slice are inside the string and zero. -/
def ZeroAt (s : Str) (p : ℕ × ℕ) : Prop := s.slice p = List.replicate p.2 0

/-- Equal sizes and equal bytes outside the slice. -/
def DifferOnlyAt (x y : Str) (p : ℕ × ℕ) : Prop :=
  x.size = y.size ∧ ∀ k, ¬(p.1 ≤ k ∧ k < p.1 + p.2) → x.bytes[k]? = y.bytes[k]?

theorem differOnlyAt_word_iff {x y : Str} {l : ℕ} :
    DifferOnlyAt x y (8 * l, 8) ↔ DifferOnlyIn x y l := by
  have hword : ∀ k, ¬(8 * l ≤ k ∧ k < 8 * l + 8) ↔ k / 8 ≠ l := fun k => by omega
  simp only [DifferOnlyAt, DifferOnlyIn, hword]

theorem ZeroAt.word64_eq {s : Str} {l : ℕ} (h : s.ZeroAt (8 * l, 8)) : word64 (s.word l) = 0 := by
  have hslice : s.word l = List.replicate 8 0 := h
  rw [hslice]
  decide

/-- A word whose last four bytes are zero has no high half. -/
theorem ZeroAt.high_eq {s : Str} {l : ℕ} (hcov : s.Covers 8 l) (h : s.ZeroAt (8 * l + 4, 4)) :
    (word64 (s.word l) >>> 32).setWidth 32 = 0 := by
  have hdrop : (s.word l).drop 4 = List.replicate 4 0 := by
    rw [word, chunk, List.drop_take, List.drop_drop]
    exact h
  rw [← (word32_halves (length_word hcov)).2, hdrop]
  decide

end Str

/-- Start and width of the `i`-th chosen part of a key. A single word is read by halves. -/
def chosenPart (locs : List ℕ) (i : ℕ) : ℕ × ℕ :=
  match locs with
  | [l] => (8 * l + 4 * i, 4)
  | locs => (8 * locs.getD i 0, 8)

def numParts : List ℕ → ℕ
  | [_] => 2
  | locs => locs.length

namespace ChosenWords

variable (L : ChosenWords)

/-- The hash of a key, called with the default seed and secret. -/
def hash (s : Str) : Option U64 :=
  wyhashNlocFixed L.locs.length s.bytes s.size (L.locs.map fun l => byteOffset l) 0 wyp

/-- Two keys of length `len` with a zero part `i` that differ only in part `j` have different
hashes. -/
def ZeroPartKeeps (len i j : ℕ) : Prop :=
  ∃ x y : Str, x.size = len ∧ y.size = len ∧ x.ZeroAt (chosenPart L.locs i) ∧
    y.ZeroAt (chosenPart L.locs i) ∧ x.DifferOnlyAt y (chosenPart L.locs j) ∧
    ∃ u v, L.hash x = some u ∧ L.hash y = some v ∧ u ≠ v

/-- The part `i` enters a product without a secret, and `j` has no other way to the hash. -/
def Erases (n i j : ℕ) : Prop := n = 1 ∧ i = 1 ∨ n = 3 ∧ i = 2 ∨ n = 4 ∧ i < 2 ∧ j < 2

instance (n i j : ℕ) : Decidable (Erases n i j) := inferInstanceAs (Decidable (_ ∨ _))

/-- A choice by its number of words. -/
@[elab_as_elim]
theorem byCount {motive : ChosenWords → Prop}
    (one : ∀ a h₁ h₄ hd ho, motive ⟨[a], h₁, h₄, hd, ho⟩)
    (two : ∀ a b h₁ h₄ hd ho, motive ⟨[a, b], h₁, h₄, hd, ho⟩)
    (three : ∀ a b c h₁ h₄ hd ho, motive ⟨[a, b, c], h₁, h₄, hd, ho⟩)
    (four : ∀ a b c d h₁ h₄ hd ho, motive ⟨[a, b, c, d], h₁, h₄, hd, ho⟩)
    (L : ChosenWords) : motive L := by
  obtain ⟨locs, h₁, h₄, hd, ho⟩ := L
  match locs, h₁, h₄, hd, ho with
  | [a], h₁, h₄, hd, ho => exact one a h₁ h₄ hd ho
  | [a, b], h₁, h₄, hd, ho => exact two a b h₁ h₄ hd ho
  | [a, b, c], h₁, h₄, hd, ho => exact three a b c h₁ h₄ hd ho
  | [a, b, c, d], h₁, h₄, hd, ho => exact four a b c d h₁ h₄ hd ho

variable {L}

theorem toNat_offset {l : ℕ} (h : l ∈ L.locs) : (byteOffset l).toNat = 8 * l := by
  have := L.offset_lt l h
  rw [toNat_byteOffset, wordIndex_of_lt (by omega)]

theorem hash_eq {s : Str} (hcov : ∀ l ∈ L.locs, s.Covers 8 l) :
    L.hash s = some (wyhashOfWords s.size (L.locs.map fun l => word64 (s.word l))) := by
  have hload : ∀ l ∈ L.locs, load64 s.bytes (byteOffset l).toNat = some (word64 (s.word l)) ∧
      load32 s.bytes (byteOffset l).toNat = some ((word64 (s.word l)).setWidth 32) ∧
      load32 s.bytes ((byteOffset l).toNat + 4) =
        some ((word64 (s.word l) >>> 32).setWidth 32) := by
    intro l hl
    rw [toNat_offset hl]
    exact Str.loads_of_covers (hcov l hl)
  cases L using byCount <;>
    simp only [List.mem_cons, List.not_mem_nil, or_false, forall_eq_or_imp, forall_eq] at hload <;>
    simp [hash, wyhashNlocFixed, wyhash1locFixed, wyhash2locFixed, wyhash3locFixed,
      wyhash4locFixed, wyr4, wyr8, hload, wyhashOfWords]

/-! ### Words that are erased -/

theorem covers_of_size {s : Str} {len : ℕ} (hs : s.size = len)
    (hcov : ∀ l ∈ L.locs, 8 * (l + 1) ≤ len) : ∀ l ∈ L.locs, s.Covers 8 l := by
  subst hs
  exact hcov

/-- A zero factor makes the hashes of two such keys equal. -/
theorem not_zeroPartKeeps_of_erases {len i j : ℕ} (hcov : ∀ l ∈ L.locs, 8 * (l + 1) ≤ len)
    (h : Erases L.locs.length i j) :
    ¬L.ZeroPartKeeps len i j := by
  rintro ⟨x, y, hx, hy, hzx, hzy, hdiff, u, v, hu, hv, hne⟩
  apply hne
  have hcx := covers_of_size hx hcov
  have hcy := covers_of_size hy hcov
  rw [hash_eq hcx, Option.some.injEq] at hu
  rw [hash_eq hcy, Option.some.injEq] at hv
  rw [← hu, ← hv, hx, hy]
  cases L using byCount with
  | one a h₁ h₄ hd ho =>
    obtain rfl : i = 1 := by simpa [Erases] using h
    -- the high half meets a zero seed
    have hax := Str.ZeroAt.high_eq (hcx a (by simp)) hzx
    have hay := Str.ZeroAt.high_eq (hcy a (by simp)) hzy
    simp [wyhashOfWords, wymix, hax, hay]
  | two a b h₁ h₄ hd ho => simp [Erases] at h
  | three a b c h₁ h₄ hd ho =>
    obtain rfl : i = 2 := by simpa [Erases] using h
    have hcx' : word64 (x.word c) = 0 := Str.ZeroAt.word64_eq hzx
    have hcy' : word64 (y.word c) = 0 := Str.ZeroAt.word64_eq hzy
    simp [wyhashOfWords, wymix, hcx', hcy']
  | four a b c d h₁ h₄ hd ho =>
    obtain ⟨hi2, hj2⟩ : i < 2 ∧ j < 2 := by simpa [Erases] using h
    have hword : ∀ l, l ≠ [a, b, c, d].getD j 0 → x.word l = y.word l := fun l hl =>
      (Str.differOnlyAt_word_iff.mp hdiff).word_eq hl
    have hzx' := Str.ZeroAt.word64_eq hzx
    have hzy' := Str.ZeroAt.word64_eq hzy
    simp only [List.nodup_cons, List.mem_cons, List.not_mem_nil, not_or, or_false, not_false_iff,
      List.nodup_nil, and_true] at hd
    have hc : x.word c = y.word c := hword c (by interval_cases j <;> simp <;> omega)
    have hd' : x.word d = y.word d := hword d (by interval_cases j <;> simp <;> omega)
    interval_cases i <;> simp at hzx' hzy' <;>
      simp [wyhashOfWords, wymix, hzx', hzy', hc, hd']

/-! ### Words that are kept -/

/-- Values of the chosen words, the `i`-th of them zero, and a new value for the `j`-th. Every
factor other than the changed one is the exclusive or of its secret with zero or one. -/
def keptWords (n i j : ℕ) : List U64 × U64 :=
  match n, i, j with
  | 2, 0, _ => ([0, wyp 0], wyp 0 ^^^ 1)
  | 2, _, _ => ([wyp 1, 0], wyp 1 ^^^ 1)
  | 3, 0, 1 => ([0, wyp 0, 1], wyp 0 ^^^ 1)
  | 3, 0, _ => ([0, wyp 0 ^^^ 1, 0], 1)
  | 3, _, 0 => ([wyp 1, 0, 1], wyp 1 ^^^ 1)
  | 3, _, _ => ([wyp 1 ^^^ 1, 0, 0], 1)
  | 4, 2, 0 => ([0, 1, 0, wyp 0], 1)
  | 4, 2, 1 => ([1, 0, 0, wyp 0], 1)
  | 4, 2, _ => ([0, 0, 0, wyp 0], wyp 0 ^^^ 1)
  | 4, 3, 0 => ([0, 1, wyp 2, 0], 1)
  | 4, 3, 1 => ([1, 0, wyp 2, 0], 1)
  | 4, 3, _ => ([0, 0, wyp 2, 0], wyp 2 ^^^ 1)
  | 4, _, 2 => ([0, 0, wyp 2, wyp 0 ^^^ 1], wyp 2 ^^^ 1)
  | _, _, _ => ([0, 0, wyp 2 ^^^ 1, wyp 0], wyp 0 ^^^ 1)

/-- No key is long enough to cancel the secret it is mixed with. -/
theorem secret_ne_length {len : ℕ} (h63 : len < 2 ^ 63) : wyp 1 ≠ BitVec.ofNat 64 len := by
  intro h
  have hnat := congrArg BitVec.toNat h
  have hsecret : (wyp 1).toNat = 0xe7037ed1a0b428db := rfl
  rw [hsecret, BitVec.toNat_ofNat] at hnat
  omega

theorem secret_coprime (k : Fin 4) : Nat.Coprime (2 ^ 64 + 1) (wyp k).toNat := by
  fin_cases k <;> decide +kernel

theorem fold64_length_secret_ne {len : ℕ} (h63 : len < 2 ^ 63) (k : Fin 4) :
    fold64 (wyp 1 ^^^ BitVec.ofNat 64 len) (wyp k) ≠ 0#64 :=
  fold64_ne_zero (by simpa using secret_ne_length h63) (secret_coprime k)

theorem keptWords_spec {n i j len : ℕ} (h63 : len < 2 ^ 63) (hn : 2 ≤ n) (hn4 : n ≤ 4) (hi : i < n)
    (hj : j < n) (hij : i ≠ j) (h : ¬Erases n i j) :
    (keptWords n i j).1.length = n ∧ (keptWords n i j).1[i]? = some 0 ∧
      wyhashOfWords len ((keptWords n i j).1.set j (keptWords n i j).2) ≠
        wyhashOfWords len (keptWords n i j).1 := by
  interval_cases n <;> interval_cases i <;> interval_cases j <;>
    first
    | exact absurd rfl hij
    | exact absurd (by decide) h
    | refine ⟨rfl, rfl, ?_⟩
      simp [keptWords, wyhashOfWords, wymix, fold64_length_secret_ne h63, secret_ne_length h63]

theorem hash_ofWords {len : ℕ} (h63 : len < 2 ^ 63) (hcov : ∀ l ∈ L.locs, 8 * (l + 1) ≤ len)
    (f : ℕ → U64) :
    L.hash (Str.ofWords len h63 f) = some (wyhashOfWords len (L.locs.map f)) := by
  rw [hash_eq (covers_of_size (Str.size_ofWords len h63 f) hcov), Str.size_ofWords]
  congr 2
  apply List.map_congr_left
  intro l hl
  exact Str.word64_word_ofWords len h63 f l (hcov l hl)

theorem zeroAt_ofWords {len l : ℕ} (h63 : len < 2 ^ 63) (hl : 8 * (l + 1) ≤ len) {f : ℕ → U64}
    (hf : f l = 0) : (Str.ofWords len h63 f).ZeroAt (8 * l, 8) := by
  have hchunk : chunk 8 (pack len f) l = leBytes 8 (f l).toNat := chunk_pack len f l hl
  rw [hf] at hchunk
  exact hchunk

theorem chosenPart_eq {locs : List ℕ} (h : 2 ≤ locs.length) {i : ℕ} (hi : i < locs.length) :
    chosenPart locs i = (8 * locs[i], 8) := by
  have hget : locs[i] = locs.getD i 0 := by simp [hi]
  rw [hget]
  match locs, h with
  | _ :: _ :: _, _ => rfl

/-- Keys with any values in the chosen words, changed in one of them. -/
theorem zeroPartKeeps_of_words {len i j : ℕ} (h63 : len < 2 ^ 63)
    (hcov : ∀ l ∈ L.locs, 8 * (l + 1) ≤ len) (hn : 2 ≤ L.locs.length) (hi : i < L.locs.length)
    (hj : j < L.locs.length) (hij : i ≠ j) {ws : List U64} (v : U64)
    (hlen : ws.length = L.locs.length) (hzero : ws[i]? = some 0)
    (hne : wyhashOfWords len (ws.set j v) ≠ wyhashOfWords len ws) : L.ZeroPartKeeps len i j := by
  obtain ⟨f, rfl⟩ := Locations.exists_map_eq L.nodup hlen
  have hset : L.locs.map (Function.update f L.locs[j] v) = (L.locs.map f).set j v := by
    rw [L.nodup.map_update, if_pos (List.getElem_mem hj), L.nodup.idxOf_getElem j hj]
  have hfi : f L.locs[i] = 0 := by simpa [hi] using hzero
  have hupdate : Function.update f L.locs[j] v L.locs[i] = 0 := by
    rw [Function.update_of_ne, hfi]
    intro h
    exact hij ((L.nodup.getElem_inj_iff).mp h)
  have hcovi := hcov L.locs[i] (List.getElem_mem hi)
  rw [← hset] at hne
  refine ⟨Str.ofWords len h63 (Function.update f L.locs[j] v), Str.ofWords len h63 f,
    Str.size_ofWords .., Str.size_ofWords .., ?_, ?_, ?_, _, _, hash_ofWords h63 hcov _,
    hash_ofWords h63 hcov _, hne⟩
  · rw [chosenPart_eq hn hi]
    exact zeroAt_ofWords h63 hcovi hupdate
  · rw [chosenPart_eq hn hi]
    exact zeroAt_ofWords h63 hcovi hfi
  · rw [chosenPart_eq hn hj, Str.differOnlyAt_word_iff]
    exact Str.ofWords_update_differOnlyIn len h63 f _ v

/-- A packed word with a zero low half. -/
theorem zeroAt_low_ofWords {len l : ℕ} (h63 : len < 2 ^ 63) (hl : 8 * (l + 1) ≤ len) {f : ℕ → U64}
    (hf : (leBytes 8 (f l).toNat).take 4 = List.replicate 4 0) :
    (Str.ofWords len h63 f).ZeroAt (8 * l, 4) := by
  rw [← chunk_pack len f l hl, chunk, List.take_take] at hf
  exact hf

/-- Two strings that differ only in one word and agree on its low half. -/
theorem differOnlyAt_high {x y : Str} {l : ℕ} (h : x.DifferOnlyIn y l)
    (hlow : x.slice (8 * l, 4) = y.slice (8 * l, 4)) : x.DifferOnlyAt y (8 * l + 4, 4) := by
  refine ⟨h.1, fun k hk => ?_⟩
  by_cases hword : k / 8 = l
  · have hget := congrArg (·[k - 8 * l]?) hlow
    have hk' : k - 8 * l < 4 := by omega
    have hsum : 8 * l + (k - 8 * l) = k := by omega
    simpa [Str.slice, List.getElem?_take, List.getElem?_drop, hk', hsum] using hget
  · exact h.2 k hword

/-- Two keys whose single chosen word has a zero low half. -/
theorem zeroPartKeeps_low {len : ℕ} (h63 : len < 2 ^ 63) (hcov : ∀ l ∈ L.locs, 8 * (l + 1) ≤ len)
    {a : ℕ} (ha : L.locs = [a]) : L.ZeroPartKeeps len 0 1 := by
  have hcova : 8 * (a + 1) ≤ len := hcov a (by simp [ha])
  let f : ℕ → U64 := fun _ => 0
  let g : ℕ → U64 := Function.update f a (1 <<< 32)
  have hg : g a = 1 <<< 32 := Function.update_self ..
  have hzg : (Str.ofWords len h63 g).ZeroAt (8 * a, 4) :=
    zeroAt_low_ofWords h63 hcova (by rw [hg]; decide)
  have hzf : (Str.ofWords len h63 f).ZeroAt (8 * a, 4) :=
    zeroAt_low_ofWords h63 hcova (by decide)
  refine ⟨Str.ofWords len h63 g, Str.ofWords len h63 f, Str.size_ofWords .., Str.size_ofWords ..,
    ?_, ?_, ?_, _, _, hash_ofWords h63 hcov _, hash_ofWords h63 hcov _, ?_⟩
  · rwa [ha]
  · rwa [ha]
  · rw [ha]
    exact differOnlyAt_high (Str.ofWords_update_differOnlyIn len h63 f a _) (hzg.trans hzf.symm)
  · rw [ha, List.map_singleton, List.map_singleton, hg]
    simp [wyhashOfWords, wymix, f, fold64_length_secret_ne h63]

/-- A zero part keeps another chosen part able to change the hash exactly when it does not
enter its product without a secret. -/
theorem zeroPartKeeps_iff {len i j : ℕ} (h63 : len < 2 ^ 63)
    (hcov : ∀ l ∈ L.locs, 8 * (l + 1) ≤ len) (hi : i < numParts L.locs) (hj : j < numParts L.locs)
    (hij : i ≠ j) : L.ZeroPartKeeps len i j ↔ ¬Erases L.locs.length i j := by
  refine ⟨fun hkeeps herases => not_zeroPartKeeps_of_erases hcov herases hkeeps, fun h => ?_⟩
  rcases Nat.lt_or_ge L.locs.length 2 with hn | hn
  · have hone : L.locs.length = 1 := le_antisymm (by omega) L.one_le
    obtain ⟨a, ha⟩ := List.length_eq_one_iff.mp hone
    simp only [ha, numParts] at hi hj
    have hi1 : i ≠ 1 := fun hi1 => h (.inl ⟨hone, hi1⟩)
    obtain ⟨rfl, rfl⟩ : i = 0 ∧ j = 1 := by omega
    exact zeroPartKeeps_low h63 hcov ha
  · have hparts : numParts L.locs = L.locs.length := by
      match L.locs, hn with
      | _ :: _ :: _, _ => rfl
    rw [hparts] at hi hj
    obtain ⟨hlen, hzero, hne⟩ := keptWords_spec h63 hn L.le_four hi hj hij h
    exact zeroPartKeeps_of_words h63 hcov hn hi hj hij _ hlen hzero hne

/-- The first three words of a key, in order. -/
def threeWords : ChosenWords := ⟨[0, 1, 2], by decide, by decide, by decide, by decide⟩

theorem threeWords_first_keeps_third : threeWords.ZeroPartKeeps 24 0 2 :=
  (zeroPartKeeps_iff (by decide) (by decide) (by decide) (by decide) (by decide)).mpr (by decide)

/-- A zero third word erases the first. -/
theorem threeWords_third_erases_first : ¬threeWords.ZeroPartKeeps 24 2 0 :=
  not_zeroPartKeeps_of_erases (by decide) (by decide)

end ChosenWords

end EntropyLearnedHashing
