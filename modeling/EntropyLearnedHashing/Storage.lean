import EntropyLearnedHashing.Library.BinaryRounding
import EntropyLearnedHashing.Str
import Mathlib.Data.List.Basic

/-! `storage.cpp`: the lines of a file and their split into inserted and uninserted keys.
The number of inserted keys is computed in single precision. -/

namespace EntropyLearnedHashing

open LittleEndian BinaryRounding

/-! ### Single and double precision -/

/-- The nearest `float`. -/
def toFloat (x : ℚ) : ℚ := round 24 (-149) x

/-- The nearest `double`. -/
def toDouble (x : ℚ) : ℚ := round 53 (-1074) x

theorem toDouble_natCast_of_lt {n : ℕ} (hn : n < 2 ^ 53) : toDouble n = n :=
  round_natCast_of_lt (by norm_num) (by norm_num) hn

theorem toFloat_two_pow (b : ℕ) : toFloat ((2 ^ b : ℕ) : ℚ) = 2 ^ b := by
  have h : toFloat (2 ^ (b : ℤ)) = 2 ^ (b : ℤ) := round_zpow (by norm_num) (by omega)
  rw [zpow_natCast] at h
  exact_mod_cast h

/-- A `float` in `[0, 1]`. -/
structure Fraction where
  value : ℚ
  isFloat : toFloat value = value
  nonneg : 0 ≤ value
  le_one : value ≤ 1

namespace Fraction

/-- `fraction * (float) n`. -/
def product (fraction : Fraction) (n : ℕ) : ℚ := toFloat (fraction.value * toFloat n)

/-- `(unsigned) (fraction * (float) n)`; the conversion is undefined when the value does not
fit. -/
def share (fraction : Fraction) (n : ℕ) : Option U32 :=
  if fraction.product n < 2 ^ 32 then some (BitVec.ofNat 32 ⌊fraction.product n⌋₊) else none

variable {fraction : Fraction} {n : ℕ}

theorem product_nonneg : 0 ≤ fraction.product n :=
  round_nonneg (mul_nonneg fraction.nonneg (round_nonneg n.cast_nonneg))

/-- The product stays below the number of items unless the fraction is one and the number is
rounded up. -/
theorem product_le (h : fraction.value < 1 ∨ toFloat n ≤ n) : fraction.product n ≤ n :=
  round_mul_round_le (by norm_num) (by norm_num) fraction.nonneg fraction.le_one fraction.isFloat h

theorem succ_le_product (h : ¬(fraction.value < 1 ∨ toFloat n ≤ n)) :
    (n + 1 : ℚ) ≤ fraction.product n := by
  push Not at h
  have hone : fraction.value = 1 := le_antisymm fraction.le_one h.1
  unfold product
  rw [hone]
  exact succ_le_round_one_mul (by norm_num) (by norm_num) h.2

theorem floor_product_le (h : fraction.value < 1 ∨ toFloat n ≤ n) : ⌊fraction.product n⌋₊ ≤ n :=
  Nat.floor_le_of_le (product_le h)

theorem share_eq (h : fraction.value < 1 ∨ toFloat n ≤ n) (hn : n < 2 ^ 32) :
    fraction.share n = some (BitVec.ofNat 32 ⌊fraction.product n⌋₊) := by
  have hlt : fraction.product n < 2 ^ 32 := (product_le h).trans_lt (by exact_mod_cast hn)
  exact if_pos hlt

theorem lt_share (h : ¬(fraction.value < 1 ∨ toFloat n ≤ n)) {s : U32}
    (hs : fraction.share n = some s) : n < s.toNat := by
  unfold share at hs
  split_ifs at hs with hlt
  obtain rfl := Option.some.inj hs
  have hfloor : ⌊fraction.product n⌋₊ < 2 ^ 32 :=
    (Nat.floor_lt product_nonneg).mpr (by exact_mod_cast hlt)
  have hsucc : n + 1 ≤ ⌊fraction.product n⌋₊ := Nat.le_floor (by exact_mod_cast succ_le_product h)
  rw [BitVec.toNat_ofNat, Nat.mod_eq_of_lt hfloor]
  exact hsucc

theorem toFloat_natCast_of_lt (hn : n < 2 ^ 24) : toFloat n = n :=
  round_natCast_of_lt (by norm_num) (by norm_num) hn

def half : Fraction where
  value := 2 ^ (-1 : ℤ)
  isFloat := round_zpow (by decide) (by decide)
  nonneg := zpow_nonneg zero_le_two _
  le_one := zpow_le_one_of_nonpos₀ one_le_two (by decide)

theorem product_half_two : half.product 2 = 1 := by
  have htwo : toFloat (2 : ℕ) = 2 := toFloat_natCast_of_lt (by norm_num)
  have hone : toFloat (1 : ℕ) = 1 := by exact_mod_cast toFloat_natCast_of_lt (n := 1) (by norm_num)
  rw [product, htwo, show half.value * 2 = ((1 : ℕ) : ℚ) by norm_num [half], hone]

end Fraction

/-! ### Lines -/

/-- The strings that `getline` reads until the end of the file. -/
def getLines : List Byte → List (List Byte)
  | [] => []
  | c :: cs =>
    if c = 10 then [] :: getLines cs
    else match getLines cs with
      | [] => [[c]]
      | line :: lines => (c :: line) :: lines

theorem length_le_of_mem_getLines {cs line : List Byte} (h : line ∈ getLines cs) :
    line.length ≤ cs.length := by
  induction cs generalizing line with
  | nil => cases h
  | cons c cs ih =>
    rw [getLines] at h
    split_ifs at h
    · rcases List.mem_cons.mp h with rfl | h
      · exact Nat.zero_le _
      · exact (ih h).trans (Nat.le_succ _)
    · split at h
      · rw [List.mem_singleton.mp h]
        simp
      · next line' lines heq =>
        rcases List.mem_cons.mp h with rfl | h
        · have hle : line'.length ≤ cs.length := ih (by rw [heq]; exact List.mem_cons_self)
          simpa using hle
        · exact (ih (by rw [heq]; exact List.mem_cons_of_mem _ h)).trans (Nat.le_succ _)

/-- `read_lines` of a file with the given contents. -/
def readLines (infile : Str) : List Str :=
  ((getLines infile.bytes).take 210000000).pmap Str.mk fun _ hline =>
    (length_le_of_mem_getLines (List.mem_of_mem_take hline)).trans_lt infile.size_lt

theorem length_readLines_le (infile : Str) : (readLines infile).length ≤ 210000000 := by
  simp only [readLines, List.length_pmap, List.length_take]
  omega

/-! ### Subsets -/

namespace Storage

variable {κ : Type}

/-- Any outcome of `std::shuffle`. -/
structure Shuffle (κ : Type) where
  apply : List κ → List κ
  perm : ∀ l, (apply l).Perm l

/-- The loop that both functions end with. -/
def splitLoop (nitems : ℕ) (data : List κ) : List κ × List κ :=
  data.zipIdx.foldl (fun s x =>
    if x.2 < nitems then (s.1 ++ [x.1], s.2) else (s.1, s.2 ++ [x.1])) ([], [])

/-- `get_subset_static`. `reserve` throws when `data.size() - nitems` wraps. -/
def getSubsetStatic (data : List κ) (fraction : Fraction) : Option (List κ × List κ) := do
  let nitems ← fraction.share data.length
  if nitems.toNat ≤ data.length then some (splitLoop nitems.toNat data) else none

/-- `get_subset`. -/
def getSubset (rng : Shuffle κ) (data : List κ) (fraction : Fraction) :
    Option (List κ × List κ) := do
  let nitems ← fraction.share data.length
  if nitems.toNat ≤ data.length then some (splitLoop nitems.toNat (rng.apply data)) else none

/-- The loop from index `i` on. -/
theorem foldl_split (nitems : ℕ) (l : List κ) (i : ℕ) (s : List κ × List κ) :
    (l.zipIdx i).foldl (fun s x =>
      if x.2 < nitems then (s.1 ++ [x.1], s.2) else (s.1, s.2 ++ [x.1])) s =
      (s.1 ++ l.take (nitems - i), s.2 ++ l.drop (nitems - i)) := by
  induction l generalizing i s with
  | nil => simp
  | cons x l ih =>
    rw [List.zipIdx_cons, List.foldl_cons, ih]
    by_cases hi : i < nitems
    · obtain ⟨d, hd⟩ : ∃ d, nitems - i = d + 1 := ⟨nitems - i - 1, by omega⟩
      rw [if_pos hi, hd, show nitems - (i + 1) = d by omega]
      simp
    · rw [if_neg hi, show nitems - i = 0 by omega, show nitems - (i + 1) = 0 by omega]
      simp

theorem splitLoop_eq (nitems : ℕ) (data : List κ) :
    splitLoop nitems data = (data.take nitems, data.drop nitems) := by
  simpa [splitLoop] using foldl_split nitems data 0 ([], [])

/-- The two parts are a beginning and the rest of the shuffled data. -/
theorem getSubset_eq_some {rng : Shuffle κ} {data : List κ} {fraction : Fraction}
    {split : List κ × List κ} (h : getSubset rng data fraction = some split) :
    ∃ nitems, split = ((rng.apply data).take nitems, (rng.apply data).drop nitems) := by
  obtain ⟨nitems, -, h⟩ := Option.bind_eq_some_iff.mp h
  split_ifs at h
  obtain rfl := Option.some.inj h
  exact ⟨nitems.toNat, splitLoop_eq _ _⟩

/-- The pairs that the two functions can return for the lines of a file. -/
def IsSplit (lines : List κ) (split : List κ × List κ) : Prop :=
  (∃ fraction, getSubsetStatic lines fraction = some split) ∨
    ∃ rng fraction, getSubset rng lines fraction = some split

theorem IsSplit.perm {lines : List κ} {split : List κ × List κ} (h : IsSplit lines split) :
    (split.1 ++ split.2).Perm lines := by
  obtain ⟨rng, fraction, h⟩ : ∃ rng fraction, getSubset rng lines fraction = some split := by
    rcases h with ⟨fraction, h⟩ | h
    · -- no shuffle
      exact ⟨⟨id, List.Perm.refl⟩, fraction, h⟩
    · exact h
  obtain ⟨nitems, rfl⟩ := getSubset_eq_some h
  rw [List.take_append_drop]
  exact rng.perm lines

/-- The parts of a file without repeated lines have no line in common. -/
theorem IsSplit.notMem_of_nodup {lines data uninserted : List κ}
    (h : IsSplit lines (data, uninserted)) (hnodup : lines.Nodup) :
    ∀ key ∈ uninserted, key ∉ data := by
  have happend : (data ++ uninserted).Nodup := h.perm.nodup_iff.mpr hnodup
  intro key hkey hdata
  exact (List.nodup_append.mp happend).2.2 key hdata key hkey rfl

end Storage

end EntropyLearnedHashing
