import Mathlib.Data.Nat.Digits.Defs
import Mathlib.Tactic.Ring

/-! Little-endian words in byte strings. A load of `w` bytes at an offset is
checked: it fails when one of the bytes lies past the end of the string. A byte
string of any length can be packed from an arbitrary sequence of 64-bit words,
and every aligned load inside it returns the packed word. -/

namespace EntropyLearnedHashing.LittleEndian

abbrev Byte := BitVec 8

/-- The number spelled by a list of bytes, least significant first. -/
def leNat (bs : List Byte) : ℕ := Nat.ofDigits 256 (bs.map BitVec.toNat)

/-- The low `n` bytes of a number, least significant first. -/
def leBytes (n v : ℕ) : List Byte := (List.range n).map fun i => BitVec.ofNat 8 (v / 256 ^ i)

@[simp] theorem leNat_nil : leNat [] = 0 := rfl

@[simp] theorem leNat_cons (b : Byte) (bs : List Byte) :
    leNat (b :: bs) = b.toNat + 256 * leNat bs := by
  simp [leNat, Nat.ofDigits_cons]

@[simp] theorem length_leBytes (n v : ℕ) : (leBytes n v).length = n := by simp [leBytes]

theorem leBytes_succ (n v : ℕ) : leBytes (n + 1) v = BitVec.ofNat 8 v :: leBytes n (v / 256) := by
  simp only [leBytes, List.range_succ_eq_map, List.map_cons, List.map_map, pow_zero, Nat.div_one]
  congr 2
  funext i
  simp only [Function.comp, Nat.succ_eq_add_one, pow_succ', Nat.div_div_eq_div_mul]

theorem leNat_leBytes (n v : ℕ) (hv : v < 256 ^ n) : leNat (leBytes n v) = v := by
  induction n generalizing v with
  | zero => simp_all [leBytes]
  | succ n ih =>
    have hq : v / 256 < 256 ^ n := by
      rw [Nat.div_lt_iff_lt_mul (by norm_num)]
      rwa [pow_succ] at hv
    rw [leBytes_succ, leNat_cons, ih _ hq]
    simp only [BitVec.toNat_ofNat]
    omega

/-- The `i`-th chunk of `w` bytes. -/
def chunk (w : ℕ) (bs : List Byte) (i : ℕ) : List Byte := (bs.drop (w * i)).take w

/-- `memcpy` of `w` bytes from offset `off` into an integer. -/
def load (w : ℕ) (bs : List Byte) (off : ℕ) : Option ℕ :=
  if off + w ≤ bs.length then some (leNat ((bs.drop off).take w)) else none

def load64 (bs : List Byte) (off : ℕ) : Option (BitVec 64) :=
  (load 8 bs off).map (BitVec.ofNat 64)

def load32 (bs : List Byte) (off : ℕ) : Option (BitVec 32) :=
  (load 4 bs off).map (BitVec.ofNat 32)

/-- The 64-bit word spelled by a chunk. -/
def word64 (bs : List Byte) : BitVec 64 := BitVec.ofNat 64 (leNat bs)

def word32 (bs : List Byte) : BitVec 32 := BitVec.ofNat 32 (leNat bs)

theorem load64_chunk (bs : List Byte) (i : ℕ) (h : 8 * i + 8 ≤ bs.length) :
    load64 bs (8 * i) = some (word64 (chunk 8 bs i)) := by
  simp [load64, load, h, word64, chunk]

/-- The two 4-byte halves of a chunk. -/
theorem load32_chunk (bs : List Byte) (i : ℕ) (h : 8 * i + 8 ≤ bs.length) :
    load32 bs (8 * i) = some (word32 ((chunk 8 bs i).take 4)) ∧
      load32 bs (8 * i + 4) = some (word32 ((chunk 8 bs i).drop 4)) := by
  have h₀ : 8 * i + 4 ≤ bs.length := by omega
  have h₁ : 8 * i + 4 + 4 ≤ bs.length := by omega
  constructor
  · simp [load32, load, h₀, word32, chunk, List.take_take]
  · simp [load32, load, h₁, word32, chunk, List.drop_take, List.drop_drop]

theorem leNat_append (bs cs : List Byte) : leNat (bs ++ cs) = leNat bs + 256 ^ bs.length * leNat cs := by
  simp [leNat, Nat.ofDigits_append]

theorem leNat_lt (bs : List Byte) : leNat bs < 256 ^ bs.length := by
  induction bs with
  | nil => simp
  | cons b bs ih =>
    have hb := b.isLt
    rw [leNat_cons, List.length_cons, pow_succ]
    omega

/-- Bytes can be recovered from the number they spell. -/
theorem leNat_injective {bs cs : List Byte} (hlength : bs.length = cs.length)
    (h : leNat bs = leNat cs) : bs = cs := by
  induction bs generalizing cs with
  | nil => exact (List.length_eq_zero_iff.mp hlength.symm).symm
  | cons b bs ih =>
    obtain ⟨c, cs, rfl⟩ : ∃ c cs', cs = c :: cs' := List.exists_cons_of_length_eq_add_one hlength.symm
    have hb := b.isLt
    have hc := c.isLt
    rw [leNat_cons, leNat_cons] at h
    have hhead : b = c := BitVec.eq_of_toNat_eq (by omega)
    rw [hhead, ih (by simpa using hlength) (by omega)]

/-- The halves of a word, by bytes and by bits. -/
theorem word32_halves {bs : List Byte} (h : bs.length = 8) :
    word32 (bs.take 4) = (word64 bs).setWidth 32 ∧
      word32 (bs.drop 4) = (word64 bs >>> 32).setWidth 32 := by
  have hsplit : leNat bs = leNat (bs.take 4) + 256 ^ 4 * leNat (bs.drop 4) := by
    conv_lhs => rw [← List.take_append_drop 4 bs, leNat_append, List.length_take]
    simp [h]
  have hlow : leNat (bs.take 4) < 256 ^ 4 := by simpa [h] using leNat_lt (bs.take 4)
  have hhigh : leNat (bs.drop 4) < 256 ^ 4 := by simpa [h] using leNat_lt (bs.drop 4)
  constructor <;> apply BitVec.eq_of_toNat_eq <;>
    simp only [word32, word64, BitVec.toNat_ofNat, BitVec.toNat_setWidth, BitVec.toNat_ushiftRight,
      Nat.shiftRight_eq_div_pow] <;>
    omega

theorem leNat_replicate_zero (n : ℕ) : leNat (List.replicate n 0#8) = 0 := by
  induction n with
  | zero => rfl
  | succ n ih => rw [List.replicate_succ, leNat_cons, ih]; rfl

theorem leNat_replicate_set (b : Byte) (n i : ℕ) :
    leNat ((List.replicate n 0#8).set i b) = if i < n then b.toNat * 256 ^ i else 0 := by
  induction n generalizing i with
  | zero => simp
  | succ n ih =>
    cases i with
    | zero => simp [List.replicate_succ, leNat_replicate_zero]
    | succ i =>
      rw [List.replicate_succ, List.set_cons_succ, leNat_cons, ih]
      by_cases hi : i < n
      · rw [if_pos hi, if_pos (by omega), BitVec.toNat_zero, pow_succ]
        ring
      · rw [if_neg hi, if_neg (by omega)]
        rfl

/-- The byte string of length `len` whose consecutive words are `f 0, f 1, …`. -/
def pack (len : ℕ) (f : ℕ → BitVec 64) : List Byte :=
  (List.range len).map fun i => BitVec.ofNat 8 ((f (i / 8)).toNat / 256 ^ (i % 8))

@[simp] theorem length_pack (len : ℕ) (f : ℕ → BitVec 64) : (pack len f).length = len := by
  simp [pack]

theorem getElem_pack (len : ℕ) (f : ℕ → BitVec 64) (i : ℕ) (h : i < (pack len f).length) :
    (pack len f)[i] = BitVec.ofNat 8 ((f (i / 8)).toNat / 256 ^ (i % 8)) := by
  simp [pack]

theorem chunk_pack (len : ℕ) (f : ℕ → BitVec 64) (i : ℕ) (h : 8 * i + 8 ≤ len) :
    chunk 8 (pack len f) i = leBytes 8 (f i).toNat := by
  apply List.ext_getElem
  · simp [chunk]; omega
  · intro j h₁ h₂
    have hj : j < 8 := by simpa using h₂
    simp only [chunk, List.getElem_take, List.getElem_drop, getElem_pack, leBytes,
      List.getElem_map, List.getElem_range]
    rw [show (8 * i + j) / 8 = i by omega, show (8 * i + j) % 8 = j by omega]

theorem word64_chunk_pack (len : ℕ) (f : ℕ → BitVec 64) (i : ℕ) (h : 8 * i + 8 ≤ len) :
    word64 (chunk 8 (pack len f) i) = f i := by
  have hlt : (f i).toNat < 256 ^ 8 := lt_of_lt_of_eq (f i).isLt (by norm_num)
  rw [chunk_pack len f i h, word64, leNat_leBytes 8 _ hlt, BitVec.ofNat_toNat, BitVec.setWidth_eq]

/-- The bytes behind a word depend on the later words alone. -/
theorem drop_pack_congr (len : ℕ) {f g : ℕ → BitVec 64} (k : ℕ) (h : ∀ j, k ≤ j → f j = g j) :
    (pack len f).drop (8 * k) = (pack len g).drop (8 * k) := by
  apply List.ext_getElem
  · simp
  · intro i h₁ h₂
    simp only [List.getElem_drop, getElem_pack]
    rw [h _ (by omega)]

/-- Changing one word changes no byte outside it. -/
theorem getElem?_pack_update (len : ℕ) (f : ℕ → BitVec 64) (k : ℕ) (v : BitVec 64) (j : ℕ)
    (hj : j / 8 ≠ k) : (pack len (Function.update f k v))[j]? = (pack len f)[j]? := by
  simp only [pack, List.getElem?_map]
  by_cases h : j < len
  · simp [List.getElem?_range h, Function.update_of_ne hj]
  · simp [Nat.le_of_not_lt h]

end EntropyLearnedHashing.LittleEndian
