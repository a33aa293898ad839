import EntropyLearnedHashing.Library.LittleEndian

/-! Keys of the program. A `std::string` is its bytes together with the bound
that `max_size` puts on every size, so a length never wraps in a `uint64_t`.
Locations are `int`s that count chunks of a fixed width. -/

namespace EntropyLearnedHashing

open LittleEndian

abbrev U32 := BitVec 32
abbrev U64 := BitVec 64

/-- `std::string`. -/
structure Str where
  bytes : List Byte
  size_lt : bytes.length < 2 ^ 63
  deriving DecidableEq

namespace Str

/-- `size()` and `length()`. -/
def size (s : Str) : ℕ := s.bytes.length

/-- The `i`-th chunk of `w` bytes lies completely inside the string. -/
def Covers (w : ℕ) (s : Str) (i : ℕ) : Prop := w * (i + 1) ≤ s.size

instance (w : ℕ) (s : Str) (i : ℕ) : Decidable (s.Covers w i) :=
  inferInstanceAs (Decidable (_ ≤ _))

theorem length_chunk {w : ℕ} {s : Str} {r : ℕ} (h : s.Covers w r) : (chunk w s.bytes r).length = w := by
  have hcov : w * r + w ≤ s.bytes.length := h
  simp only [chunk, List.length_take, List.length_drop]
  omega

/-- The `i`-th 8-byte word of the string. -/
def word (s : Str) (i : ℕ) : List Byte := chunk 8 s.bytes i

theorem length_word {s : Str} {r : ℕ} (h : s.Covers 8 r) : (s.word r).length = 8 := length_chunk h

/-- The aligned loads of a word inside the string, whole and by halves. -/
theorem loads_of_covers {s : Str} {r : ℕ} (h : s.Covers 8 r) :
    load64 s.bytes (8 * r) = some (word64 (s.word r)) ∧
      load32 s.bytes (8 * r) = some ((word64 (s.word r)).setWidth 32) ∧
      load32 s.bytes (8 * r + 4) = some ((word64 (s.word r) >>> 32).setWidth 32) := by
  have hhalves := word32_halves (length_word h)
  rw [← hhalves.1, ← hhalves.2]
  exact ⟨load64_chunk _ _ h, load32_chunk _ _ h⟩

/-- The string of length `len` with the given consecutive words. -/
def ofWords (len : ℕ) (h : len < 2 ^ 63) (f : ℕ → U64) : Str := ⟨pack len f, by simpa using h⟩

@[simp] theorem size_ofWords (len : ℕ) (h : len < 2 ^ 63) (f : ℕ → U64) :
    (ofWords len h f).size = len := by
  simp [size, ofWords]

theorem word64_word_ofWords (len : ℕ) (h : len < 2 ^ 63) (f : ℕ → U64) (i : ℕ)
    (hi : 8 * i + 8 ≤ len) : word64 ((ofWords len h f).word i) = f i :=
  word64_chunk_pack len f i hi

/-- The key of `8 * n` bytes, for `n` up to eight, with a given first word. -/
def keyOfWords (n : Fin 9) (first : U64) : Str :=
  ofWords (8 * n) (by omega) fun i => if i = 0 then first else 0

/-- Equal sizes and equal bytes outside the `k`-th word. -/
def DifferOnlyIn (x y : Str) (k : ℕ) : Prop :=
  x.size = y.size ∧ ∀ j, j / 8 ≠ k → x.bytes[j]? = y.bytes[j]?

theorem ofWords_update_differOnlyIn (len : ℕ) (h : len < 2 ^ 63) (f : ℕ → U64) (k : ℕ) (v : U64) :
    DifferOnlyIn (ofWords len h (Function.update f k v)) (ofWords len h f) k :=
  ⟨by simp, fun j hj => getElem?_pack_update len f k v j hj⟩

/-- Strings that differ only in one word agree on every other word. -/
theorem DifferOnlyIn.word_eq {x y : Str} {k : ℕ} (h : DifferOnlyIn x y k) {i : ℕ} (hi : i ≠ k) :
    x.word i = y.word i := by
  apply List.ext_getElem?
  intro j
  simp only [word, chunk, List.getElem?_take, List.getElem?_drop]
  split_ifs with hj
  · exact h.2 _ (by omega)
  · rfl

/-- The key of `len` zero bytes with `b` at offset `o`. -/
def singleByte (len : ℕ) (h : len < 2 ^ 63) (o : ℕ) (b : Byte) : Str :=
  ⟨(List.replicate len 0#8).set o b, by simpa using h⟩

/-- Keys of one size that differ in the byte at offset `o` and nowhere else. -/
def DifferInByte (x y : Str) (o : ℕ) : Prop :=
  x.size = y.size ∧ x.bytes[o]? ≠ y.bytes[o]? ∧ ∀ j ≠ o, x.bytes[j]? = y.bytes[j]?

@[simp] theorem size_singleByte (len : ℕ) (h : len < 2 ^ 63) (o : ℕ) (b : Byte) :
    (singleByte len h o b).size = len := by
  simp [size, singleByte]

theorem singleByte_differInByte {len : ℕ} (h63 : len < 2 ^ 63) {o : ℕ} (ho : o < len) {b b' : Byte}
    (h : b ≠ b') :
    (singleByte len h63 o b).DifferInByte (singleByte len h63 o b') o := by
  refine ⟨by simp, ?_, ?_⟩
  · simpa [singleByte, ho] using h
  · intro j hj
    simp [singleByte, List.getElem?_set_ne hj.symm]

end Str

end EntropyLearnedHashing
