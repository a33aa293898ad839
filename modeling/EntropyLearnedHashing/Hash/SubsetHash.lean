import EntropyLearnedHashing.Str
import Mathlib.Data.List.Induction

/-! `mmh_var.hh` and `hash_sub1_sdbm`: the hashes of a variable number of locations. The two
MurmurHash2 variants mix 4-byte chunks of the key and stop at the first location outside
it. The plain one fetches the next location after each chunk, so a key that holds all
locations makes it read one entry past the array; the other one tests the last location
first and then counts. An array is given by its reads. -/

namespace EntropyLearnedHashing

open LittleEndian

/-- `const uint64_t m`. -/
def mmh2M : U64 := 0x5bd1e995

/-- One round: `k` is a 32-bit word, `h` a 64-bit one. -/
def mixMmh2 (h : U64) (k : U32) : U64 :=
  let k := (k.setWidth 64 * mmh2M).setWidth 32
  let k := k ^^^ (k >>> 24)
  let k := (k.setWidth 64 * mmh2M).setWidth 32
  (h * mmh2M) ^^^ k.setWidth 64

section

variable (str : Str) (locations : ℕ → Option ℤ)

/-- The loop `while (loc < len && i < bound)`, with `bound - i` rounds left; the next location
is fetched at the end of a round. -/
def whileLoop : ℕ → ℕ → U32 → U64 → Option U64
  | 0, _, _, h => some h
  | rounds + 1, i, loc, h =>
    if loc.toNat < str.size / 4 then do
      let k ← load32 str.bytes (4 * loc.toNat)
      let next ← locations (i + 1)
      whileLoop rounds (i + 1) (BitVec.ofInt 32 next) (mixMmh2 h k)
    else some h

def hashSub4Mmh2 (nlocs : ℕ) : Option U64 := do
  let loc ← locations 0
  whileLoop str locations nlocs 0 (BitVec.ofInt 32 loc) (BitVec.ofNat 64 str.size)

/-- One round of the counted loop. -/
def countedRound (h : U64) (i : ℕ) : Option U64 := do
  let loc ← locations i
  let k ← load32 str.bytes (4 * (BitVec.ofInt 32 loc).toNat)
  some (mixMmh2 h k)

def hashSub4Mmh2Cust (nlocs : ℕ) : Option U64 := do
  let loc ← locations 0
  let last ← locations (nlocs - 1)
  if (BitVec.ofInt 32 last).toNat < str.size / 4 then
    (List.range nlocs).foldlM (countedRound str locations) (BitVec.ofNat 64 str.size)
  else
    whileLoop str locations (nlocs - 1) 0 (BitVec.ofInt 32 loc) (BitVec.ofNat 64 str.size)

/-- One round of `hash_sub1_sdbm`; `char` is signed, and the length is compared as an `int`. -/
def sdbmRound (hash : U64) (i : ℕ) : Option U64 := do
  let loc ← locations i
  if loc < (BitVec.ofNat 32 str.size).toInt then
    let c ← str.bytes[(BitVec.ofInt 64 loc).toNat]?
    let hash := c.signExtend 64 + (hash <<< 6) + (hash <<< 16) - hash
    some (hash + c.signExtend 64)
  else some hash

def hashSub1Sdbm (k : ℕ) : Option U64 :=
  (List.range k).foldlM (sdbmRound str locations) (BitVec.ofNat 64 str.size)

end

/-- Non-negative `int` locations in order, and an `int` number of them. -/
structure SortedLocations where
  locs : List ℕ
  one_le : 1 ≤ locs.length
  count_lt : locs.length < 2 ^ 31
  sorted : locs.Pairwise (· ≤ ·)
  int_range : ∀ l ∈ locs, l < 2 ^ 31

namespace SortedLocations

variable (L : SortedLocations)

/-- An array of exactly these locations. -/
def array (i : ℕ) : Option ℤ := L.locs[i]?.map (↑)

/-- The locations followed by arbitrary values. -/
def arrayBefore (beyond : ℕ → ℤ) (i : ℕ) : Option ℤ := some ((L.array i).getD (beyond i))

end SortedLocations

/-! ### The data-dependent loop -/

theorem load32_chunk_four {bs : List Byte} {l : ℕ} (h : l < bs.length / 4) :
    load32 bs (4 * l) = some (word32 (chunk 4 bs l)) := by
  have hin : 4 * l + 4 ≤ bs.length := by omega
  simp [load32, load, hin, word32, chunk]

/-- Mixing the chunk of a location. -/
def mixChunk (str : Str) (h : U64) (l : ℕ) : U64 := mixMmh2 h (word32 (chunk 4 str.bytes l))

/-- The chunks at the locations inside the key, mixed in order, from the length on. -/
def mixInside (str : Str) (locs : List ℕ) : U64 :=
  (locs.filter (· < str.size / 4)).foldl (mixChunk str) (BitVec.ofNat 64 str.size)

theorem toNat_ofInt_location {l : ℕ} (h : l < 2 ^ 31) : (BitVec.ofInt 32 (l : ℤ)).toNat = l := by
  rw [BitVec.ofInt_natCast, BitVec.toNat_ofNat, Nat.mod_eq_of_lt (by omega)]

/-- Locations from one outside the key on are all outside. -/
theorem filter_eq_nil_of_sorted {n l : ℕ} {rest : List ℕ} (hsorted : (l :: rest).Pairwise (· ≤ ·))
    (h : ¬l < n) : (l :: rest).filter (· < n) = [] := by
  rw [List.filter_eq_nil_iff]
  intro x hx
  have hle : l ≤ x := by
    rcases List.mem_cons.mp hx with rfl | hx
    · exact le_rfl
    · exact (List.pairwise_cons.mp hsorted).1 x hx
  simp only [decide_eq_true_eq]
  omega

section

variable {str : Str} {locations : ℕ → Option ℤ}

/-- The entries from `i` on are the given locations. -/
def HoldsAt (locations : ℕ → Option ℤ) (i : ℕ) (locs : List ℕ) : Prop :=
  ∀ j (hj : j < locs.length), locations (i + j) = some (locs[j] : ℤ)

theorem HoldsAt.tail {i l : ℕ} {rest : List ℕ} (h : HoldsAt locations i (l :: rest)) :
    HoldsAt locations (i + 1) rest := by
  intro j hj
  rw [show i + 1 + j = i + (j + 1) by omega]
  exact h (j + 1) (by simpa using hj)

theorem HoldsAt.take {i : ℕ} {locs : List ℕ} (h : HoldsAt locations i locs) (n : ℕ) :
    HoldsAt locations i (locs.take n) := by
  intro j hj
  rw [List.length_take] at hj
  rw [List.getElem_take]
  exact h j (by omega)

/-- The loop over a segment of the array mixes its locations inside the key. The entry past
the segment is fetched only if all of them are. -/
theorem whileLoop_eq {locs : List ℕ} (hsorted : locs.Pairwise (· ≤ ·))
    (hrange : ∀ l ∈ locs, l < 2 ^ 31) {i : ℕ}
    (hread : HoldsAt locations i locs)
    (hpast : (∃ l ∈ locs, str.size / 4 ≤ l) ∨ (locations (i + locs.length)).isSome) {loc : U32}
    (hloc : ∀ l ∈ locs.head?, loc = BitVec.ofInt 32 l) (h : U64) :
    whileLoop str locations locs.length i loc h =
      some ((locs.filter (· < str.size / 4)).foldl (mixChunk str) h) := by
  induction locs generalizing i loc h with
  | nil => rfl
  | cons l rest ih =>
    have htoNat : loc.toNat = l := by
      rw [hloc l rfl, toNat_ofInt_location (hrange l List.mem_cons_self)]
    rw [List.length_cons, whileLoop, htoNat]
    by_cases hin : l < str.size / 4
    · -- the next location, which lies past the segment only in the last round
      obtain ⟨next, hnext, hhead⟩ : ∃ next : ℤ, locations (i + 1) = some next ∧
          ∀ r ∈ rest.head?, BitVec.ofInt 32 next = BitVec.ofInt 32 r := by
        cases rest with
        | nil =>
          have hsome : (locations (i + 1)).isSome := by
            refine hpast.resolve_left ?_
            simpa using hin
          obtain ⟨next, hnext⟩ := Option.isSome_iff_exists.mp hsome
          exact ⟨next, hnext, by simp⟩
        | cons r rest => exact ⟨r, hread 1 (by simp), by simp⟩
      have hrest := ih (List.pairwise_cons.mp hsorted).2
        (fun x hx => hrange x (List.mem_cons_of_mem l hx)) hread.tail
        (by
          rw [show i + 1 + rest.length = i + (rest.length + 1) by omega]
          refine hpast.imp_left ?_
          rintro ⟨x, hx, hge⟩
          rcases List.mem_cons.mp hx with rfl | hx
          · omega
          · exact ⟨x, hx, hge⟩)
        hhead (mixChunk str h l)
      rw [if_pos hin, load32_chunk_four hin, hnext, List.filter_cons_of_pos (by simpa using hin),
        List.foldl_cons, ← hrest]
      rfl
    · rw [if_neg hin, filter_eq_nil_of_sorted hsorted hin]
      rfl

/-- Behind a segment that lies inside the key the loop fetches one more entry. -/
theorem whileLoop_eq_none {locs : List ℕ} (hne : locs ≠ []) (hrange : ∀ l ∈ locs, l < 2 ^ 31)
    (hinside : ∀ l ∈ locs, l < str.size / 4) {i : ℕ}
    (hread : HoldsAt locations i locs)
    (hpast : locations (i + locs.length) = none) {loc : U32}
    (hloc : ∀ l ∈ locs.head?, loc = BitVec.ofInt 32 l) (h : U64) :
    whileLoop str locations locs.length i loc h = none := by
  induction locs generalizing i loc h with
  | nil => exact absurd rfl hne
  | cons l rest ih =>
    have htoNat : loc.toNat = l := by
      rw [hloc l rfl, toNat_ofInt_location (hrange l List.mem_cons_self)]
    have hin := hinside l List.mem_cons_self
    rw [List.length_cons, whileLoop, htoNat, if_pos hin, load32_chunk_four hin]
    cases rest with
    | nil =>
      rw [List.length_singleton] at hpast
      rw [hpast]
      rfl
    | cons r rest =>
      have hnext : locations (i + 1) = some (r : ℤ) := hread 1 (by simp)
      rw [hnext]
      refine ih (by simp) (fun x hx => hrange x (List.mem_cons_of_mem l hx))
        (fun x hx => hinside x (List.mem_cons_of_mem l hx)) hread.tail ?_ (by simp) _
      rw [show i + 1 + (r :: rest).length = i + ((r :: rest).length + 1) by omega]
      exact hpast

/-! ### The counted loops -/

/-- A counted loop whose rounds do not fail is the fold over the entries. -/
theorem foldlM_range_eq {σ : Type*} {f : σ → ℕ → Option σ} {g : σ → ℕ → σ} {locs : List ℕ}
    (h : ∀ s j (hj : j < locs.length), f s j = some (g s locs[j])) (s : σ) :
    (List.range locs.length).foldlM f s = some (locs.foldl g s) := by
  induction locs using List.reverseRecOn with
  | nil => rfl
  | append_singleton locs l ih =>
    have hinit : (List.range locs.length).foldlM f s = some (locs.foldl g s) := by
      refine ih fun s j hj => ?_
      rw [h s j (by simp; omega), List.getElem_append_left hj]
    rw [List.length_append, List.length_singleton, List.range_succ, List.foldlM_append, hinit,
      List.foldl_append]
    have hlast := h (locs.foldl g s) locs.length (by simp)
    rw [List.getElem_concat_length] at hlast
    simp [hlast]
    rfl

theorem isSome_foldlM {σ ι : Type*} {f : σ → ι → Option σ} {l : List ι}
    (h : ∀ s, ∀ i ∈ l, (f s i).isSome) (s : σ) : (l.foldlM f s).isSome := by
  induction l generalizing s with
  | nil => rfl
  | cons i l ih =>
    obtain ⟨t, ht⟩ := Option.isSome_iff_exists.mp (h s i List.mem_cons_self)
    rw [List.foldlM_cons, ht]
    exact ih (fun s j hj => h s j (List.mem_cons_of_mem i hj)) t

theorem countedRound_eq {locs : List ℕ} (hrange : ∀ l ∈ locs, l < 2 ^ 31)
    (hinside : ∀ l ∈ locs, l < str.size / 4) (hread : HoldsAt locations 0 locs) (h : U64) (j : ℕ)
    (hj : j < locs.length) : countedRound str locations h j = some (mixChunk str h locs[j]) := by
  have hmem : locs[j] ∈ locs := List.getElem_mem hj
  have hentry := hread j hj
  rw [Nat.zero_add] at hentry
  simp only [countedRound, hentry, Option.bind_eq_bind, Option.bind_some,
    toNat_ofInt_location (hrange _ hmem), load32_chunk_four (hinside _ hmem)]
  rfl

/-- The round of a location inside the key mixes its byte in, any other is skipped. -/
theorem sdbmRound_isSome {loc : ℕ} {i : ℕ} (hrange : loc < 2 ^ 31)
    (hread : locations i = some (loc : ℤ)) (hash : U64) :
    (sdbmRound str locations hash i).isSome := by
  have hle : (BitVec.ofNat 32 str.size).toInt ≤ str.size := by
    rw [BitVec.toInt_eq_toNat_cond, BitVec.toNat_ofNat]
    split_ifs <;> omega
  simp only [sdbmRound, hread, Option.bind_eq_bind, Option.bind_some]
  split_ifs with hlt
  · have hin : loc < str.bytes.length := by
      have hsize : (loc : ℤ) < str.size := by omega
      exact_mod_cast hsize
    rw [BitVec.ofInt_natCast, BitVec.toNat_ofNat, Nat.mod_eq_of_lt (by omega),
      List.getElem?_eq_getElem hin]
    rfl
  · rfl

end

/-! ### The three hashes -/

namespace SortedLocations

variable (L : SortedLocations)

theorem holdsAt_array : HoldsAt L.array 0 L.locs := by
  intro j hj
  rw [Nat.zero_add, array, List.getElem?_eq_getElem hj]
  rfl

theorem holdsAt_arrayBefore (beyond : ℕ → ℤ) : HoldsAt (L.arrayBefore beyond) 0 L.locs := by
  intro j hj
  have hentry := L.holdsAt_array j hj
  rw [Nat.zero_add] at hentry ⊢
  rw [arrayBefore, hentry]
  rfl

theorem locs_ne_nil : L.locs ≠ [] := List.ne_nil_of_length_pos L.one_le

/-- The last location. -/
def last : ℕ := L.locs.getLast L.locs_ne_nil

theorem last_mem : L.last ∈ L.locs := List.getLast_mem L.locs_ne_nil

theorem le_last {l : ℕ} (hl : l ∈ L.locs) : l ≤ L.last := by
  have hsplit := List.dropLast_concat_getLast L.locs_ne_nil
  have hsorted := L.sorted
  rw [← hsplit, List.pairwise_append] at hsorted
  rw [← hsplit, List.mem_append, List.mem_singleton] at hl
  rcases hl with hl | rfl
  · exact hsorted.2.2 l hl _ (List.mem_singleton_self _)
  · exact le_rfl

variable {L} {str : Str} {locations : ℕ → Option ℤ}

theorem read_first (hread : HoldsAt locations 0 L.locs) :
    locations 0 = some ((L.locs.head L.locs_ne_nil : ℕ) : ℤ) := by
  rw [← List.getElem_zero L.one_le]
  exact hread 0 L.one_le

theorem read_last (hread : HoldsAt locations 0 L.locs) :
    locations (L.locs.length - 1) = some (L.last : ℤ) := by
  have hlt : L.locs.length - 1 < L.locs.length := by
    have := L.one_le
    omega
  have hentry := hread (L.locs.length - 1) hlt
  rwa [Nat.zero_add, ← List.getLast_eq_getElem L.locs_ne_nil] at hentry

theorem head_location :
    ∀ l ∈ L.locs.head?, BitVec.ofInt 32 ((L.locs.head L.locs_ne_nil : ℕ) : ℤ) = BitVec.ofInt 32 l := by
  intro l hl
  rw [List.head?_eq_some_head L.locs_ne_nil, Option.mem_some_iff] at hl
  rw [hl]

theorem hashSub4Mmh2_eq (hread : HoldsAt locations 0 L.locs)
    (hpast : str.size / 4 ≤ L.last ∨ (locations L.locs.length).isSome) :
    hashSub4Mmh2 str locations L.locs.length = some (mixInside str L.locs) := by
  rw [hashSub4Mmh2, read_first hread]
  refine whileLoop_eq L.sorted L.int_range hread ?_ head_location _
  rw [Nat.zero_add]
  exact hpast.imp_left fun hlast => ⟨L.last, L.last_mem, hlast⟩

theorem hashSub4Mmh2_eq_none (hread : HoldsAt locations 0 L.locs) (hlast : L.last < str.size / 4)
    (hpast : locations L.locs.length = none) :
    hashSub4Mmh2 str locations L.locs.length = none := by
  rw [hashSub4Mmh2, read_first hread]
  refine whileLoop_eq_none L.locs_ne_nil L.int_range (fun l hl => (L.le_last hl).trans_lt hlast)
    hread ?_ head_location _
  rwa [Nat.zero_add]

/-- The cut before the last location loses nothing when that one is outside the key. -/
theorem filter_dropLast (hlast : ¬L.last < str.size / 4) :
    (L.locs.take (L.locs.length - 1)).filter (· < str.size / 4) =
      L.locs.filter (· < str.size / 4) := by
  conv_rhs => rw [← List.dropLast_concat_getLast L.locs_ne_nil]
  have hnone : [L.locs.getLast L.locs_ne_nil].filter (· < str.size / 4) = [] := by
    simpa [last] using hlast
  rw [← List.dropLast_eq_take, List.filter_append, hnone, List.append_nil]

theorem hashSub4Mmh2Cust_eq (hread : HoldsAt locations 0 L.locs) :
    hashSub4Mmh2Cust str locations L.locs.length = some (mixInside str L.locs) := by
  have hlength : (L.locs.take (L.locs.length - 1)).length = L.locs.length - 1 := by
    rw [List.length_take]
    omega
  simp only [hashSub4Mmh2Cust, read_first hread, read_last hread, Option.bind_eq_bind,
    Option.bind_some, toNat_ofInt_location (L.int_range _ L.last_mem)]
  split_ifs with hlast
  · have hinside : ∀ l ∈ L.locs, l < str.size / 4 := fun l hl => (L.le_last hl).trans_lt hlast
    rw [foldlM_range_eq (countedRound_eq L.int_range hinside hread), mixInside,
      List.filter_eq_self.mpr (by simpa using hinside)]
  · rw [mixInside, ← filter_dropLast hlast]
    conv_lhs => rw [← hlength]
    refine whileLoop_eq L.sorted.take (fun l hl => L.int_range l (List.mem_of_mem_take hl))
      (hread.take _) (.inr ?_) ?_ _
    · rw [Nat.zero_add, hlength, read_last hread]
      rfl
    · intro l hl
      rw [List.head?_take] at hl
      split_ifs at hl
      · cases hl
      · exact head_location l hl

theorem hashSub1Sdbm_isSome (hread : HoldsAt locations 0 L.locs) :
    (hashSub1Sdbm str locations L.locs.length).isSome := by
  have hround : ∀ hash, ∀ i ∈ List.range L.locs.length,
      (sdbmRound str locations hash i).isSome := by
    intro hash i hi
    have hlt : i < L.locs.length := List.mem_range.mp hi
    have hentry := hread i hlt
    rw [Nat.zero_add] at hentry
    exact sdbmRound_isSome (L.int_range _ (List.getElem_mem hlt)) hentry hash
  exact isSome_foldlM hround _

variable (L)

/-- Both variants mix the chunks at the locations inside the key, whatever stands behind the
array. -/
theorem mmh2_variants_agree (beyond : ℕ → ℤ) (str : Str) :
    hashSub4Mmh2 str (L.arrayBefore beyond) L.locs.length =
        hashSub4Mmh2Cust str (L.arrayBefore beyond) L.locs.length ∧
      hashSub4Mmh2 str (L.arrayBefore beyond) L.locs.length = some (mixInside str L.locs) := by
  have hread := L.holdsAt_arrayBefore beyond
  have hplain : hashSub4Mmh2 str (L.arrayBefore beyond) L.locs.length =
      some (mixInside str L.locs) := hashSub4Mmh2_eq hread (.inr rfl)
  exact ⟨hplain.trans (hashSub4Mmh2Cust_eq hread).symm, hplain⟩

/-- No hash reads outside the key or outside an array of exactly the locations. -/
structure StaysInside (str : Str) : Prop where
  mmh2 : (hashSub4Mmh2 str L.array L.locs.length).isSome
  mmh2Cust : (hashSub4Mmh2Cust str L.array L.locs.length).isSome
  sdbm : (hashSub1Sdbm str L.array L.locs.length).isSome

/-- The hashes stay inside exactly when the last location is outside the key; only the plain
variant ever leaves the array. -/
theorem staysInside_iff (str : Str) : L.StaysInside str ↔ str.size / 4 ≤ L.last := by
  have hread := L.holdsAt_array
  constructor
  · intro hinside
    by_contra hlast
    have hpast : L.array L.locs.length = none := by simp [array]
    have hnone := hashSub4Mmh2_eq_none hread (not_le.mp hlast) hpast
    exact absurd hinside.mmh2 (by simp [hnone])
  · intro hlast
    exact {
      mmh2 := by rw [hashSub4Mmh2_eq hread (.inl hlast)]; rfl
      mmh2Cust := by rw [hashSub4Mmh2Cust_eq hread]; rfl
      sdbm := hashSub1Sdbm_isSome hread }

/-- The other two hashes always stay inside. -/
theorem cust_and_sdbm_stayInside (str : Str) :
    (hashSub4Mmh2Cust str L.array L.locs.length).isSome ∧
      (hashSub1Sdbm str L.array L.locs.length).isSome := by
  refine ⟨?_, hashSub1Sdbm_isSome L.holdsAt_array⟩
  rw [hashSub4Mmh2Cust_eq L.holdsAt_array]
  rfl

/-- The one location of the second chunk. -/
def second : SortedLocations := ⟨[1], by decide, by decide, by decide, by decide⟩

/-- A key of two chunks contains the one location, so a second one is fetched. -/
theorem second_leaves_array :
    hashSub4Mmh2 ⟨[0, 1, 2, 3, 4, 5, 6, 7], by decide⟩ second.array 1 = none ∧
      ¬second.StaysInside ⟨[0, 1, 2, 3, 4, 5, 6, 7], by decide⟩ := by
  have hnone : hashSub4Mmh2 ⟨[0, 1, 2, 3, 4, 5, 6, 7], by decide⟩ second.array 1 = none := by
    decide
  refine ⟨hnone, fun hinside => ?_⟩
  have hsome := hinside.mmh2
  rw [show second.locs.length = 1 from rfl, hnone] at hsome
  cases hsome

end SortedLocations

end EntropyLearnedHashing
