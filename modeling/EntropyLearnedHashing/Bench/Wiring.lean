import EntropyLearnedHashing.Bench.Dispatch

/-! Where the benchmarks take the locations of their partial-key functors from. The map
`locations` has one list for each chunk size, and every construction site indexes it
on its own: it copies a number of entries of one list, sorts the copy and hands it to
a functor that reads its entries as chunks of the functor's own width. The sites are
data here, one list for each benchmark, written off the code. -/

namespace EntropyLearnedHashing

/-- The keys of `hashfuncs` that switch a partial-key functor on. -/
inductive HashFunc where
  | xxh3Sub8 | wyhashSub8 | crcWyhashSub8
  | mmh2Sub4 | sdbmSub1
  | sub4Mmh2 | sub1Sdbm
  deriving DecidableEq

/-- The partial-key functors. -/
inductive PartialKeyHash where
  | nloc (fam : Family)
  | hashSub4Mmh2
  | hashSub1Sdbm

/-- The width of the chunks that a functor counts its locations in. -/
def PartialKeyHash.unit : PartialKeyHash → ℕ
  | .nloc _ => 8
  | .hashSub4Mmh2 => 4
  | .hashSub1Sdbm => 1

/-- How many entries a site copies. -/
inductive CopyCount where
  | constant (k : ℕ)
  | numLocations (name : BenchName) (chunkSize : ℕ)

/-- What a site does to its copy. `bench_hashes` holds it as `unsigned` byte offsets. -/
inductive Preparation where
  | sorted
  | sortedOffsets

/-- A construction site: the flag it stands behind, the functor it builds, the chunk size it
indexes `locations` with, the number of entries and their preparation. -/
structure Site where
  flag : HashFunc
  functor : PartialKeyHash
  chunkSize : ℕ
  count : CopyCount
  preparation : Preparation

/-- The benchmarks that build partial-key functors. -/
inductive SiteBench where
  | robinTable
  | counted (name : BenchName)
  | hashes

/-- The three 8-byte sites that the counting benchmarks share, as far as they have them. -/
def sub8Site (name : BenchName) (flag : HashFunc) (fam : Family) : Site :=
  ⟨flag, .nloc fam, 8, .numLocations name 8, .sorted⟩

/-- The construction sites of a benchmark, in the order of the code. -/
def SiteBench.sites : SiteBench → List Site
  | .robinTable =>
    [⟨.xxh3Sub8, .nloc .xxh3, 4, .constant 4, .sorted⟩,
     ⟨.mmh2Sub4, .hashSub4Mmh2, 4, .constant 4, .sorted⟩]
  | .counted .stdTable =>
    [sub8Site .stdTable .xxh3Sub8 .xxh3,
     sub8Site .stdTable .wyhashSub8 .wyhash,
     sub8Site .stdTable .crcWyhashSub8 .crc32wyhash,
     ⟨.mmh2Sub4, .hashSub4Mmh2, 4, .constant 4, .sorted⟩]
  | .counted .swissTable =>
    [sub8Site .swissTable .xxh3Sub8 .xxh3,
     sub8Site .swissTable .wyhashSub8 .wyhash,
     sub8Site .swissTable .crcWyhashSub8 .crc32wyhash,
     ⟨.mmh2Sub4, .hashSub4Mmh2, 4, .numLocations .swissTable 4, .sorted⟩,
     ⟨.sdbmSub1, .hashSub1Sdbm, 1, .numLocations .swissTable 1, .sorted⟩]
  | .counted .swissTableMt =>
    [sub8Site .swissTableMt .xxh3Sub8 .xxh3,
     sub8Site .swissTableMt .wyhashSub8 .wyhash,
     sub8Site .swissTableMt .crcWyhashSub8 .crc32wyhash,
     ⟨.mmh2Sub4, .hashSub4Mmh2, 4, .numLocations .swissTableMt 4, .sorted⟩,
     ⟨.sdbmSub1, .hashSub1Sdbm, 1, .numLocations .swissTableMt 1, .sorted⟩]
  | .counted .selfbloom =>
    [sub8Site .selfbloom .xxh3Sub8 .xxh3,
     sub8Site .selfbloom .wyhashSub8 .wyhash,
     sub8Site .selfbloom .crcWyhashSub8 .crc32wyhash,
     ⟨.mmh2Sub4, .hashSub4Mmh2, 4, .numLocations .selfbloom 4, .sorted⟩,
     -- the count is the one of chunk size 1, the list the one of chunk size 4
     ⟨.sdbmSub1, .hashSub1Sdbm, 4, .numLocations .selfbloom 1, .sorted⟩]
  | .counted .blockbloom =>
    [⟨.sub4Mmh2, .hashSub4Mmh2, 4, .numLocations .blockbloom 4, .sorted⟩,
     ⟨.sub1Sdbm, .hashSub1Sdbm, 1, .numLocations .blockbloom 1, .sorted⟩,
     sub8Site .blockbloom .xxh3Sub8 .xxh3,
     sub8Site .blockbloom .wyhashSub8 .wyhash]
  | .counted .registerBlockBloom =>
    [⟨.sub4Mmh2, .hashSub4Mmh2, 4, .numLocations .registerBlockBloom 4, .sorted⟩,
     ⟨.sub1Sdbm, .hashSub1Sdbm, 1, .numLocations .registerBlockBloom 1, .sorted⟩,
     sub8Site .registerBlockBloom .xxh3Sub8 .xxh3,
     sub8Site .registerBlockBloom .wyhashSub8 .wyhash]
  | .counted .partitioners =>
    [sub8Site .partitioners .xxh3Sub8 .xxh3,
     sub8Site .partitioners .wyhashSub8 .wyhash,
     sub8Site .partitioners .crcWyhashSub8 .crc32wyhash]
  | .hashes =>
    [⟨.xxh3Sub8, .nloc .xxh3, 8, .constant 2, .sortedOffsets⟩,
     ⟨.wyhashSub8, .nloc .wyhash, 8, .constant 2, .sortedOffsets⟩,
     ⟨.mmh2Sub4, .hashSub4Mmh2, 4, .constant 4, .sorted⟩]

/-! ### Running a site -/

/-- The global maps `locations` and `entropies` and the entropy that is needed. -/
structure LocationMaps (ε : Type*) where
  locations : ℕ → List ℤ
  entropies : ℕ → Option (List ε)
  neededEntropy : ε

/-- The array behind the pointer that a functor or a hash function is given. -/
inductive GivenLocations where
  | ints (locs : List ℤ)
  | offsets (locs : List U32)

/-- `std::sort` of `unsigned`s, the multiplication by 8 and the pushed endpoint. -/
def unsignedOffsets (locs : List ℤ) : Option (List U32) :=
  let hashLocations := ((locs.map (BitVec.ofInt 32)).insertionSort (·.toNat ≤ ·.toNat)).map (· * 8)
  hashLocations.getLast?.map fun last => hashLocations ++ [last + 8]

def Preparation.apply (locs : List ℤ) : Preparation → Option GivenLocations
  | .sorted => some (.ints (sortInts locs))
  | .sortedOffsets => (unsignedOffsets locs).map .offsets

section

variable {ε : Type*} [LT ε] [DecidableLT ε]

/-- `numLocationsForChunkSize` when no entropy suffices, an `int` made from `size() - 1`;
`bench_blockbloom` does not set it. -/
def BenchName.startCount : BenchName → ℕ → ℤ
  | .blockbloom, _ => 0
  | _, size => size - 1

/-- `numLocationsForChunkSize[chunkSize]`: zero for a chunk size without entropies, and capped
for chunk size 8 only. -/
def BenchName.numLocationsForChunkSize (name : BenchName) (m : LocationMaps ε) (chunkSize : ℕ) : ℤ :=
  match m.entropies chunkSize with
  | none => 0
  | some entropies =>
    let n : ℤ := match entropies.findIdx? (m.neededEntropy < ·) with
      | some i => i + 1
      | none => name.startCount entropies.length
    if chunkSize = 8 ∧ 4 < n then name.bench.cap else n

def CopyCount.eval (m : LocationMaps ε) : CopyCount → ℤ
  | .constant k => k
  | .numLocations name chunkSize => name.numLocationsForChunkSize m chunkSize

/-- The array that a site prepares from `&locations[c][0] .. &locations[c][n]`; `none` when
the second pointer leaves the vector. -/
def Site.given (s : Site) (m : LocationMaps ε) : Option GivenLocations :=
  let n := s.count.eval m
  if 0 ≤ n ∧ n ≤ (m.locations s.chunkSize).length then
    s.preparation.apply ((m.locations s.chunkSize).take n.toNat)
  else none

/-! ### Units -/

/-- Different lists for the chunk sizes 1, 4 and 8. -/
structure LocationMaps.Different (m : LocationMaps ε) : Prop where
  one_ne_four : m.locations 1 ≠ m.locations 4
  one_ne_eight : m.locations 1 ≠ m.locations 8
  four_ne_eight : m.locations 4 ≠ m.locations 8

variable (ε) in
/-- For every content of the maps, every functor that is built is given locations of its own
unit, prepared from the first entries of that list. -/
def WiredRight (b : SiteBench) (hashfuncs : HashFunc → Bool) : Prop :=
  ∀ m : LocationMaps ε, m.Different → ∀ s ∈ b.sites, hashfuncs s.flag = true →
    ∀ g, s.given m = some g → ∃ n, s.preparation.apply ((m.locations s.functor.unit).take n) = some g

theorem Site.given_of_unit {s : Site} (h : s.chunkSize = s.functor.unit) {m : LocationMaps ε}
    {g : GivenLocations} (hg : s.given m = some g) :
    ∃ n, s.preparation.apply ((m.locations s.functor.unit).take n) = some g := by
  unfold Site.given at hg
  rw [h] at hg
  exact ⟨_, (Option.ite_none_right_eq_some.mp hg).2⟩

theorem counted_sites_unit {name : BenchName} (h : name ≠ .selfbloom) :
    ∀ s ∈ (SiteBench.counted name).sites, s.chunkSize = s.functor.unit := by
  cases name with
  | selfbloom => exact absurd rfl h
  | stdTable | swissTable | swissTableMt | blockbloom | registerBlockBloom | partitioners => decide

/-- Two sites index the map with another width. -/
theorem SiteBench.sites_unit (b : SiteBench) {s : Site} (hs : s ∈ b.sites) :
    s.chunkSize = s.functor.unit ∨ b = .robinTable ∧ s.flag = .xxh3Sub8 ∨
      b = .counted .selfbloom ∧ s.flag = .sdbmSub1 := by
  cases b with
  | robinTable =>
    simp only [sites, List.mem_cons, List.not_mem_nil, or_false] at hs
    rcases hs with rfl | rfl
    · exact .inr (.inl ⟨rfl, rfl⟩)
    · exact .inl rfl
  | counted name =>
    by_cases hname : name = .selfbloom
    · subst hname
      simp only [sites, List.mem_cons, List.not_mem_nil, or_false] at hs
      rcases hs with rfl | rfl | rfl | rfl | rfl
      iterate 4 exact .inl rfl
      exact .inr (.inr ⟨rfl, rfl⟩)
    · exact .inl (counted_sites_unit hname s hs)
  | hashes =>
    simp only [sites, List.mem_cons, List.not_mem_nil, or_false] at hs
    rcases hs with rfl | rfl | rfl <;> exact .inl rfl

/-- Maps whose lists have no entry in common. -/
def disjointMaps (e : ε) : LocationMaps ε where
  locations
    | 1 => [10, 11, 12, 13]
    | 4 => [0, 1, 2, 3]
    | _ => [20, 21, 22, 23]
  entropies _ := some [e, e]
  neededEntropy := e

omit [LT ε] [DecidableLT ε] in
theorem disjointMaps_different (e : ε) : (disjointMaps e).Different :=
  ⟨by simp [disjointMaps], by simp [disjointMaps], by simp [disjointMaps]⟩

theorem mem_of_sorted_take {l l' : List ℤ} {n : ℕ} (h : sortInts (l.take n) = sortInts l') {x : ℤ}
    (hx : x ∈ l') : x ∈ l := by
  have hmem : x ∈ sortInts (l.take n) := h ▸ (List.mem_insertionSort _).mpr hx
  exact List.mem_of_mem_take ((List.mem_insertionSort _).mp hmem)

/-- The robin table hands 4-byte locations to the 8-byte functor. -/
theorem not_wiredRight_robinTable [Inhabited ε] {hashfuncs : HashFunc → Bool}
    (h : hashfuncs .xxh3Sub8 = true) : ¬WiredRight ε .robinTable hashfuncs := by
  intro hwired
  obtain ⟨n, hn⟩ := hwired (disjointMaps default) (disjointMaps_different default)
    ⟨.xxh3Sub8, .nloc .xxh3, 4, .constant 4, .sorted⟩ (by simp [SiteBench.sites]) h
    (.ints (sortInts [0, 1, 2, 3])) rfl
  have hsort : sortInts (([20, 21, 22, 23] : List ℤ).take n) = sortInts [0, 1, 2, 3] := by
    simpa [Preparation.apply, disjointMaps, PartialKeyHash.unit] using hn
  exact absurd (mem_of_sorted_take hsort (x := 0) (by simp)) (by decide)

/-- The Bloom filter hands 4-byte locations to the byte functor. -/
theorem not_wiredRight_selfbloom [Inhabited ε] {hashfuncs : HashFunc → Bool}
    (h : hashfuncs .sdbmSub1 = true) : ¬WiredRight ε (.counted .selfbloom) hashfuncs := by
  intro hwired
  have hcount : BenchName.selfbloom.numLocationsForChunkSize (disjointMaps (default : ε)) 1 = 1 := by
    by_cases hlt : (default : ε) < default <;>
      simp [BenchName.numLocationsForChunkSize, disjointMaps, hlt, BenchName.startCount,
        List.findIdx?_cons]
  have hgiven : Site.given ⟨.sdbmSub1, .hashSub1Sdbm, 4, .numLocations .selfbloom 1, .sorted⟩
      (disjointMaps (default : ε)) = some (.ints (sortInts [0])) := by
    unfold Site.given
    simp only [CopyCount.eval, hcount]
    rfl
  obtain ⟨n, hn⟩ := hwired (disjointMaps default) (disjointMaps_different default) _
    (by simp [SiteBench.sites]) h _ hgiven
  have hsort : sortInts (([10, 11, 12, 13] : List ℤ).take n) = sortInts [0] := by
    simpa [Preparation.apply, disjointMaps, PartialKeyHash.unit] using hn
  exact absurd (mem_of_sorted_take hsort (x := 0) (by simp)) (by decide)

/-- The benchmarks are wired right exactly when neither of the two odd sites is switched on. -/
theorem wiredRight_iff [Inhabited ε] (b : SiteBench) (hashfuncs : HashFunc → Bool) :
    WiredRight ε b hashfuncs ↔
      ¬(b = .robinTable ∧ hashfuncs .xxh3Sub8 = true) ∧
        ¬(b = .counted .selfbloom ∧ hashfuncs .sdbmSub1 = true) := by
  constructor
  · intro hwired
    constructor
    · rintro ⟨rfl, h⟩
      exact not_wiredRight_robinTable h hwired
    · rintro ⟨rfl, h⟩
      exact not_wiredRight_selfbloom h hwired
  · rintro ⟨hrobin, hselfbloom⟩ m - s hs hflag g hg
    rcases b.sites_unit hs with hunit | ⟨hb, hs⟩ | ⟨hb, hs⟩
    · exact Site.given_of_unit hunit hg
    · exact absurd ⟨hb, hs ▸ hflag⟩ hrobin
    · exact absurd ⟨hb, hs ▸ hflag⟩ hselfbloom

/-- With every functor switched on, the robin table gives 4-byte locations to an 8-byte
functor. -/
theorem robinTable_not_wiredRight : ¬WiredRight ℚ .robinTable fun _ => true :=
  not_wiredRight_robinTable rfl

end

end EntropyLearnedHashing
