import EntropyLearnedHashing.Bench.Dispatch
import Mathlib.Algebra.Order.Ring.Rat
import Mathlib.Data.List.GetD
import Mathlib.Order.Bounds.Basic
import Mathlib.Tactic.IntervalCases
import Mathlib.Tactic.NormNum

/-! When the selected functor fits. A ladder that ends in the functor of four locations
passes it whatever array there is, also an empty one; a ladder that ends in a full-key
hash never does, but takes a count that no entropy supports for a selection. -/

namespace EntropyLearnedHashing

/-! ### The ladders -/

theorem ladderToFour_of_le {fixedLength : Bool} {n : ℕ} (hpos : 0 < n) (hle : n ≤ 4) :
    ladderToFour fixedLength n = .nloc fixedLength n := by
  interval_cases n <;> rfl

/-- Every other count, zero included, reaches the last branch. -/
theorem ladderToFour_of_not_le {fixedLength : Bool} {n : ℕ} (h : n = 0 ∨ 4 < n) :
    ladderToFour fixedLength n = .nloc fixedLength 4 := by
  unfold ladderToFour
  rw [if_neg (by omega), if_neg (by omega), if_neg (by omega)]

theorem ladderToFull_of_le {hash : FullKeyHash} {fixedLength : Bool} {n : ℕ} (hpos : 0 < n)
    (hle : n ≤ 4) : ladderToFull hash fixedLength n = .nloc fixedLength n := by
  interval_cases n <;> rfl

theorem ladderToFull_of_not_le {hash : FullKeyHash} {fixedLength : Bool} {n : ℕ}
    (h : n = 0 ∨ 4 < n) : ladderToFull hash fixedLength n = .fullKey hash := by
  unfold ladderToFull
  rw [if_neg (by omega), if_neg (by omega), if_neg (by omega), if_neg (by omega)]

/-! ### Arity -/

/-- A functor of `a` locations finds the first `a` choices, sorted, at the front of the
sorted copy of the first `n`. -/
def Choice.Fits (locations : List ℤ) (n : ℕ) (choice : Choice) : Prop :=
  ∀ fixedLength a, choice = .nloc fixedLength a →
    a ≤ n ∧ (sortInts (locations.take n)).take a = sortInts (locations.take a)

theorem fits_nloc_iff {locations : List ℤ} {n a : ℕ} {fixedLength : Bool} :
    (Choice.nloc fixedLength a).Fits locations n ↔
      a ≤ n ∧ (sortInts (locations.take n)).take a = sortInts (locations.take a) := by
  constructor
  · intro h
    exact h fixedLength a rfl
  · rintro h fixedLength' a' heq
    cases heq
    exact h

theorem fits_nloc_self (locations : List ℤ) (n : ℕ) (fixedLength : Bool) :
    (Choice.nloc fixedLength n).Fits locations n := by
  refine fits_nloc_iff.mpr ⟨le_refl n, ?_⟩
  exact List.take_of_length_le (by simp)

theorem fits_fullKey (locations : List ℤ) (n : ℕ) (hash : FullKeyHash) :
    (Choice.fullKey hash).Fits locations n := by
  intro fixedLength a h
  cases h

theorem fits_nothing (locations : List ℤ) (n : ℕ) : Choice.nothing.Fits locations n := by
  intro fixedLength a h
  cases h

theorem ladderToFull_fits (hash : FullKeyHash) (fixedLength : Bool) (locations : List ℤ) (n : ℕ) :
    (ladderToFull hash fixedLength n).Fits locations n := by
  by_cases hn : 0 < n ∧ n ≤ 4
  · rw [ladderToFull_of_le hn.1 hn.2]
    exact fits_nloc_self locations n fixedLength
  · rw [ladderToFull_of_not_le (by omega)]
    exact fits_fullKey locations n hash

/-- Four locations out of a sorted copy of five are the first four choices exactly when
the fifth choice is the largest. -/
theorem fits_four_of_five {locations : List ℤ} {fixedLength : Bool} (hlen : 5 ≤ locations.length) :
    (Choice.nloc fixedLength 4).Fits locations 5 ↔
      ∀ l ∈ locations.take 4, l ≤ locations.getD 4 0 := by
  have hsplit : locations.take 5 = locations.take 4 ++ [locations.getD 4 0] := by
    rw [List.getD_eq_getElem locations 0 hlen, ← List.take_succ_eq_append_getElem hlen]
  have hfour : (locations.take 4).length = 4 := by simp; omega
  rw [fits_nloc_iff, hsplit, ← take_sortInts_append, hfour]
  exact and_iff_right (by decide)

theorem ladderToFour_fits_iff {locations : List ℤ} {n : ℕ} {fixedLength : Bool}
    (hn : n ≤ 5) (hlen : n ≤ locations.length) :
    (ladderToFour fixedLength n).Fits locations n ↔
      0 < n ∧ (4 < n → ∀ l ∈ locations.take 4, l ≤ locations.getD 4 0) := by
  by_cases hle : 0 < n ∧ n ≤ 4
  · rw [ladderToFour_of_le hle.1 hle.2]
    exact iff_of_true (fits_nloc_self locations n fixedLength) ⟨hle.1, fun h => by omega⟩
  rw [ladderToFour_of_not_le (by omega)]
  rcases Nat.eq_zero_or_pos n with rfl | hpos
  · refine iff_of_false (fun h => ?_) (by simp)
    exact absurd (fits_nloc_iff.mp h).1 (by decide)
  · obtain rfl : n = 5 := by omega
    rw [fits_four_of_five hlen]
    simp

section Arity

variable {ε : Type*} [LT ε] [DecidableLT ε]

/-- The pointers that delimit `hash_locations` stay in `locations[8]`, and a functor of
`a` locations is passed the first `a` choices in sorted order. -/
def ArityOk (b : Bench) (fam : Family) (fixedLength : Bool) (locations : List ℤ)
    (entropies : List ε) (neededEntropy : ε) : Prop :=
  ∃ hashLocations, b.hashLocations locations entropies neededEntropy = some hashLocations ∧
    ∀ fixedLength' a, b.choose fam fixedLength entropies neededEntropy = .nloc fixedLength' a →
      a ≤ hashLocations.length ∧ hashLocations.take a = sortInts (locations.take a)

/-- The lists on which a benchmark keeps to the arity of its functor. -/
def BenchName.ArityCondition (name : BenchName) (fam : Family) (locations : List ℤ)
    (entropies : List ε) (neededEntropy : ε) : Prop :=
  match name with
  | .stdTable | .swissTable | .swissTableMt =>
    entropies.length ≠ 1 ∨ ∃ e ∈ entropies, neededEntropy < e
  | .selfbloom => fam = .crc32wyhash →
    (entropies.length ≠ 1 ∨ ∃ e ∈ entropies, neededEntropy < e) ∧
      ((∀ e ∈ entropies.take 4, ¬ neededEntropy < e) →
        (6 ≤ entropies.length ∨ ∃ e ∈ entropies, neededEntropy < e) →
        ∀ l ∈ locations.take 4, l ≤ locations.getD 4 0)
  | .blockbloom => fam = .crc32wyhash ∨ ∃ e ∈ entropies, neededEntropy < e
  | .registerBlockBloom | .partitioners => True

variable {b : Bench} {fam : Family} {fixedLength : Bool} {locations : List ℤ}
  {entropies : List ε} {neededEntropy : ε}

theorem arityOk_iff_fits (hle : b.numLocations entropies neededEntropy ≤ locations.length) :
    ArityOk b fam fixedLength locations entropies neededEntropy ↔
      (b.choose fam fixedLength entropies neededEntropy).Fits locations
        (b.numLocations entropies neededEntropy) := by
  have hlocs : b.hashLocations locations entropies neededEntropy =
      some (sortInts (locations.take (b.numLocations entropies neededEntropy))) := if_pos hle
  have hlen : (sortInts (locations.take (b.numLocations entropies neededEntropy))).length =
      b.numLocations entropies neededEntropy := by simp [hle]
  constructor
  · rintro ⟨hl, heq, h⟩ fixedLength' a hchoose
    obtain rfl : _ = hl := Option.some.inj (hlocs.symm.trans heq)
    obtain ⟨ha, htake⟩ := h fixedLength' a hchoose
    exact ⟨ha.trans hlen.le, htake⟩
  · intro h
    refine ⟨_, hlocs, fun fixedLength' a hchoose => ?_⟩
    rw [hlen]
    exact h fixedLength' a hchoose

/-- A benchmark that ends in the functor of four locations. -/
theorem arityOk_iff_of_ladderToFour (hladder : b.ladder fam = ladderToFour) (hfour : 4 ≤ b.cap)
    (hfive : b.cap ≤ 5) (hle : b.numLocations entropies neededEntropy ≤ locations.length) :
    ArityOk b fam fixedLength locations entropies neededEntropy ↔
      0 < b.numLocations entropies neededEntropy ∧
        (4 < b.numLocations entropies neededEntropy →
          ∀ l ∈ locations.take 4, l ≤ locations.getD 4 0) := by
  have hn : b.numLocations entropies neededEntropy ≤ 5 := (Bench.numLocations_le hfour).trans hfive
  rw [arityOk_iff_fits hle, Bench.choose, hladder, ladderToFour_fits_iff hn hle]

theorem arityOk_of_ladderToFull {hash : FullKeyHash}
    (hladder : b.ladder fam fixedLength = ladderToFull hash fixedLength)
    (hle : b.numLocations entropies neededEntropy ≤ locations.length) :
    ArityOk b fam fixedLength locations entropies neededEntropy := by
  rw [arityOk_iff_fits hle, Bench.choose, hladder]
  exact ladderToFull_fits hash fixedLength locations _

/-- With a cap of four the count never leaves the ladder at the top. -/
theorem arityOk_iff_numLocations_pos (hladder : b.ladder fam = ladderToFour) (hcap : b.cap = 4)
    (hle : b.numLocations entropies neededEntropy ≤ locations.length) :
    ArityOk b fam fixedLength locations entropies neededEntropy ↔
      (∃ e ∈ entropies, neededEntropy < e) ∨ 0 < b.start entropies.length := by
  have hn : b.numLocations entropies neededEntropy ≤ 4 := hcap ▸ Bench.numLocations_le hcap.ge
  rw [arityOk_iff_of_ladderToFour hladder hcap.ge (by omega) hle,
    ← Bench.numLocations_pos_iff (by omega)]
  exact and_iff_left fun h => absurd h (by omega)

/-- A family without a branch passes no array on. -/
theorem arityOk_of_nothing (hladder : ∀ n, b.ladder fam fixedLength n = .nothing)
    (hle : b.numLocations entropies neededEntropy ≤ locations.length) :
    ArityOk b fam fixedLength locations entropies neededEntropy := by
  rw [arityOk_iff_fits hle, Bench.choose, hladder]
  exact fits_nothing locations _

/-- The CRC ladder of the Bloom filter, whose cap leaves the ladder at the top. -/
theorem arityOk_selfbloom_crc_iff
    (hle : benchSelfbloom.numLocations entropies neededEntropy ≤ locations.length)
    (hne : entropies ≠ []) :
    ArityOk benchSelfbloom .crc32wyhash fixedLength locations entropies neededEntropy ↔
      (entropies.length ≠ 1 ∨ ∃ e ∈ entropies, neededEntropy < e) ∧
        ((∀ e ∈ entropies.take 4, ¬ neededEntropy < e) →
          (6 ≤ entropies.length ∨ ∃ e ∈ entropies, neededEntropy < e) →
          ∀ l ∈ locations.take 4, l ≤ locations.getD 4 0) := by
  have hlen : 0 < entropies.length := List.length_pos_of_ne_nil hne
  have hone : 0 < benchSelfbloom.start entropies.length ↔ entropies.length ≠ 1 := by
    simp only [benchSelfbloom]
    omega
  have hsix : 4 < benchSelfbloom.start entropies.length ↔ 6 ≤ entropies.length := by
    simp only [benchSelfbloom]
    omega
  rw [arityOk_iff_of_ladderToFour rfl (by decide) (by decide) hle,
    Bench.numLocations_pos_iff (by decide), Bench.four_lt_numLocations_iff (by decide), hone, hsix,
    or_comm, and_imp, or_comm (b := 6 ≤ _)]

/-- Each benchmark keeps to the arity of its functor exactly on its own lists. -/
theorem arityOk_iff_arityCondition (name : BenchName) (fam : Family) (fixedLength : Bool)
    (locations : List ℤ) (entropies : List ε) (neededEntropy : ε)
    (hlen : locations.length = entropies.length) (hne : entropies ≠ []) :
    ArityOk name.bench fam fixedLength locations entropies neededEntropy ↔
      name.ArityCondition fam locations entropies neededEntropy := by
  have hpos : 0 < entropies.length := List.length_pos_of_ne_nil hne
  have hle : name.bench.numLocations entropies neededEntropy ≤ locations.length := by
    rw [hlen]
    exact Bench.numLocations_le_length name.cap_le (name.start_le _)
  have hone : 0 < entropies.length - 1 ↔ entropies.length ≠ 1 := by omega
  cases name with
  | stdTable | swissTable | swissTableMt =>
    refine (arityOk_iff_numLocations_pos rfl rfl hle).trans ?_
    exact (or_congr_right hone).trans or_comm
  | selfbloom =>
    cases fam with
    | xxh3 | wyhash => exact iff_of_true (arityOk_of_ladderToFull rfl hle) nofun
    | crc32wyhash =>
      refine (arityOk_selfbloom_crc_iff hle hne).trans ?_
      exact ⟨fun h _ => h, fun h => h rfl⟩
  | blockbloom =>
    cases fam with
    | xxh3 | wyhash =>
      refine (arityOk_iff_numLocations_pos rfl rfl hle).trans ?_
      simp [BenchName.ArityCondition, BenchName.bench, benchBlockbloom]
    | crc32wyhash => exact iff_of_true (arityOk_of_nothing (fun _ => rfl) hle) (.inl rfl)
  | registerBlockBloom =>
    refine iff_of_true ?_ trivial
    cases fam with
    | xxh3 | wyhash => exact arityOk_of_ladderToFull rfl hle
    | crc32wyhash => exact arityOk_of_nothing (fun _ => rfl) hle
  | partitioners =>
    refine iff_of_true ?_ trivial
    cases fam <;> exact arityOk_of_ladderToFull rfl hle

theorem fixedLocations_take (n : ℕ) (l : List ℤ) :
    fixedLocations n (l.take n) = fixedLocations n l := by
  unfold fixedLocations
  by_cases h : n ≤ l.length
  · simp [h]
  · simp only [List.take_of_length_le (Nat.le_of_not_le h)]

theorem cachedLocations_take (n : ℕ) (l : List ℤ) :
    cachedLocations (n + 1) (l.take (n + 1)) = cachedLocations (n + 1) l := by
  unfold cachedLocations
  rw [fixedLocations_take, Nat.add_sub_cancel, List.getElem?_take, if_pos (Nat.lt_succ_self n)]

/-- A functor reads no more of its array than its arity. -/
theorem nloc_functor_take (fam : Family) (fixedLength : Bool) (a : ℕ) (l : List ℤ) :
    (Choice.nloc fixedLength a).functor fam (l.take a) =
      (Choice.nloc fixedLength a).functor fam l := by
  rcases a with _ | _ | _ | _ | _ | n <;> cases fixedLength <;> cases fam <;>
    first
    | rfl
    | exact congrArg (Option.map _) (fixedLocations_take _ l)
    | exact congrArg (Option.map _) (cachedLocations_take _ l)

/-- The functor that runs is the one of the sorted first choices. -/
theorem ArityOk.functor_eq (h : ArityOk b fam fixedLength locations entropies neededEntropy)
    {hashLocations : List ℤ} {fixedLength' : Bool} {a : ℕ}
    (hlocs : b.hashLocations locations entropies neededEntropy = some hashLocations)
    (hchoose : b.choose fam fixedLength entropies neededEntropy = .nloc fixedLength' a) :
    (b.choose fam fixedLength entropies neededEntropy).functor fam hashLocations =
      (Choice.nloc fixedLength' a).functor fam (sortInts (locations.take a)) := by
  obtain ⟨hl, heq, hfit⟩ := h
  obtain rfl : hl = hashLocations := Option.some.inj (heq.symm.trans hlocs)
  rw [hchoose, ← nloc_functor_take fam fixedLength' a, (hfit fixedLength' a hchoose).2]

theorem arityOk_stdTable_two_choices :
    ArityOk BenchName.stdTable.bench .xxh3 true [2, 0] [(10 : ℚ), 12] (23 / 2) :=
  (arityOk_iff_arityCondition .stdTable .xxh3 true [2, 0] [(10 : ℚ), 12] (23 / 2) rfl (by simp)).mpr
    (.inl (by decide))

/-- Keys of one word whose entropy does not suffice: the functor of four locations is
built from an empty array. -/
theorem not_arityOk_stdTable_one_choice :
    ¬ ArityOk BenchName.stdTable.bench .xxh3 true [0] [(10 : ℚ)] (23 / 2) := by
  have hcount : benchStdTable.numLocations [(10 : ℚ)] (23 / 2) = 0 := by
    norm_num [Bench.numLocations, benchStdTable, List.findIdx?_cons]
  rintro ⟨hl, heq, h⟩
  obtain rfl : [] = hl := by simpa [Bench.hashLocations, BenchName.bench, hcount, sortInts] using heq
  have hchoose : BenchName.stdTable.bench.choose .xxh3 true [(10 : ℚ)] (23 / 2) = .nloc true 4 := by
    rw [Bench.choose, BenchName.bench, hcount]
    rfl
  exact absurd (h true 4 hchoose).1 (by decide)

end Arity

/-! ### Entropy -/

section Entropy

variable {ε : Type*} [LT ε] [DecidableLT ε]

/-- The prefix lengths whose entropy suffices. -/
def sufficientLengths (entropies : List ε) (neededEntropy : ε) : Set ℕ :=
  {n | 0 < n ∧ ∃ e, entropies[n - 1]? = some e ∧ neededEntropy < e}

/-- A functor reads the fewest locations that suffice, and when more than four would be
needed the key is hashed whole. -/
def EntropyAdequate (b : Bench) (fam : Family) (fixedLength : Bool) (entropies : List ε)
    (neededEntropy : ε) : Prop :=
  (∀ fixedLength' n, b.choose fam fixedLength entropies neededEntropy = .nloc fixedLength' n →
      IsLeast (sufficientLengths entropies neededEntropy) n) ∧
    ((∀ n ∈ sufficientLengths entropies neededEntropy, 4 < n) →
      b.choose fam fixedLength entropies neededEntropy = .fullKey fam.fullKeyHash)

variable {b : Bench} {fam : Family} {fixedLength : Bool} {entropies : List ε} {neededEntropy : ε}

omit [DecidableLT ε] in
theorem sufficientLengths_isLeast {i : ℕ} (hi : i < entropies.length)
    (hsuff : neededEntropy < entropies[i])
    (hbefore : ∀ e ∈ entropies.take i, ¬ neededEntropy < e) :
    IsLeast (sufficientLengths entropies neededEntropy) (i + 1) := by
  refine ⟨⟨Nat.succ_pos i, entropies[i], List.getElem?_eq_getElem hi, hsuff⟩, ?_⟩
  rintro n ⟨hpos, e, he, hlt⟩
  by_contra hn
  obtain ⟨hlen, rfl⟩ := List.getElem?_eq_some_iff.mp he
  exact hbefore _ (List.mem_take_iff_getElem.mpr ⟨n - 1, by omega, rfl⟩) hlt

omit [DecidableLT ε] in
theorem sufficientLengths_eq_empty (h : ∀ e ∈ entropies, ¬ neededEntropy < e) :
    sufficientLengths entropies neededEntropy = ∅ := by
  refine Set.eq_empty_iff_forall_notMem.mpr ?_
  rintro n ⟨-, e, he, hlt⟩
  exact h e (List.mem_of_getElem? he) hlt

/-- A ladder to the full-key hash with a cap of five, once some entropy suffices. -/
theorem entropyAdequate_of_exists (hcap : b.cap = 5)
    (hladder : b.ladder fam = ladderToFull fam.fullKeyHash)
    (hex : ∃ e ∈ entropies, neededEntropy < e) :
    EntropyAdequate b fam fixedLength entropies neededEntropy := by
  rcases b.numLocations_cases entropies neededEntropy with ⟨i, hi, hsuff, hbefore, hn⟩ | ⟨hnone, -⟩
  · have hleast := sufficientLengths_isLeast hi hsuff hbefore
    unfold EntropyAdequate Bench.choose
    rw [hladder, hn]
    by_cases hfour : i + 1 ≤ 4
    · rw [if_neg (by omega), ladderToFull_of_le (Nat.succ_pos i) hfour]
      refine ⟨fun fixedLength' n h => ?_, fun h => absurd (h (i + 1) hleast.1) (by omega)⟩
      cases h
      exact hleast
    · rw [if_pos (by omega), hcap, ladderToFull_of_not_le (.inr (by decide))]
      exact ⟨fun fixedLength' n h => (nomatch h), fun _ => rfl⟩
  · obtain ⟨e, he, hsuff⟩ := hex
    exact absurd hsuff (hnone e he)

/-- Without a sufficient entropy the choice must be the full-key hash. -/
theorem entropyAdequate_iff_of_forall (hladder : b.ladder fam = ladderToFull fam.fullKeyHash)
    (hnone : ∀ e ∈ entropies, ¬ neededEntropy < e) :
    EntropyAdequate b fam fixedLength entropies neededEntropy ↔
      b.numLocations entropies neededEntropy = 0 ∨ 4 < b.numLocations entropies neededEntropy := by
  unfold EntropyAdequate Bench.choose
  rw [hladder, sufficientLengths_eq_empty hnone]
  by_cases hn : b.numLocations entropies neededEntropy = 0 ∨
      4 < b.numLocations entropies neededEntropy
  · rw [ladderToFull_of_not_le hn]
    exact iff_of_true ⟨fun fixedLength' n h => (nomatch h), fun _ => rfl⟩ hn
  · rw [ladderToFull_of_le (by omega) (by omega)]
    refine iff_of_false (fun h => ?_) hn
    exact (h.1 fixedLength _ rfl).1

/-- The filters and the partitioner with a full-key branch are adequate except on two to
five entropies of which none suffices. -/
theorem entropyAdequate_iff (name : BenchName) (fam : Family) (fixedLength : Bool)
    (entropies : List ε) (neededEntropy : ε)
    (hname : name = .selfbloom ∨ name = .registerBlockBloom ∨ name = .partitioners)
    (hfam : fam = .xxh3 ∨ fam = .wyhash) (hne : entropies ≠ []) :
    EntropyAdequate name.bench fam fixedLength entropies neededEntropy ↔
      (∃ e ∈ entropies, neededEntropy < e) ∨ entropies.length = 1 ∨ 6 ≤ entropies.length := by
  have hpos : 0 < entropies.length := List.length_pos_of_ne_nil hne
  have hladder : name.bench.ladder fam = ladderToFull fam.fullKeyHash := by
    rcases hname with rfl | rfl | rfl <;> rcases hfam with rfl | rfl <;> rfl
  have hcap : name.bench.cap = 5 := by rcases hname with rfl | rfl | rfl <;> rfl
  have hstart : name.bench.start entropies.length = entropies.length - 1 := by
    rcases hname with rfl | rfl | rfl <;> rfl
  by_cases hex : ∃ e ∈ entropies, neededEntropy < e
  · exact iff_of_true (entropyAdequate_of_exists hcap hladder hex) (.inl hex)
  have hcount : 0 < name.bench.numLocations entropies neededEntropy ↔ 1 < entropies.length := by
    rw [Bench.numLocations_pos_iff (by omega), hstart]
    simp only [hex, false_or]
    omega
  have hfull : 4 < name.bench.numLocations entropies neededEntropy ↔ 5 < entropies.length := by
    rw [Bench.four_lt_numLocations_iff (by omega), hstart]
    simp only [hex, false_or]
    refine (and_iff_right fun e he hsuff => hex ⟨e, List.mem_of_mem_take he, hsuff⟩).trans ?_
    omega
  rw [entropyAdequate_iff_of_forall hladder fun e he hsuff => hex ⟨e, he, hsuff⟩, hfull]
  simp only [hex, false_or]
  omega

theorem entropyAdequate_selfbloom_second :
    EntropyAdequate BenchName.selfbloom.bench .wyhash false [(10 : ℚ), 14] 12 :=
  (entropyAdequate_iff .selfbloom .wyhash false [(10 : ℚ), 14] 12 (.inl rfl) (.inr rfl)
    (by simp)).mpr (.inl ⟨14, by simp, by norm_num⟩)

/-- Two entropies of which none suffices: the functor of one location is used. -/
theorem not_entropyAdequate_selfbloom_short :
    ¬ EntropyAdequate BenchName.selfbloom.bench .wyhash false [(10 : ℚ), 11] 12 := by
  intro h
  have hcount : benchSelfbloom.numLocations [(10 : ℚ), 11] 12 = 1 := by
    norm_num [Bench.numLocations, benchSelfbloom, List.findIdx?_cons]
  have hchoose : BenchName.selfbloom.bench.choose .wyhash false [(10 : ℚ), 11] 12 = .nloc false 1 := by
    rw [Bench.choose, BenchName.bench, hcount]
    rfl
  obtain ⟨-, e, he, hlt⟩ := (h.1 false 1 hchoose).1
  obtain rfl : 10 = e := by simpa using he
  norm_num at hlt

end Entropy

end EntropyLearnedHashing
