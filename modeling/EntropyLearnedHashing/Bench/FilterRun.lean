import EntropyLearnedHashing.Bench.FilterLatency
import EntropyLearnedHashing.Filters.SelfBlockBloom512
import EntropyLearnedHashing.Filters.SelfBlockBloom64

/-! `benchFilter` of `benchmark_filters.cpp` on the three filters. The throughput benchmark goes from
the empty filter to the reported count: all keys are added and tested, which an assertion
checks, then the probes are tested in the warm-up and in the measured loop. A probe that
collides with a key under the hash functor is a false positive of every filter, so the
reported count is at least the number of such probes, up to the rest behind the last block,
and at most the number of all unsuccessful probes. The latency benchmark, which comes first if
it is on, already writes outside of its vector. -/

namespace EntropyLearnedHashing

variable {κ σ C : Type}

section Bench

variable (addValue : σ → κ → Option σ) (testValue : σ → κ → Option Bool) (hash : κ → U64)

/-- `result += filter.testValue(x)` for all keys. -/
def sumAnswers (s : σ) (l : List κ) : Option ℕ :=
  l.foldlM (fun result x => (testValue s x).map fun b => result + b.toNat) 0

/-- `benchFilter_throughput` on a filter that holds the data. The warm-up has tested every probe that
the measured loop tests. -/
def filledThroughput (data probes : List κ) (numProbesUnsuccessful : ℤ) (fuel : ℕ) (s : σ) :
    Option ℤ := do
  let result ← sumAnswers testValue s data
  if result % 2 ^ 32 = data.length then
    let _ ← sumAnswers testValue s probes
    throughputFps hash (fun x => (testValue s x).getD false) probes numProbesUnsuccessful fuel
  else none

/-- `benchFilter_throughput`, when the latency benchmark has not filled the filter before. -/
def benchFilterThroughput (data probes : List κ) (numProbesUnsuccessful : ℤ) (fuel : ℕ) (s : σ) :
    Option ℤ := do
  let s ← data.foldlM addValue s
  filledThroughput testValue hash data probes numProbesUnsuccessful fuel s

/-- `benchFilter_latency`, with the filter that it leaves. Its vector is only reserved. -/
def benchFilterLatency [DecidableEq κ] (data probes : List κ) (numProbesUnsuccessful : ℤ)
    (fuel : ℕ) (s : σ) : Option (σ × ℤ) := do
  let s ← data.foldlM addValue s
  let result ← sumAnswers testValue s data
  if result % 2 ^ 32 = data.length then
    let fps ← latencyFps hash (fun x => (testValue s x).getD false) data probes []
      numProbesUnsuccessful fuel
    return (s, fps)
  else none

/-- `benchFilter`, with the counts of the metrics that are on. -/
def benchFilter [DecidableEq κ] (latency throughput : Bool) (data probes : List κ)
    (numProbesUnsuccessful : ℤ) (fuel : ℕ) (s : σ) : Option (Option ℤ × Option ℤ) :=
  match latency, throughput with
  | false, false => some (none, none)
  | false, true =>
    (benchFilterThroughput addValue testValue hash data probes numProbesUnsuccessful fuel s).map
      fun fps => (none, some fps)
  | true, false =>
    (benchFilterLatency addValue testValue hash data probes numProbesUnsuccessful fuel s).map
      fun r => (some r.2, none)
  | true, true => do
    let (s, fps) ← benchFilterLatency addValue testValue hash data probes numProbesUnsuccessful fuel s
    let fps' ← filledThroughput testValue hash data probes numProbesUnsuccessful fuel s
    return (some fps, some fps')

variable {addValue testValue hash} in
/-- With the latency metric on, the first probe is written outside of the vector. -/
theorem benchFilter_latency_eq_none [DecidableEq κ] (throughput : Bool) (data : List κ)
    {probes : List κ} (hne : probes ≠ []) (n : ℤ) (fuel : ℕ) (s : σ) :
    benchFilter addValue testValue hash true throughput data probes n fuel s = none := by
  have hlatency : benchFilterLatency addValue testValue hash data probes n fuel s = none := by
    unfold benchFilterLatency
    cases data.foldlM addValue s with
    | none => rfl
    | some s =>
      simp only [Option.bind_eq_bind, Option.bind_some]
      cases sumAnswers testValue s data with
      | none => rfl
      | some result =>
        simp only [Option.bind_some, latencyFps_nil_of_ne_nil hne, Option.bind_none, ite_self]
  cases throughput with
  | false => simp only [benchFilter, hlatency, Option.map_none]
  | true => simp only [benchFilter, hlatency, Option.bind_eq_bind, Option.bind_none]

end Bench

/-- The probes that are not in `data` and have the hash of a key in `data`. -/
def numCollisions [DecidableEq κ] (functor : κ → U64) (data l : List κ) : ℕ :=
  l.countP fun y => decide (y ∉ data) && data.any fun x => functor y == functor x

section Counts

variable {test : κ → Bool}

theorem foldlM_answers {testValue : σ → κ → Option Bool} {s : σ}
    (htest : ∀ y, testValue s y = some (test y)) (l : List κ) (n : ℕ) :
    l.foldlM (fun result x => (testValue s x).map fun b => result + b.toNat) n =
      some (n + l.countP test) := by
  induction l generalizing n with
  | nil => rfl
  | cons y l ih =>
    rw [List.foldlM_cons, htest, Option.map_some, Option.bind_eq_bind, Option.bind_some, ih,
      List.countP_cons]
    cases test y with
    | false => rfl
    | true =>
      rw [if_pos rfl]
      congr 1
      change n + 1 + _ = _
      omega

theorem sumAnswers_eq {testValue : σ → κ → Option Bool} {s : σ}
    (htest : ∀ y, testValue s y = some (test y)) (l : List κ) :
    sumAnswers testValue s l = some (l.countP test) := by
  rw [sumAnswers, foldlM_answers htest, Nat.zero_add]

variable [DecidableEq κ]

/-- A filter that does not tell keys of equal hash apart answers them alike. -/
theorem numCollisions_le {functor : κ → U64} {data : List κ}
    (htest : ∀ y, ∀ x ∈ data, functor y = functor x → test y = true) (l : List κ) :
    numCollisions functor data l ≤ numFalsePositives test data l := by
  refine List.countP_mono_left fun y _ hy => ?_
  simp only [Bool.and_eq_true, decide_eq_true_eq, List.any_eq_true, beq_iff_eq] at hy ⊢
  obtain ⟨hnew, x, hx, heq⟩ := hy
  exact ⟨hnew, htest y x hx heq⟩

end Counts

section Reports

variable [DecidableEq κ]

/-- The benchmark ends on this filter with a count of at most the unsuccessful probes that lacks
at most as many of the colliding probes in full blocks as there are successful probes behind
them. -/
def ReportsCollisions (addValue : σ → κ → Option σ) (testValue : σ → κ → Option Bool)
    (functor hash : κ → U64) (data probes : List κ) (s : σ) : Prop :=
  ∃ fps : ℤ, (∀ fuel, probes.length / stepSize + stepSize < fuel →
      benchFilterThroughput addValue testValue hash data probes (numUnsuccessful data probes) fuel s =
        some fps) ∧
    numCollisions functor data (probes.take (visited probes)) ≤
      fps + numSuccessful data (probes.drop (visited probes)) ∧
    fps ≤ numUnsuccessful data probes

variable {functor : κ → U64} {data probes : List κ}

/-- What holds for every filter over cells that are chosen by the hash. -/
theorem reportsCollisions_of_cellFilter (F : CellFilter κ σ C) {s : σ} (hempty : F.contents s = ∅)
    (hcells : ∀ x y, functor y = functor x → F.cells y = F.cells x) (hash : κ → U64)
    (hdata : data.length < 2 ^ 32) (hint : numUnsuccessful data probes < 2 ^ 31)
    (hprobes : probes.length < 2 ^ 32) :
    ReportsCollisions F.add F.test functor hash data probes s := by
  obtain ⟨s', hrun, -⟩ := F.run_spec s data
  have htotal : ∀ y, ∃ b, F.test s' y = some b := fun y => by
    obtain ⟨b, hb, -⟩ := CellFilter.test_of_run hempty hrun y
    exact ⟨b, hb⟩
  set test : κ → Bool := fun y => (F.test s' y).getD false with htest_def
  have htest : ∀ y, F.test s' y = some (test y) := by
    intro y
    obtain ⟨b, hb⟩ := htotal y
    rw [htest_def]
    dsimp only
    rw [hb, Option.getD_some]
  have hmem : ∀ x ∈ data, test x = true := by
    intro x hx
    exact Option.some.inj ((htest x).symm.trans (CellFilter.test_of_mem hempty hrun hx))
  have hcollide : ∀ y, ∀ x ∈ data, functor y = functor x → test y = true := by
    intro y x hx heq
    obtain ⟨b, hb, hiff⟩ := CellFilter.test_of_run hempty hrun y
    rw [Option.some.inj ((htest y).symm.trans hb), hiff, hcells x y heq]
    exact fun c hc => ⟨x, hx, hc⟩
  have hself : data.countP test % 2 ^ 32 = data.length := by
    rw [List.countP_eq_length.mpr hmem, Nat.mod_eq_of_lt hdata]
  refine ⟨(numFalsePositives test data (probes.take (visited probes)) : ℤ) -
    numSuccessful data (probes.drop (visited probes)), fun fuel hfuel => ?_, ?_, ?_⟩
  · have hadd : data.foldlM F.add s = some s' := hrun
    simp only [benchFilterThroughput, filledThroughput, hadd, sumAnswers_eq htest, Option.bind_eq_bind,
      Option.bind_some, if_pos hself]
    exact throughputFps_eq hmem hint ((Nat.div_mul_le_self _ _).trans_lt hprobes) hfuel
  · have hle := numCollisions_le hcollide (probes.take (visited probes))
    omega
  · have hle : numFalsePositives test data (probes.take (visited probes)) ≤
        numUnsuccessful data (probes.take (visited probes)) := numFalsePositives_le _ _
    have htake : numUnsuccessful data (probes.take (visited probes)) ≤ numUnsuccessful data probes :=
      (List.take_sublist _ _).countP_le
    omega

/-! ### The three filters -/

omit [DecidableEq κ] in
theorem SelfBloom.cells_eq_of_hash {f : SelfBloom κ} {x y : κ} (h : f.hash y = f.hash x) :
    f.cells y = f.cells x := by
  simp only [SelfBloom.cells, SelfBloom.pos, h]

omit [DecidableEq κ] in
theorem SelfBlockBloom512.cells_eq_of_hash {f : SelfBlockBloom512 κ} {x y : κ}
    (h : f.hash y = f.hash x) : f.cells y = f.cells x := by
  simp only [SelfBlockBloom512.cells, SelfBlockBloom512.cell, SelfBlockBloom512.block,
    SelfBlockBloom512.bitInBlock, h]

omit [DecidableEq κ] in
theorem SelfBlockBloom64.cells_eq_of_hash {f : SelfBlockBloom64 κ} (shl : U32 → U64) {x y : κ}
    (h : f.hash y = f.hash x) : MaskArray.bits (f.wordNum y) (f.mask shl y) =
      MaskArray.bits (f.wordNum x) (f.mask shl x) := by
  simp only [SelfBlockBloom64.wordNum, SelfBlockBloom64.mask, h]

section Sizes

variable (functor hash : κ → U64) {data probes : List κ} (hdata : data.length < 2 ^ 32)
  (hint : numUnsuccessful data probes < 2 ^ 31) (hprobes : probes.length < 2 ^ 32) {k : ℕ}

include hdata hint hprobes

theorem SelfBloom.reportsCollisions (hk : 1 ≤ k) {size : ℕ} (h₁ : 1 ≤ size)
    (h₂ : size ≤ 2 ^ 32 - 8) :
    ReportsCollisions (SelfBloom.new functor k size).addValue
      (SelfBloom.new functor k size).testValue functor hash data probes
      (SelfBloom.new functor k size).empty := by
  obtain ⟨hpos, hsize⟩ := SelfBloom.sizeInBits_new functor k h₁ h₂
  exact reportsCollisions_of_cellFilter
    ((SelfBloom.new functor k size).cellFilter hk hpos hsize) MaskArray.ones_replicate_zero
    (fun _ _ h => SelfBloom.cells_eq_of_hash h) hash hdata hint hprobes

theorem SelfBlockBloom512.reportsCollisions {size : U64}
    (h₁ : 1 ≤ (SelfBlockBloom512.new functor k size).numBlocks.toNat)
    (h₂ : (SelfBlockBloom512.new functor k size).numBlocks.toNat ≤ 2 ^ 26) :
    ReportsCollisions (SelfBlockBloom512.new functor k size).addValue
      (SelfBlockBloom512.new functor k size).testValue functor hash data probes
      (SelfBlockBloom512.new functor k size).empty :=
  reportsCollisions_of_cellFilter
    ((SelfBlockBloom512.new functor k size).cellFilter h₁ h₂) MaskArray.ones_replicate_zero
    (fun _ _ h => SelfBlockBloom512.cells_eq_of_hash h) hash hdata hint hprobes

theorem SelfBlockBloom64.reportsCollisions (hk : 1 ≤ k) (shl : U32 → U64) {size : U64}
    (hsize : size.toNat + 512 < 2 ^ 64) :
    ReportsCollisions ((SelfBlockBloom64.new functor k size).addValue shl)
      ((SelfBlockBloom64.new functor k size).testValue shl) functor hash data probes
      (SelfBlockBloom64.new functor k size).empty := by
  have hpos := SelfBlockBloom64.numWords_new_pos functor k hsize
  exact reportsCollisions_of_cellFilter
    ((SelfBlockBloom64.new functor k size).cellFilter shl hk hpos) MaskArray.ones_replicate_zero
    (fun _ _ h => SelfBlockBloom64.cells_eq_of_hash shl h) hash hdata hint hprobes

end Sizes

/-- On each filter, of any admitted size and with any hash functor, the benchmark passes its
assertion and reports what collides under the functor. -/
theorem filters_report_collisions (functor hash : κ → U64) (data probes : List κ)
    (hdata : data.length < 2 ^ 32) (hint : numUnsuccessful data probes < 2 ^ 31)
    (hprobes : probes.length < 2 ^ 32) (k : ℕ) (hk : 1 ≤ k) :
    (∀ size, 1 ≤ size → size ≤ 2 ^ 32 - 8 →
      ReportsCollisions (SelfBloom.new functor k size).addValue
        (SelfBloom.new functor k size).testValue functor hash data probes
        (SelfBloom.new functor k size).empty) ∧
    (∀ size, 1 ≤ (SelfBlockBloom512.new functor k size).numBlocks.toNat →
      (SelfBlockBloom512.new functor k size).numBlocks.toNat ≤ 2 ^ 26 →
      ReportsCollisions (SelfBlockBloom512.new functor k size).addValue
        (SelfBlockBloom512.new functor k size).testValue functor hash data probes
        (SelfBlockBloom512.new functor k size).empty) ∧
    ∀ (shl : U32 → U64) (size : U64), size.toNat + 512 < 2 ^ 64 →
      ReportsCollisions ((SelfBlockBloom64.new functor k size).addValue shl)
        ((SelfBlockBloom64.new functor k size).testValue shl) functor hash data probes
        (SelfBlockBloom64.new functor k size).empty := by
  refine ⟨fun size h₁ h₂ => ?_, fun size h₁ h₂ => ?_, fun shl size hsize => ?_⟩
  · exact SelfBloom.reportsCollisions functor hash hdata hint hprobes hk h₁ h₂
  · exact SelfBlockBloom512.reportsCollisions functor hash hdata hint hprobes h₁ h₂
  · exact SelfBlockBloom64.reportsCollisions functor hash hdata hint hprobes hk shl hsize

end Reports

/-- A functor with one value, one key and a block of other probes: all of them collide. -/
theorem selfBloom_reports_constant_functor :
    let f := SelfBloom.new (fun _ : Str => 0) 3 64
    ∃ fps : ℤ, (∀ fuel, 101 < fuel → benchFilterThroughput f.addValue f.testValue (fun _ => 0)
        [Str.keyOfWords 1 0] (List.replicate 100 (Str.keyOfWords 1 1)) 100 fuel f.empty = some fps) ∧
      fps = 100 := by
  have hunsuccessful : numUnsuccessful [Str.keyOfWords 1 0]
      (List.replicate 100 (Str.keyOfWords 1 1)) = 100 := by
    rw [numUnsuccessful, List.countP_replicate, if_pos (by decide)]
  have hvisited : visited (List.replicate 100 (Str.keyOfWords 1 1)) = 100 := by
    rw [visited, List.length_replicate]
    rfl
  have hcollisions : numCollisions (fun _ : Str => 0) [Str.keyOfWords 1 0]
      (List.replicate 100 (Str.keyOfWords 1 1)) = 100 := by
    rw [numCollisions, List.countP_replicate, if_pos (by decide)]
  obtain ⟨hreports, -, -⟩ := filters_report_collisions (fun _ : Str => 0) (fun _ => 0)
    [Str.keyOfWords 1 0] (List.replicate 100 (Str.keyOfWords 1 1)) (by decide)
    (by rw [hunsuccessful]; norm_num) (by rw [List.length_replicate]; norm_num) 3 (by decide)
  obtain ⟨fps, hrun, hle, hge⟩ := hreports 64 (by decide) (by decide)
  rw [hunsuccessful] at hrun hge
  rw [hvisited, List.take_of_length_le (by rw [List.length_replicate]), hcollisions,
    List.drop_of_length_le (by rw [List.length_replicate])] at hle
  have hnone : numSuccessful [Str.keyOfWords 1 0] [] = 0 := rfl
  rw [hnone] at hle
  exact ⟨fps, fun fuel hfuel => hrun fuel (by rw [List.length_replicate]; exact hfuel), by omega⟩

end EntropyLearnedHashing
