import EntropyLearnedHashing.Bench.Timings
import EntropyLearnedHashing.Library.CountedLoop
import EntropyLearnedHashing.Str

/-! `benchmark_filters.cpp`: the false-positive count of the throughput benchmark. The
measured loop visits the probes in blocks of 100 and leaves out what remains after the
last full block, while the count subtracts all successful probes. So a positive answer
in the rest is missing on one side only. The loop counters are `unsigned`. -/

namespace EntropyLearnedHashing

open CountedLoop

section

variable {κ : Type*}

/-- `(int) z`. -/
def toInt32 (z : ℤ) : ℤ := (BitVec.ofInt 32 z).toInt

/-- The value `fps` of `relay_filter_statistics`; `none` is the `exit(1)`. -/
def relayFilterStatistics (metricClass : MetricClass) (probes : List κ) (result : ℤ)
    (numProbesUnsuccessful : ℤ) : Option ℤ :=
  match metricClass with
  | .filterLatency => some (toInt32 result)
  | .filterThroughput =>
    let successful := toInt32 (probes.length - numProbesUnsuccessful)
    some (toInt32 (result - successful))
  | _ => none

abbrev stepSize : ℕ := 100

variable (hash : κ → U64) (testValue : κ → Bool) (p : List κ)

/-- The loop over the blocks from the `i`-th on, with the dummy hashes and the sum of the
answers. -/
def measuredLoop : ℕ → ℕ → U64 → ℤ → Option (U64 × ℤ)
  | 0, _, _, _ => none
  | fuel + 1, i, dummy, s =>
    if i < p.length / stepSize then do
      let start := i * stepSize % 2 ^ 32
      let bound := (i + 1) % 2 ^ 32 * stepSize
      let dummy ← forLoop (2 ^ 32) (fun dummy x => dummy + hash x) p bound fuel start dummy
      let s ← forLoop (2 ^ 32) (fun s x => s + ((testValue x).toNat : ℤ)) p bound fuel start s
      measuredLoop fuel ((i + 1) % 2 ^ 32) dummy s
    else some (dummy, s)

/-- The measured loop of `benchFilter_throughput` and the count derived from it. -/
def throughputFps (numProbesUnsuccessful : ℤ) (fuel : ℕ) : Option ℤ := do
  let (_, result) ← measuredLoop hash testValue p fuel 0 0 0
  relayFilterStatistics .filterThroughput p result numProbesUnsuccessful

/-! ### The measured loop -/

/-- The number of probes in full blocks. -/
def visited (p : List κ) : ℕ := p.length / stepSize * stepSize

variable {hash testValue p}

theorem foldl_answers (l : List κ) (s : ℤ) :
    l.foldl (fun s x => s + ((testValue x).toNat : ℤ)) s = s + l.countP testValue := by
  induction l generalizing s with
  | nil => simp
  | cons x l ih =>
    rw [List.foldl_cons, ih, List.countP_cons]
    cases testValue x <;> simp
    ring

/-- One block of the measured loop. -/
def measuredBlock (hash : κ → U64) (testValue : κ → Bool) (p : List κ) (fuel start bound : ℕ)
    (s : U64 × ℤ) : Option (U64 × ℤ) :=
  (forLoop (2 ^ 32) (fun dummy x => dummy + hash x) p bound fuel start s.1).bind fun dummy =>
    (forLoop (2 ^ 32) (fun s x => s + ((testValue x).toNat : ℤ)) p bound fuel start s.2).bind
      fun s => some (dummy, s)

theorem measuredLoop_eq_blockLoop (fuel i : ℕ) (dummy : U64) (s : ℤ) :
    measuredLoop hash testValue p fuel i dummy s =
      blockLoop (2 ^ 32) stepSize (p.length / stepSize) (measuredBlock hash testValue p) fuel i
        (dummy, s) := by
  induction fuel generalizing i dummy s with
  | zero => rfl
  | succ fuel ih => simp only [measuredLoop, blockLoop, measuredBlock, ih, Option.bind_eq_bind,
      Option.bind_assoc, Option.bind_some]

theorem measuredBlock_eq (hvisited : visited p < 2 ^ 32) {fuel i : ℕ} (hi : i < p.length / stepSize)
    (hfuel : stepSize < fuel) (s : U64 × ℤ) :
    measuredBlock hash testValue p fuel (i * stepSize) ((i + 1) * stepSize) s =
      some ((segment stepSize p i).foldl (fun dummy x => dummy + hash x) s.1,
        s.2 + (segment stepSize p i).countP testValue) := by
  unfold measuredBlock
  rw [forLoop_segment hvisited hi hfuel, Option.bind_some, forLoop_segment hvisited hi hfuel,
    Option.bind_some, foldl_answers]

/-- The loop counts the positive answers of the full blocks. -/
theorem measuredLoop_eq (hvisited : visited p < 2 ^ 32) {fuel i : ℕ} (hi : i ≤ p.length / stepSize)
    (hfuel : p.length / stepSize - i + stepSize < fuel) (dummy : U64) (s : ℤ) :
    ∃ dummy', measuredLoop hash testValue p fuel i dummy s =
      some (dummy', s + ((p.take (visited p)).drop (i * stepSize)).countP testValue) := by
  obtain ⟨dummy', hloop⟩ := blockLoop_count
    (f := fun dummy j => (segment stepSize p j).foldl (fun dummy x => dummy + hash x) dummy)
    (c := fun j => (segment stepSize p j).countP testValue) (by decide) hvisited
    (fun _ _ t hj hfuel => measuredBlock_eq hvisited hj hfuel t) hi hfuel (dummy, s)
  refine ⟨dummy', (measuredLoop_eq_blockLoop fuel i dummy s).trans (hloop.trans ?_)⟩
  rw [visited, ← flatMap_segment stepSize p hi, List.countP_flatMap]
  rfl

/-- A block that ends beyond the counter is never left. -/
theorem measuredLoop_eq_none (hvisited : 2 ^ 32 ≤ visited p) {i : ℕ} (hi : i * stepSize < 2 ^ 32)
    (fuel : ℕ) (dummy : U64) (s : ℤ) : measuredLoop hash testValue p fuel i dummy s = none := by
  induction fuel generalizing i dummy s with
  | zero => rfl
  | succ fuel ih =>
    simp only [visited, stepSize] at hvisited hi ih
    have hnext : (i + 1) % 2 ^ 32 = i + 1 := by omega
    rw [measuredLoop, if_pos (by simp only [stepSize]; omega)]
    simp only [stepSize, hnext, Option.bind_eq_bind, Option.bind_eq_none_iff]
    intro dummy' hdummy s' _
    rcases Nat.lt_or_ge ((i + 1) * 100) (2 ^ 32) with hlt | hge
    · exact ih hlt dummy' s'
    · rw [forLoop_eq_none (by norm_num) hge (Nat.mod_lt _ (by norm_num))] at hdummy
      cases hdummy

/-! ### The count -/

variable [DecidableEq κ]

/-- The probes that are not in `data`. -/
def numUnsuccessful (data l : List κ) : ℕ := l.countP fun x => decide (x ∉ data)

variable (testValue) in
/-- The probes that are not in `data` and test positive. -/
def numFalsePositives (data l : List κ) : ℕ := l.countP fun x => decide (x ∉ data) && testValue x

/-- The probes that are in `data`. -/
def numSuccessful (data l : List κ) : ℕ := l.countP fun x => decide (x ∈ data)

variable (hash testValue p) in
/-- The throughput run ends, and its `fps` is the number of false positives. -/
def FpsExact (data : List κ) (numProbesUnsuccessful : ℤ) : Prop :=
  ∃ enough, ∀ fuel ≥ enough, throughputFps hash testValue p numProbesUnsuccessful fuel =
    some (numFalsePositives testValue data p : ℤ)

theorem toInt32_sub_toInt32 {a b : ℤ} (hlow : -2 ^ 31 ≤ a - b) (hhigh : a - b < 2 ^ 31) :
    toInt32 (a - toInt32 b) = a - b := by
  simp only [toInt32, BitVec.toInt_ofInt, Int.sub_bmod_bmod]
  rw [Int.bmod_eq_of_le] <;> omega

theorem numSuccessful_add_numUnsuccessful (data l : List κ) :
    numSuccessful data l + numUnsuccessful data l = l.length := by
  have h := List.length_eq_countP_add_countP (fun x => decide (x ∈ data)) (l := l)
  rw [h, numSuccessful, numUnsuccessful]
  congr 2
  funext x
  simp

/-- Positive answers are successful probes and false positives. -/
theorem countP_testValue {data : List κ} (hfilter : ∀ x ∈ data, testValue x = true) (l : List κ) :
    l.countP testValue = numSuccessful data l + numFalsePositives testValue data l := by
  unfold numSuccessful numFalsePositives
  induction l with
  | nil => rfl
  | cons x l ih =>
    simp only [List.countP_cons, ih]
    by_cases hx : x ∈ data
    · simp [hx, hfilter x hx]
      omega
    · cases testValue x <;> simp [hx]
      omega

theorem numFalsePositives_le (data l : List κ) :
    numFalsePositives testValue data l ≤ numUnsuccessful data l := by
  apply List.countP_mono_left
  intro x _ hx
  simp_all

omit [DecidableEq κ] in
theorem countP_take_add_drop (q : κ → Bool) (l : List κ) (n : ℕ) :
    l.countP q = (l.take n).countP q + (l.drop n).countP q := by
  rw [← List.countP_append, List.take_append_drop]

/-- The derived count of a run that ends: the false positives in full blocks less the
successful probes behind them. -/
theorem throughputFps_eq {data : List κ} (hfilter : ∀ x ∈ data, testValue x = true)
    (hint : numUnsuccessful data p < 2 ^ 31) (hvisited : visited p < 2 ^ 32) {fuel : ℕ}
    (hfuel : p.length / stepSize + stepSize < fuel) :
    throughputFps hash testValue p (numUnsuccessful data p) fuel =
      some ((numFalsePositives testValue data (p.take (visited p)) : ℤ) -
        numSuccessful data (p.drop (visited p))) := by
  obtain ⟨dummy, hloop⟩ := @measuredLoop_eq κ hash testValue p hvisited _ 0
    (Nat.zero_le _) hfuel 0 0
  have hrest : numSuccessful data (p.drop (visited p)) < 100 := by
    refine List.countP_le_length.trans_lt ?_
    simp only [List.length_drop, visited, stepSize]
    omega
  have hin : numSuccessful data p = numSuccessful data (p.take (visited p)) +
      numSuccessful data (p.drop (visited p)) := countP_take_add_drop _ _ _
  have hfalse : numFalsePositives testValue data (p.take (visited p)) ≤ numUnsuccessful data p :=
    (numFalsePositives_le _ _).trans (List.take_sublist _ _).countP_le
  have hsum := numSuccessful_add_numUnsuccessful data p
  have hpositive := countP_testValue hfilter (p.take (visited p))
  unfold throughputFps
  rw [hloop]
  simp only [Option.bind_eq_bind, Option.bind_some, relayFilterStatistics, Nat.zero_mul,
    List.drop_zero, Int.zero_add, Option.some.injEq]
  rw [toInt32_sub_toInt32] <;> omega

/-- The count is exact exactly when the loop ends and no probe behind the full blocks tests
positive. -/
theorem fpsExact_iff (data : List κ) (hfilter : ∀ x ∈ data, testValue x = true)
    (hint : numUnsuccessful data p < 2 ^ 31) :
    FpsExact hash testValue p data (numUnsuccessful data p) ↔
      p.length < 4294967300 ∧ ∀ x ∈ p.drop (visited p), testValue x = false := by
  have hlarge : p.length < 4294967300 ↔ visited p < 2 ^ 32 := by
    simp only [visited, stepSize]
    omega
  rw [hlarge]
  rcases Nat.lt_or_ge (visited p) (2 ^ 32) with hlt | hge
  · have hfps := fun fuel => @throughputFps_eq κ hash testValue p _ data hfilter hint hlt fuel
    have htotal : numFalsePositives testValue data p =
        numFalsePositives testValue data (p.take (visited p)) +
          numFalsePositives testValue data (p.drop (visited p)) := countP_take_add_drop _ _ _
    have htail := countP_testValue hfilter (p.drop (visited p))
    have hnone : (∀ x ∈ p.drop (visited p), testValue x = false) ↔
        (p.drop (visited p)).countP testValue = 0 := by
      simp [List.countP_eq_zero]
    rw [hnone]
    constructor
    · rintro ⟨enough, hrun⟩
      have hvalue := (hfps (max enough (p.length / stepSize + stepSize + 1)) (by omega)).symm.trans
        (hrun _ (le_max_left _ _))
      have := Option.some.inj hvalue
      exact ⟨hlt, by omega⟩
    · rintro ⟨-, hzero⟩
      refine ⟨p.length / stepSize + stepSize + 1, fun fuel hfuel => ?_⟩
      rw [hfps fuel (by omega), Option.some.injEq]
      omega
  · refine iff_of_false ?_ fun h => absurd h.1 (by omega)
    rintro ⟨enough, hrun⟩
    have hnone := hrun enough le_rfl
    rw [throughputFps, measuredLoop_eq_none hge (by norm_num)] at hnone
    cases hnone

/-- A full block of probes of the one key in the filter. -/
theorem fpsExact_full_block :
    FpsExact (fun _ => 0) (fun _ => true) (List.replicate 100 (Str.keyOfWords 1 0))
      [Str.keyOfWords 1 0] 0 := by
  have hnone : numUnsuccessful [Str.keyOfWords 1 0] (List.replicate 100 (Str.keyOfWords 1 0)) = 0 := by
    simp [numUnsuccessful]
  have hiff := @fpsExact_iff Str (fun _ => 0) (fun _ => true)
    (List.replicate 100 (Str.keyOfWords 1 0)) _ [Str.keyOfWords 1 0] (fun _ _ => rfl)
    (by rw [hnone]; norm_num)
  rw [hnone] at hiff
  exact hiff.mpr ⟨by simp, by simp [visited]⟩

/-- A single probe of the one key in the filter gives a count of minus one. -/
theorem not_fpsExact_single_probe :
    ¬FpsExact (fun _ => 0) (fun _ => true) [Str.keyOfWords 1 0] [Str.keyOfWords 1 0] 0 := by
  rintro ⟨enough, hrun⟩
  have hfps := @throughputFps_eq Str (fun _ => 0) (fun _ => true) [Str.keyOfWords 1 0] _
    [Str.keyOfWords 1 0] (fun _ _ => rfl) (by simp [numUnsuccessful]) (Nat.two_pow_pos 32)
    (max enough 101) (lt_max_of_lt_right (by decide))
  have hvalue := hfps.symm.trans (hrun _ (le_max_left _ _))
  rw [show visited [Str.keyOfWords 1 0] = 0 from rfl] at hvalue
  simp [numFalsePositives, numSuccessful] at hvalue

end

end EntropyLearnedHashing
