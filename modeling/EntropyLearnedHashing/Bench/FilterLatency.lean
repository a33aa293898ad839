import EntropyLearnedHashing.Bench.FilterStats
import Mathlib.Algebra.Order.Ring.Rat
import Mathlib.Data.List.Flatten

/-! `benchFilter_latency`: the false-positive count of the latency benchmark. Which probes are
inserted keys is kept in `probe_to_filter_map`, a vector that is reserved and never
resized, so its size is zero and the first write is already outside of it. The measured
loop skips the probe after each positive answer. Its contents before the first write are a
parameter, so that the count can also be judged for a vector of the intended size: it is
divided by the number of all unsuccessful probes and not of the tested ones. -/

namespace EntropyLearnedHashing

open CountedLoop

section

variable {κ : Type} [DecidableEq κ] (hash : κ → U64) (testValue : κ → Bool) (data p : List κ)

/-- The loop that fills `probe_to_filter_map`; `none` when the index is outside of the vector
or the fuel is used up. -/
def fillMap : ℕ → ℕ → List Bool → Option (List Bool)
  | 0, _, _ => none
  | fuel + 1, i, map =>
    if i < p.length then
      p[i]?.bind fun x =>
        if i < map.length then fillMap fuel ((i + 1) % 2 ^ 32) (map.set i (decide (x ∈ data)))
        else none
    else some map

/-- The lookups of a block: a positive answer advances the index once more. -/
def lookups (map : List Bool) (bound : ℕ) : ℕ → ℕ → ℤ → Option ℤ
  | 0, _, _ => none
  | fuel + 1, j, s =>
    if j < bound then do
      let x ← p[j]?
      let interm := testValue x
      let inserted ← map[j]?
      let j := (j + interm.toNat) % 2 ^ 32
      lookups map bound fuel ((j + 1) % 2 ^ 32) (s + ((interm && !inserted).toNat : ℤ))
    else some s

/-- One block of the measured loop: the dummy hashes and the lookups. -/
def latencyBlock (map : List Bool) (fuel start bound : ℕ) (s : U64 × ℤ) : Option (U64 × ℤ) := do
  let dummy ← forLoop (2 ^ 32) (fun dummy x => dummy + hash x) p bound fuel start s.1
  let s ← lookups testValue p map bound fuel start s.2
  some (dummy, s)

/-- The measured loop. -/
def latencyLoop (map : List Bool) (fuel : ℕ) (dummy : U64) : Option (U64 × ℤ) :=
  blockLoop (2 ^ 32) stepSize (p.length / stepSize) (latencyBlock hash testValue p map) fuel 0
    (dummy, 0)

/-- The run behind the insertions: the map, the warm-up, the measured loop and the count. -/
def latencyFps (map : List Bool) (numProbesUnsuccessful : ℤ) (fuel : ℕ) : Option ℤ := do
  let probeToFilterMap ← fillMap data p fuel 0 map
  let _ ← forLoop (2 ^ 32) (fun (s : ℤ) x => s + ((testValue x).toNat : ℤ)) p p.length fuel 0 0
  let (_, result) ← latencyLoop hash testValue p probeToFilterMap fuel 0
  relayFilterStatistics .filterLatency p result numProbesUnsuccessful

/-! ### The tested probes -/

/-- The probes of a block that are tested. -/
def testedBlock : List κ → List κ
  | [] => []
  | [x] => [x]
  | x :: y :: rest =>
    x :: if testValue x then testedBlock rest else testedBlock (y :: rest)

/-- The probes that the measured loop tests. -/
def tested : List κ :=
  (List.range' 0 (p.length / stepSize)).flatMap fun i => testedBlock testValue (segment stepSize p i)

variable {hash testValue data p}

omit [DecidableEq κ] in
theorem testedBlock_cons (x : κ) (rest : List κ) : testedBlock testValue (x :: rest) =
    x :: testedBlock testValue (rest.drop (testValue x).toNat) := by
  cases rest with
  | nil => simp [testedBlock]
  | cons y rest => cases hx : testValue x <;> simp [testedBlock, hx]

omit [DecidableEq κ] in
theorem testedBlock_sublist (l : List κ) : (testedBlock testValue l).Sublist l := by
  fun_induction testedBlock testValue l with
  | case1 => exact List.Sublist.refl _
  | case2 x => exact List.Sublist.refl _
  | case3 x y rest ihskip ihnext =>
    split_ifs
    · exact (ihskip.cons y).cons_cons x
    · exact ihnext.cons_cons x

omit [DecidableEq κ] in
/-- No probe is tested twice. -/
theorem tested_sublist : (tested testValue p).Sublist p := by
  have hblocks : (tested testValue p).Sublist
      ((List.range' 0 (p.length / stepSize)).flatMap (segment stepSize p)) :=
    List.Sublist.flatMap_right _ fun i _ => testedBlock_sublist (segment stepSize p i)
  have hflat := flatMap_segment stepSize p (Nat.zero_le (p.length / stepSize))
  rw [Nat.sub_zero] at hflat
  rw [hflat] at hblocks
  exact hblocks.trans ((List.drop_sublist _ _).trans (List.take_sublist _ _))

/-! ### A vector of the intended size -/

/-- The contents that the first loop gives a large enough vector. -/
def insertedMap (data p : List κ) : List Bool := p.map fun x => decide (x ∈ data)

theorem fillMap_eq (hp : p.length < 2 ^ 32) {fuel i : ℕ} (hi : i ≤ p.length)
    (hfuel : p.length - i < fuel) {map : List Bool} (hmap : map.length = p.length)
    (hdone : map.take i = (insertedMap data p).take i) :
    fillMap data p fuel i map = some (insertedMap data p) := by
  induction fuel generalizing i map with
  | zero => omega
  | succ fuel ih =>
    rw [fillMap]
    rcases Nat.lt_or_ge i p.length with hlt | hge
    · have hnext : (i + 1) % 2 ^ 32 = i + 1 := Nat.mod_eq_of_lt (by omega)
      rw [if_pos hlt, List.getElem?_eq_getElem hlt, Option.bind_some, if_pos (by omega), hnext]
      refine ih (by omega) (by omega) (by simpa using hmap) ?_
      rw [List.take_succ_eq_append_getElem (by simp; omega),
        List.take_succ_eq_append_getElem (by simp [insertedMap]; omega), List.take_set_of_le le_rfl,
        hdone]
      simp [insertedMap]
    · have hlen : (insertedMap data p).length = p.length := by simp [insertedMap]
      rw [if_neg (by omega)]
      rw [List.take_of_length_le (by omega), List.take_of_length_le (by omega)] at hdone
      rw [hdone]

theorem numFalsePositives_cons (x : κ) (l : List κ) : numFalsePositives testValue data (x :: l) =
    (testValue x && !decide (x ∈ data)).toNat + numFalsePositives testValue data l := by
  unfold numFalsePositives
  rw [List.countP_cons, Nat.add_comm]
  cases testValue x <;> by_cases hx : x ∈ data <;> simp [hx]

theorem lookups_eq {bound : ℕ} (hp : bound ≤ p.length) (hbound : bound + 1 < 2 ^ 32) {fuel j : ℕ}
    (hj : j ≤ bound + 1) (hfuel : bound - j < fuel) (s : ℤ) :
    lookups testValue p (insertedMap data p) bound fuel j s =
      some (s + numFalsePositives testValue data
        (testedBlock testValue ((p.take bound).drop j))) := by
  induction fuel generalizing j s with
  | zero => omega
  | succ fuel ih =>
    rw [lookups]
    rcases Nat.lt_or_ge j bound with hlt | hge
    · have hjp : j < p.length := by omega
      have hmap : (insertedMap data p)[j]? = some (decide (p[j] ∈ data)) := by
        simp [insertedMap, List.getElem?_eq_getElem hjp]
      have hskip : ((j + (testValue p[j]).toNat) % 2 ^ 32 + 1) % 2 ^ 32 =
          j + 1 + (testValue p[j]).toNat := by
        have hle : (testValue p[j]).toNat ≤ 1 := Bool.toNat_le _
        omega
      have hdrop : (p.take bound).drop j = p[j] :: (p.take bound).drop (j + 1) := by
        rw [List.drop_eq_getElem_cons (by simp; omega), List.getElem_take]
      have hle : (testValue p[j]).toNat ≤ 1 := Bool.toNat_le _
      rw [if_pos hlt, hdrop, testedBlock_cons, numFalsePositives_cons, List.drop_drop]
      simp only [List.getElem?_eq_getElem hjp, hmap, hskip, Option.bind_eq_bind, Option.bind_some]
      rw [ih (by omega) (by omega)]
      push_cast
      rw [add_assoc]
    · have hnil : (p.take bound).drop j = [] := List.drop_eq_nil_of_le (by simp; omega)
      rw [if_neg (by omega), hnil]
      simp [testedBlock, numFalsePositives]

theorem latencyBlock_eq (hp : p.length < 2 ^ 32) {fuel i : ℕ} (hi : i < p.length / stepSize)
    (hfuel : stepSize < fuel) (s : U64 × ℤ) :
    latencyBlock hash testValue p (insertedMap data p) fuel (i * stepSize) ((i + 1) * stepSize) s =
      some ((segment stepSize p i).foldl (fun dummy x => dummy + hash x) s.1,
        s.2 + numFalsePositives testValue data (testedBlock testValue (segment stepSize p i))) := by
  have hvisited : p.length / stepSize * stepSize < 2 ^ 32 :=
    (Nat.div_mul_le_self _ _).trans_lt hp
  have hend := succ_mul_le_of_lt_div hi
  simp only [latencyBlock, forLoop_segment hvisited hi hfuel, Option.bind_eq_bind, Option.bind_some]
  simp only [stepSize] at hend hvisited hfuel ⊢
  rw [lookups_eq (by omega) (by omega) (by omega) (by omega)]
  rfl

theorem latencyLoop_eq (hp : p.length < 2 ^ 32) {fuel : ℕ}
    (hfuel : p.length / stepSize + stepSize < fuel) (dummy : U64) :
    ∃ dummy', latencyLoop hash testValue p (insertedMap data p) fuel dummy =
      some (dummy', (numFalsePositives testValue data (tested testValue p) : ℤ)) := by
  obtain ⟨dummy', hloop⟩ := blockLoop_count
    (f := fun dummy j => (segment stepSize p j).foldl (fun dummy x => dummy + hash x) dummy)
    (c := fun j => numFalsePositives testValue data (testedBlock testValue (segment stepSize p j)))
    (by decide) ((Nat.div_mul_le_self _ _).trans_lt hp)
    (fun _ _ s hi hfuel => latencyBlock_eq hp hi hfuel s) (Nat.zero_le _) hfuel (dummy, 0)
  refine ⟨dummy', hloop.trans ?_⟩
  rw [numFalsePositives, tested, List.countP_flatMap, Int.zero_add]
  rfl

/-- With a vector of the intended size the reported count is the number of false positives among
the tested probes. -/
theorem latencyFps_eq (hp : p.length < 2 ^ 32) (hint : numUnsuccessful data p < 2 ^ 31)
    {map : List Bool} (hmap : map.length = p.length) (n : ℤ) {fuel : ℕ}
    (hfuel : p.length + stepSize < fuel) :
    latencyFps hash testValue data p map n fuel =
      some (numFalsePositives testValue data (tested testValue p) : ℤ) := by
  have hfill : fillMap data p fuel 0 map = some (insertedMap data p) :=
    fillMap_eq hp (Nat.zero_le _) (by omega) hmap rfl
  have hblocks : p.length / stepSize ≤ p.length := Nat.div_le_self _ _
  obtain ⟨dummy, hloop⟩ := @latencyLoop_eq κ _ hash testValue data p hp fuel (by omega) 0
  have hcount : numFalsePositives testValue data (tested testValue p) < 2 ^ 31 :=
    (numFalsePositives_le _ _).trans_lt (tested_sublist.countP_le.trans_lt hint)
  unfold latencyFps
  rw [hfill, forLoop_eq hp le_rfl (Nat.zero_le _) (by omega)]
  simp only [Option.bind_eq_bind, Option.bind_some, hloop, relayFilterStatistics]
  rw [toInt32, BitVec.toInt_ofInt, Int.bmod_eq_of_le] <;> omega

variable (hash testValue data p) in
/-- The run ends without an index outside of its vectors, and the count over all unsuccessful
probes is the rate of false positives among the tested ones. Without unsuccessful probes both
rates are `0 / 0`, which is no number in the source and zero here. -/
def LatencyRight (map : List Bool) : Prop :=
  ∃ enough, ∃ fps : ℤ,
    (∀ fuel ≥ enough,
      latencyFps hash testValue data p map (numUnsuccessful data p) fuel = some fps) ∧
    (fps : ℚ) / numUnsuccessful data p =
      numFalsePositives testValue data (tested testValue p) /
        numUnsuccessful data (tested testValue p)

/-- With a vector of the intended size the rate is right exactly when there is no false positive
or no unsuccessful probe is left out. -/
theorem latencyRight_iff_of_length (hp : p.length < 2 ^ 32)
    (hint : numUnsuccessful data p < 2 ^ 31) {map : List Bool} (hmap : map.length = p.length) :
    LatencyRight hash testValue data p map ↔
      numFalsePositives testValue data (tested testValue p) = 0 ∨
        numUnsuccessful data (tested testValue p) = numUnsuccessful data p := by
  have hfps := fun fuel => @latencyFps_eq κ _ hash testValue data p hp hint map hmap
    (numUnsuccessful data p) fuel
  have hrate : (numFalsePositives testValue data (tested testValue p) : ℚ) / numUnsuccessful data p =
        numFalsePositives testValue data (tested testValue p) /
          numUnsuccessful data (tested testValue p) ↔
      numFalsePositives testValue data (tested testValue p) = 0 ∨
        numUnsuccessful data (tested testValue p) = numUnsuccessful data p := by
    have hle : numFalsePositives testValue data (tested testValue p) ≤
        numUnsuccessful data (tested testValue p) := numFalsePositives_le _ _
    have hsub : numUnsuccessful data (tested testValue p) ≤ numUnsuccessful data p :=
      tested_sublist.countP_le
    rcases Nat.eq_zero_or_pos (numFalsePositives testValue data (tested testValue p)) with hzero | hpos
    · simp [hzero]
    · have hfalse : (numFalsePositives testValue data (tested testValue p) : ℚ) ≠ 0 := by
        exact_mod_cast hpos.ne'
      rw [div_eq_mul_inv, div_eq_mul_inv, mul_right_inj' hfalse, inv_inj, Nat.cast_inj]
      exact ⟨fun h => .inr h.symm, fun h => (h.resolve_left hpos.ne').symm⟩
  rw [← hrate]
  constructor
  · rintro ⟨enough, fps, hrun, hright⟩
    have hvalue := (hfps (max enough (p.length + stepSize + 1)) (by omega)).symm.trans
      (hrun _ (le_max_left _ _))
    rwa [← Option.some.inj hvalue, Int.cast_natCast] at hright
  · intro hright
    refine ⟨p.length + stepSize + 1, _, fun fuel hfuel => hfps fuel (by omega), ?_⟩
    rwa [Int.cast_natCast]

/-! ### The reserved vector -/

/-- The first write to an empty vector is outside of it. -/
theorem latencyFps_nil_of_ne_nil (hne : p ≠ []) (n : ℤ) (fuel : ℕ) :
    latencyFps hash testValue data p [] n fuel = none := by
  have hpos : 0 < p.length := List.length_pos_iff.mpr hne
  have hfill : fillMap data p fuel 0 [] = none := by
    cases fuel with
    | zero => rfl
    | succ fuel =>
      rw [fillMap, if_pos hpos, List.getElem?_eq_getElem hpos]
      rfl
  rw [latencyFps, hfill]
  rfl

variable (hash testValue data p) in
/-- `reserve` leaves the vector empty, so the accounting is right only without probes, where there is
nothing to account for. -/
theorem latencyRight_iff : LatencyRight hash testValue data p [] ↔ p = [] := by
  constructor
  · rintro ⟨enough, fps, hrun, -⟩
    by_contra hne
    have hnone := hrun enough le_rfl
    rw [latencyFps_nil_of_ne_nil hne] at hnone
    cases hnone
  · rintro rfl
    have hnone : numFalsePositives testValue data (tested testValue []) = 0 := by
      simp [tested, numFalsePositives]
    refine (@latencyRight_iff_of_length κ _ hash testValue data [] ?_ ?_ [] rfl).mpr (.inl hnone)
    · exact Nat.two_pow_pos 32
    · exact Nat.two_pow_pos 31

theorem not_latencyRight_single_probe :
    ¬LatencyRight (fun _ => 0) (fun _ => true) [Str.keyOfWords 1 0] [Str.keyOfWords 1 0] [] := by
  rintro ⟨enough, fps, hrun, -⟩
  have hnone := hrun enough le_rfl
  rw [latencyFps_nil_of_ne_nil (by simp)] at hnone
  cases hnone

end

end EntropyLearnedHashing
