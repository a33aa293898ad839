import Mathlib.Data.BitVec
import EntropyLearnedHashing.Library.TableProgram
import EntropyLearnedHashing.Tables.DenseRun
import EntropyLearnedHashing.Tables.RawRun
import EntropyLearnedHashing.Tables.RobinRun

/-! `bench_hashtable` of `benchmark_tables.cpp`, with `bench_hashtable_latency` and
`bench_hashtable_throughput`. All are templates over the table: they fill it, warm it up and
then measure lookups in blocks of 100 probes, one benchmark after the other on the same
table. All counters are `unsigned`. The values that the benchmarks return and print are the same
for every table and every hash functor. The hashing that brings the keys of a block to the cache
is left out: nothing reads its sum. -/

namespace EntropyLearnedHashing.TableBench

open CountedLoop (segment)

variable {K : Type}

/-! ### Throughput -/

/-- `step_size`. -/
def stepSize : ℕ := 100

/-- `s += it->second`, if the probe is found. -/
def addFound (s : U64) (probe : K) : TableProgram K U32 U64 :=
  .find probe fun v => match v with
    | some v => pure (s + v.signExtend 64)
    | none => pure s

/-- `map[data[i]] = ..`, for every index of the data. -/
def fill (data : List K) (values : List U32) (fuel : ℕ) : TableProgram K U32 (Option Unit) :=
  TableProgram.forLoop (2 ^ 32) (fun _ kv => .assign kv.1 kv.2 (pure ())) (data.zip values) data.length
    fuel 0 ()

/-- The indices as `int`. -/
def indices (n : ℕ) : List U32 := (List.range n).map (BitVec.ofNat 32)

/-- `bench_hashtable_throughput`, with the value that the measured function returns. -/
def benchHashtableThroughput (data probes : List K) (fuel : ℕ) : TableProgram K U32 (Option U64) := do
  let some _ ← fill data (indices data.length) fuel | return none
  let some s ← TableProgram.forLoop (2 ^ 32) addFound probes probes.length fuel 0 0 | return none
  TableProgram.blockLoop (2 ^ 32) stepSize (probes.length / stepSize)
    (fun fuel start bound s => TableProgram.forLoop (2 ^ 32) addFound probes bound fuel start s) fuel 0 s

/-- The counters reach the ends of the data and of the probes, and the fuel is enough. -/
structure Reaches (data probes : List K) (fuel : ℕ) : Prop where
  data_lt : data.length < 2 ^ 32
  probes_lt : probes.length + 2 < 2 ^ 32
  fuel_lt : data.length + probes.length + stepSize < fuel

variable [DecidableEq K]

/-- The map after assignments. -/
def assigned (m : K → Option U32) (l : List (K × U32)) : K → Option U32 :=
  l.foldl (fun m kv => Function.update m kv.1 (some kv.2)) m

/-- The map after a new table has been filled. -/
def filled (data : List K) (values : List U32) : K → Option U32 :=
  assigned (fun _ => none) (data.zip values)

/-- A key that is assigned loses its old value. -/
theorem assigned_congr {m m' : K → Option U32} {x : K} (l : List (K × U32))
    (h : x ∈ l.map Prod.fst ∨ m x = m' x) : assigned m l x = assigned m' l x := by
  induction l generalizing m m' with
  | nil => exact h.resolve_left nofun
  | cons kv l ih =>
    refine ih ?_
    dsimp only
    by_cases hx : x = kv.1
    · right
      rw [hx, Function.update_self, Function.update_self]
    · rw [Function.update_of_ne hx, Function.update_of_ne hx]
      exact h.imp_left fun hmem => (List.mem_cons.mp hmem).resolve_left hx

theorem assigned_of_not_mem {m : K → Option U32} {x : K} (l : List (K × U32))
    (hx : x ∉ l.map Prod.fst) : assigned m l x = m x := by
  induction l generalizing m with
  | nil => rfl
  | cons kv l ih =>
    rw [List.map_cons, List.mem_cons, not_or] at hx
    exact (ih hx.2).trans (Function.update_of_ne hx.1 _ m)

theorem filled_of_not_mem {data : List K} (values : List U32) {x : K} (hx : x ∉ data) :
    filled data values x = none :=
  assigned_of_not_mem _ fun hmem => by
    obtain ⟨kv, hkv, rfl⟩ := List.mem_map.mp hmem
    exact hx (List.of_mem_zip hkv).1

/-- An assigned key has a value. -/
theorem not_mem_of_assigned_eq_none {m : K → Option U32} {x : K} (l : List (K × U32))
    (h : assigned m l x = none) : m x = none ∧ x ∉ l.map Prod.fst := by
  induction l generalizing m with
  | nil => exact ⟨h, List.not_mem_nil⟩
  | cons kv l ih =>
    obtain ⟨hm, hl⟩ := ih h
    dsimp only at hm
    rw [Function.update_apply] at hm
    split_ifs at hm with hx
    refine ⟨hm, ?_⟩
    rw [List.map_cons, List.mem_cons, not_or]
    exact ⟨hx, hl⟩

/-- Filling a table again is as filling a new one. -/
theorem assigned_zip {m : K → Option U32} {data : List K} {values : List U32}
    (hlen : data.length ≤ values.length) (hm : ∀ x ∉ data, m x = none) :
    assigned m (data.zip values) = filled data values := by
  funext x
  refine assigned_congr _ ?_
  rw [List.map_fst_zip hlen]
  by_cases hx : x ∈ data
  · exact Or.inl hx
  · exact Or.inr (hm x hx)

/-- The last index of a key, as `int`. -/
def lastIndex (data : List K) (x : K) : Option U32 :=
  (data.reverse.idxOf? x).map fun r => BitVec.ofNat 32 (data.length - 1 - r)

/-- A key that repeats keeps its last index. -/
theorem filled_indices (data : List K) : filled data (indices data.length) = lastIndex data := by
  funext x
  induction data using List.reverseRecOn with
  | nil => rfl
  | append_singleton data y ih =>
    have hindices : indices (data ++ [y]).length = indices data.length ++ [BitVec.ofNat 32 data.length] := by
      rw [List.length_append, List.length_singleton, indices, List.range_succ, List.map_append]
      rfl
    have hlen : data.length = (indices data.length).length := by simp [indices]
    rw [filled, assigned, hindices, List.zip_append hlen, List.foldl_append]
    change Function.update (filled data (indices data.length)) y (some (BitVec.ofNat 32 data.length)) x = _
    rw [Function.update_apply, ih, lastIndex, lastIndex, List.reverse_append, List.length_append]
    change _ = Option.map _ (List.idxOf? x (y :: data.reverse))
    rw [List.idxOf?_cons]
    by_cases hxy : x = y
    · simp [hxy]
    · have hyx : (y == x) = false := beq_false_of_ne (Ne.symm hxy)
      rw [if_neg hxy, hyx, if_neg Bool.false_ne_true, Option.map_map, List.length_singleton]
      congr 1
      funext r
      simp only [Function.comp_apply]
      congr 1
      omega

/-- What a probe adds. -/
def found (m : K → Option U32) (probe : K) : U64 := ((m probe).map fun v => v.signExtend 64).getD 0

theorem eval_addFound (m : K → Option U32) (s : U64) (probe : K) :
    (addFound s probe).eval m = (m, s + found m probe) := by
  rw [addFound, TableProgram.eval, found]
  cases m probe with
  | none => simp
  | some v => simp

omit [DecidableEq K] in
theorem foldl_add_map {ι : Type} (g : ι → U64) (l : List ι) (s : U64) :
    l.foldl (fun s i => s + g i) s = s + (l.map g).sum := by
  induction l generalizing s with
  | nil => simp
  | cons x l ih => rw [List.foldl_cons, ih, List.map_cons, List.sum_cons, add_assoc]

theorem length_indices (n : ℕ) : (indices n).length = n := by
  rw [indices, List.length_map, List.length_range]

omit [DecidableEq K] in
theorem assigns_addFound {ok : K → Prop} (s : U64) (probe : K) : (addFound s probe).Assigns ok := by
  intro v
  cases v with
  | none => exact TableProgram.Assigns.pure _
  | some v => exact TableProgram.Assigns.pure _

theorem eval_fill {m : K → Option U32} {data : List K} {values : List U32}
    (hlen : data.length = values.length) (hm : ∀ x ∉ data, m x = none) {fuel : ℕ}
    (hdata : data.length < 2 ^ 32) (hfuel : data.length < fuel) :
    (fill data values fuel).eval m = (filled data values, some ()) := by
  have hzip : (data.zip values).length = data.length := by
    rw [List.length_zip, ← hlen, Nat.min_self]
  have hloop : CountedLoop.forLoop (2 ^ 32)
      (fun (s : (K → Option U32) × Unit) kv => (Function.update s.1 kv.1 (some kv.2), ()))
      (data.zip values) data.length fuel 0 (m, ()) = _ :=
    CountedLoop.forLoop_eq hdata hzip.ge (Nat.zero_le _) (by omega) (m, ())
  rw [List.drop_zero, List.take_of_length_le hzip.le,
    List.foldl_hom (fun m : K → Option U32 => (m, ())) fun _ _ => rfl] at hloop
  rw [fill, TableProgram.eval_forLoop hloop, ← assigned_zip hlen.le hm]
  rfl

/-- A loop over a part of the probes sums up what they add. -/
theorem eval_sumLoop (m : K → Option U32) {probes : List K} {bound : ℕ} (hM : bound < 2 ^ 32)
    (hbound : bound ≤ probes.length) {fuel j : ℕ} (hj : j ≤ bound) (hfuel : bound - j < fuel) (s : U64) :
    (TableProgram.forLoop (2 ^ 32) addFound probes bound fuel j s).eval m =
      (m, some (s + (((probes.take bound).drop j).map (found m)).sum)) := by
  have hbody : (fun (s : (K → Option U32) × U64) probe => (addFound s.2 probe).eval s.1) =
      fun s probe => (s.1, s.2 + found s.1 probe) := by
    funext s probe
    exact eval_addFound s.1 s.2 probe
  have hloop : CountedLoop.forLoop (2 ^ 32)
      (fun (s : (K → Option U32) × U64) probe => (s.1, s.2 + found s.1 probe)) probes bound fuel j
      (m, s) = _ :=
    CountedLoop.forLoop_eq hM hbound hj hfuel (m, s)
  have hsum : ((probes.take bound).drop j).foldl
      (fun (s : (K → Option U32) × U64) probe => (s.1, s.2 + found s.1 probe)) (m, s) =
      (m, ((probes.take bound).drop j).foldl (fun s probe => s + found m probe) s) :=
    List.foldl_hom (fun s : U64 => (m, s)) fun _ _ => rfl
  rw [hsum, foldl_add_map, ← hbody] at hloop
  exact TableProgram.eval_forLoop hloop

/-- The blocks are the probes up to the last multiple of the step size. -/
theorem eval_blocks (m : K → Option U32) {probes : List K} (hprobes : probes.length < 2 ^ 32)
    {fuel : ℕ} (hfuel : probes.length + stepSize < fuel) (s : U64) :
    (TableProgram.blockLoop (2 ^ 32) stepSize (probes.length / stepSize) (fun fuel start bound s =>
      TableProgram.forLoop (2 ^ 32) addFound probes bound fuel start s) fuel 0 s).eval m =
        (m, some (s + ((probes.take (probes.length / stepSize * stepSize)).map (found m)).sum)) := by
  have hall : probes.length / stepSize * stepSize ≤ probes.length := Nat.div_mul_le_self _ _
  have hblocks : probes.length / stepSize ≤ probes.length := Nat.div_le_self _ _
  have hbody : ∀ fuel i (s : U64), i < probes.length / stepSize → stepSize < fuel →
      ((TableProgram.forLoop (2 ^ 32) addFound probes ((i + 1) * stepSize) fuel (i * stepSize) s).eval
        m).2 = some (s + ((segment stepSize probes i).map (found m)).sum) := by
    intro fuel i s hi hfuel
    obtain ⟨-, hend⟩ := CountedLoop.succ_mul_le_of_lt_div hi
    have hsucc : (i + 1) * stepSize = i * stepSize + stepSize := Nat.add_one_mul i stepSize
    rw [eval_sumLoop m (by omega) hend (by omega) (by omega)]
    rfl
  rw [TableProgram.eval_blockLoop fun _ _ _ _ => .forLoop _ (fun s x _ => assigns_addFound s x) _ _ _,
    CountedLoop.blockLoop_eq (by decide) (by omega) hbody (Nat.zero_le _) (by omega), foldl_add_map]
  have hflat := CountedLoop.flatMap_segment stepSize probes (Nat.zero_le (probes.length / stepSize))
  rw [Nat.zero_mul, List.drop_zero] at hflat
  rw [← hflat, List.map_flatMap, List.flatMap_def, List.sum_flatten, List.map_map]
  rfl

/-- The returned value: every probe in the warm-up and the probes of whole blocks once more. -/
def throughputValue (data probes : List K) : U64 :=
  (probes.map (found (lastIndex data))).sum +
    ((probes.take (probes.length / stepSize * stepSize)).map (found (lastIndex data))).sum

theorem eval_throughput {m : K → Option U32} {data probes : List K} {fuel : ℕ}
    (h : Reaches data probes fuel) (hm : ∀ x ∉ data, m x = none) :
    (benchHashtableThroughput data probes fuel).eval m =
      (lastIndex data, some (throughputValue data probes)) := by
  obtain ⟨hdata, hprobes, hfuel⟩ := h
  unfold benchHashtableThroughput
  rw [TableProgram.eval_bind, eval_fill (length_indices _).symm hm hdata (by omega), filled_indices]
  dsimp only
  rw [TableProgram.eval_bind, eval_sumLoop _ (by omega) le_rfl (Nat.zero_le _) (by omega),
    List.drop_zero, List.take_of_length_le le_rfl]
  dsimp only
  rw [eval_blocks _ (by omega) (by omega), zero_add]
  rfl

/-! ### Latency -/

/-- A walk over the probes that skips as many of them as the value it finds, until its index is at
`stop` or behind; `none` when it reads outside of the probes or when the fuel is used up. -/
def walk (probes : List K) (stop : ℕ) : (fuel i : ℕ) → U64 → TableProgram K U32 (Option (ℕ × U64))
  | 0, _, _ => pure none
  | fuel + 1, i, s =>
    if i < stop then
      match probes[i]? with
      | none => pure none
      | some x => .find x fun v => match v with
        | some v => walk probes stop fuel (((i + v.toNat) % 2 ^ 32 + 1) % 2 ^ 32) (s + v.signExtend 64)
        | none => walk probes stop fuel ((i + 1) % 2 ^ 32) s
    else
      pure (some (i, s))

/-- A round of the warm-up: `while (i < p.size())` and `i -= p.size()`. -/
def warmUpRound (probes : List K) (fuel i : ℕ) (s : U64) : TableProgram K U32 (Option (ℕ × U64)) := do
  let some (i, s) ← walk probes probes.length fuel i s | return none
  return some ((i + (2 ^ 32 - probes.length % 2 ^ 32)) % 2 ^ 32, s)

/-- The loop over a block and its sum. -/
def latencyBlock (probes : List K) (fuel start bound : ℕ) (s : U64) :
    TableProgram K U32 (Option U64) := do
  let some (_, s) ← walk probes bound fuel start s | return none
  return some s

/-- A pass of the measured function. After it `i -= (p.size()/step_size)` takes the counter back to
zero. -/
def latencyPass (probes : List K) (fuel : ℕ) (s : U64) : TableProgram K U32 (Option U64) :=
  TableProgram.blockLoop (2 ^ 32) stepSize (probes.length / stepSize) (latencyBlock probes) fuel 0 s

/-- `rand() % 3`, for the first calls of `rand()`. -/
def randomValues (draws : ℕ → ℕ) (n : ℕ) : List U32 :=
  (List.range n).map fun i => BitVec.ofNat 32 (draws i % 3)

/-- `bench_hashtable_latency`, with the numbers that `rand()` returns; the measured function runs
twice over the blocks. -/
def benchHashtableLatency (data : List K) (draws : ℕ → ℕ) (probes : List K) (fuel : ℕ) :
    TableProgram K U32 (Option U64) := do
  let some _ ← fill data (randomValues draws data.length) fuel | return none
  let some (i, s) ← warmUpRound probes fuel 0 0 | return none
  let some (_, s) ← warmUpRound probes fuel i s | return none
  let some s ← latencyPass probes fuel s | return none
  latencyPass probes fuel s

omit [DecidableEq K] in
theorem assigns_walk {ok : K → Prop} (probes : List K) (stop fuel i : ℕ) (s : U64) :
    (walk probes stop fuel i s).Assigns ok := by
  induction fuel generalizing i s with
  | zero => exact TableProgram.Assigns.pure _
  | succ fuel ih =>
    rw [walk]
    split_ifs
    · cases probes[i]? with
      | none => exact TableProgram.Assigns.pure _
      | some x =>
        intro v
        cases v with
        | none => exact ih _ _
        | some v => exact ih _ _
    · exact TableProgram.Assigns.pure _

omit [DecidableEq K] in
theorem assigns_latencyBlock {ok : K → Prop} (probes : List K) (fuel start bound : ℕ) (s : U64) :
    (latencyBlock probes fuel start bound s).Assigns ok := by
  refine (assigns_walk _ _ _ _ _).bind fun r => ?_
  cases r <;> exact TableProgram.Assigns.pure _

/-- A walk on the map that has to skip some probes first: how far behind the probes it ends, and
the sum of the values that it finds. -/
def walked (m : K → Option U32) : List K → ℕ → ℕ × U64
  | [], skip => (skip, 0)
  | _ :: probes, skip + 1 => walked m probes skip
  | x :: probes, 0 => match m x with
    | some v => ((walked m probes v.toNat).1, v.signExtend 64 + (walked m probes v.toNat).2)
    | none => walked m probes 0

omit [DecidableEq K] in
theorem walked_eq_drop (m : K → Option U32) (probes : List K) (skip : ℕ) :
    walked m probes skip = walked m (probes.drop skip) (skip - probes.length) := by
  induction probes generalizing skip with
  | nil => rw [List.drop_nil, List.length_nil, Nat.sub_zero]
  | cons x probes ih =>
    cases skip with
    | zero => rw [List.drop_zero, Nat.zero_sub]
    | succ skip => rw [walked, ih, List.drop_succ_cons, List.length_cons, Nat.add_sub_add_right]

/-- The values of the map are below three. -/
def Small (m : K → Option U32) : Prop := ∀ x v, m x = some v → v.toNat < 3

omit [DecidableEq K] in
theorem walked_le {m : K → Option U32} (hm : Small m) (probes : List K) {skip : ℕ} (hskip : skip ≤ 2) :
    (walked m probes skip).1 ≤ 2 := by
  induction probes generalizing skip with
  | nil => exact hskip
  | cons x probes ih =>
    cases skip with
    | succ skip => exact ih (by omega)
    | zero =>
      rw [walked]
      cases hx : m x with
      | none => exact ih (Nat.zero_le 2)
      | some v =>
        have hv := hm x v hx
        exact ih (by omega)

/-- A walk ends at most two places behind its end, with the values on its way. -/
theorem eval_walk {m : K → Option U32} (hm : Small m) {probes : List K} {stop : ℕ}
    (hstop : stop ≤ probes.length) (hM : stop + 2 < 2 ^ 32) {fuel i : ℕ} (hi : i ≤ stop + 2)
    (hfuel : stop - i < fuel) (s : U64) : (walk probes stop fuel i s).eval m =
      (m, some (stop + (walked m ((probes.take stop).drop i) (i - stop)).1,
        s + (walked m ((probes.take stop).drop i) (i - stop)).2)) := by
  induction fuel generalizing i s with
  | zero => omega
  | succ fuel ih =>
    rw [walk]
    rcases Nat.lt_or_ge i stop with hlt | hge
    · have hip : i < probes.length := by omega
      have hnext : (i + 1) % 2 ^ 32 = i + 1 := Nat.mod_eq_of_lt (by omega)
      have hdrop : (probes.take stop).drop i = probes[i] :: (probes.take stop).drop (i + 1) := by
        rw [List.drop_eq_getElem_cons (by simp; omega), List.getElem_take]
      have hzero : i - stop = 0 := by omega
      rw [if_pos hlt, List.getElem?_eq_getElem hip, hdrop, hzero, walked]
      dsimp only
      rw [TableProgram.eval]
      cases hfound : m probes[i] with
      | none =>
        dsimp only
        rw [hnext, ih (by omega) (by omega), show i + 1 - stop = 0 by omega]
      | some v =>
        have hv := hm _ v hfound
        have hskip : ((i + v.toNat) % 2 ^ 32 + 1) % 2 ^ 32 = i + 1 + v.toNat := by
          rw [Nat.mod_eq_of_lt (by omega), Nat.mod_eq_of_lt (by omega)]
          omega
        -- the walk goes on where the skipped probes end
        have hrest : walked m ((probes.take stop).drop (i + 1)) v.toNat =
            walked m ((probes.take stop).drop (i + 1 + v.toNat)) (i + 1 + v.toNat - stop) := by
          rw [walked_eq_drop, List.drop_drop, List.length_drop, List.length_take,
            Nat.min_eq_left hstop]
          congr 1
          omega
        dsimp only
        rw [hskip, ih (by omega) (by omega), hrest, add_assoc s]
    · have hnil : (probes.take stop).drop i = [] := List.drop_eq_nil_of_le (by simp; omega)
      rw [if_neg (by omega), hnil, walked, Nat.add_sub_cancel' hge, add_zero]
      rfl

theorem eval_warmUpRound {m : K → Option U32} (hm : Small m) {probes : List K}
    (hprobes : probes.length + 2 < 2 ^ 32) {fuel i : ℕ} (hi : i ≤ 2) (hfuel : probes.length < fuel)
    (s : U64) : (warmUpRound probes fuel i s).eval m =
      (m, some ((walked m probes i).1, s + (walked m probes i).2)) := by
  have hle := walked_le hm probes hi
  have hback : (probes.length + (walked m probes i).1 + (2 ^ 32 - probes.length % 2 ^ 32)) % 2 ^ 32 =
      (walked m probes i).1 := by
    rw [Nat.mod_eq_of_lt (by omega : probes.length < 2 ^ 32)]
    omega
  rw [warmUpRound, TableProgram.eval_bind, eval_walk hm le_rfl hprobes (by omega) (by omega),
    List.take_of_length_le le_rfl, ← walked_eq_drop]
  dsimp only
  rw [TableProgram.eval_pure, hback]

/-- The sum of the values on the walks over the blocks. -/
def passValue (m : K → Option U32) (probes : List K) : U64 :=
  ((List.range (probes.length / stepSize)).map fun i => (walked m (segment stepSize probes i) 0).2).sum

theorem eval_latencyPass {m : K → Option U32} (hm : Small m) {probes : List K}
    (hprobes : probes.length + 2 < 2 ^ 32) {fuel : ℕ} (hfuel : probes.length + stepSize < fuel) (s : U64) :
    (latencyPass probes fuel s).eval m = (m, some (s + passValue m probes)) := by
  have hall : probes.length / stepSize * stepSize ≤ probes.length := Nat.div_mul_le_self _ _
  have hblocks : probes.length / stepSize ≤ probes.length := Nat.div_le_self _ _
  have hbody : ∀ fuel i (s : U64), i < probes.length / stepSize → stepSize < fuel →
      ((latencyBlock probes fuel (i * stepSize) ((i + 1) * stepSize) s).eval m).2 =
        some (s + (walked m (segment stepSize probes i) 0).2) := by
    intro fuel i s hi hfuel
    obtain ⟨-, hend⟩ := CountedLoop.succ_mul_le_of_lt_div hi
    have hsucc : (i + 1) * stepSize = i * stepSize + stepSize := Nat.add_one_mul i stepSize
    rw [latencyBlock, TableProgram.eval_bind, eval_walk hm hend (by omega) (by omega) (by omega),
      show i * stepSize - (i + 1) * stepSize = 0 by omega]
    rfl
  rw [latencyPass, TableProgram.eval_blockLoop fun _ _ _ _ => assigns_latencyBlock _ _ _ _ _,
    CountedLoop.blockLoop_eq (by decide) (by omega) hbody (Nat.zero_le _) (by omega), foldl_add_map,
    Nat.sub_zero, ← List.range_eq_range', passValue]

theorem Small.assigned {m : K → Option U32} (hm : Small m) (l : List (K × U32))
    (hl : ∀ kv ∈ l, kv.2.toNat < 3) :
    Small (assigned m l) := by
  induction l generalizing m with
  | nil => exact hm
  | cons kv l ih =>
    refine ih (fun x v hx => ?_) fun kv' h => hl kv' (List.mem_cons_of_mem _ h)
    dsimp only at hx
    rw [Function.update_apply] at hx
    split_ifs at hx
    · rw [← Option.some.inj hx]
      exact hl kv List.mem_cons_self
    · exact hm x v hx

theorem small_filled (data : List K) (draws : ℕ → ℕ) :
    Small (filled data (randomValues draws data.length)) := by
  refine Small.assigned (fun x v hx => by cases hx) _ fun kv hkv => ?_
  obtain ⟨i, -, hi⟩ := List.mem_map.mp (List.of_mem_zip hkv).2
  rw [← hi, BitVec.toNat_ofNat]
  omega

theorem length_randomValues (draws : ℕ → ℕ) (n : ℕ) : (randomValues draws n).length = n := by
  rw [randomValues, List.length_map, List.length_range]

/-- The returned value: the walks of the two rounds of the warm-up, the second one from where the
first one ends, and two passes over the blocks. -/
def latencyValue (data : List K) (draws : ℕ → ℕ) (probes : List K) : U64 :=
  let m := filled data (randomValues draws data.length)
  let first := walked m probes 0
  first.2 + (walked m probes first.1).2 + passValue m probes + passValue m probes

/-- The latency benchmark never reads outside of its probes and always ends. -/
theorem eval_latency {data probes : List K} {fuel : ℕ} (h : Reaches data probes fuel) (draws : ℕ → ℕ) :
    (benchHashtableLatency data draws probes fuel).eval (fun _ => none) =
      (filled data (randomValues draws data.length), some (latencyValue data draws probes)) := by
  obtain ⟨hdata, hprobes, hfuel⟩ := h
  have hm := small_filled data draws
  have hle := walked_le hm probes (Nat.zero_le 2)
  unfold benchHashtableLatency
  rw [TableProgram.eval_bind, eval_fill (length_randomValues _ _).symm (fun _ _ => rfl) hdata (by omega)]
  dsimp only
  rw [TableProgram.eval_bind, eval_warmUpRound hm hprobes (Nat.zero_le 2) (by omega)]
  dsimp only
  rw [TableProgram.eval_bind, eval_warmUpRound hm hprobes hle (by omega)]
  dsimp only
  rw [TableProgram.eval_bind, eval_latencyPass hm hprobes (by omega)]
  dsimp only
  rw [eval_latencyPass hm hprobes (by omega), zero_add]
  rfl

/-! ### Assigned keys -/

section Keys

omit [DecidableEq K]

theorem assigns_fill (data : List K) (values : List U32) (fuel : ℕ) :
    (fill data values fuel).Assigns (· ∈ data) := by
  refine TableProgram.Assigns.forLoop _ ?_ _ _ _
  intro _ kv hkv
  exact ⟨(List.of_mem_zip hkv).1, trivial⟩

theorem assigns_throughput (data probes : List K) (fuel : ℕ) :
    (benchHashtableThroughput data probes fuel).Assigns (· ∈ data) := by
  have hloop : ∀ bound fuel start s,
      (TableProgram.forLoop (2 ^ 32) addFound probes bound fuel start s).Assigns (· ∈ data) :=
    fun bound => .forLoop bound fun s x _ => assigns_addFound s x
  refine (assigns_fill data _ _).bind fun r => ?_
  cases r with
  | none => exact TableProgram.Assigns.pure _
  | some u =>
    refine (hloop _ _ _ _).bind fun r => ?_
    cases r with
    | none => exact TableProgram.Assigns.pure _
    | some s => exact .blockLoop (fun fuel start bound s => hloop bound fuel start s) _ _ _

theorem assigns_warmUpRound {ok : K → Prop} (probes : List K) (fuel i : ℕ) (s : U64) :
    (warmUpRound probes fuel i s).Assigns ok := by
  refine (assigns_walk _ _ _ _ _).bind fun r => ?_
  cases r <;> exact TableProgram.Assigns.pure _

theorem assigns_latencyPass {ok : K → Prop} (probes : List K) (fuel : ℕ) (s : U64) :
    (latencyPass probes fuel s).Assigns ok :=
  .blockLoop (fun fuel start bound s => assigns_latencyBlock probes fuel start bound s) _ _ _

theorem assigns_latency (data probes : List K) (draws : ℕ → ℕ) (fuel : ℕ) :
    (benchHashtableLatency data draws probes fuel).Assigns (· ∈ data) := by
  refine (assigns_fill data _ _).bind fun r => ?_
  cases r with
  | none => exact TableProgram.Assigns.pure _
  | some u =>
    refine (assigns_warmUpRound _ _ _ _).bind fun r => ?_
    cases r with
    | none => exact TableProgram.Assigns.pure _
    | some r =>
      refine (assigns_warmUpRound _ _ _ _).bind fun r => ?_
      cases r with
      | none => exact TableProgram.Assigns.pure _
      | some r =>
        refine (assigns_latencyPass _ _ _).bind fun r => ?_
        cases r with
        | none => exact TableProgram.Assigns.pure _
        | some s => exact assigns_latencyPass _ _ s

end Keys

/-! ### Both benchmarks on one table -/

section Template

variable {ε τ α : Type} (setLoad : τ → Except ε τ) (assignTo : τ → K → U32 → Except ε τ)
  (findIn : τ → K → Except ε (Option U32))

/-- A benchmark, if its metric is on: the load factor is set and then the program runs. -/
def runMetric (on : Bool) (P : TableProgram K U32 α) (t : τ) : Except ε (τ × Option α) :=
  if on then do
    let t ← setLoad t
    let (t, a) ← P.run assignTo findIn t
    return (t, some a)
  else
    return (t, none)

/-- `bench_hashtable`. The throughput benchmark runs on the table that the latency benchmark has
left; a benchmark that does not end or that reads outside of its probes gives `some none`, and
then nothing follows. -/
def benchHashtable (latency throughput : Bool) (data : List K) (draws : ℕ → ℕ) (probes : List K)
    (fuel : ℕ) (t : τ) : Except ε (τ × Option (Option U64) × Option (Option U64)) := do
  let (t, a) ← runMetric setLoad assignTo findIn latency
    (benchHashtableLatency data draws probes fuel) t
  if a = some none then
    return (t, a, none)
  let (t, b) ← runMetric setLoad assignTo findIn throughput
    (benchHashtableThroughput data probes fuel) t
  return (t, a, b)

/-- What `bench_hashtable` returns. -/
def reported (latency throughput : Bool) (data : List K) (draws : ℕ → ℕ) (probes : List K) :
    Option (Option U64) × Option (Option U64) :=
  (if latency then some (some (latencyValue data draws probes)) else none,
    if throughput then some (some (throughputValue data probes)) else none)

/-- The map after `bench_hashtable`. -/
def left (latency throughput : Bool) (data : List K) (draws : ℕ → ℕ) : K → Option U32 :=
  if throughput then lastIndex data
  else if latency then filled data (randomValues draws data.length)
  else fun _ => none

variable {setLoad assignTo findIn} {allowed : ε → Prop} {ok : K → Prop}
  {R : τ → (K → Option U32) → Prop} {t : τ}

theorem runMetric_outcome (hload : ∀ t m, R t m → Outcome allowed (fun t' => R t' m) (setLoad t))
    (hassign : ∀ t m k v, ok k → R t m →
      Outcome allowed (fun t' => R t' (Function.update m k (some v))) (assignTo t k v))
    (hfind : ∀ t m k, R t m → Outcome allowed (fun v => v = m k) (findIn t k)) (on : Bool)
    {P : TableProgram K U32 α} (hP : P.Assigns ok) {m : K → Option U32} (h : R t m) :
    Outcome allowed (fun r => R r.1 (if on then (P.eval m).1 else m) ∧
      r.2 = if on then some (P.eval m).2 else none) (runMetric setLoad assignTo findIn on P t) := by
  unfold runMetric
  cases on with
  | false => exact ⟨h, rfl⟩
  | true =>
    refine (hload t m h).bind fun t' h' => ?_
    refine (TableProgram.run_refines hassign hfind hP h').bind ?_
    rintro ⟨t'', a⟩ ⟨h'', ha⟩
    exact ⟨h'', congrArg some ha⟩

/-- On a new table whose operations follow the map, the values do not depend on the table. -/
theorem benchHashtable_outcome {data probes : List K} {fuel : ℕ} (hreach : Reaches data probes fuel)
    (draws : ℕ → ℕ) (hload : ∀ t m, R t m → Outcome allowed (fun t' => R t' m) (setLoad t))
    (hassign : ∀ t m, ∀ k ∈ data, ∀ v, R t m →
      Outcome allowed (fun t' => R t' (Function.update m k (some v))) (assignTo t k v))
    (hfind : ∀ t m k, R t m → Outcome allowed (fun v => v = m k) (findIn t k))
    (latency throughput : Bool) (h : R t fun _ => none) :
    Outcome allowed (fun r => R r.1 (left latency throughput data draws) ∧
      r.2 = reported latency throughput data draws probes)
      (benchHashtable setLoad assignTo findIn latency throughput data draws probes fuel t) := by
  have hassign' : ∀ t m k v, k ∈ data → R t m →
      Outcome allowed (fun t' => R t' (Function.update m k (some v))) (assignTo t k v) :=
    fun t m k v hk => hassign t m k hk v
  unfold benchHashtable
  refine (runMetric_outcome hload hassign' hfind latency (assigns_latency data probes draws fuel)
    h).bind ?_
  rintro ⟨t₁, a⟩ ⟨h₁, ha⟩
  dsimp only at h₁ ha ⊢
  rw [eval_latency hreach] at h₁ ha
  have hends : a ≠ some none := by
    rw [ha]
    split_ifs <;> simp
  rw [if_neg hends]
  have hm : ∀ x ∉ data, (if latency then filled data (randomValues draws data.length)
      else fun _ => none) x = none := by
    intro x hx
    split_ifs
    · exact filled_of_not_mem _ hx
    · rfl
  refine (runMetric_outcome hload hassign' hfind throughput (assigns_throughput data probes fuel)
    h₁).bind ?_
  rintro ⟨t₂, b⟩ ⟨h₂, hb⟩
  dsimp only at h₂ hb ⊢
  rw [eval_throughput hreach hm] at h₂ hb
  exact ⟨h₂, congrArg₂ Prod.mk ha hb⟩

end Template

/-! ### The tables -/

section Tables

variable (hash : K → U64) (latency throughput : Bool) (data : List K) (draws : ℕ → ℕ)
  (probes : List K) (fuel : ℕ)

/-- `bench_hashtable` on a new `absl::flat_hash_map`; its `max_load_factor` does nothing. -/
def benchSwissTable (mem : Memory) (emptyGroupAddress : U64) :
    Except RawFault (Option (Option U64) × Option (Option U64)) := do
  let t ← RawHashSet.new mem emptyGroupAddress data.length
  let (_, values) ← benchHashtable (fun t => .ok t) (fun t k v => t.assign mem hash k v)
    (fun t k => t.lookup hash k) latency throughput data draws probes fuel t
  return values

/-- `bench_hashtable` on a new `tsl::robin_map`, with the load factor if `set_load_factor` is on. -/
def benchRobinTable (maxSize : ℕ) (loadFactor : Option ℚ) :
    Except Fault (Option (Option U64) × Option (Option U64)) := do
  let t : RobinHash K U32 ← RobinHash.new maxSize data.length RobinHash.DEFAULT_MIN_LOAD_FACTOR
    RobinHash.DEFAULT_MAX_LOAD_FACTOR
  let setLoad : RobinHash K U32 → Except Fault (RobinHash K U32) := fun t => match loadFactor with
    | some ml => .ok (t.setMaxLoadFactor ml)
    | none => .ok t
  let (_, values) ← benchHashtable setLoad (fun t k v => t.assign hash maxSize k v)
    (fun t k => t.lookup hash k) latency throughput data draws probes fuel t
  return values

/-- `bench_hashtable` on a new `google::dense_hash_map` with an empty key and no deleted key. -/
def benchGoogleTable (alloc : Allocator) (emptyKey : K) (loadFactor : Option ℚ) :
    Except DenseFault (Option (Option U64) × Option (Option U64)) := do
  let t ← DenseHash.new alloc emptyKey data.length
  let (_, values) ← benchHashtable (fun t => t.withLoadFactor loadFactor)
    (fun t k v => t.assign alloc hash k v) (fun t k => t.lookup hash k) latency throughput data
    draws probes fuel t
  return values

end Tables

theorem benchSwissTable_outcome (hash : K → U64) (latency throughput : Bool) {data probes : List K}
    {fuel : ℕ} (hreach : Reaches data probes fuel) (draws : ℕ → ℕ) (mem : Memory)
    (emptyGroupAddress : U64) :
    Outcome (fun f => f = .memory) (fun r => r = reported latency throughput data draws probes)
      (benchSwissTable hash latency throughput data draws probes fuel mem emptyGroupAddress) := by
  unfold benchSwissTable
  refine (RawHashSet.new_outcome hash emptyGroupAddress (Or.inl (by rfl))).bind ?_
  rintro t ⟨hstart, -⟩
  refine (benchHashtable_outcome (R := RawHashSet.Refines hash) hreach draws ?_ ?_ ?_
    latency throughput hstart).bind ?_
  · intro t m h
    exact h
  · intro t m k _ v h
    refine (RawHashSet.assign_outcome h.valid h.represents k v (Or.inl (by rfl))).mono ?_
    intro t' hend
    exact ⟨hend.valid, hend.represents⟩
  · intro t m k h
    rw [RawHashSet.lookup_spec h.valid h.represents]
    rfl
  · rintro ⟨t', values⟩ ⟨-, hvalues⟩
    exact hvalues

theorem benchRobinTable_outcome (hash : K → U64) (latency throughput : Bool) {data probes : List K}
    {fuel : ℕ} (hreach : Reaches data probes fuel) (draws : ℕ → ℕ) (maxSize : ℕ)
    (loadFactor : Option ℚ) :
    Outcome (fun f => f = .distance ∨ f = .length)
      (fun r => r = reported latency throughput data draws probes)
      (benchRobinTable hash latency throughput data draws probes fuel maxSize loadFactor) := by
  unfold benchRobinTable
  refine (RobinHash.new_outcome hash (Or.inl (Or.inr rfl))).bind ?_
  rintro t ⟨hv, hnil, -⟩
  refine (benchHashtable_outcome (R := RobinHash.Refines hash) hreach draws ?_ ?_ ?_
    latency throughput (RobinHash.Refines.empty hv hnil)).bind ?_
  · intro t m h
    cases loadFactor with
    | none => exact h
    | some ml =>
      exact ⟨⟨h.valid.ordered, h.valid.count, h.valid.room, RobinHash.loadRange_clamp ml, rfl⟩,
        h.represents⟩
  · intro t m k _ v h
    refine (RobinHash.assign_outcome h.valid h.represents v (Or.inl (Or.inr rfl))
      (Or.inl (Or.inl rfl))).mono ?_
    intro t' hend
    exact ⟨hend.valid, hend.represents⟩
  · intro t m k h
    exact RobinHash.lookup_outcome h.valid h.represents (Or.inl (Or.inl rfl))
  · rintro ⟨t', values⟩ ⟨-, hvalues⟩
    exact hvalues

/-- After a benchmark every key of the data is in the table. -/
theorem not_mem_of_left_eq_none {latency throughput : Bool} {data : List K} {draws : ℕ → ℕ} {x : K}
    (hon : latency = true ∨ throughput = true) (h : left latency throughput data draws x = none) :
    x ∉ data := by
  have hfilled : ∀ {values : List U32}, data.length ≤ values.length →
      filled data values x = none → x ∉ data := by
    intro values hlen hnone
    have hmem := (not_mem_of_assigned_eq_none _ hnone).2
    rwa [List.map_fst_zip hlen] at hmem
  unfold left at h
  split_ifs at h with hthroughput hlatency
  · rw [← filled_indices] at h
    exact hfilled (length_indices _).ge h
  · exact hfilled (length_randomValues _ _).ge h
  · exact absurd hon (not_or.mpr ⟨hlatency, hthroughput⟩)

/-- An assertion fails only if the empty key is among the data, and then no benchmark returns. No
index is outside of the table. -/
theorem benchGoogleTable_outcome (hash : K → U64) (latency throughput : Bool) {data probes : List K}
    {fuel : ℕ} (hreach : Reaches data probes fuel) (draws : ℕ → ℕ) (alloc : Allocator) (emptyKey : K)
    {loadFactor : Option ℚ} (hfactor : ∀ g, loadFactor = some g → DenseHash.Factor g) :
    Outcome (fun f => f ≠ .outside ∧ (f = .assertion → emptyKey ∈ data))
      (fun r => r = reported latency throughput data draws probes ∧
        (latency = true ∨ throughput = true → emptyKey ∉ data))
      (benchGoogleTable hash latency throughput data draws probes fuel alloc emptyKey loadFactor) := by
  have hother : ∀ f : DenseFault, f ≠ .outside → f ≠ .assertion →
      f ≠ .outside ∧ (f = .assertion → emptyKey ∈ data) :=
    fun f hout hf => ⟨hout, fun h => absurd h hf⟩
  have hresize := And.intro (hother .length nofun nofun)
    (And.intro (hother .memory nofun nofun) (hother .overrun nofun nofun))
  unfold benchGoogleTable
  refine (DenseHash.new_outcome hash emptyKey data.length (Or.inl hresize)).bind ?_
  rintro t ⟨hstart, -, hshrink, -⟩
  refine (benchHashtable_outcome
    (R := fun t m => DenseHash.Refines hash emptyKey none t m ∧ 0 ≤ t.shrinkFactor) hreach
    draws ?_ ?_ ?_ latency throughput ⟨hstart, ?_⟩).bind ?_
  · rintro t m ⟨h, hnonneg⟩
    cases loadFactor with
    | none => exact ⟨h, hnonneg⟩
    | some g => exact DenseHash.setMaxLoadFactor_outcome (hfactor g rfl) h hnonneg
  · rintro t m k hk v ⟨h, hnonneg⟩
    have hkey : (DenseFault.assertion ≠ .outside ∧
        (DenseFault.assertion = .assertion → emptyKey ∈ data)) ∨ t.Ordinary k := by
      by_cases heq : k = emptyKey
      · exact Or.inl ⟨nofun, fun _ => heq ▸ hk⟩
      · refine Or.inr ⟨?_, ?_⟩
        · rwa [h.emptyval]
        · rw [h.delkey_eq]
          exact nofun
    refine (DenseHash.assign_outcome h.valid h.represents v hkey
      fun _ => ⟨le_rfl, Or.inl hresize⟩).mono ?_
    rintro t' ⟨hend, -⟩
    refine ⟨hend.refines h, ?_⟩
    rw [hend.kin.shrinkFactor]
    exact hnonneg
  · rintro t m k ⟨h, -⟩
    rw [DenseHash.lookup_spec h.valid h.represents]
    rfl
  · rw [hshrink]
    exact DenseHash.emptiness_nonneg
  · rintro ⟨t', values⟩ ⟨⟨hend, -⟩, hvalues⟩
    exact ⟨hvalues, fun hon => not_mem_of_left_eq_none hon hend.emptyKey_eq_none⟩

/-- For every selection of the metrics, every hash functor and every load factor that the table
takes, the three tables report the same values. Both benchmarks end, and the latency benchmark
stays inside its probes. -/
theorem benchHashtable_value (data probes : List K) (draws : ℕ → ℕ) (hdata : data.length < 2 ^ 32)
    (hprobes : probes.length + 2 < 2 ^ 32) (fuel : ℕ)
    (hfuel : data.length + probes.length + stepSize < fuel) (hash : K → U64)
    (latency throughput : Bool) :
    (∀ (mem : Memory) (emptyGroupAddress : U64),
      Outcome (fun f => f = .memory) (fun r => r = reported latency throughput data draws probes)
        (benchSwissTable hash latency throughput data draws probes fuel mem emptyGroupAddress)) ∧
    (∀ (maxSize : ℕ) (loadFactor : Option ℚ),
      Outcome (fun f => f = .distance ∨ f = .length)
        (fun r => r = reported latency throughput data draws probes)
        (benchRobinTable hash latency throughput data draws probes fuel maxSize loadFactor)) ∧
    ∀ (alloc : Allocator) (emptyKey : K) (loadFactor : Option { g : ℚ // DenseHash.Factor g }),
      Outcome (fun f => f ≠ .outside ∧ (f = .assertion → emptyKey ∈ data))
        (fun r => r = reported latency throughput data draws probes ∧
          (latency = true ∨ throughput = true → emptyKey ∉ data))
        (benchGoogleTable hash latency throughput data draws probes fuel alloc emptyKey
          (loadFactor.map Subtype.val)) := by
  have hreach : Reaches data probes fuel := ⟨hdata, hprobes, hfuel⟩
  refine ⟨?_, ?_, ?_⟩
  · intro mem address
    exact benchSwissTable_outcome hash latency throughput hreach draws mem address
  · intro maxSize loadFactor
    exact benchRobinTable_outcome hash latency throughput hreach draws maxSize loadFactor
  · intro alloc emptyKey loadFactor
    exact benchGoogleTable_outcome hash latency throughput hreach draws alloc emptyKey
      fun _ => DenseHash.factor_of_map loadFactor

/-- The key 3 keeps its last index, and both rounds of the warm-up skip from it to the end. -/
theorem benchRobinTable_repeated_key :
    Outcome (fun f => f = .distance ∨ f = .length) (fun r => r = (some (some 4), some (some 3)))
      (benchRobinTable (fun k : U64 => k) true true [3, 5, 3] id [3, 4, 5] 200 (2 ^ 20) none) := by
  have hvalue : reported true true [3, 5, 3] id [(3 : U64), 4, 5] = (some (some 4), some (some 3)) := by
    decide
  have h := (benchHashtable_value [3, 5, 3] [(3 : U64), 4, 5] id (by decide) (by decide) 200
    (by decide) (fun k => k) true true).2.1 (2 ^ 20) none
  rwa [hvalue] at h

end EntropyLearnedHashing.TableBench
