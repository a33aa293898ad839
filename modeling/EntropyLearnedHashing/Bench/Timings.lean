import Mathlib.Algebra.Order.Ring.Rat
import Mathlib.Data.List.Induction
import Mathlib.Tactic.Linarith

/-! `benchmarks.hh`: which time a call of `benchmark` charges. The measured functions of
the table, filter and partition benchmarks each reset a global accumulator of their
own family and add the times of their blocks to it; those of the hash benchmarks have
none. `benchmark` charges the filter accumulator for the filter and hash classes and
the table accumulator for every other class, whatever family ran. Times are exact numbers
where the source adds and divides `double`s. -/

namespace EntropyLearnedHashing

/-- The `metric_class` strings. -/
inductive MetricClass where
  | hashTableThroughput
  | hashTableLatency
  | filterLatency
  | filterThroughput
  | partition
  | hashFunc
  deriving DecidableEq

/-- `total_time_without_dummy_hashing` and its variants `_filter` and `_partition`. -/
inductive Accumulator where
  | table
  | filter
  | partition
  deriving DecidableEq

/-- The accumulator that the measured functions of a class write. -/
def MetricClass.accumulator : MetricClass → Option Accumulator
  | .hashTableThroughput => some .table
  | .hashTableLatency => some .table
  | .filterLatency => some .filter
  | .filterThroughput => some .filter
  | .partition => some .partition
  | .hashFunc => none

/-- One timed block of `step_size` probes: its nanoseconds and the number of lookups made. -/
structure Block where
  elapsed : ℕ
  counter : ℕ

/-- A call of `benchmark`. The clock readings are part of it: the blocks that the measured
function times itself and the duration from its start to its end. -/
structure Call where
  name : String
  metricClass : MetricClass
  blocks : List Block
  duration : ℕ

namespace Call

variable (c : Call)

/-- The latency benchmark of the filters skips probes and scales its blocks. -/
def blockTime (b : Block) : ℚ :=
  match c.metricClass with
  | .filterLatency => b.elapsed / (b.counter / 100)
  | _ => b.elapsed

/-- The time that the measured function of the call measures. -/
def measured : ℚ :=
  match c.metricClass.accumulator with
  | some _ => (c.blocks.map c.blockTime).sum
  | none => c.duration

end Call

/-- The global accumulators and `timings`; a missing entry is zero. -/
structure Clocks where
  totals : Accumulator → ℚ
  timings : MetricClass → String → ℚ

namespace Clocks

/-- The start of the process. -/
def initial : Clocks := ⟨fun _ => 0, fun _ _ => 0⟩

/-- `func()`: the accumulator of the family is reset and every block is added. -/
def func (c : Call) (totals : Accumulator → ℚ) : Accumulator → ℚ :=
  match c.metricClass.accumulator with
  | some a => c.blocks.foldl (fun t b => Function.update t a (t a + c.blockTime b))
      (Function.update totals a 0)
  | none => totals

def innerLoopReuse : ℚ := 1

/-- `timings[metric_class][name] += time`. -/
def charge (timings : MetricClass → String → ℚ) (c : Call) (time : ℚ) : MetricClass → String → ℚ :=
  Function.update timings c.metricClass
    (Function.update (timings c.metricClass) c.name (timings c.metricClass c.name + time))

def benchmark (s : Clocks) (c : Call) : Clocks :=
  let totals := func c s.totals
  let totalTime := totals .table
  { totals := totals
    timings :=
      if c.metricClass = .filterLatency ∨ c.metricClass = .filterThroughput ∨
          c.metricClass = .hashFunc then
        charge s.timings c (totals .filter / innerLoopReuse)
      else charge s.timings c totalTime }

def run (calls : List Call) : Clocks := calls.foldl benchmark initial

/-- A call made in state `s` charges its own measured time to its own entry and changes no
other entry. -/
def Attributes (s : Clocks) (c : Call) : Prop :=
  (s.benchmark c).timings = charge s.timings c c.measured

/-! ### One call -/

theorem charge_inj {timings : MetricClass → String → ℚ} {c : Call} {x y : ℚ} :
    charge timings c x = charge timings c y ↔ x = y := by
  constructor
  · intro h
    have hentry := congrFun (congrFun h c.metricClass) c.name
    simpa [charge] using hentry
  · rintro rfl
    rfl

theorem foldl_update (a : Accumulator) (times : List ℚ) (t : Accumulator → ℚ) :
    times.foldl (fun t x => Function.update t a (t a + x)) t =
      Function.update t a (t a + times.sum) := by
  induction times generalizing t with
  | nil => simp
  | cons x times ih =>
    rw [List.foldl_cons, ih, Function.update_idem, Function.update_self, List.sum_cons, add_assoc]

/-- The measured time replaces what the accumulator of the family held. -/
theorem func_of_accumulator {c : Call} {a : Accumulator} (h : c.metricClass.accumulator = some a)
    (totals : Accumulator → ℚ) : func c totals = Function.update totals a c.measured := by
  have hfold := foldl_update a (c.blocks.map c.blockTime) (Function.update totals a 0)
  rw [List.foldl_map, Function.update_idem, Function.update_self, zero_add] at hfold
  simp only [func, Call.measured, h, hfold]

theorem func_of_none {c : Call} (h : c.metricClass.accumulator = none)
    (totals : Accumulator → ℚ) : func c totals = totals := by
  simp only [func, h]

/-- A table or filter call is charged its own accumulator. The other two classes are charged
an accumulator that their function does not write. -/
theorem attributes_iff (s : Clocks) (c : Call) :
    s.Attributes c ↔
      match c.metricClass with
      | .partition => s.totals .table = c.measured
      | .hashFunc => s.totals .filter = c.measured
      | _ => True := by
  obtain ⟨name, metricClass, blocks, duration⟩ := c
  cases metricClass <;>
    simp only [Attributes, benchmark, reduceCtorEq, or_false, or_true, if_true, if_false,
      charge_inj, innerLoopReuse, div_one]
  case hashFunc => rw [func_of_none rfl]
  all_goals rw [func_of_accumulator rfl]
  all_goals simp

/-! ### Sequences of calls -/

/-- What the last call of a family measured, zero before the first. -/
def lastMeasured (a : Accumulator) (before : List Call) : ℚ :=
  match (before.filter fun c => c.metricClass.accumulator = some a).getLast? with
  | some c => c.measured
  | none => 0

/-- An accumulator survives every call of the other families. -/
theorem run_totals (a : Accumulator) (before : List Call) :
    (run before).totals a = lastMeasured a before := by
  induction before using List.reverseRecOn with
  | nil => rfl
  | append_singleton before c ih =>
    have hstep : (run (before ++ [c])).totals = func c (run before).totals := by
      rw [run, List.foldl_append]
      rfl
    rw [hstep]
    unfold lastMeasured
    rw [List.filter_append]
    cases hacc : c.metricClass.accumulator with
    | none =>
      rw [func_of_none hacc, ih]
      simp [hacc, lastMeasured]
    | some b =>
      rw [func_of_accumulator hacc]
      by_cases hab : b = a
      · subst hab
        simp [hacc]
      · rw [Function.update_of_ne (Ne.symm hab), ih]
        simp [hacc, hab, lastMeasured]

/-- The class of the call has the accumulator it is charged, or the stale one of the other
family happens to hold what the call measures. -/
def ChargedRight (before : List Call) (c : Call) : Prop :=
  match c.metricClass with
  | .partition => lastMeasured .table before = c.measured
  | .hashFunc => lastMeasured .filter before = c.measured
  | _ => True

theorem run_attributes_call_iff (before : List Call) (c : Call) :
    (run before).Attributes c ↔ ChargedRight before c := by
  rw [attributes_iff, run_totals, run_totals]
  rfl

/-- In a sequence of calls every call charges its own time exactly when every partition call
measures what the last table call did and every hash call what the last filter call did. -/
theorem run_attributes_iff (calls : List Call) :
    (∀ before c after, calls = before ++ c :: after → (run before).Attributes c) ↔
      ∀ before c after, calls = before ++ c :: after → ChargedRight before c := by
  simp only [run_attributes_call_iff]

/-- A table benchmark of three nanoseconds, then a partition benchmark of seven. -/
def tableThenPartition : List Call :=
  [⟨"std", .hashTableThroughput, [⟨3, 100⟩], 5⟩, ⟨"xxh3", .partition, [⟨7, 100⟩], 9⟩]

/-- The partition benchmark is charged the three nanoseconds of the table. -/
theorem tableThenPartition_not_attributes :
    ¬∀ before c after, tableThenPartition = before ++ c :: after → (run before).Attributes c := by
  intro h
  have hright := h [⟨"std", .hashTableThroughput, [⟨3, 100⟩], 5⟩] _ [] rfl
  rw [run_attributes_call_iff] at hright
  norm_num [ChargedRight, lastMeasured, Call.measured, MetricClass.accumulator, Call.blockTime]
    at hright

end Clocks

end EntropyLearnedHashing
