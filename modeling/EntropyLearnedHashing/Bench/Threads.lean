import EntropyLearnedHashing.Library.Transition
import EntropyLearnedHashing.Str
import Mathlib.Data.List.Count

/-! `benchmark_tables_mt.cpp`: main and the workers of `bench_hashtable_mt` as one
transition system. Every access to a shared variable (the counters of the two spin
barriers, `warmup` and `running`) is one step, and so is every compare-and-swap. Runs
of the benchmark follow each other in one process, so that each one finds the counters
and flags as the last one left them. Only the worker itself writes its cell of
`thread_num_iters`, which is kept with the worker. Lookups and clocks are left out. -/

namespace EntropyLearnedHashing.Threads

open Transition

/-- `barrier_a` is for the warm-up, `barrier_b` for profiling. -/
inductive Barrier where
  | a
  | b
  deriving DecidableEq

/-- The counters of the two `spin_barrier`s and the two flags. -/
structure Shared where
  n : Barrier → U64
  warmup : Bool
  running : Bool

/-- `set_n`. -/
def Shared.setN (s : Shared) (β : Barrier) (narg : U64) : Shared :=
  { s with n := Function.update s.n β narg }

/-! ### The workers -/

/-- What a worker does next in `bench_hashtable_throughput_mt`. -/
inductive WorkerPc where
  /-- `size_t copy = n` of `count_down` -/
  | read (β : Barrier)
  | cas (β : Barrier) (copy : U64)
  /-- `while (n > 0)` of `wait_for` -/
  | wait (β : Barrier)
  /-- `while(warmup)` -/
  | warmLoop
  /-- `while(running)` for the first time -/
  | enterRun
  /-- `while(running)` again -/
  | runLoop
  | finished
  deriving DecidableEq

namespace WorkerPc

def progress : WorkerPc → ℕ
  | read .a => 0
  | cas .a _ => 0
  | wait .a => 1
  | warmLoop => 2
  | read .b => 2
  | cas .b _ => 2
  | wait .b => 3
  | enterRun => 4
  | runLoop => 5
  | finished => 5

/-- The compare-and-swap of `count_down` has succeeded. -/
def countedDown : Barrier → WorkerPc → Bool
  | .a, pc => 1 ≤ pc.progress
  | .b, pc => 3 ≤ pc.progress

/-- `wait_for` has returned. -/
def passed : Barrier → WorkerPc → Bool
  | .a, pc => 2 ≤ pc.progress
  | .b, pc => 4 ≤ pc.progress

/-- `while(running)` has been evaluated. -/
def evaluated (pc : WorkerPc) : Bool := 5 ≤ pc.progress

end WorkerPc

/-- A worker and its cell of `thread_num_iters`. -/
structure Worker where
  pc : WorkerPc
  numIters : U64

/-- Where a worker goes on after `wait_for`. -/
def Barrier.next : Barrier → WorkerPc
  | a => .warmLoop
  | b => .enterRun

/-- One step of a worker; one that has returned does nothing any more. -/
def Worker.step (w : Worker) (s : Shared) : Worker × Shared :=
  match w.pc with
  | .read β => ({ w with pc := .cas β (s.n β) }, s)
  | .cas β copy =>
    if s.n β = copy then ({ w with pc := .wait β }, s.setN β (copy - 1))
    else ({ w with pc := .read β }, s)
  | .wait β => if 0 < s.n β then (w, s) else ({ w with pc := β.next }, s)
  | .warmLoop => if s.warmup then (w, s) else ({ w with pc := .read .b }, s)
  | .enterRun | .runLoop =>
    if s.running then ({ pc := .runLoop, numIters := w.numIters + 1 }, s)
    else ({ w with pc := .finished }, s)
  | .finished => (w, s)

/-! ### Main -/

/-- What main does next. -/
inductive MainPc where
  /-- before the first call -/
  | idle
  | setN (β : Barrier)
  | clearWarmup
  | clearRunning
  /-- the loop that starts the threads -/
  | spawn (i : ℕ)
  | startWarmup
  | stopWarmup
  | startRunning
  | stopRunning
  /-- the loop that joins the threads -/
  | join (i : ℕ)
  /-- between two calls -/
  | returned
  deriving DecidableEq

/-- The process. The workers are those of the current run, in `thread_vec`'s order. -/
structure State where
  shared : Shared
  main : MainPc
  name : String
  numThreads : ℕ
  workers : List Worker
  numItersTotal : String → U64

namespace State

/-- Both barriers are constructed with `n = 1`. -/
def initial : State where
  shared := ⟨fun _ => 1, false, false⟩
  main := .idle
  name := ""
  numThreads := 0
  workers := []
  numItersTotal := fun _ => 0

/-- A call of `bench_hashtable_mt`; `num_threads` is an `int`. -/
def call (s : State) (name : String) (numThreads : ℕ) : Option State :=
  if (s.main = .idle ∨ s.main = .returned) ∧ numThreads < 2 ^ 31 then
    some { s with main := .setN .a, name := name, numThreads := numThreads, workers := [] }
  else none

def newWorker : Worker := ⟨.read .a, 0⟩

/-- One step of main inside `bench_hashtable_mt`. -/
def mainStep (s : State) : Option State :=
  match s.main with
  | .idle => none
  | .setN .a => some { s with
      main := .setN .b, shared := s.shared.setN .a (BitVec.ofNat 64 s.numThreads) }
  | .setN .b => some { s with
      main := .clearWarmup, shared := s.shared.setN .b (BitVec.ofNat 64 s.numThreads) }
  | .clearWarmup => some { s with
      main := .clearRunning, shared := { s.shared with warmup := false } }
  | .clearRunning => some { s with
      main := .spawn 0, shared := { s.shared with running := false } }
  | .spawn i =>
    if i < s.numThreads then
      some { s with main := .spawn (i + 1), workers := s.workers ++ [newWorker] }
    else some { s with main := .startWarmup }
  | .startWarmup => some { s with
      main := .stopWarmup, shared := { s.shared with warmup := true } }
  | .stopWarmup => some { s with
      main := .startRunning, shared := { s.shared with warmup := false } }
  | .startRunning => some { s with
      main := .stopRunning, shared := { s.shared with running := true } }
  | .stopRunning => some { s with
      main := .join 0, shared := { s.shared with running := false } }
  | .join i =>
    if i < s.numThreads then
      -- `join` blocks until the thread has returned
      if s.workers[i]?.map Worker.pc = some .finished then some { s with main := .join (i + 1) }
      else none
    else some { s with
      main := .returned
      numItersTotal := Function.update s.numItersTotal s.name
        (s.workers.foldl (fun total w => total + w.numIters) (s.numItersTotal s.name)) }
  | .returned => none

def workerStep (s : State) (i : ℕ) : Option State :=
  s.workers[i]?.map fun w =>
    { s with shared := (w.step s.shared).2, workers := s.workers.set i (w.step s.shared).1 }

end State

inductive Action where
  | call (name : String) (numThreads : ℕ)
  | main
  | worker (i : ℕ)

def step (s : State) : Action → Option State
  | .call name numThreads => s.call name numThreads
  | .main => s.mainStep
  | .worker i => s.workerStep i

/-- The states of all interleavings of any number of consecutive runs. -/
abbrev Reached : State → Prop := Reachable step (fun _ _ => True) State.initial

/-! ### One step of a worker -/

namespace WorkerPc

theorem countedDown_cas_self (β : Barrier) (copy : U64) : (cas β copy).countedDown β = false := by
  cases β <;> rfl

theorem countedDown_wait_self (β : Barrier) : (wait β).countedDown β = true := by
  cases β <;> rfl

theorem countedDown_wait_of_ne {β γ : Barrier} (hne : γ ≠ β) (copy : U64) :
    (wait β).countedDown γ = (cas β copy).countedDown γ := by
  cases β <;> cases γ <;> first | rfl | exact absurd rfl hne

theorem passed_wait (β γ : Barrier) (copy : U64) :
    (wait β).passed γ = (cas β copy).passed γ := by
  cases β <;> cases γ <;> rfl

end WorkerPc

/-- A move of a worker that counts down no barrier, and passes one only when its counter is
zero. -/
structure Quiet (s : Shared) (pc pc' : WorkerPc) : Prop where
  countedDown_eq : ∀ β, pc'.countedDown β = pc.countedDown β
  passed : ∀ β, pc'.passed β → pc.passed β ∨ s.n β = 0

theorem Quiet.of_progress {s : Shared} {pc pc' : WorkerPc} (h : pc'.progress = pc.progress) :
    Quiet s pc pc' where
  countedDown_eq β := by cases β <;> simp only [WorkerPc.countedDown, h]
  passed β hp := by
    left
    cases β <;> simpa only [WorkerPc.passed, h] using hp

theorem Quiet.next {s : Shared} {β : Barrier} (hzero : s.n β = 0) :
    Quiet s (.wait β) β.next where
  countedDown_eq γ := by cases β <;> cases γ <;> rfl
  passed γ hp := by
    by_cases hγ : γ = β
    · exact Or.inr (hγ ▸ hzero)
    · left
      cases β <;> cases γ <;> first | exact hp | exact absurd rfl hγ

/-- From the first evaluation of `while(running)` on both barriers are passed. -/
theorem Quiet.of_evaluated {s : Shared} {pc pc' : WorkerPc} (h : 4 ≤ pc.progress)
    (h' : 4 ≤ pc'.progress) : Quiet s pc pc' where
  countedDown_eq β := by cases β <;> simp only [WorkerPc.countedDown] <;> grind
  passed β _ := by
    left
    cases β <;> simp only [WorkerPc.passed, decide_eq_true_eq] <;> omega

/-- Either the step is a compare-and-swap that succeeds, or it changes no shared variable. -/
theorem Worker.step_cases (w : Worker) (s : Shared) :
    (∃ β, w.pc = .cas β (s.n β) ∧ (w.step s).1.pc = .wait β ∧
      (w.step s).2 = s.setN β (s.n β - 1)) ∨
    ((w.step s).2 = s ∧ Quiet s w.pc (w.step s).1.pc) := by
  rcases w with ⟨pc, numIters⟩
  cases pc with
  | read β => exact Or.inr ⟨rfl, Quiet.of_progress (by cases β <;> rfl)⟩
  | cas β copy =>
    by_cases hn : s.n β = copy
    · subst hn
      exact Or.inl ⟨β, rfl, by simp [step], by simp [step]⟩
    · right
      simp only [step, if_neg hn, true_and]
      exact Quiet.of_progress (by cases β <;> rfl)
  | wait β =>
    right
    by_cases hn : 0 < s.n β
    · simp only [step, if_pos hn, true_and]
      exact Quiet.of_progress rfl
    · have hzero : s.n β = 0 := by simpa using hn
      simp only [step, if_neg hn, true_and]
      exact Quiet.next hzero
  | warmLoop =>
    right
    cases hw : s.warmup <;> simp only [step, hw] <;> exact ⟨rfl, Quiet.of_progress rfl⟩
  | enterRun =>
    right
    cases hr : s.running <;> simp only [step, hr] <;>
      exact ⟨rfl, Quiet.of_evaluated (by decide) (Nat.le_succ 4)⟩
  | runLoop =>
    right
    cases hr : s.running <;> simp only [step, hr] <;> exact ⟨rfl, Quiet.of_progress rfl⟩
  | finished => exact Or.inr ⟨rfl, Quiet.of_progress rfl⟩

/-! ### The invariant -/

/-- The number of workers that have counted a barrier down. -/
def counted (β : Barrier) (workers : List Worker) : ℕ :=
  workers.countP fun w => w.pc.countedDown β

/-- `set_n` has been executed in the current run. -/
def MainPc.HasSet : MainPc → Barrier → Prop
  | .idle, _ => False
  | .setN .a, _ => False
  | .setN .b, β => β = .a
  | _, _ => True

/-- How many threads have been started. -/
def MainPc.Spawned (numThreads len : ℕ) : MainPc → Prop
  | .idle | .setN _ | .clearWarmup | .clearRunning => len = 0
  | .spawn i => len = i ∧ i ≤ numThreads
  | _ => len = numThreads

/-- `running = true` has been executed in the current run. -/
def MainPc.RunningSet : MainPc → Prop
  | .stopRunning | .join _ | .returned => True
  | _ => False

/-- The counters of the barriers that are set tell how many workers have counted down, and
nobody passes a barrier before all have. -/
structure Inv (s : State) : Prop where
  numThreads_lt : s.numThreads < 2 ^ 31
  spawned : s.main.Spawned s.numThreads s.workers.length
  counter : ∀ β, s.main.HasSet β →
    (s.shared.n β).toNat + counted β s.workers = s.numThreads
  passed : ∀ β, ∀ w ∈ s.workers, w.pc.passed β → counted β s.workers = s.numThreads

theorem MainPc.Spawned.le {m : MainPc} {numThreads len : ℕ} (h : m.Spawned numThreads len) :
    len ≤ numThreads := by
  cases m <;> simp only [MainPc.Spawned] at h <;> omega

theorem MainPc.Spawned.hasSet {m : MainPc} {numThreads len : ℕ} (h : m.Spawned numThreads len)
    (hlen : 0 < len) (β : Barrier) : m.HasSet β := by
  cases m <;> simp only [MainPc.Spawned] at h <;> first | omega | trivial

/-- A step of main after both `set_n`s that starts no thread. -/
structure Frame (s s' : State) : Prop where
  n_eq : s'.shared.n = s.shared.n
  workers_eq : s'.workers = s.workers
  numThreads_eq : s'.numThreads = s.numThreads
  hasSet : ∀ β, s.main.HasSet β
  spawned : s.main.Spawned s.numThreads s.workers.length →
    s'.main.Spawned s.numThreads s.workers.length
  runningSet : s.main.RunningSet → s'.main.RunningSet

theorem Frame.of_main {s s' : State} {m : MainPc} (hm : s.main = m)
    (hn : s'.shared.n = s.shared.n) (hw : s'.workers = s.workers)
    (hN : s'.numThreads = s.numThreads) (hset : ∀ β, m.HasSet β)
    (hspawned : m.Spawned s.numThreads s.workers.length →
      s'.main.Spawned s.numThreads s.workers.length)
    (hrunning : m.RunningSet → s'.main.RunningSet) : Frame s s' := by
  subst hm
  exact ⟨hn, hw, hN, hset, hspawned, hrunning⟩

/-- Where main goes on after `set_n`. -/
def Barrier.afterSetN : Barrier → MainPc
  | a => .setN .b
  | b => .clearWarmup

/-- What a step of main can do. -/
theorem State.mainStep_cases {s s' : State} (hs : s.mainStep = some s') :
    (∃ β, s.main = .setN β ∧ s' = { s with
      main := β.afterSetN, shared := s.shared.setN β (BitVec.ofNat 64 s.numThreads) }) ∨
    (∃ i, s.main = .spawn i ∧ i < s.numThreads ∧ s' = { s with
      main := .spawn (i + 1), workers := s.workers ++ [newWorker] }) ∨
    Frame s s' := by
  unfold mainStep at hs
  split at hs
  next => cases hs
  next hm => -- `set_n` of `barrier_a`
    obtain rfl := Option.some.inj hs
    exact Or.inl ⟨.a, hm, rfl⟩
  next hm => -- `set_n` of `barrier_b`
    obtain rfl := Option.some.inj hs
    exact Or.inl ⟨.b, hm, rfl⟩
  next hm => -- `warmup = false`
    obtain rfl := Option.some.inj hs
    exact Or.inr (Or.inr (Frame.of_main hm rfl rfl rfl (fun _ => trivial) id id))
  next hm => -- `running = false`
    obtain rfl := Option.some.inj hs
    exact Or.inr (Or.inr (Frame.of_main hm rfl rfl rfl (fun _ => trivial)
      (fun hlen => ⟨hlen, Nat.zero_le _⟩) id))
  next i hm =>
    split_ifs at hs with hi
    · obtain rfl := Option.some.inj hs
      exact Or.inr (Or.inl ⟨i, hm, hi, rfl⟩)
    · obtain rfl := Option.some.inj hs
      exact Or.inr (Or.inr (Frame.of_main hm rfl rfl rfl (fun _ => trivial)
        (fun hlen => hlen.1.trans (le_antisymm hlen.2 (not_lt.mp hi))) id))
  next hm => -- `warmup = true`
    obtain rfl := Option.some.inj hs
    exact Or.inr (Or.inr (Frame.of_main hm rfl rfl rfl (fun _ => trivial) id id))
  next hm => -- `warmup = false` again
    obtain rfl := Option.some.inj hs
    exact Or.inr (Or.inr (Frame.of_main hm rfl rfl rfl (fun _ => trivial) id id))
  next hm => -- `running = true`
    obtain rfl := Option.some.inj hs
    exact Or.inr (Or.inr (Frame.of_main hm rfl rfl rfl (fun _ => trivial) id (fun h => h.elim)))
  next hm => -- `running = false` again
    obtain rfl := Option.some.inj hs
    exact Or.inr (Or.inr (Frame.of_main hm rfl rfl rfl (fun _ => trivial) id id))
  next i hm =>
    split_ifs at hs
    · obtain rfl := Option.some.inj hs
      exact Or.inr (Or.inr (Frame.of_main hm rfl rfl rfl (fun _ => trivial) id id))
    · obtain rfl := Option.some.inj hs
      exact Or.inr (Or.inr (Frame.of_main hm rfl rfl rfl (fun _ => trivial) id id))
  next => cases hs

theorem counted_le (β : Barrier) (workers : List Worker) : counted β workers ≤ workers.length :=
  List.countP_le_length

/-- Replacing a worker. -/
theorem counted_set {workers : List Worker} {i : ℕ} {w : Worker} (hw : workers[i]? = some w)
    (w' : Worker) (β : Barrier) :
    counted β (workers.set i w') + (if w.pc.countedDown β then 1 else 0) =
      counted β workers + (if w'.pc.countedDown β then 1 else 0) := by
  obtain ⟨hi, hget⟩ := List.getElem?_eq_some_iff.mp hw
  have hpos : (if w.pc.countedDown β then 1 else 0) ≤ counted β workers := by
    split_ifs with hc
    · exact List.countP_pos_iff.mpr ⟨w, hget ▸ List.getElem_mem hi, hc⟩
    · exact Nat.zero_le _
  have hset : counted β (workers.set i w') = _ := List.countP_set hi
  rw [hset, hget]
  unfold counted at hpos ⊢
  omega

/-- A worker that has not counted down leaves the count below the number of workers. -/
theorem counted_lt {workers : List Worker} {w : Worker} (hw : w ∈ workers) {β : Barrier}
    (hc : w.pc.countedDown β = false) : counted β workers < workers.length := by
  refine lt_of_le_of_ne (counted_le β workers) ?_
  intro heq
  have hall := List.countP_eq_length.mp heq w hw
  rw [hc] at hall
  exact Bool.false_ne_true hall

namespace Inv

variable {s s' : State}

theorem initial : Inv State.initial where
  numThreads_lt := by decide
  spawned := rfl
  counter _ h := h.elim
  passed _ _ hw := absurd hw List.not_mem_nil

theorem of_call {name : String} {numThreads : ℕ} (hs : s.call name numThreads = some s') :
    Inv s' := by
  unfold State.call at hs
  split_ifs at hs with hcall
  obtain rfl := Option.some.inj hs
  exact ⟨hcall.2, rfl, fun _ h => h.elim, fun _ _ hw => absurd hw List.not_mem_nil⟩

/-- The counter after `set_n(num_threads)`. -/
theorem toNat_setN (h : Inv s) (β : Barrier) :
    ((s.shared.setN β (BitVec.ofNat 64 s.numThreads)).n β).toNat = s.numThreads := by
  have hlt := h.numThreads_lt
  simp only [Shared.setN, Function.update_self, BitVec.toNat_ofNat]
  omega

theorem setN (h : Inv s) {β : Barrier} (hm : s.main = .setN β) :
    Inv { s with
      main := β.afterSetN, shared := s.shared.setN β (BitVec.ofNat 64 s.numThreads) } := by
  have hlen := h.spawned
  rw [hm] at hlen
  have hnil : s.workers = [] := List.length_eq_zero_iff.mp hlen
  refine ⟨h.numThreads_lt, by cases β <;> exact hlen, ?_, h.passed⟩
  intro γ hγ
  by_cases hγβ : γ = β
  · subst hγβ
    simp [h.toNat_setN, hnil, counted]
  · -- only `barrier_a` can have been set before
    have hold : s.main.HasSet γ := by
      rw [hm]
      cases β <;> cases γ <;> first | exact absurd rfl hγβ | exact rfl | cases hγ
    have hcounter := h.counter γ hold
    simpa [Shared.setN, Function.update_of_ne hγβ] using hcounter

theorem spawn (h : Inv s) {i : ℕ} (hm : s.main = .spawn i) (hi : i < s.numThreads) :
    Inv { s with main := .spawn (i + 1), workers := s.workers ++ [State.newWorker] } := by
  have hlen := h.spawned
  rw [hm] at hlen
  have hnew : ∀ β, counted β (s.workers ++ [State.newWorker]) = counted β s.workers := by
    intro β
    cases β <;> simp [counted, List.countP_append, State.newWorker] <;> rfl
  refine ⟨h.numThreads_lt, ⟨by simp [hlen.1], hi⟩, ?_, ?_⟩
  · intro β _
    dsimp only
    rw [hnew]
    exact h.counter β (by rw [hm]; trivial)
  · intro β w hw hp
    dsimp only
    rw [hnew]
    rcases List.mem_append.mp hw with hw | hw
    · exact h.passed β w hw hp
    · obtain rfl := List.mem_singleton.mp hw
      cases β <;> exact absurd hp (by decide)

theorem frame (h : Inv s) (hf : Frame s s') : Inv s' where
  numThreads_lt := hf.numThreads_eq ▸ h.numThreads_lt
  spawned := by
    rw [hf.numThreads_eq, hf.workers_eq]
    exact hf.spawned h.spawned
  counter β _ := by
    rw [hf.n_eq, hf.workers_eq, hf.numThreads_eq]
    exact h.counter β (hf.hasSet β)
  passed := by
    rw [hf.workers_eq, hf.numThreads_eq]
    exact h.passed

theorem mainStep (h : Inv s) (hs : s.mainStep = some s') : Inv s' := by
  rcases State.mainStep_cases hs with ⟨β, hm, rfl⟩ | ⟨i, hm, hi, rfl⟩ | hframe
  · exact h.setN hm
  · exact h.spawn hm hi
  · exact h.frame hframe

theorem workerStep (h : Inv s) {i : ℕ} (hs : s.workerStep i = some s') : Inv s' := by
  obtain ⟨w, hw, rfl⟩ := Option.map_eq_some_iff.mp hs
  have hmem : w ∈ s.workers := List.mem_of_getElem? hw
  have hset : ∀ β, s.main.HasSet β := h.spawned.hasSet (List.length_pos_of_mem hmem)
  have hlen : s.workers.length ≤ s.numThreads := h.spawned.le
  have hcount := counted_set hw (w.step s.shared).1
  rcases w.step_cases s.shared with ⟨β, hpc, hpc', hshared⟩ | ⟨hshared, hquiet⟩
  · -- a successful compare-and-swap: the worker has not been counted, so the counter is positive
    have hlt : counted β s.workers < s.numThreads :=
      lt_of_lt_of_le (counted_lt hmem (hpc ▸ WorkerPc.countedDown_cas_self β _)) hlen
    have hself := hcount β
    rw [hpc, hpc', WorkerPc.countedDown_cas_self, WorkerPc.countedDown_wait_self] at hself
    have hother : ∀ γ, γ ≠ β →
        counted γ (s.workers.set i (w.step s.shared).1) = counted γ s.workers := by
      intro γ hγ
      have hγ' := hcount γ
      rw [hpc, hpc', WorkerPc.countedDown_wait_of_ne hγ (s.shared.n β)] at hγ'
      omega
    refine ⟨h.numThreads_lt, by simpa using h.spawned, ?_, ?_⟩
    · intro γ _
      have hcounter := h.counter γ (hset γ)
      dsimp only
      rw [hshared]
      by_cases hγ : γ = β
      · subst hγ
        have hdec : (s.shared.n γ - 1).toNat = (s.shared.n γ).toNat - 1 := by
          have hpos : 1 ≤ (s.shared.n γ).toNat := by omega
          bv_omega
        simp only [Shared.setN, Function.update_self]
        rw [hdec]
        simp only [Bool.false_eq_true, if_false, if_true] at hself
        omega
      · simp only [Shared.setN, Function.update_of_ne hγ, hother γ hγ]
        exact hcounter
    · intro γ x hx hp
      have hpassed : counted γ s.workers = s.numThreads := by
        rcases List.mem_or_eq_of_mem_set hx with hx | rfl
        · exact h.passed γ x hx hp
        · rw [hpc', WorkerPc.passed_wait β γ (s.shared.n β), ← hpc] at hp
          exact h.passed γ w hmem hp
      have hγ : γ ≠ β := by
        rintro rfl
        omega
      exact (hother γ hγ).trans hpassed
  · -- no counter changes; a barrier that is passed now has counter zero
    have hsame : ∀ γ, counted γ (s.workers.set i (w.step s.shared).1) = counted γ s.workers := by
      intro γ
      have hγ := hcount γ
      rw [hquiet.countedDown_eq γ] at hγ
      omega
    refine ⟨h.numThreads_lt, by simpa using h.spawned, ?_, ?_⟩
    · intro γ _
      dsimp only
      rw [hshared, hsame γ]
      exact h.counter γ (hset γ)
    · intro γ x hx hp
      dsimp only
      rw [hsame γ]
      rcases List.mem_or_eq_of_mem_set hx with hx | rfl
      · exact h.passed γ x hx hp
      · rcases hquiet.passed γ hp with hold | hzero
        · exact h.passed γ w hmem hold
        · have hcounter := h.counter γ (hset γ)
          rw [hzero] at hcounter
          simpa using hcounter

theorem step (h : Inv s) {act : Action} (hs : step s act = some s') : Inv s' := by
  cases act with
  | call name numThreads => exact of_call hs
  | main => exact h.mainStep hs
  | worker i => exact h.workerStep hs

theorem of_reached (h : Reached s) : Inv s :=
  h.invariant initial fun hinv _ hs => hinv.step hs

/-- Once one worker has passed a barrier, every thread of the run has been started and has
counted it down. -/
theorem all_countedDown (h : Inv s) {β : Barrier} {w : Worker} (hw : w ∈ s.workers)
    (hp : w.pc.passed β) :
    s.workers.length = s.numThreads ∧ ∀ w' ∈ s.workers, w'.pc.countedDown β := by
  have hcount := h.passed β w hw hp
  have hle := counted_le β s.workers
  have hlen := h.spawned.le
  have hlength : s.workers.length = s.numThreads := by omega
  exact ⟨hlength, List.countP_eq_length.mp (hcount.trans hlength.symm)⟩

end Inv

/-- In every state of every interleaving of consecutive runs: from `set_n` on, the counter of a
barrier is the number of threads less those that have counted it down, before it there is no
worker; and a worker has passed the barrier only when all of the run have counted it down. -/
theorem spinBarrier_safe {s : State} (h : Reached s) (β : Barrier) :
    (s.main.HasSet β → counted β s.workers ≤ s.numThreads ∧
      (s.shared.n β).toNat = s.numThreads - counted β s.workers) ∧
    (¬ s.main.HasSet β → s.workers = []) ∧
    ∀ w ∈ s.workers, w.pc.passed β →
      s.workers.length = s.numThreads ∧ ∀ w' ∈ s.workers, w'.pc.countedDown β := by
  have hinv := Inv.of_reached h
  refine ⟨?_, ?_, ?_⟩
  · intro hset
    have hcounter := hinv.counter β hset
    omega
  · intro hset
    by_contra hne
    exact hset (hinv.spawned.hasSet (List.length_pos_iff.mpr hne) β)
  · intro w hw hp
    exact hinv.all_countedDown hw hp

/-- Main starts two threads. Both read the counter, so that the second compare-and-swap finds
a stale copy and is tried again; then the first thread passes `barrier_a`. -/
def twoThreads : List Action :=
  [.call "absl" 2, .main, .main, .main, .main, .main, .main, .worker 0, .worker 1, .worker 0,
    .worker 1, .worker 1, .worker 1, .worker 0]

theorem spinBarrier_safe_twoThreads : ∃ s, Reached s ∧ s.main.HasSet .a ∧
    (∃ w ∈ s.workers, w.pc.passed .a) ∧
    s.workers.length = s.numThreads ∧ ∀ w ∈ s.workers, w.pc.countedDown .a := by
  obtain ⟨s, hrun, hset, w, hw, hp⟩ : ∃ s,
      run (restrict step fun _ _ => True) State.initial twoThreads = some s ∧
      s.main.HasSet .a ∧ ∃ w ∈ s.workers, w.pc.passed .a :=
    ⟨_, rfl, trivial, _, List.mem_cons_self, rfl⟩
  have hreached : Reached s := Reachable.init.run hrun
  exact ⟨s, hreached, hset, ⟨w, hw, hp⟩, (spinBarrier_safe hreached .a).2.2 w hw hp⟩

end EntropyLearnedHashing.Threads
