import EntropyLearnedHashing.Bench.Threads

/-! The order of the phases in `benchmark_tables_mt.cpp`. Main takes part in neither
barrier, so nothing makes the workers wait for `running = true`: they can pass both
barriers while main still starts threads or sleeps. The order holds in the runs in which
the last `count_down` of `barrier_b` comes after `running = true`, and every other run
can go on to a state in which it is broken. -/

namespace EntropyLearnedHashing.Threads

open Transition

/-- A worker that has evaluated `while(running)` has done so after `running = true`. -/
def PhaseOrder (s : State) : Prop := ∀ w ∈ s.workers, w.pc.evaluated → s.main.RunningSet

/-- The step is not the last `count_down` of `barrier_b`, or main has executed
`running = true` before it. -/
def ReleasedAfterRunning (s : State) : Action → Prop
  | .worker i => s.workers[i]?.map Worker.pc = some (.cas .b 1) → s.shared.n .b = 1 →
      s.main.RunningSet
  | _ => True

instance MainPc.decidableRunningSet : DecidablePred MainPc.RunningSet := fun m =>
  match m with
  | .stopRunning | .join _ | .returned => .isTrue trivial
  | .idle | .setN _ | .clearWarmup | .clearRunning | .spawn _ | .startWarmup | .stopWarmup
  | .startRunning => .isFalse id

instance decidableReleasedAfterRunning (s : State) (act : Action) :
    Decidable (ReleasedAfterRunning s act) :=
  match act with
  | .worker i => inferInstanceAs (Decidable (s.workers[i]?.map Worker.pc = some (.cas .b 1) →
      s.shared.n .b = 1 → s.main.RunningSet))
  | .call _ _ => .isTrue trivial
  | .main => .isTrue trivial

/-! ### Runs that meet the condition -/

/-- `barrier_b` opens after `running = true`. -/
def OpensAfterRunning (s : State) : Prop :=
  s.main.HasSet .b → 0 < s.numThreads → s.shared.n .b = 0 → s.main.RunningSet

theorem phaseOrder_of_opensAfterRunning {s : State} (h : Inv s) (ho : OpensAfterRunning s) :
    PhaseOrder s := by
  intro w hw he
  have hset : s.main.HasSet .b := h.spawned.hasSet (List.length_pos_of_mem hw) .b
  have hpassed : w.pc.passed .b := by
    simp only [WorkerPc.evaluated, WorkerPc.passed, decide_eq_true_eq] at he ⊢
    omega
  have hcount := h.passed .b w hw hpassed
  have hpos : 0 < s.numThreads := lt_of_lt_of_le (List.length_pos_of_mem hw) h.spawned.le
  have hcounter := h.counter .b hset
  have hzero : s.shared.n .b = 0 := BitVec.eq_of_toNat_eq (by simp; omega)
  exact ho hset hpos hzero

namespace OpensAfterRunning

variable {s s' : State}

theorem initial : OpensAfterRunning State.initial := fun hset => hset.elim

theorem of_call {name : String} {numThreads : ℕ} (hs : s.call name numThreads = some s') :
    OpensAfterRunning s' := by
  unfold State.call at hs
  split_ifs at hs
  obtain rfl := Option.some.inj hs
  exact fun hset => hset.elim

theorem mainStep (h : Inv s) (ho : OpensAfterRunning s) (hs : s.mainStep = some s') :
    OpensAfterRunning s' := by
  rcases State.mainStep_cases hs with ⟨β, hm, rfl⟩ | ⟨i, hm, hi, rfl⟩ | hframe
  · intro hset hpos hzero
    cases β with
    | a => cases hset
    | b =>
      -- the counter is the number of threads now
      have hn := h.toNat_setN .b
      dsimp only at hzero hpos
      rw [hzero] at hn
      simp only [BitVec.ofNat_eq_ofNat, BitVec.toNat_ofNat, Nat.zero_mod] at hn
      omega
  · intro _ hpos hzero
    have hrunning := ho (by rw [hm]; trivial) hpos hzero
    rw [hm] at hrunning
    exact hrunning.elim
  · intro _ hpos hzero
    rw [hframe.n_eq] at hzero
    rw [hframe.numThreads_eq] at hpos
    exact hframe.runningSet (ho (hframe.hasSet .b) hpos hzero)

theorem workerStep (ho : OpensAfterRunning s) {i : ℕ}
    (hguard : ReleasedAfterRunning s (.worker i)) (hs : s.workerStep i = some s') :
    OpensAfterRunning s' := by
  obtain ⟨w, hw, rfl⟩ := Option.map_eq_some_iff.mp hs
  intro hset hpos hzero
  dsimp only at hset hpos hzero ⊢
  rcases w.step_cases s.shared with ⟨β, hpc, -, hshared⟩ | ⟨hshared, -⟩
  · rw [hshared] at hzero
    cases β with
    | a => exact ho hset hpos hzero
    | b =>
      have hone : s.shared.n .b = 1 := by
        simp only [Shared.setN, Function.update_self] at hzero
        bv_omega
      refine hguard ?_ hone
      rw [hw, Option.map_some, hpc, hone]
  · rw [hshared] at hzero
    exact ho hset hpos hzero

theorem step (h : Inv s) (ho : OpensAfterRunning s) {act : Action}
    (hguard : ReleasedAfterRunning s act) (hs : step s act = some s') : OpensAfterRunning s' := by
  cases act with
  | call name numThreads => exact of_call hs
  | main => exact ho.mainStep h hs
  | worker i => exact ho.workerStep hguard hs

theorem of_reachable (h : Reachable Threads.step ReleasedAfterRunning State.initial s) :
    Inv s ∧ OpensAfterRunning s := by
  refine Reachable.invariant (P := fun s => Inv s ∧ OpensAfterRunning s) ?_ ?_ h
  · exact ⟨Inv.initial, initial⟩
  · intro s s' act hs hguard hstep
    exact ⟨hs.1.step hstep, hs.2.step hs.1 hguard hstep⟩

end OpensAfterRunning

/-! ### Runs that do not meet it -/

theorem workerStep_eq {s : State} {i : ℕ} {w : Worker} (hw : s.workers[i]? = some w) :
    s.workerStep i = some { s with
      shared := (w.step s.shared).2, workers := s.workers.set i (w.step s.shared).1 } := by
  unfold State.workerStep
  rw [hw, Option.map_some]

theorem getElem?_workers_set {workers : List Worker} {i : ℕ} {w : Worker}
    (hw : workers[i]? = some w) (w' : Worker) : (workers.set i w')[i]? = some w' := by
  obtain ⟨hi, -⟩ := List.getElem?_eq_some_iff.mp hw
  exact List.getElem?_set_self hi

/-- A worker before its first `while(running)` breaks the order when it is faster than main. -/
theorem not_phaseOrder_of_enterRun {s : State} {i : ℕ} {w : Worker}
    (hw : s.workers[i]? = some w) (hpc : w.pc = .enterRun) (hm : ¬ s.main.RunningSet) :
    ∃ s', step s (.worker i) = some s' ∧ ¬ PhaseOrder s' := by
  refine ⟨_, workerStep_eq hw, ?_⟩
  intro horder
  have hmem := List.mem_of_getElem? (getElem?_workers_set hw (w.step s.shared).1)
  have heval : (w.step s.shared).1.pc.evaluated := by
    simp only [Worker.step, hpc]
    split_ifs <;> rfl
  exact hm (horder _ hmem heval)

/-- The last `count_down` of `barrier_b` before `running = true` lets its worker overtake main. -/
theorem not_phaseOrder_of_released {s s' : State} {act : Action} (hs : step s act = some s')
    (hguard : ¬ ReleasedAfterRunning s act) :
    ∃ i s'', run step s' [.worker i, .worker i] = some s'' ∧ ¬ PhaseOrder s'' := by
  cases act with
  | call name numThreads => exact absurd trivial hguard
  | main => exact absurd trivial hguard
  | worker i =>
    simp only [ReleasedAfterRunning, Classical.not_imp] at hguard
    obtain ⟨hpc, hone, hm⟩ := hguard
    obtain ⟨w, hw, hcas⟩ := Option.map_eq_some_iff.mp hpc
    -- the compare-and-swap succeeds and opens the barrier
    have hcount : w.step s.shared = ({ w with pc := .wait .b }, s.shared.setN .b 0) := by
      simp [Worker.step, hcas, hone]
    obtain rfl := Option.some.inj ((workerStep_eq hw).symm.trans hs)
    rw [hcount]
    have hw₁ := getElem?_workers_set hw { w with pc := .wait .b }
    -- `wait_for` returns
    have hwait : Worker.step { w with pc := .wait .b } (s.shared.setN .b 0) =
        ({ w with pc := .enterRun }, s.shared.setN .b 0) := by
      simp [Worker.step, Shared.setN, Barrier.next]
    have hw₂ := getElem?_workers_set hw₁ { w with pc := .enterRun }
    obtain ⟨s'', hs'', hbroken⟩ := not_phaseOrder_of_enterRun
      (s := { s with
        shared := s.shared.setN .b 0
        workers := (s.workers.set i { w with pc := .wait .b }).set i { w with pc := .enterRun } })
      hw₂ rfl hm
    refine ⟨i, s'', ?_, hbroken⟩
    simp only [run, step]
    rw [workerStep_eq hw₁]
    simp only [hwait, Option.bind_some]
    simp only [step] at hs''
    rw [hs'', Option.bind_some]

/-- A state that a run reaches whose steps all meet the condition has the phases in order; and a
step from any state that does not meet it can be followed by two steps that break the order. -/
theorem phaseOrder_of_releasedAfterRunning (s : State) :
    (Reachable step ReleasedAfterRunning State.initial s → PhaseOrder s) ∧
    ∀ act s', step s act = some s' → ¬ ReleasedAfterRunning s act →
      ∃ i s'', run step s' [.worker i, .worker i] = some s'' ∧ ¬ PhaseOrder s'' := by
  constructor
  · intro hs
    obtain ⟨hinv, hopens⟩ := OpensAfterRunning.of_reachable hs
    exact phaseOrder_of_opensAfterRunning hinv hopens
  · intro act s' hs hguard
    exact not_phaseOrder_of_released hs hguard

/-- One thread that waits for `running` and makes one round. -/
def inOrder : List Action :=
  [.call "absl" 1, .main, .main, .main, .main, .main, .worker 0, .worker 0, .worker 0, .main,
    .main, .worker 0, .main, .worker 0, .worker 0, .main, .worker 0, .worker 0, .worker 0]

theorem phaseOrder_inOrder : ∃ s, Reachable step ReleasedAfterRunning State.initial s ∧
    (∃ w ∈ s.workers, w.pc.evaluated) ∧ PhaseOrder s := by
  obtain ⟨s, hrun, hevaluated⟩ : ∃ s,
      run (restrict step ReleasedAfterRunning) State.initial inOrder = some s ∧
      ∃ w ∈ s.workers, w.pc.evaluated :=
    ⟨_, rfl, _, List.mem_cons_self, rfl⟩
  have hreachable := Reachable.init.run hrun
  exact ⟨s, hreachable, hevaluated, (phaseOrder_of_releasedAfterRunning s).1 hreachable⟩

/-- The only thread passes both barriers and finds `running` false before main goes on. -/
def overtaking : List Action :=
  [.call "absl" 1, .main, .main, .main, .main, .main, .worker 0, .worker 0, .worker 0,
    .worker 0, .worker 0, .worker 0, .worker 0, .worker 0]

theorem overtaking_not_phaseOrder : ¬ ∀ s, Reached s → PhaseOrder s := by
  intro horder
  obtain ⟨s, hrun, w, hw, hevaluated, hmain⟩ : ∃ s,
      run (restrict step fun _ _ => True) State.initial overtaking = some s ∧
      ∃ w ∈ s.workers, w.pc.evaluated ∧ s.main = .spawn 1 :=
    ⟨_, rfl, _, List.mem_cons_self, rfl, rfl⟩
  have hset := horder s (Reachable.init.run hrun) w hw hevaluated
  rw [hmain] at hset
  exact hset

end EntropyLearnedHashing.Threads
