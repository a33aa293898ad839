import Mathlib.Tactic.SplitIfs

/-! Transition systems with a partial step function. A step may be restricted further by
a relation on the state before it and the action; runs that respect the restriction
reach fewer states, and an invariant needs to be kept by those steps only. -/

namespace EntropyLearnedHashing.Transition

variable {σ α : Type*} (step : σ → α → Option σ) (allowed : σ → α → Prop) (init : σ)

/-- The states that runs of allowed steps reach. -/
inductive Reachable : σ → Prop where
  | init : Reachable init
  | step {s s' : σ} {a : α} : Reachable s → allowed s a → step s a = some s' → Reachable s'

/-- A run, action by action. -/
def run : σ → List α → Option σ
  | s, [] => some s
  | s, a :: acts => (step s a).bind fun s' => run s' acts

/-- The step function that refuses the steps that are not allowed. -/
def restrict [∀ s a, Decidable (allowed s a)] (s : σ) (a : α) : Option σ :=
  if allowed s a then step s a else none

variable {step allowed init}

/-- What holds at first and is kept by every allowed step holds in every reachable state. -/
theorem Reachable.invariant {P : σ → Prop} (hinit : P init)
    (hstep : ∀ {s s' a}, P s → allowed s a → step s a = some s' → P s') {s : σ}
    (h : Reachable step allowed init s) : P s := by
  induction h with
  | init => exact hinit
  | step _ hallowed hs ih => exact hstep ih hallowed hs

/-- A run of allowed steps stays in the reachable states. -/
theorem Reachable.run [∀ s a, Decidable (allowed s a)] {s s' : σ}
    (hs : Reachable step allowed init s) {acts : List α}
    (h : run (restrict step allowed) s acts = some s') : Reachable step allowed init s' := by
  induction acts generalizing s with
  | nil =>
    obtain rfl : s = s' := Option.some.inj h
    exact hs
  | cons a acts ih =>
    obtain ⟨s₁, hstep, hrun⟩ := Option.bind_eq_some_iff.mp h
    unfold restrict at hstep
    split_ifs at hstep with hallowed
    exact ih (Reachable.step hs hallowed hstep) hrun

end EntropyLearnedHashing.Transition
