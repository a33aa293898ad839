import Mathlib.Data.Set.Lattice
import Mathlib.Data.List.Perm.Basic

/-! Filters over a set of cells. Adding a value occupies its cells and a query asks
whether all cells of a value are occupied. A concrete filter that refines this on
every single call answers, after any history of insertions, whether each cell of
the queried value is a cell of some inserted value; so it has no false negative
and does not see the order of the insertions. -/

namespace EntropyLearnedHashing

/-- `while (r == true && i < last) { r = test(i); i += 1; }`, where a test may fail. -/
def whileAll (test : ℕ → Option Bool) (last : ℕ) (r : Bool) (i : ℕ) : Option Bool :=
  if r = true ∧ i < last then do
    let r ← test i
    whileAll test last r (i + 1)
  else some r
termination_by last - i

/-- The loop with early exit computes the conjunction of its tests. -/
theorem whileAll_spec {test : ℕ → Option Bool} {P : ℕ → Prop} (last : ℕ) (r : Bool) (i : ℕ)
    (h : ∀ j, i ≤ j → j < last → ∃ b, test j = some b ∧ (b = true ↔ P j)) :
    ∃ b, whileAll test last r i = some b ∧
      (b = true ↔ r = true ∧ ∀ j, i ≤ j → j < last → P j) := by
  fun_induction whileAll test last r i with
  | case1 r i hr ih =>
    obtain ⟨b, hb, hP⟩ := h i le_rfl hr.2
    obtain ⟨c, hc, hiff⟩ := ih b fun j hj hlast => h j (by omega) hlast
    refine ⟨c, by simp [hb, hc], ?_⟩
    rw [hiff, hP]
    constructor
    · rintro ⟨hi, hrest⟩
      refine ⟨hr.1, fun j hij hj => ?_⟩
      rcases hij.eq_or_lt with rfl | hlt
      · exact hi
      · exact hrest j hlt hj
    · rintro ⟨-, hall⟩
      exact ⟨hall i le_rfl hr.2, fun j hij hj => hall j (by omega) hj⟩
  | case2 r i hr =>
    refine ⟨r, rfl, ?_⟩
    constructor
    · intro hrt
      exact ⟨hrt, fun j hij hj => absurd ⟨hrt, by omega⟩ hr⟩
    · exact fun hall => hall.1

variable {α ι σ C : Type*}

theorem foldlM_union (contents : σ → Set C) (step : σ → ι → Option σ) (cells : ι → Set C)
    (l : List ι)
    (h : ∀ s, ∀ i ∈ l, ∃ s', step s i = some s' ∧ contents s' = contents s ∪ cells i) (s : σ) :
    ∃ s', l.foldlM step s = some s' ∧ contents s' = contents s ∪ ⋃ i ∈ l, cells i := by
  induction l generalizing s with
  | nil => exact ⟨s, rfl, by simp⟩
  | cons i l ih =>
    obtain ⟨t, ht, hcontents⟩ := h s i List.mem_cons_self
    obtain ⟨s', hs', hrest⟩ := ih (fun s j hj => h s j (List.mem_cons_of_mem i hj)) t
    refine ⟨s', by simp [ht, hs'], ?_⟩
    rw [hrest, hcontents, Set.union_assoc]
    simp

/-- A concrete filter with the cells that its calls occupy and test. -/
structure CellFilter (α σ C : Type*) where
  cells : α → Set C
  contents : σ → Set C
  add : σ → α → Option σ
  test : σ → α → Option Bool
  add_spec : ∀ s x, ∃ s', add s x = some s' ∧ contents s' = contents s ∪ cells x
  test_spec : ∀ s y, ∃ b, test s y = some b ∧ (b = true ↔ cells y ⊆ contents s)

namespace CellFilter

variable (F : CellFilter α σ C)

/-- A history of insertions. -/
def run (s : σ) (xs : List α) : Option σ := xs.foldlM F.add s

theorem run_spec (s : σ) (xs : List α) :
    ∃ s', F.run s xs = some s' ∧ F.contents s' = F.contents s ∪ ⋃ x ∈ xs, F.cells x :=
  foldlM_union F.contents F.add F.cells xs (fun s x _ => F.add_spec s x) s

section Fresh

variable {F} {s s' : σ} {xs : List α}

/-- The answer to a query, in terms of the cells of the inserted values. -/
theorem test_of_run (hs : F.contents s = ∅) (h : F.run s xs = some s') (y : α) :
    ∃ b, F.test s' y = some b ∧ (b = true ↔ ∀ c ∈ F.cells y, ∃ x ∈ xs, c ∈ F.cells x) := by
  obtain ⟨t, ht, hcontents⟩ := F.run_spec s xs
  obtain rfl : t = s' := Option.some.inj (ht.symm.trans h)
  obtain ⟨b, hb, hiff⟩ := F.test_spec t y
  refine ⟨b, hb, ?_⟩
  rw [hiff, hcontents, hs, Set.empty_union]
  simp [Set.subset_def]

/-- There is no false negative. -/
theorem test_of_mem (hs : F.contents s = ∅) (h : F.run s xs = some s') {x : α} (hx : x ∈ xs) :
    F.test s' x = some true := by
  obtain ⟨b, hb, hiff⟩ := test_of_run hs h x
  rw [hb, hiff.mpr fun c hc => ⟨x, hx, hc⟩]

theorem test_of_perm (hs : F.contents s = ∅) (h : F.run s xs = some s') {ys : List α} {t' : σ}
    (h' : F.run s ys = some t') (hperm : ys.Perm xs) (y : α) : F.test t' y = F.test s' y := by
  obtain ⟨b, hb, hiff⟩ := test_of_run hs h y
  obtain ⟨c, hc, hiff'⟩ := test_of_run hs h' y
  have hcb : c = true ↔ b = true := by
    rw [hiff, hiff']
    simp only [hperm.mem_iff]
  rw [hb, hc, Bool.eq_iff_iff.mpr hcb]

end Fresh

end CellFilter

end EntropyLearnedHashing
