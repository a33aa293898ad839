import Mathlib.Algebra.BigOperators.Fin
import Mathlib.Algebra.Order.BigOperators.Group.List
import Mathlib.Data.Finset.Prod
import Mathlib.Tactic.Ring

/-! Tallies of keys. A tally is the association list obtained by bumping the
entry of each key in turn. The sum of `c * (c - 1)` over its entries counts the
ordered pairs of distinct indices whose keys collide. That count grows when keys
are identified, and it reaches the number of all pairs exactly when every key is
the same. -/

namespace EntropyLearnedHashing.Tally

variable {α κ ι : Type*} [DecidableEq κ] [DecidableEq ι]

/-- Add one to the entry of `k`, creating it when it does not exist. -/
def bump (k : κ) : List (κ × ℕ) → List (κ × ℕ)
  | [] => [(k, 1)]
  | e :: m => if e.1 = k then (e.1, e.2 + 1) :: m else e :: bump k m

def tally (keys : List κ) : List (κ × ℕ) := keys.foldl (fun m k => bump k m) []

/-- The value stored for a key, zero when it is absent. -/
def entry (m : List (κ × ℕ)) (k : κ) : ℕ :=
  match m with
  | [] => 0
  | e :: m => if e.1 = k then e.2 else entry m k

/-- The sum of a statistic over the stored counts. -/
def total (g : ℕ → ℕ) (m : List (κ × ℕ)) : ℕ := (m.map fun e => g e.2).sum

theorem tally_append_singleton (keys : List κ) (k : κ) :
    tally (keys ++ [k]) = bump k (tally keys) := by
  simp [tally]

theorem entry_bump (m : List (κ × ℕ)) (k k' : κ) :
    entry (bump k m) k' = entry m k' + if k = k' then 1 else 0 := by
  induction m with
  | nil => simp [bump, entry]
  | cons e m ih =>
    simp only [bump]
    split_ifs with h h'
    · simp [entry, h, h']
    · simp [entry, h, h']
    all_goals simp_all [entry]

theorem entry_tally (keys : List κ) (k : κ) : entry (tally keys) k = keys.count k := by
  induction keys using List.reverseRecOn with
  | nil => rfl
  | append_singleton keys k' ih =>
    rw [tally_append_singleton, entry_bump, ih, List.count_append, List.count_singleton]
    simp [beq_iff_eq]

theorem total_bump (g : ℕ → ℕ) (hg : g 0 = 0) (m : List (κ × ℕ)) (k : κ) :
    total g (bump k m) + g (entry m k) = total g m + g (entry m k + 1) := by
  induction m with
  | nil => simp [bump, total, entry, hg]
  | cons e m ih =>
    simp only [bump, entry]
    split_ifs with h
    · simp only [total, List.map_cons, List.sum_cons]
      ring
    · simp only [total, List.map_cons, List.sum_cons] at ih ⊢
      omega

/-- The counts of a tally add up to the number of keys. -/
theorem total_id_tally (keys : List κ) : total id (tally keys) = keys.length := by
  induction keys using List.reverseRecOn with
  | nil => rfl
  | append_singleton keys k ih =>
    have h := total_bump id rfl (tally keys) k
    rw [tally_append_singleton, List.length_append, List.length_singleton]
    simp only [id] at h ih ⊢
    omega

theorem le_length_of_mem_tally {keys : List κ} {e : κ × ℕ} (h : e ∈ tally keys) :
    e.2 ≤ keys.length := by
  rw [← total_id_tally keys]
  exact List.le_sum_of_mem (List.mem_map.mpr ⟨e, h, rfl⟩)

theorem sum_ite_eq_count (keys : List κ) (k : κ) :
    (keys.map fun x => if x = k then 1 else 0).sum = keys.count k := by
  induction keys with
  | nil => rfl
  | cons x keys ih =>
    rw [List.map_cons, List.sum_cons, ih, List.count_cons]
    simp [beq_iff_eq, add_comm]

theorem sum_count_append_singleton (keys : List κ) (k : κ) :
    ((keys ++ [k]).map fun x => (keys ++ [k]).count x).sum =
      (keys.map fun x => keys.count x).sum + 2 * keys.count k + 1 := by
  have hx : ∀ x, (keys ++ [k]).count x = keys.count x + if x = k then 1 else 0 := by
    intro x
    rw [List.count_append, List.count_singleton]
    simp only [beq_iff_eq, eq_comm (a := k)]
  simp only [hx, List.map_append, List.sum_append, List.sum_map_add, sum_ite_eq_count,
    List.map_singleton, List.sum_singleton, if_true]
  ring

/-- The squared counts of a tally add up to the number of agreeing ordered pairs. -/
theorem total_sq_tally (keys : List κ) :
    total (fun c => c * c) (tally keys) = (keys.map fun x => keys.count x).sum := by
  induction keys using List.reverseRecOn with
  | nil => rfl
  | append_singleton keys k ih =>
    have h := total_bump (fun c => c * c) rfl (tally keys) k
    rw [tally_append_singleton, sum_count_append_singleton, ← ih]
    rw [entry_tally] at h
    have hsq : (keys.count k + 1) * (keys.count k + 1) =
        keys.count k * keys.count k + 2 * keys.count k + 1 := by ring
    simp only [hsq] at h
    omega

/-- The ordered pairs of distinct indices of `data` whose keys agree. -/
def collidingPairs (f : α → κ) (data : List α) : ℕ :=
  (Finset.univ.filter fun p : Fin data.length × Fin data.length =>
    p.1 ≠ p.2 ∧ f data[p.1] = f data[p.2]).card

/-- Every ordered pair of indices with equal keys is a collision or lies on the diagonal. -/
theorem collidingPairs_add_length (f : α → κ) (data : List α) :
    collidingPairs f data + data.length =
      ((data.map f).map fun x => (data.map f).count x).sum := by
  have hrow : ∀ i : Fin data.length,
      (∑ j : Fin data.length, if i ≠ j ∧ f data[i] = f data[j] then 1 else 0) + 1 =
        (data.map f).count (f data[i]) := by
    intro i
    have hcount : (data.map f).count (f data[i]) =
        ∑ j : Fin data.length, if f data[j] = f data[i] then 1 else 0 := by
      rw [← sum_ite_eq_count, List.map_map]
      exact (Fin.sum_univ_fun_getElem data fun x => if f x = f data[i] then 1 else 0).symm
    have hone : (1 : ℕ) = ∑ j : Fin data.length, if i = j then 1 else 0 := by simp
    rw [hcount, hone, ← Finset.sum_add_distrib]
    refine Finset.sum_congr rfl fun j _ => ?_
    by_cases hij : i = j
    · subst hij; simp
    · simp [hij, eq_comm]
  calc collidingPairs f data + data.length
      = (∑ i : Fin data.length, ∑ j : Fin data.length,
          if i ≠ j ∧ f data[i] = f data[j] then 1 else 0) + ∑ _i : Fin data.length, 1 := by
        rw [collidingPairs, Finset.card_filter, Fintype.sum_prod_type]; simp
    _ = ∑ i : Fin data.length, (data.map f).count (f data[i]) := by
        rw [← Finset.sum_add_distrib]
        exact Finset.sum_congr rfl fun i _ => hrow i
    _ = _ := by
        rw [List.map_map]
        exact Fin.sum_univ_fun_getElem data fun x => (data.map f).count (f x)

/-- The sum of `c * (c - 1)` over a tally counts the colliding pairs. -/
theorem total_falling_tally (f : α → κ) (data : List α) :
    total (fun c => c * (c - 1)) (tally (data.map f)) = collidingPairs f data := by
  have hsq : ∀ m : List (κ × ℕ),
      total (fun c => c * (c - 1)) m + total id m = total (fun c => c * c) m := by
    intro m
    induction m with
    | nil => rfl
    | cons e m ih =>
      have he : e.2 * (e.2 - 1) + e.2 = e.2 * e.2 := by
        cases e.2 with
        | zero => rfl
        | succ c => simp only [Nat.add_sub_cancel]; ring
      simp only [total, List.map_cons, List.sum_cons, id] at ih ⊢
      omega
  have h := hsq (tally (data.map f))
  rw [total_sq_tally, total_id_tally, ← collidingPairs_add_length, List.length_map] at h
  omega

/-- Identifying more keys creates more collisions. -/
theorem collidingPairs_mono (f : α → κ) (g : α → ι) (data : List α)
    (h : ∀ x y, f x = f y → g x = g y) : collidingPairs f data ≤ collidingPairs g data := by
  apply Finset.card_le_card
  intro p hp
  simp only [Finset.mem_filter, Finset.mem_univ, true_and] at hp ⊢
  exact ⟨hp.1, h _ _ hp.2⟩

/-- Two functions that identify the same keys of the data have the same collisions. -/
theorem collidingPairs_congr (f : α → κ) (g : α → ι) {data : List α}
    (h : ∀ x ∈ data, ∀ y ∈ data, f x = f y ↔ g x = g y) :
    collidingPairs f data = collidingPairs g data := by
  unfold collidingPairs
  congr 1
  ext p
  simp only [Finset.mem_filter, Finset.mem_univ, true_and]
  exact and_congr_right fun _ => h _ (List.getElem_mem _) _ (List.getElem_mem _)

theorem card_offDiag_fin (n : ℕ) :
    (Finset.univ.filter fun p : Fin n × Fin n => p.1 ≠ p.2).card = n * (n - 1) := by
  have h : (Finset.univ.filter fun p : Fin n × Fin n => p.1 ≠ p.2) = Finset.univ.offDiag := by
    ext p; simp
  rw [h, Finset.offDiag_card, Finset.card_univ, Fintype.card_fin, Nat.mul_sub_one]

theorem collidingPairs_le (f : α → κ) (data : List α) :
    collidingPairs f data ≤ data.length * (data.length - 1) := by
  rw [← card_offDiag_fin]
  apply Finset.card_le_card
  intro p hp
  simp only [Finset.mem_filter, Finset.mem_univ, true_and] at hp ⊢
  exact hp.1

theorem collidingPairs_perm (f : α → κ) {data data' : List α} (h : data'.Perm data) :
    collidingPairs f data' = collidingPairs f data := by
  have hsum : collidingPairs f data' + data'.length = collidingPairs f data + data.length := by
    rw [collidingPairs_add_length, collidingPairs_add_length]
    have hcount : (fun x => (data'.map f).count x) = fun x => (data.map f).count x := by
      funext x
      exact (h.map f).count_eq x
    rw [hcount]
    exact ((h.map f).map _).sum_eq
  have := h.length_eq
  omega

omit [DecidableEq κ] in
theorem total_perm (g : ℕ → ℕ) {m m' : List (κ × ℕ)} (h : m'.Perm m) : total g m' = total g m :=
  (h.map _).sum_eq

/-- Two different keys leave a pair that does not collide. -/
theorem collidingPairs_lt_iff (f : α → κ) (data : List α) :
    collidingPairs f data < data.length * (data.length - 1) ↔
      ∃ x ∈ data, ∃ y ∈ data, f x ≠ f y := by
  constructor
  · intro hlt
    by_contra hall
    push Not at hall
    refine absurd hlt (not_lt.mpr ?_)
    rw [← card_offDiag_fin]
    apply Finset.card_le_card
    intro p hp
    simp only [Finset.mem_filter, Finset.mem_univ, true_and] at hp ⊢
    exact ⟨hp, hall _ (List.getElem_mem _) _ (List.getElem_mem _)⟩
  · rintro ⟨x, hx, y, hy, hxy⟩
    obtain ⟨i, hi, rfl⟩ := List.getElem_of_mem hx
    obtain ⟨j, hj, rfl⟩ := List.getElem_of_mem hy
    have hij : i ≠ j := fun h => hxy (by subst h; rfl)
    rw [← card_offDiag_fin]
    apply Finset.card_lt_card
    rw [Finset.ssubset_iff_of_subset]
    · refine ⟨(⟨i, hi⟩, ⟨j, hj⟩), ?_, ?_⟩
      · simpa using hij
      · simpa using fun _ => hxy
    · intro p hp
      simp only [Finset.mem_filter, Finset.mem_univ, true_and] at hp ⊢
      exact hp.1

end EntropyLearnedHashing.Tally
