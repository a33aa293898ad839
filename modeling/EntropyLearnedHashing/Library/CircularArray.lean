import Mathlib.Data.Finset.Card
import Mathlib.Data.Int.ModEq
import Mathlib.Data.List.Perm.Basic
import Mathlib.Data.List.ReduceOption

/-! Arrays of optional entries that are read around the end, as in open addressing. The
entries of an array are counted by `List.reduceOption`; writing one cell exchanges one
entry. A quantity that grows by at most one from a cell to the next is bounded along
every run of cells. -/

namespace EntropyLearnedHashing.CircularArray

variable {α : Type*} {n i j : ℕ}

/-! ### Entries -/

/-- Writing a cell exchanges its entry. -/
theorem reduceOption_set_perm {l : List (Option α)} {a : Option α} (h : l[i]? = some a)
    (b : Option α) :
    ((l.set i b).reduceOption ++ a.toList).Perm (l.reduceOption ++ b.toList) := by
  induction l generalizing i with
  | nil => simp at h
  | cons x l ih =>
    cases i with
    | zero =>
      obtain rfl : x = a := by simpa using h
      simp only [List.set_cons_zero]
      cases x <;> cases b
      · exact List.Perm.refl _
      · simp only [List.reduceOption_cons_of_some, List.reduceOption_cons_of_none,
          Option.toList_none, Option.toList_some, List.append_nil]
        exact (List.perm_append_singleton _ _).symm
      · simp only [List.reduceOption_cons_of_some, List.reduceOption_cons_of_none,
          Option.toList_none, Option.toList_some, List.append_nil]
        exact List.perm_append_singleton _ _
      · simp only [List.reduceOption_cons_of_some, Option.toList_some, List.cons_append]
        exact ((List.perm_append_singleton _ _).cons _).trans
          ((List.Perm.swap _ _ _).trans ((List.perm_append_singleton _ _).symm.cons _))
    | succ i =>
      have hperm := ih (by simpa using h)
      rw [List.set_cons_succ]
      cases x with
      | none => simpa only [List.reduceOption_cons_of_none] using hperm
      | some x => simpa only [List.reduceOption_cons_of_some, List.cons_append] using hperm.cons x

theorem reduceOption_fill {l : List (Option α)} (h : l[i]? = some none) (b : α) :
    (l.set i (some b)).reduceOption.Perm (b :: l.reduceOption) := by
  have hperm := reduceOption_set_perm h (some b)
  rw [Option.toList_none, List.append_nil, Option.toList_some] at hperm
  exact hperm.trans (List.perm_append_singleton _ _)

theorem reduceOption_clear {l : List (Option α)} {a : α} (h : l[i]? = some (some a)) :
    (a :: (l.set i none).reduceOption).Perm l.reduceOption := by
  have hperm := reduceOption_set_perm h none
  rw [Option.toList_none, List.append_nil, Option.toList_some] at hperm
  exact (List.perm_append_singleton _ _).symm.trans hperm

theorem mem_reduceOption_iff_getElem? {l : List (Option α)} {a : α} :
    a ∈ l.reduceOption ↔ ∃ i : ℕ, l[i]? = some (some a) := by
  rw [List.reduceOption_mem_iff, List.mem_iff_getElem?]

/-- Entries that differ pairwise in a quantity are found by it. -/
theorem index_inj {β : Type*} {l : List (Option α)} {f : α → β} (hnodup : (l.reduceOption.map f).Nodup)
    {a b : α} (hi : l[i]? = some (some a)) (hj : l[j]? = some (some b)) (hab : f a = f b) :
    i = j := by
  by_contra hij
  have hclear := ((reduceOption_clear hi).map f).nodup_iff.mpr hnodup
  rw [List.map_cons, List.nodup_cons] at hclear
  have hother : (l.set i none)[j]? = some (some b) := by
    rw [List.getElem?_set_ne hij]
    exact hj
  refine hclear.1 ?_
  rw [hab]
  exact List.mem_map_of_mem (mem_reduceOption_iff_getElem?.mpr ⟨j, hother⟩)

/-- Filled cells are at most as many as there are entries. -/
theorem card_le_length_reduceOption {l : List (Option α)} {s : Finset ℕ}
    (h : ∀ i ∈ s, ∃ a, l[i]? = some (some a)) : s.card ≤ l.reduceOption.length := by
  induction l using List.reverseRecOn generalizing s with
  | nil =>
    have hempty : s = ∅ := by
      refine Finset.eq_empty_of_forall_notMem fun i hi => ?_
      obtain ⟨a, ha⟩ := h i hi
      simp at ha
    simp [hempty]
  | append_singleton l x ih =>
    have hle : (s.erase l.length).card ≤ l.reduceOption.length := by
      refine ih fun i hi => ?_
      obtain ⟨hne, hmem⟩ := Finset.mem_erase.mp hi
      obtain ⟨a, ha⟩ := h i hmem
      have hlt : i < (l ++ [x]).length := (List.getElem?_eq_some_iff.mp ha).1
      rw [List.length_append, List.length_singleton] at hlt
      rw [List.getElem?_append_left (by omega)] at ha
      exact ⟨a, ha⟩
    rw [List.reduceOption_append, List.length_append]
    by_cases hmem : l.length ∈ s
    · obtain ⟨a, ha⟩ := h l.length hmem
      obtain rfl : x = some a := by simpa using ha
      have hcard := Finset.card_erase_add_one hmem
      simp only [List.reduceOption_singleton, Option.toList_some, List.length_singleton]
      omega
    · rw [Finset.erase_eq_of_notMem hmem] at hle
      omega

/-! ### Indices around the end -/

theorem exists_add_mod_eq (hi : i < n) (hj : j < n) : ∃ k < n, (i + k) % n = j := by
  refine ⟨(j + n - i) % n, Nat.mod_lt _ (by omega), ?_⟩
  rw [Nat.add_mod_mod, show i + (j + n - i) = j + n by omega, Nat.add_mod_right,
    Nat.mod_eq_of_lt hj]

theorem add_mod_inj {a b : ℕ} (ha : a < n) (hb : b < n) (h : (i + a) % n = (i + b) % n) :
    a = b := by
  have hmod : a % n = b % n := Nat.ModEq.add_left_cancel' i h
  rwa [Nat.mod_eq_of_lt ha, Nat.mod_eq_of_lt hb] at hmod

/-- Only one cell comes before a cell. -/
theorem add_one_mod_inj (hi : i < n) (hj : j < n) (h : (i + 1) % n = (j + 1) % n) : i = j := by
  rw [add_comm i, add_comm j] at h
  exact add_mod_inj hi hj h

/-- A run of filled cells is at most as long as there are entries. -/
theorem le_length_reduceOption_of_run {l : List (Option α)} {s : ℕ} (hs : s ≤ l.length)
    (h : ∀ j < s, ∃ a, l[(i + j) % l.length]? = some (some a)) : s ≤ l.reduceOption.length := by
  have hinj : Set.InjOn (fun j => (i + j) % l.length) (Finset.range s) := by
    intro a ha b hb hab
    simp only [Finset.coe_range, Set.mem_Iio] at ha hb
    exact add_mod_inj (by omega) (by omega) hab
  calc s = ((Finset.range s).image fun j => (i + j) % l.length).card := by
        rw [Finset.card_image_of_injOn hinj, Finset.card_range]
    _ ≤ l.reduceOption.length := by
        refine card_le_length_reduceOption fun k hk => ?_
        obtain ⟨j, hj, rfl⟩ := Finset.mem_image.mp hk
        exact h j (Finset.mem_range.mp hj)

/-- An array with fewer entries than cells has an empty cell. -/
theorem exists_none {l : List (Option α)} (h : l.reduceOption.length < l.length) :
    ∃ i < l.length, l[i]? = some none := by
  by_contra hall
  push Not at hall
  have hcard : (Finset.range l.length).card ≤ l.reduceOption.length := by
    refine card_le_length_reduceOption fun i hi => ?_
    have hlt := Finset.mem_range.mp hi
    have hne := hall i hlt
    rw [List.getElem?_eq_getElem hlt] at hne ⊢
    cases hcell : l[i] with
    | none => exact absurd (by rw [hcell]) hne
    | some a => exact ⟨a, rfl⟩
  rw [Finset.card_range] at hcard
  omega

/-- What grows by at most one from a cell to the next grows by at most `j` in `j` cells. -/
theorem le_add_of_le_add_one {D : ℕ → ℤ} (h : ∀ i < n, D ((i + 1) % n) ≤ D i + 1) (hi : i < n)
    (j : ℕ) : D ((i + j) % n) ≤ D i + j := by
  induction j with
  | zero => simp [Nat.mod_eq_of_lt hi]
  | succ j ih =>
    have hstep := h ((i + j) % n) (Nat.mod_lt _ (by omega))
    rw [Nat.mod_add_mod] at hstep
    rw [← add_assoc]
    push_cast
    omega

end EntropyLearnedHashing.CircularArray
