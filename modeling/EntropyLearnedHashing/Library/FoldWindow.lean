import Mathlib.Data.List.TakeDrop
import Mathlib.Logic.Function.Basic

/-! Folds over two lists that agree outside of a window. If a step loses nothing of its state
and windows of some length can be told apart, then so can whole lists: what
differs in the window is carried to the end. -/

namespace EntropyLearnedHashing.FoldWindow

variable {σ ι : Type} {f : σ → ι → σ} {a n : ℕ} {l l' : List ι}

/-- The lists agree outside of the `n` places from `a` on. -/
def AgreeOutside (a n : ℕ) (l l' : List ι) : Prop := ∀ i, i < a ∨ a + n ≤ i → l[i]? = l'[i]?

theorem AgreeOutside.take_eq (h : AgreeOutside a n l l') : l.take a = l'.take a := by
  apply List.ext_getElem?
  intro i
  simp only [List.getElem?_take]
  split_ifs with hi
  · exact h i (Or.inl hi)
  · rfl

theorem AgreeOutside.drop_eq (h : AgreeOutside a n l l') : l.drop (a + n) = l'.drop (a + n) := by
  apply List.ext_getElem?
  intro i
  simp only [List.getElem?_drop]
  exact h _ (Or.inr (Nat.le_add_right _ _))

theorem agreeOutside_iff :
    AgreeOutside a n l l' ↔ l.take a = l'.take a ∧ l.drop (a + n) = l'.drop (a + n) := by
  refine ⟨fun h => ⟨h.take_eq, h.drop_eq⟩, fun h i hi => ?_⟩
  rcases hi with hi | hi
  · rw [← List.getElem?_take_of_lt hi, h.1, List.getElem?_take_of_lt hi]
  · obtain ⟨j, rfl⟩ := Nat.exists_eq_add_of_le hi
    rw [← List.getElem?_drop, h.2, List.getElem?_drop]

instance [DecidableEq ι] (a n : ℕ) (l l' : List ι) : Decidable (AgreeOutside a n l l') :=
  decidable_of_iff _ agreeOutside_iff.symm

/-- What stands before the window, in it and behind it. -/
theorem eq_append_window (a n : ℕ) (l : List ι) :
    l = l.take a ++ ((l.drop a).take n ++ l.drop (a + n)) := by
  rw [← List.drop_drop, List.take_append_drop, List.take_append_drop]

/-- A step that is injective in its state carries every difference to the end. -/
theorem foldl_injective (hf : ∀ c, Function.Injective (f · c)) (l : List ι) :
    Function.Injective (l.foldl f) := by
  induction l with
  | nil => exact fun _ _ h => h
  | cons c l ih => exact fun s t h => hf c (ih h)

/-- Lists of equal length that agree outside of a window fold to equal states only if they are
equal. -/
theorem foldl_eq_iff (hf : ∀ c, Function.Injective (f · c))
    (hwindow : ∀ s (m m' : List ι), m.length = m'.length → m.length ≤ n →
      m.foldl f s = m'.foldl f s → m = m')
    (h : AgreeOutside a n l l') (hlength : l.length = l'.length) (s : σ) :
    l.foldl f s = l'.foldl f s ↔ l = l' := by
  refine ⟨fun heq => ?_, fun heq => by rw [heq]⟩
  rw [eq_append_window a n l, eq_append_window a n l', h.take_eq, h.drop_eq] at heq ⊢
  simp only [List.foldl_append] at heq
  have hmid : ((l.drop a).take n).length = ((l'.drop a).take n).length := by
    simp only [List.length_take, List.length_drop, hlength]
  rw [hwindow _ _ _ hmid (List.length_take_le _ _) (foldl_injective hf _ heq)]

end EntropyLearnedHashing.FoldWindow
