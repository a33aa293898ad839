import Mathlib.Data.List.Induction
import Mathlib.Order.Defs.PartialOrder
import Mathlib.Order.Defs.Unbundled

/-! The best candidate of a list by a loop that keeps its incumbent on ties. The
loop starts with no candidate and a score to beat, skips some candidates, and
replaces the incumbent on strict improvement only. It ends without a candidate
exactly when nothing beats the starting score. On an increasing list it ends with
the first of the best candidates. -/

namespace EntropyLearnedHashing

variable {ι β : Type*} (gt : β → β → Prop) [DecidableRel gt] (skip : ι → Prop) [DecidablePred skip]
  (score : ι → β)

/-- One round of the search. -/
def improve (best : Option ι × β) (i : ι) : Option ι × β :=
  if skip i then best else if gt (score i) best.2 then (some i, score i) else best

def argMax (start : β) (l : List ι) : Option ι × β := l.foldl (improve gt skip score) (none, start)

theorem argMax_append_singleton (start : β) (l : List ι) (i : ι) :
    argMax gt skip score start (l ++ [i]) =
      improve gt skip score (argMax gt skip score start l) i := by
  simp [argMax]

theorem argMax_spec [IsTrans β gt] (start : β) (l : List ι) :
    (argMax gt skip score start l = (none, start) ∧
      ∀ i ∈ l, ¬ skip i → ¬ gt (score i) start) ∨
    ∃ i ∈ l, ¬ skip i ∧ gt (score i) start ∧ argMax gt skip score start l = (some i, score i) := by
  induction l using List.reverseRecOn with
  | nil => exact .inl ⟨rfl, by simp⟩
  | append_singleton l j ih =>
    rw [argMax_append_singleton]
    unfold improve
    rcases ih with ⟨heq, hnone⟩ | ⟨i, hi, hskip, hgt, heq⟩
    · rw [heq]
      split_ifs with hj hbeat
      · refine .inl ⟨rfl, fun k hk hks => ?_⟩
        rcases List.mem_append.mp hk with hk | hk
        · exact hnone k hk hks
        · rw [List.mem_singleton.mp hk] at hks
          exact absurd hj hks
      · exact .inr ⟨j, by simp, hj, hbeat, rfl⟩
      · refine .inl ⟨rfl, fun k hk hks => ?_⟩
        rcases List.mem_append.mp hk with hk | hk
        · exact hnone k hk hks
        · rw [List.mem_singleton.mp hk]
          exact hbeat
    · rw [heq]
      split_ifs with hj hbeat
      · exact .inr ⟨i, List.mem_append_left _ hi, hskip, hgt, rfl⟩
      · exact .inr ⟨j, by simp, hj, IsTrans.trans _ _ _ hbeat hgt, rfl⟩
      · exact .inr ⟨i, List.mem_append_left _ hi, hskip, hgt, rfl⟩

/-- On an increasing list and for a weak order, the winner is the first of the best. -/
theorem argMax_first [Preorder ι] [IsTrans β gt] (hirrefl : ∀ b, ¬ gt b b)
    (hweak : ∀ a b c, gt a c → gt a b ∨ gt b c) (start : β) {l : List ι}
    (hl : l.Pairwise (· < ·)) {i : ι} (h : (argMax gt skip score start l).1 = some i) :
    (∀ j ∈ l, ¬ skip j → ¬ gt (score j) (score i)) ∧
      ∀ j ∈ l, j < i → ¬ skip j → gt (score i) (score j) := by
  induction l using List.reverseRecOn generalizing i with
  | nil => simp [argMax] at h
  | append_singleton l k ih =>
    obtain ⟨hl, -, hlast⟩ := List.pairwise_append.mp hl
    have hk : ∀ j ∈ l, j < k := fun j hj => hlast j hj k (by simp)
    rw [argMax_append_singleton] at h
    unfold improve at h
    simp only [List.mem_append, List.mem_singleton, or_imp, forall_and, forall_eq]
    -- a newcomer that beats what nobody before it beats is the first of the best
    have hnew : ∀ c, gt (score k) c → (∀ j ∈ l, ¬ skip j → ¬ gt (score j) c) →
        ∀ j ∈ l, ¬ skip j → gt (score k) (score j) := fun c hbeat hnone j hj hjs =>
      (hweak _ _ _ hbeat).resolve_right (hnone j hj hjs)
    have hwins : (∀ j ∈ l, ¬ skip j → gt (score k) (score j)) →
        ((∀ j ∈ l, ¬ skip j → ¬ gt (score j) (score k)) ∧ (¬ skip k → ¬ gt (score k) (score k))) ∧
          (∀ j ∈ l, j < k → ¬ skip j → gt (score k) (score j)) ∧
          (k < k → ¬ skip k → gt (score k) (score k)) := fun hfirst =>
      ⟨⟨fun j hj hjs hcon => hirrefl _ (IsTrans.trans _ _ _ hcon (hfirst j hj hjs)),
        fun _ => hirrefl _⟩, fun j hj _ => hfirst j hj, fun hlt => absurd hlt (lt_irrefl _)⟩
    rcases argMax_spec gt skip score start l with ⟨heq, hnone⟩ | ⟨b, hb, hskip, hgt, heq⟩
    · rw [heq] at h
      split_ifs at h with hks hbeat
      obtain rfl := Option.some.inj h
      exact hwins (hnew start hbeat hnone)
    · obtain ⟨hmax, hmin⟩ := ih hl (by rw [heq])
      rw [heq] at h
      split_ifs at h with hks hbeat <;> obtain rfl := Option.some.inj h
      · exact ⟨⟨hmax, fun h => absurd hks h⟩, hmin, fun _ h => absurd hks h⟩
      · exact hwins (hnew _ hbeat hmax)
      · exact ⟨⟨hmax, fun _ => hbeat⟩, hmin, fun hlt => absurd (hk b hb) (not_lt_of_gt hlt)⟩

end EntropyLearnedHashing
