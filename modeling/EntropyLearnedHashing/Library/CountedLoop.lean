import Mathlib.Data.Nat.Notation
import Mathlib.Tactic.Ring

/-! Counting loops over an array with a counter that wraps. The loop
`for (j = start; j < bound; j++)` folds its body over a segment of the array as long
as the bound fits the counter. A bound that the counter cannot reach is never passed:
then the loop runs out of every amount of fuel or leaves the array. A loop over blocks
hands its body one segment after another. -/

namespace EntropyLearnedHashing.CountedLoop

variable {α σ : Type*} (M : ℕ) (body : σ → α → σ) (p : List α)

/-- The loop from `j` on, with a counter modulo `M`; `none` means that the fuel is used up or
that `p[j]` lies outside the array. -/
def forLoop (bound : ℕ) : ℕ → ℕ → σ → Option σ
  | 0, _, _ => none
  | fuel + 1, j, s =>
    if j < bound then
      p[j]?.bind fun x => forLoop bound fuel ((j + 1) % M) (body s x)
    else some s

variable {M body p}

theorem forLoop_eq {bound : ℕ} (hM : bound < M) (hp : bound ≤ p.length) {fuel j : ℕ}
    (hj : j ≤ bound) (hfuel : bound - j < fuel) (s : σ) :
    forLoop M body p bound fuel j s = some (((p.take bound).drop j).foldl body s) := by
  induction fuel generalizing j s with
  | zero => omega
  | succ fuel ih =>
    rw [forLoop]
    rcases Nat.lt_or_ge j bound with hlt | hge
    · have hjp : j < p.length := by omega
      have hnext : (j + 1) % M = j + 1 := Nat.mod_eq_of_lt (by omega)
      have hdrop : (p.take bound).drop j = p[j] :: (p.take bound).drop (j + 1) := by
        rw [List.drop_eq_getElem_cons (by simp; omega), List.getElem_take]
      rw [if_pos hlt, List.getElem?_eq_getElem hjp, hnext, hdrop]
      exact ih (by omega) (by omega) _
    · have hnil : (p.take bound).drop j = [] := List.drop_eq_nil_of_le (by simp; omega)
      rw [if_neg (by omega), hnil]
      rfl

/-- A bound out of reach of the counter is never passed. -/
theorem forLoop_eq_none {bound : ℕ} (hpos : 0 < M) (hM : M ≤ bound) {j : ℕ} (hj : j < M)
    (fuel : ℕ) (s : σ) : forLoop M body p bound fuel j s = none := by
  induction fuel generalizing j s with
  | zero => rfl
  | succ fuel ih =>
    rw [forLoop, if_pos (by omega)]
    cases p[j]? with
    | none => rfl
    | some x => exact ih (Nat.mod_lt _ hpos) _

/-! ### Loops over blocks -/

/-- The loop `for (i = 0; i < blocks; i++)` from `i` on, whose body is given the range from
`i * step` to `(i + 1) * step`. The bound is not reduced: it is wider than the counter. -/
def blockLoop (M step blocks : ℕ) (body : ℕ → ℕ → ℕ → σ → Option σ) : ℕ → ℕ → σ → Option σ
  | 0, _, _ => none
  | fuel + 1, i, s =>
    if i < blocks then
      (body fuel (i * step % M) ((i + 1) % M * step) s).bind
        (blockLoop M step blocks body fuel ((i + 1) % M))
    else some s

theorem blockLoop_eq {M step blocks enough : ℕ} {body : ℕ → ℕ → ℕ → σ → Option σ} {g : σ → ℕ → σ}
    (hstep : 1 ≤ step) (hM : blocks * step < M)
    (hbody : ∀ fuel i s, i < blocks → enough < fuel →
      body fuel (i * step) ((i + 1) * step) s = some (g s i)) {fuel i : ℕ} (hi : i ≤ blocks)
    (hfuel : blocks - i + enough < fuel) (s : σ) :
    blockLoop M step blocks body fuel i s = some ((List.range' i (blocks - i)).foldl g s) := by
  induction fuel generalizing i s with
  | zero => omega
  | succ fuel ih =>
    rw [blockLoop]
    rcases Nat.lt_or_ge i blocks with hlt | hge
    · have hblock : (i + 1) * step ≤ blocks * step := Nat.mul_le_mul_right step hlt
      have hstart : i * step % M = i * step := Nat.mod_eq_of_lt (by rw [Nat.add_one_mul] at hblock; omega)
      have hnext : (i + 1) % M = i + 1 :=
        Nat.mod_eq_of_lt ((Nat.le_mul_of_pos_right _ hstep).trans_lt (hblock.trans_lt hM))
      rw [if_pos hlt, hstart, hnext, hbody fuel i s hlt (by omega), Option.bind_some,
        ih (by omega) (by omega), show blocks - i = blocks - (i + 1) + 1 by omega, List.range'_succ,
        List.foldl_cons]
    · rw [if_neg (by omega), Nat.sub_eq_zero_of_le hge]
      rfl

/-- A loop over blocks that also sums up a number for each block. -/
theorem blockLoop_count {M step blocks enough : ℕ} {body : ℕ → ℕ → ℕ → σ × ℤ → Option (σ × ℤ)}
    {f : σ → ℕ → σ} {c : ℕ → ℕ} (hstep : 1 ≤ step) (hM : blocks * step < M)
    (hbody : ∀ fuel i s, i < blocks → enough < fuel →
      body fuel (i * step) ((i + 1) * step) s = some (f s.1 i, s.2 + c i)) {fuel i : ℕ}
    (hi : i ≤ blocks) (hfuel : blocks - i + enough < fuel) (s : σ × ℤ) :
    ∃ t, blockLoop M step blocks body fuel i s =
      some (t, s.2 + (((List.range' i (blocks - i)).map c).sum : ℕ)) := by
  rw [blockLoop_eq hstep hM hbody hi hfuel]
  induction List.range' i (blocks - i) generalizing s with
  | nil => exact ⟨s.1, by simp⟩
  | cons j l ih =>
    obtain ⟨t, ht⟩ := ih (f s.1 j, s.2 + c j)
    refine ⟨t, ?_⟩
    rw [List.foldl_cons, ht, List.map_cons, List.sum_cons, Nat.cast_add, Int.add_assoc]

/-- The `i`-th block of an array. -/
def segment (step : ℕ) (p : List α) (i : ℕ) : List α := (p.take ((i + 1) * step)).drop (i * step)

/-- The blocks lie one behind the other. -/
theorem flatMap_segment (step : ℕ) (p : List α) {n i : ℕ} (hi : i ≤ n) :
    (List.range' i (n - i)).flatMap (segment step p) = (p.take (n * step)).drop (i * step) := by
  induction hk : n - i generalizing i with
  | zero =>
    have heq : i = n := by omega
    rw [heq, List.drop_eq_nil_of_le (by simp)]
    rfl
  | succ k ih =>
    have hle : (i + 1) * step ≤ n * step := Nat.mul_le_mul_right step (by omega)
    have hcut := List.take_append_drop step ((p.take (n * step)).drop (i * step))
    rw [List.drop_drop, List.take_drop, List.take_take, ← Nat.add_one_mul, Nat.min_eq_left hle] at hcut
    rw [List.range'_succ, List.flatMap_cons, ih (by omega) (by omega), ← hcut, segment]

theorem succ_mul_le_of_lt_div {step i n : ℕ} (hi : i < n / step) :
    (i + 1) * step ≤ n / step * step ∧ (i + 1) * step ≤ n := by
  have hle : (i + 1) * step ≤ n / step * step := Nat.mul_le_mul_right step hi
  exact ⟨hle, hle.trans (Nat.div_mul_le_self n step)⟩

theorem forLoop_segment {step : ℕ} (hM : p.length / step * step < M) {fuel i : ℕ}
    (hi : i < p.length / step) (hfuel : step < fuel) (s : σ) :
    forLoop M body p ((i + 1) * step) fuel (i * step) s = some ((segment step p i).foldl body s) := by
  obtain ⟨hle, hlength⟩ := succ_mul_le_of_lt_div hi
  have hsucc : (i + 1) * step = i * step + step := Nat.add_one_mul i step
  exact forLoop_eq (by omega) hlength (by omega) (by omega) s

end EntropyLearnedHashing.CountedLoop
