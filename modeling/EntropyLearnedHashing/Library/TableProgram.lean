import EntropyLearnedHashing.Library.CountedLoop
import EntropyLearnedHashing.Library.MapRefinement

/-! Programs that use a map through assignments and lookups only, with whatever computation
in between. A program runs on a table or on the map itself. If every operation of the
table keeps a relation to the map and answers as it does, then so does every program:
its result does not depend on the table. Counting loops run their bodies as long as the counter,
which wraps, stays below its bound. -/

namespace EntropyLearnedHashing

/-- A program over a map, with its result. -/
inductive TableProgram (K V α : Type) where
  | ret (a : α)
  | assign (key : K) (value : V) (next : TableProgram K V α)
  | find (key : K) (next : Option V → TableProgram K V α)

namespace TableProgram

variable {K V ε τ α β γ : Type}

/-- One program after another. -/
def bind : TableProgram K V α → (α → TableProgram K V β) → TableProgram K V β
  | ret a, f => f a
  | assign key value next, f => assign key value (bind next f)
  | find key next, f => find key fun v => bind (next v) f

instance : Monad (TableProgram K V) where
  pure := ret
  bind := bind

/-- The program on a table. -/
def run (assignTo : τ → K → V → Except ε τ) (findIn : τ → K → Except ε (Option V)) :
    TableProgram K V α → τ → Except ε (τ × α)
  | ret a, t => .ok (t, a)
  | assign key value next, t => do
    let t ← assignTo t key value
    run assignTo findIn next t
  | find key next, t => do
    let v ← findIn t key
    run assignTo findIn (next v) t

/-! ### Counting loops -/

/-- The loop `for (j = start; j < bound; j++)` over an array, with a counter modulo `M`; `none` means
that the fuel is used up or that the array ends before. -/
def forLoop (M : ℕ) (body : β → γ → TableProgram K V β) (p : List γ) (bound : ℕ) :
    ℕ → ℕ → β → TableProgram K V (Option β)
  | 0, _, _ => pure none
  | fuel + 1, j, b =>
    if j < bound then
      match p[j]? with
      | none => pure none
      | some c => do
        let b ← body b c
        forLoop M body p bound fuel ((j + 1) % M) b
    else pure (some b)

/-- The loop `for (i = start; i < blocks; i++)`, whose body is given the range of a block. -/
def blockLoop (M step blocks : ℕ) (body : ℕ → ℕ → ℕ → β → TableProgram K V (Option β)) :
    ℕ → ℕ → β → TableProgram K V (Option β)
  | 0, _, _ => pure none
  | fuel + 1, i, b =>
    if i < blocks then do
      let some b ← body fuel (i * step % M) ((i + 1) % M * step) b | return none
      blockLoop M step blocks body fuel ((i + 1) % M) b
    else pure (some b)

/-! ### Assigned keys -/

/-- All keys that the program gives values to are among these, whatever it finds. -/
def Assigns (ok : K → Prop) : TableProgram K V α → Prop
  | ret _ => True
  | assign key _ next => ok key ∧ Assigns ok next
  | find _ next => ∀ v, Assigns ok (next v)

namespace Assigns

variable {ok : K → Prop}

@[simp] theorem pure (a : α) : Assigns ok (pure a : TableProgram K V α) := trivial

theorem bind {P : TableProgram K V α} {f : α → TableProgram K V β} (hP : Assigns ok P)
    (hf : ∀ a, Assigns ok (f a)) : Assigns ok (P >>= f) := by
  change Assigns ok (TableProgram.bind P f)
  induction P with
  | ret a => exact hf a
  | assign key value next ih => exact ⟨hP.1, ih hP.2⟩
  | find key next ih => exact fun v => ih v (hP v)

theorem forLoop {M : ℕ} {body : β → γ → TableProgram K V β} {p : List γ} (bound : ℕ)
    (hbody : ∀ b, ∀ c ∈ p, Assigns ok (body b c)) (fuel j : ℕ) (b : β) :
    Assigns ok (forLoop M body p bound fuel j b) := by
  induction fuel generalizing j b with
  | zero => exact pure _
  | succ fuel ih =>
    rw [TableProgram.forLoop]
    split_ifs
    · cases hc : p[j]? with
      | none => exact pure _
      | some c => exact (hbody b c (List.mem_of_getElem? hc)).bind fun b => ih _ b
    · exact pure _

theorem blockLoop {M step blocks : ℕ} {body : ℕ → ℕ → ℕ → β → TableProgram K V (Option β)}
    (hbody : ∀ fuel start bound b, Assigns ok (body fuel start bound b)) (fuel i : ℕ) (b : β) :
    Assigns ok (blockLoop M step blocks body fuel i b) := by
  induction fuel generalizing i b with
  | zero => exact pure _
  | succ fuel ih =>
    rw [TableProgram.blockLoop]
    split_ifs
    · refine (hbody _ _ _ b).bind fun r => ?_
      cases r with
      | none => exact pure _
      | some b => exact ih _ b
    · exact pure _

end Assigns

section Eval

variable [DecidableEq K]

/-- The program on the map. -/
def eval : TableProgram K V α → (K → Option V) → (K → Option V) × α
  | ret a, m => (m, a)
  | assign key value next, m => eval next (Function.update m key (some value))
  | find key next, m => eval (next (m key)) m

@[simp] theorem eval_pure (a : α) (m : K → Option V) :
    (pure a : TableProgram K V α).eval m = (m, a) := rfl

@[simp] theorem eval_bind (P : TableProgram K V α) (f : α → TableProgram K V β) (m : K → Option V) :
    (P >>= f).eval m = (f (P.eval m).2).eval (P.eval m).1 := by
  change (bind P f).eval m = _
  induction P generalizing m with
  | ret a => rfl
  | assign key value next ih => exact ih _
  | find key next ih => exact ih _ _

/-- A program that assigns nothing leaves the map alone. -/
theorem Assigns.eval_fst {P : TableProgram K V α} (h : Assigns (fun _ => False) P) (m : K → Option V) :
    (P.eval m).1 = m := by
  induction P with
  | ret a => rfl
  | assign key value next _ => exact h.1.elim
  | find key next ih => exact ih _ (h _)

/-- On the map, a loop that ends is the counting loop over pairs of the map and the state. -/
theorem eval_forLoop {M bound : ℕ} {body : β → γ → TableProgram K V β} {p : List γ} {fuel j : ℕ} {b : β}
    {m : K → Option V} {s : (K → Option V) × β}
    (h : CountedLoop.forLoop M (fun s c => (body s.2 c).eval s.1) p bound fuel j (m, b) = some s) :
    (forLoop M body p bound fuel j b).eval m = (s.1, some s.2) := by
  induction fuel generalizing j b m with
  | zero => cases h
  | succ fuel ih =>
    rw [CountedLoop.forLoop] at h
    rw [forLoop]
    split_ifs at h ⊢ with hlt
    · cases hc : p[j]? with
      | none =>
        rw [hc] at h
        cases h
      | some c =>
        rw [hc, Option.bind_some] at h
        dsimp only
        rw [eval_bind]
        exact ih h
    · obtain rfl := Option.some.inj h
      rfl

/-- A loop over blocks that assigns nothing is a counting loop over the blocks. -/
theorem eval_blockLoop {M step blocks : ℕ} {body : ℕ → ℕ → ℕ → β → TableProgram K V (Option β)}
    (hread : ∀ fuel start bound b, Assigns (fun _ => False) (body fuel start bound b)) (fuel i : ℕ)
    (b : β) (m : K → Option V) : (blockLoop M step blocks body fuel i b).eval m =
      (m, CountedLoop.blockLoop M step blocks
        (fun fuel start bound b => ((body fuel start bound b).eval m).2) fuel i b) := by
  induction fuel generalizing i b with
  | zero => rfl
  | succ fuel ih =>
    rw [blockLoop, CountedLoop.blockLoop]
    split_ifs
    · rw [eval_bind, (hread _ _ _ _).eval_fst]
      cases ((body fuel (i * step % M) ((i + 1) % M * step) b).eval m).2 with
      | none => rfl
      | some b => exact ih _ b
    · rfl

/-- On a table whose operations follow the map, a program does. -/
theorem run_refines {allowed : ε → Prop} {ok : K → Prop} {R : τ → (K → Option V) → Prop}
    {assignTo : τ → K → V → Except ε τ} {findIn : τ → K → Except ε (Option V)}
    (hassign : ∀ t m k v, ok k → R t m →
      Outcome allowed (fun t' => R t' (Function.update m k (some v))) (assignTo t k v))
    (hfind : ∀ t m k, R t m → Outcome allowed (fun v => v = m k) (findIn t k))
    {P : TableProgram K V α} (hP : Assigns ok P) {t : τ} {m : K → Option V} (h : R t m) :
    Outcome allowed (fun r => R r.1 (P.eval m).1 ∧ r.2 = (P.eval m).2)
      (P.run assignTo findIn t) := by
  induction P generalizing t m with
  | ret a => exact ⟨h, rfl⟩
  | assign key value next ih =>
    refine (hassign t m key value hP.1 h).bind ?_
    intro t' ht'
    exact ih hP.2 ht'
  | find key next ih =>
    refine (hfind t m key h).bind ?_
    rintro _ rfl
    exact ih (m key) (hP (m key)) h

end Eval

end TableProgram

end EntropyLearnedHashing
