import Mathlib.Data.List.Basic

/-! Fallible computations and the faults a specification permits. A computation meets an
outcome when it returns a value with the wanted property or stops with a permitted
fault. Permitting no fault at all gives total correctness. -/

namespace EntropyLearnedHashing

universe u

variable {ε : Type*} {α β : Type u} {allowed : ε → Prop}

/-- A value that satisfies `P`, or a permitted fault. -/
def Outcome (allowed : ε → Prop) (P : α → Prop) : Except ε α → Prop
  | .ok a => P a
  | .error e => allowed e

@[simp] theorem ok_bind (a : α) (f : α → Except ε β) : (Except.ok a >>= f) = f a := rfl

namespace Outcome

variable {P : α → Prop} {Q : β → Prop}

@[simp] theorem ok_iff {a : α} : Outcome allowed P (.ok a) ↔ P a := Iff.rfl

@[simp] theorem error_iff {e : ε} : Outcome allowed P (.error e) ↔ allowed e := Iff.rfl

@[simp] theorem pure_iff {a : α} : Outcome allowed P (pure a) ↔ P a := Iff.rfl

theorem bind {x : Except ε α} {f : α → Except ε β} (hx : Outcome allowed P x)
    (hf : ∀ a, P a → Outcome allowed Q (f a)) : Outcome allowed Q (x >>= f) := by
  cases x with
  | ok a => exact hf a hx
  | error e => exact hx

theorem mono {P' : α → Prop} {x : Except ε α} (hx : Outcome allowed P x)
    (h : ∀ a, P a → P' a) : Outcome allowed P' x := by
  cases x with
  | ok a => exact h a hx
  | error e => exact hx

/-- With no fault permitted there is a result. -/
theorem exists_ok {x : Except ε α} (hx : Outcome (fun _ => False) P x) :
    ∃ a, x = .ok a ∧ P a := by
  cases x with
  | ok a => exact ⟨a, rfl, hx⟩
  | error e => exact hx.elim

theorem of_ok {x : Except ε α} (hx : Outcome allowed P x) {a : α} (h : x = .ok a) : P a := by
  subst h
  exact hx

end Outcome

end EntropyLearnedHashing
