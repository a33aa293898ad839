import Mathlib.Data.Finset.Card
import Mathlib.Data.List.Nodup
import Mathlib.Logic.Function.Basic
import EntropyLearnedHashing.Library.Outcome

/-! Finite maps as what a table is for. A list of pairs with distinct keys represents a
partial function. A table refines the map when every call keeps the representation and
answers as the map does; then so does every run of calls. -/

namespace EntropyLearnedHashing

variable {K V ε τ μ γ ρ : Type}

/-! ### Lists of pairs -/

/-- The pairs of the list are the graph of the map. -/
structure Represents (m : K → Option V) (l : List (K × V)) : Prop where
  nodup : (l.map Prod.fst).Nodup
  iff_mem : ∀ {k v}, m k = some v ↔ (k, v) ∈ l

namespace Represents

variable {m : K → Option V} {l l' : List (K × V)} {k : K} {v w : V}

theorem empty : Represents (fun _ => none) ([] : List (K × V)) where
  nodup := List.nodup_nil
  iff_mem := by simp

theorem perm (h : Represents m l) (hp : l'.Perm l) : Represents m l' where
  nodup := (hp.map Prod.fst).nodup_iff.mpr h.nodup
  iff_mem := h.iff_mem.trans hp.mem_iff.symm

theorem eq_none_iff (h : Represents m l) : m k = none ↔ k ∉ l.map Prod.fst := by
  constructor
  · intro hnone hmem
    obtain ⟨⟨k, v⟩, hpair, rfl⟩ := List.mem_map.mp hmem
    rw [h.iff_mem.mpr hpair] at hnone
    cases hnone
  · intro hfresh
    cases hk : m k with
    | none => rfl
    | some v => exact absurd (List.mem_map_of_mem (h.iff_mem.mp hk)) hfresh

variable [DecidableEq K]

/-- A fresh key is added. -/
theorem cons (h : Represents m l) (hfresh : k ∉ l.map Prod.fst) :
    Represents (Function.update m k (some v)) ((k, v) :: l) where
  nodup := List.nodup_cons.mpr ⟨hfresh, h.nodup⟩
  iff_mem {k' v'} := by
    rw [Function.update_apply, List.mem_cons, Prod.mk.injEq]
    split_ifs with hk
    · subst hk
      have hnot : (k', v') ∉ l := fun hmem => hfresh (List.mem_map_of_mem (f := Prod.fst) hmem)
      simp [hnot, eq_comm]
    · simp [hk, h.iff_mem]

/-- A key is removed. -/
theorem tail (h : Represents m ((k, v) :: l)) : Represents (Function.update m k none) l where
  nodup := (List.nodup_cons.mp h.nodup).2
  iff_mem {k' v'} := by
    have hfresh : k ∉ l.map Prod.fst := (List.nodup_cons.mp h.nodup).1
    rw [Function.update_apply]
    split_ifs with hk
    · subst hk
      have hnot : (k', v') ∉ l := fun hmem => hfresh (List.mem_map_of_mem (f := Prod.fst) hmem)
      simp [hnot]
    · rw [h.iff_mem, List.mem_cons, Prod.mk.injEq]
      simp [hk]

/-- A key gets another value. -/
theorem replace (h : Represents m ((k, v) :: l)) :
    Represents (Function.update m k (some w)) ((k, w) :: l) := by
  have hfresh : k ∉ l.map Prod.fst := (List.nodup_cons.mp h.nodup).1
  have hcons := h.tail.cons (v := w) hfresh
  rwa [Function.update_idem] at hcons

end Represents

/-! ### Calls on a map -/

/-- The calls that a program makes on a map. -/
inductive MapCall (K V : Type) where
  | assign (key : K) (value : V)
  | find (key : K)
  | erase (key : K)
  deriving DecidableEq, Repr

/-- What a call answers: nothing, the value at the key or the number of erased keys. -/
inductive MapReply (V : Type) where
  | done
  | value (v : Option V)
  | erased (count : ℕ)
  deriving DecidableEq, Repr

/-- The call on the map itself. -/
def MapCall.spec [DecidableEq K] (m : K → Option V) :
    MapCall K V → (K → Option V) × MapReply V
  | .assign key value => (Function.update m key (some value), .done)
  | .find key => (m, .value (m key))
  | .erase key => (Function.update m key none, .erased (if (m key).isSome then 1 else 0))

/-- The key that a call gives a value to. -/
def MapCall.assigned : MapCall K V → Option K
  | .assign key _ => some key
  | _ => none

/-- A key that is not there comes in by an assignment only. -/
theorem MapCall.spec_eq_none [DecidableEq K] {m : K → Option V} {k : K} (hk : m k = none)
    {c : MapCall K V} (hc : c.assigned ≠ some k) : (c.spec m).1 k = none := by
  cases c with
  | assign key value =>
    have hne : k ≠ key := fun heq => hc (by rw [heq, assigned])
    exact (Function.update_of_ne hne _ m).trans hk
  | find key => exact hk
  | erase key =>
    change Function.update m key none k = none
    rw [Function.update_apply, hk, ite_self]

/-! ### Bounded maps -/

/-- The map has no other keys than these. -/
def Within (keys : Finset K) (m : K → Option V) : Prop := ∀ k ∉ keys, m k = none

theorem Within.spec [DecidableEq K] {keys : Finset K} {m : K → Option V} (h : Within keys m)
    {c : MapCall K V} (hc : ∀ k, c.assigned = some k → k ∈ keys) : Within keys (c.spec m).1 :=
  fun k hk => MapCall.spec_eq_none (h k hk) fun hassigned => hk (hc k hassigned)

section Card

variable [DecidableEq K] {keys : Finset K} {m : K → Option V} {l : List (K × V)} {k : K}

theorem Represents.mem_of_within (h : Represents m l) (hm : Within keys m)
    (hk : k ∈ l.map Prod.fst) : k ∈ keys := by
  by_contra hout
  exact h.eq_none_iff.mp (hm k hout) hk

theorem Represents.length_le_card (h : Represents m l) (hm : Within keys m) :
    l.length ≤ keys.card := by
  have hcard := List.toFinset_card_of_nodup h.nodup
  rw [List.length_map] at hcard
  rw [← hcard]
  exact Finset.card_le_card fun k hk => h.mem_of_within hm (List.mem_toFinset.mp hk)

theorem Represents.length_lt_card (h : Represents m l) (hm : Within keys m) (hk : k ∈ keys)
    (hfresh : k ∉ l.map Prod.fst) : l.length < keys.card := by
  have hcard := List.toFinset_card_of_nodup (List.nodup_cons.mpr ⟨hfresh, h.nodup⟩)
  rw [List.length_cons, List.length_map] at hcard
  rw [Nat.lt_iff_add_one_le, ← hcard]
  refine Finset.card_le_card fun k' hk' => ?_
  rcases List.mem_cons.mp (List.mem_toFinset.mp hk') with rfl | hmem
  · exact hk
  · exact h.mem_of_within hm hmem

end Card

/-- The calls of a program that never erases. -/
inductive StoreCall (K V : Type) where
  | assign (key : K) (value : V)
  | find (key : K)
  deriving DecidableEq, Repr

/-- The same call among all calls. -/
def StoreCall.toMapCall : StoreCall K V → MapCall K V
  | .assign key value => .assign key value
  | .find key => .find key

/-! ### Runs -/

/-- A run of calls, with their answers. -/
def runCalls (call : τ → γ → Except ε (τ × ρ)) : τ → List γ → Except ε (τ × List ρ)
  | t, [] => .ok (t, [])
  | t, c :: cs => do
    let (t, r) ← call t c
    let (t, rs) ← runCalls call t cs
    return (t, r :: rs)

/-- The run that a specification describes. -/
def runSpec (spec : μ → γ → μ × ρ) : μ → List γ → μ × List ρ
  | m, [] => (m, [])
  | m, c :: cs =>
    let (m, r) := spec m c
    let (m, rs) := runSpec spec m cs
    (m, r :: rs)

/-- If every call keeps the relation and answers as specified, a run does. -/
theorem runCalls_refines {allowed : ε → Prop} {R : τ → μ → Prop}
    {call : τ → γ → Except ε (τ × ρ)} (spec : μ → γ → μ × ρ) (cs : List γ)
    (hcall : ∀ t m, ∀ c ∈ cs, R t m →
      Outcome allowed (fun a => R a.1 (spec m c).1 ∧ a.2 = (spec m c).2) (call t c))
    {t : τ} {m : μ} (h : R t m) :
    Outcome allowed (fun a => R a.1 (runSpec spec m cs).1 ∧ a.2 = (runSpec spec m cs).2)
      (runCalls call t cs) := by
  induction cs generalizing t m with
  | nil => exact ⟨h, rfl⟩
  | cons c cs ih =>
    rw [runCalls]
    refine (hcall t m c List.mem_cons_self h).bind ?_
    rintro ⟨t', r⟩ ⟨ht', hr⟩
    refine (ih (fun t m c hc => hcall t m c (List.mem_cons_of_mem _ hc)) ht').bind ?_
    rintro ⟨t'', rs⟩ ⟨ht'', hrs⟩
    exact ⟨ht'', congrArg₂ List.cons hr hrs⟩

end EntropyLearnedHashing
