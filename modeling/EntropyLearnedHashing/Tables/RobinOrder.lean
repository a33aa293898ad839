import EntropyLearnedHashing.Library.CircularArray
import EntropyLearnedHashing.Tables.RobinHash

/-! The order that Robin Hood hashing keeps among its buckets: from a bucket to the next
the distance grows by at most one, where an empty bucket counts as `-1`. One step of an
insertion (placing, exchanging or passing by) and one step of the backward shift keep it. -/

namespace EntropyLearnedHashing.RobinHash

open CircularArray

variable {K V : Type} {hash : K → U64} {i j : ℕ}

/-- `m_buckets_data`. -/
abbrev Buckets (K V : Type) := List (Option (BucketEntry K V))

/-- The distance at a bucket. -/
def distAt (l : Buckets K V) (i : ℕ) : ℤ := bucketDist (l[i]?.getD none)

/-- The keys with their values. -/
def items (l : Buckets K V) : List (K × V) := l.reduceOption.map fun e => (e.key, e.value)

theorem distAt_of_getElem? {l : Buckets K V} {b : Option (BucketEntry K V)} (h : l[i]? = some b) :
    distAt l i = bucketDist b := by
  simp [distAt, h]

theorem distAt_set {l : Buckets K V} (hi : i < l.length) (b : Option (BucketEntry K V)) (j : ℕ) :
    distAt (l.set i b) j = if j = i then bucketDist b else distAt l j := by
  unfold distAt
  rw [List.getElem?_set]
  by_cases hij : i = j
  · rw [if_pos hij, if_pos hi, if_pos hij.symm, Option.getD_some]
  · rw [if_neg hij, if_neg (Ne.symm hij)]

theorem neg_one_le_distAt (l : Buckets K V) (i : ℕ) : -1 ≤ distAt l i := by
  unfold distAt
  cases l[i]?.getD none with
  | none => exact le_rfl
  | some e => exact (by decide : (-1 : ℤ) ≤ 0).trans (Int.natCast_nonneg e.dist)

theorem exists_entry_of_le_distAt {l : Buckets K V} {d : ℕ} (h : (d : ℤ) ≤ distAt l i) :
    ∃ e, l[i]? = some (some e) ∧ d ≤ e.dist := by
  unfold distAt at h
  match hcell : l[i]? with
  | none => simp [hcell, bucketDist] at h; omega
  | some none => simp [hcell, bucketDist] at h; omega
  | some (some e) =>
    rw [hcell, Option.getD_some, bucketDist] at h
    exact ⟨e, rfl, by omega⟩

/-! ### The order -/

/-- What holds of the buckets between any two calls. -/
structure Ordered (hash : K → U64) (l : Buckets K V) : Prop where
  size : l.length = 0 ∨ ∃ b, l.length = 2 ^ b
  placed : ∀ {i e}, l[i]? = some (some e) →
    e.hash = (hash e.key).setWidth 32 ∧ ((hash e.key).toNat + e.dist) % l.length = i
  step : ∀ i < l.length, distAt l ((i + 1) % l.length) ≤ distAt l i + 1
  nodup : ((items l).map Prod.fst).Nodup

namespace Ordered

variable {l : Buckets K V}

theorem replicate_none {n : ℕ} (hn : n = 0 ∨ ∃ b, n = 2 ^ b) :
    Ordered hash (List.replicate n (none : Option (BucketEntry K V))) where
  size := by simpa using hn
  placed h := by
    rw [List.getElem?_replicate] at h
    split_ifs at h
    cases h
  step i _ := by
    have hcell : ∀ j, distAt (List.replicate n (none : Option (BucketEntry K V))) j = -1 := by
      intro j
      unfold distAt
      rw [List.getElem?_replicate]
      split_ifs <;> rfl
    rw [hcell, hcell]
    decide
  nodup := by simp [items, List.reduceOption_replicate_none]

theorem distAt_add_le (ho : Ordered hash l) (hi : i < l.length) (j : ℕ) :
    distAt l ((i + j) % l.length) ≤ distAt l i + j :=
  le_add_of_le_add_one ho.step hi j

/-- On the way from the ideal bucket of an entry to the entry no bucket has a smaller
distance than the way so far. -/
theorem le_distAt (ho : Ordered hash l) {e : BucketEntry K V} (he : l[i]? = some (some e)) {s : ℕ}
    (hs : s ≤ e.dist) : (s : ℤ) ≤ distAt l (((hash e.key).toNat + s) % l.length) := by
  have hlt : i < l.length := (List.getElem?_eq_some_iff.mp he).1
  have hway := ho.distAt_add_le (Nat.mod_lt ((hash e.key).toNat + s) (by omega : 0 < l.length))
    (e.dist - s)
  rw [Nat.mod_add_mod, show (hash e.key).toNat + s + (e.dist - s) = (hash e.key).toNat + e.dist by omega,
    (ho.placed he).2, distAt_of_getElem? he, bucketDist] at hway
  omega

/-- An entry is less far from its ideal bucket than the table is full. -/
theorem dist_lt (ho : Ordered hash l) (hroom : l.reduceOption.length < l.length)
    {e : BucketEntry K V} (he : l[i]? = some (some e)) : e.dist < l.reduceOption.length := by
  have hlt : i < l.length := (List.getElem?_eq_some_iff.mp he).1
  obtain ⟨z, hz, hnone⟩ := exists_none hroom
  obtain ⟨k, hk, hkz⟩ := exists_add_mod_eq
    (Nat.mod_lt (hash e.key).toNat (by omega : 0 < l.length)) hz
  rw [Nat.mod_add_mod] at hkz
  have hdist : e.dist < k := by
    by_contra hle
    have hway := ho.le_distAt he (Nat.le_of_not_lt hle)
    rw [hkz, distAt_of_getElem? hnone, bucketDist] at hway
    omega
  refine le_length_reduceOption_of_run (i := (hash e.key).toNat) (by omega) fun s hs => ?_
  obtain ⟨e', he', -⟩ := exists_entry_of_le_distAt (ho.le_distAt he (by omega : s ≤ e.dist))
  exact ⟨e', he'⟩

end Ordered

/-! ### One step of an insertion -/

/-- A value on its way through the buckets, about to be compared with the one at `i`. -/
structure Carried (hash : K → U64) (l : Buckets K V) (i : ℕ) (c : BucketEntry K V) : Prop where
  lt : i < l.length
  hash_eq : c.hash = (hash c.key).setWidth 32
  place : ((hash c.key).toNat + c.dist) % l.length = i
  fresh : c.key ∉ (items l).map Prod.fst
  step : ∀ j < l.length, (j + 1) % l.length = i → (c.dist : ℤ) ≤ distAt l j + 1

theorem items_fill {l : Buckets K V} (h : l[i]? = some none) (c : BucketEntry K V) :
    (items (l.set i (some c))).Perm ((c.key, c.value) :: items l) := by
  have hperm := reduceOption_fill h c
  exact hperm.map fun e : BucketEntry K V => (e.key, e.value)

theorem items_clear {l : Buckets K V} {e : BucketEntry K V} (h : l[i]? = some (some e)) :
    ((e.key, e.value) :: items (l.set i none)).Perm (items l) := by
  have hperm := reduceOption_clear h
  exact hperm.map fun e : BucketEntry K V => (e.key, e.value)

/-- Another entry in the same bucket. -/
theorem items_replace {l : Buckets K V} {e : BucketEntry K V} (h : l[i]? = some (some e))
    (c : BucketEntry K V) :
    (items (l.set i (some c))).Perm ((c.key, c.value) :: items (l.set i none)) := by
  have hi : i < l.length := (List.getElem?_eq_some_iff.mp h).1
  have hfill := items_fill (List.getElem?_set_self (a := none) hi) c
  rwa [List.set_set] at hfill

theorem placed_set {l : Buckets K V} {P : BucketEntry K V → ℕ → Prop}
    (hl : ∀ {i e}, l[i]? = some (some e) → P e i) {c : BucketEntry K V} (hc : P c i) {e} {j : ℕ}
    (h : (l.set i (some c))[j]? = some (some e)) : P e j := by
  rw [List.getElem?_set] at h
  split_ifs at h with hij hlt
  · obtain rfl : c = e := by simpa using h
    exact hij ▸ hc
  · exact hl h

section Step

variable {l : Buckets K V} {c : BucketEntry K V}

/-- The order after a carried value has been written over a bucket with a smaller distance. -/
theorem step_set (ho : Ordered hash l) (hc : Carried hash l i c) (hlt : distAt l i < c.dist)
    (j : ℕ) (hj : j < l.length) :
    distAt (l.set i (some c)) ((j + 1) % l.length) ≤ distAt (l.set i (some c)) j + 1 := by
  rw [distAt_set hc.lt, distAt_set hc.lt]
  have hstep := ho.step j hj
  split_ifs with hnext hij hij
  · exact le_add_of_nonneg_right zero_le_one
  · exact hc.step j hj hnext
  · rw [hij] at hstep ⊢
    rw [bucketDist]
    omega
  · exact hstep

/-- The value fills an empty bucket. -/
theorem Ordered.place (ho : Ordered hash l) (hc : Carried hash l i c) (hcell : l[i]? = some none) :
    Ordered hash (l.set i (some c)) ∧
      (items (l.set i (some c))).Perm ((c.key, c.value) :: items l) := by
  have hperm := items_fill hcell c
  refine ⟨⟨by simpa using ho.size, ?_, ?_, ?_⟩, hperm⟩
  · intro j e he
    rw [List.length_set]
    exact placed_set (P := fun e j => e.hash = (hash e.key).setWidth 32 ∧
      ((hash e.key).toNat + e.dist) % l.length = j) ho.placed ⟨hc.hash_eq, hc.place⟩ he
  · intro j hj
    rw [List.length_set] at hj ⊢
    refine step_set ho hc ?_ j hj
    rw [distAt_of_getElem? hcell, bucketDist]
    omega
  · rw [(hperm.map Prod.fst).nodup_iff]
    exact List.nodup_cons.mpr ⟨hc.fresh, ho.nodup⟩

/-- The value takes the bucket of one that is closer to its ideal bucket, which is carried on. -/
theorem Ordered.exchange (ho : Ordered hash l) (hc : Carried hash l i c) {e : BucketEntry K V}
    (hcell : l[i]? = some (some e)) (hlt : e.dist < c.dist) :
    Ordered hash (l.set i (some c)) ∧
      Carried hash (l.set i (some c)) ((i + 1) % l.length) { e with dist := e.dist + 1 } ∧
      ((e.key, e.value) :: items (l.set i (some c))).Perm ((c.key, c.value) :: items l) := by
  have hperm : ((e.key, e.value) :: items (l.set i (some c))).Perm
      ((c.key, c.value) :: items l) :=
    ((items_replace hcell c).cons _).trans
      ((List.Perm.swap _ _ _).trans ((items_clear hcell).cons _))
  have hnodup : ((e.key, e.value) :: items (l.set i (some c))).map Prod.fst |>.Nodup := by
    rw [(hperm.map Prod.fst).nodup_iff]
    exact List.nodup_cons.mpr ⟨hc.fresh, ho.nodup⟩
  rw [List.map_cons, List.nodup_cons] at hnodup
  obtain ⟨hhash, hplace⟩ := ho.placed hcell
  refine ⟨⟨by simpa using ho.size, ?_, ?_, hnodup.2⟩, ⟨?_, hhash, ?_, hnodup.1, ?_⟩, hperm⟩
  · intro j e' he'
    rw [List.length_set]
    exact placed_set (P := fun e j => e.hash = (hash e.key).setWidth 32 ∧
      ((hash e.key).toNat + e.dist) % l.length = j) ho.placed ⟨hc.hash_eq, hc.place⟩ he'
  · intro j hj
    rw [List.length_set] at hj ⊢
    refine step_set ho hc ?_ j hj
    rw [distAt_of_getElem? hcell, bucketDist]
    omega
  · rw [List.length_set]
    exact Nat.mod_lt _ (Nat.zero_lt_of_lt hc.lt)
  · rw [List.length_set, ← add_assoc, ← Nat.mod_add_mod, hplace]
  · intro j hj hnext
    rw [List.length_set] at hj hnext
    obtain rfl : j = i := add_one_mod_inj hj hc.lt hnext
    rw [distAt_set hc.lt, if_pos rfl, bucketDist]
    push_cast
    omega

/-- The value passes by one that is at least as far from its ideal bucket. -/
theorem Carried.pass (hc : Carried hash l i c) {e : BucketEntry K V}
    (hcell : l[i]? = some (some e)) (hle : c.dist ≤ e.dist) :
    Carried hash l ((i + 1) % l.length) { c with dist := c.dist + 1 } where
  lt := Nat.mod_lt _ (Nat.zero_lt_of_lt hc.lt)
  hash_eq := hc.hash_eq
  place := by rw [← add_assoc, ← Nat.mod_add_mod, hc.place]
  fresh := hc.fresh
  step j hj hnext := by
    obtain rfl : j = i := add_one_mod_inj hj hc.lt hnext
    rw [distAt_of_getElem? hcell, bucketDist]
    push_cast
    omega

/-- A carried value is no further from its ideal bucket than the table is full. -/
theorem Carried.dist_le (ho : Ordered hash l) (hroom : l.reduceOption.length < l.length)
    (hc : Carried hash l i c) : c.dist ≤ (items l).length := by
  obtain ⟨j, hj, hnext⟩ : ∃ j < l.length, (j + 1) % l.length = i := by
    obtain ⟨j, hj, hji⟩ := exists_add_mod_eq (Nat.mod_lt 1 (Nat.zero_lt_of_lt hc.lt)) hc.lt
    exact ⟨j, hj, by rw [← hji, Nat.mod_add_mod, add_comm]⟩
  have hstep := hc.step j hj hnext
  rcases Nat.eq_zero_or_pos c.dist with hzero | hpos
  · omega
  · obtain ⟨e, he, hle⟩ := exists_entry_of_le_distAt (l := l) (d := c.dist - 1) (i := j) (by omega)
    have hlt := ho.dist_lt hroom he
    rw [items, List.length_map]
    omega

end Step

/-! ### An insertion under way -/

/-- A carried value and the number of buckets up to an empty one. -/
structure Inserting (hash : K → U64) (l : Buckets K V) (i : ℕ) (c : BucketEntry K V) (z : ℕ) :
    Prop where
  ordered : Ordered hash l
  carried : Carried hash l i c
  lt : z < l.length
  empty : l[(i + z) % l.length]? = some none

section Inserting

variable {l : Buckets K V} {c : BucketEntry K V} {z : ℕ}

theorem Inserting.room (h : Inserting hash l i c z) : l.reduceOption.length < l.length :=
  List.reduceOption_length_lt_iff.mpr (List.mem_of_getElem? h.empty)

/-- Everything that a round of an insertion can do. -/
theorem Inserting.cases (h : Inserting hash l i c z) :
    (l[i]? = some none ∧ Ordered hash (l.set i (some c)) ∧
      (items (l.set i (some c))).Perm ((c.key, c.value) :: items l)) ∨
    (∃ e, l[i]? = some (some e) ∧ e.dist < c.dist ∧ e.dist + 1 ≤ (items l).length ∧
      c.dist ≤ (items l).length ∧ 0 < z ∧
      Inserting hash (l.set i (some c)) ((i + 1) % l.length) { e with dist := e.dist + 1 } (z - 1) ∧
      ((e.key, e.value) :: items (l.set i (some c))).Perm ((c.key, c.value) :: items l)) ∨
    (∃ e, l[i]? = some (some e) ∧ c.dist ≤ e.dist ∧ c.dist + 1 ≤ (items l).length ∧ 0 < z ∧
      Inserting hash l ((i + 1) % l.length) { c with dist := c.dist + 1 } (z - 1)) := by
  have hroom : l.reduceOption.length < l.length := h.room
  obtain ⟨ho, hc, hz, hempty⟩ := h
  cases hcell : l[i]? with
  | none =>
    rw [List.getElem?_eq_none_iff] at hcell
    exact absurd hc.lt (by omega)
  | some b =>
    cases b with
    | none => exact Or.inl ⟨rfl, ho.place hc hcell⟩
    | some e =>
      right
      have hpos : 0 < z := by
        by_contra hzero
        rw [show z = 0 by omega, add_zero, Nat.mod_eq_of_lt hc.lt, hcell] at hempty
        cases hempty
      have hcount : e.dist + 1 ≤ (items l).length := by
        have := ho.dist_lt hroom hcell
        rw [items, List.length_map]
        omega
      have hsame : ((i + 1) % l.length + (z - 1)) % l.length = (i + z) % l.length := by
        rw [Nat.mod_add_mod, show i + 1 + (z - 1) = i + z by omega]
      have hother : i ≠ (i + z) % l.length := by
        intro heq
        have : 0 = z := add_mod_inj (by omega) hz
          (by rw [add_zero, Nat.mod_eq_of_lt hc.lt]; exact heq)
        omega
      by_cases hlt : e.dist < c.dist
      · left
        obtain ⟨ho', hc', hperm⟩ := ho.exchange hc hcell hlt
        refine ⟨e, rfl, hlt, hcount, hc.dist_le ho hroom, hpos, ⟨ho', hc', ?_, ?_⟩, hperm⟩
        · rw [List.length_set]
          omega
        · rw [List.length_set, hsame, List.getElem?_set_ne hother]
          exact hempty
      · right
        refine ⟨e, rfl, by omega, by omega, hpos, ho, hc.pass hcell (by omega), by omega, ?_⟩
        rw [hsame]
        exact hempty

end Inserting

/-! ### One step of the backward shift -/

/-- Buckets with a hole at `p` that the next ones may still have to fill. -/
structure Hole (hash : K → U64) (l : Buckets K V) (p : ℕ) : Prop where
  size : l.length = 0 ∨ ∃ b, l.length = 2 ^ b
  placed : ∀ {i e}, l[i]? = some (some e) →
    e.hash = (hash e.key).setWidth 32 ∧ ((hash e.key).toNat + e.dist) % l.length = i
  nodup : ((items l).map Prod.fst).Nodup
  cell : l[p]? = some none
  step : ∀ j < l.length, j ≠ p → (j + 1) % l.length ≠ p →
    distAt l ((j + 1) % l.length) ≤ distAt l j + 1
  across : ∀ j < l.length, (j + 1) % l.length = p →
    distAt l ((p + 1) % l.length) ≤ distAt l j + 2

section Hole

variable {l : Buckets K V} {p : ℕ} {e : BucketEntry K V}

theorem Hole.lt (h : Hole hash l p) : p < l.length := (List.getElem?_eq_some_iff.mp h.cell).1

/-- Clearing a bucket leaves a hole. -/
theorem Ordered.clear (ho : Ordered hash l) (he : l[p]? = some (some e)) :
    Hole hash (l.set p none) p ∧ ((e.key, e.value) :: items (l.set p none)).Perm (items l) := by
  have hp : p < l.length := (List.getElem?_eq_some_iff.mp he).1
  have hperm := items_clear he
  refine ⟨⟨by simpa using ho.size, ?_, ?_, ?_, ?_, ?_⟩, hperm⟩
  · intro j e' he'
    rw [List.getElem?_set] at he'
    rw [List.length_set]
    split_ifs at he'
    · cases he'
    · exact ho.placed he'
  · have hnodup := (hperm.map Prod.fst).nodup_iff.mpr ho.nodup
    rw [List.map_cons, List.nodup_cons] at hnodup
    exact hnodup.2
  · rw [List.getElem?_set_self hp]
  · intro j hj hjp hnext
    rw [List.length_set] at hj hnext ⊢
    rw [distAt_set hp, distAt_set hp, if_neg hjp, if_neg hnext]
    exact ho.step j hj
  · intro j hj hnext
    rw [List.length_set] at hj hnext ⊢
    have hbefore := ho.step j hj
    have hafter := ho.step p hp
    have hmin := neg_one_le_distAt l j
    rw [hnext] at hbefore
    rw [distAt_set hp, distAt_set hp, bucketDist]
    split_ifs with hself hjp hjp
    · omega
    · omega
    · exact absurd (hjp ▸ hnext) hself
    · omega

/-- A hole before a bucket at distance zero or an empty one is no hole. -/
theorem Hole.ordered (h : Hole hash l p) (hstop : distAt l ((p + 1) % l.length) ≤ 0) :
    Ordered hash l where
  size := h.size
  placed := h.placed
  nodup := h.nodup
  step j hj := by
    have hcell : distAt l p = -1 := by rw [distAt_of_getElem? h.cell, bucketDist]
    by_cases hjp : j = p
    · rw [hjp, hcell]
      omega
    · by_cases hnext : (j + 1) % l.length = p
      · have hmin := neg_one_le_distAt l j
        rw [hnext, hcell]
        omega
      · exact h.step j hj hjp hnext

/-- The next value moves back by one bucket and the hole moves on. -/
theorem Hole.shift (h : Hole hash l p) (he : l[(p + 1) % l.length]? = some (some e))
    (hpos : 0 < e.dist) :
    Hole hash ((l.set p (some { e with dist := e.dist - 1 })).set ((p + 1) % l.length) none)
        ((p + 1) % l.length) ∧
      (items ((l.set p (some { e with dist := e.dist - 1 })).set ((p + 1) % l.length) none)).Perm
        (items l) := by
  have hp := h.lt
  have hq : (p + 1) % l.length < l.length := Nat.mod_lt _ (by omega)
  have hpq : p ≠ (p + 1) % l.length := by
    intro heq
    rw [← heq, h.cell] at he
    cases he
  have hdist : distAt l ((p + 1) % l.length) = e.dist := by rw [distAt_of_getElem? he, bucketDist]
  set c : BucketEntry K V := { e with dist := e.dist - 1 } with hc
  have hcellq : (l.set p (some c))[(p + 1) % l.length]? = some (some e) := by
    rw [List.getElem?_set_ne hpq]
    exact he
  have hperm : (items ((l.set p (some c)).set ((p + 1) % l.length) none)).Perm (items l) :=
    ((items_clear hcellq).trans (items_fill h.cell c)).cons_inv
  have hval : ∀ k, distAt ((l.set p (some c)).set ((p + 1) % l.length) none) k =
      if k = (p + 1) % l.length then -1 else if k = p then (e.dist : ℤ) - 1 else distAt l k := by
    intro k
    rw [distAt_set (by rwa [List.length_set]), distAt_set hp, bucketDist, bucketDist, hc,
      Nat.cast_sub hpos, Nat.cast_one]
  refine ⟨⟨by simpa using h.size, ?_, ?_, ?_, ?_, ?_⟩, hperm⟩
  · intro j e' he'
    rw [List.getElem?_set] at he'
    rw [List.length_set, List.length_set]
    split_ifs at he' with hqj
    · cases he'
    · refine placed_set (c := c) (P := fun e j => e.hash = (hash e.key).setWidth 32 ∧
        ((hash e.key).toNat + e.dist) % l.length = j) h.placed ⟨(h.placed he).1, ?_⟩ he'
      refine add_one_mod_inj (Nat.mod_lt _ (by omega)) hp ?_
      rw [Nat.mod_add_mod, ← (h.placed he).2, hc]
      dsimp only
      rw [add_assoc, Nat.sub_add_cancel hpos]
  · exact (hperm.map Prod.fst).nodup_iff.mpr h.nodup
  · rw [List.getElem?_set_self (by rwa [List.length_set])]
  · intro j hj hjq hnext
    rw [List.length_set, List.length_set] at hj hnext ⊢
    have hjp : j ≠ p := by
      rintro rfl
      exact hnext rfl
    rw [hval, hval, if_neg hnext, if_neg hjq, if_neg hjp]
    split_ifs with hnextp
    · have hacross := h.across j hj hnextp
      rw [hdist] at hacross
      omega
    · exact h.step j hj hjp hnextp
  · intro j hj hnext
    rw [List.length_set, List.length_set] at hj hnext ⊢
    obtain rfl : j = p := add_one_mod_inj hj hp hnext
    rw [hval, hval, if_neg hpq, if_pos rfl]
    split_ifs with hqq hqp
    · omega
    · omega
    · have hstep := h.step _ hq (Ne.symm hpq) hqp
      rw [hdist] at hstep
      omega

end Hole

end EntropyLearnedHashing.RobinHash
