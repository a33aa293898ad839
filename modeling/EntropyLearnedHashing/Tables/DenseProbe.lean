import EntropyLearnedHashing.Library.CircularArray
import EntropyLearnedHashing.Library.Outcome
import EntropyLearnedHashing.Library.TriangularProbe
import EntropyLearnedHashing.Tables.DenseHash

/-! Probing in `dense_hashtable`. A key is found because every bucket on the way to it is in
use; erasing it keeps the bucket in use, since the deleted key is not the empty one. The
steps of a probe grow by one, so that it meets an empty bucket before the assertion
`num_probes < bucket_count()` could fail. -/

namespace EntropyLearnedHashing.DenseHash

open CircularArray

variable {K V : Type} [DecidableEq K] {hash : K → U64} {t : DenseHash K V} {key : K} {p : ℕ}
  {kv : K × V}

/-! ### Elements -/

/-- A bucket as an entry of the map: its two markers are none. -/
def cell (t : DenseHash K V) (kv : K × V) : Option (K × V) :=
  if t.emptyval.1 = kv.1 ∨ t.delkey = some kv.1 then none else some kv

/-- The elements of the table. -/
def items (t : DenseHash K V) : List (K × V) := (t.table.map t.cell).reduceOption

theorem cell_eq_some_iff {e : K × V} :
    t.cell kv = some e ↔ e = kv ∧ t.emptyval.1 ≠ kv.1 ∧ t.delkey ≠ some kv.1 := by
  unfold cell
  split_ifs with h
  · refine iff_of_false nofun ?_
    rintro ⟨-, hempty, hdeleted⟩
    exact h.elim hempty hdeleted
  · rw [not_or] at h
    rw [Option.some.injEq]
    exact ⟨fun heq => ⟨heq.symm, h⟩, fun heq => heq.1.symm⟩

theorem cell_eq_none_iff : t.cell kv = none ↔ t.emptyval.1 = kv.1 ∨ t.delkey = some kv.1 := by
  unfold cell
  split_ifs with h
  · exact iff_of_true rfl h
  · exact iff_of_false nofun h

theorem getElem?_cells (h : t.table[p]? = some kv) : (t.table.map t.cell)[p]? = some (t.cell kv) := by
  rw [List.getElem?_map, h, Option.map_some]

theorem mem_items_iff {e : K × V} :
    e ∈ t.items ↔ ∃ p : ℕ, t.table[p]? = some e ∧ t.cell e = some e := by
  rw [items, mem_reduceOption_iff_getElem?]
  constructor
  · rintro ⟨p, hp⟩
    rw [List.getElem?_map, Option.map_eq_some_iff] at hp
    obtain ⟨kv, hkv, hcell⟩ := hp
    obtain rfl := (cell_eq_some_iff.mp hcell).1
    exact ⟨p, hkv, hcell⟩
  · rintro ⟨p, hp, hcell⟩
    exact ⟨p, (getElem?_cells hp).trans (congrArg some hcell)⟩

/-- Every used bucket is an element or erased. -/
theorem length_items_add_countP (h : t.delkey ≠ some t.emptyval.1) :
    t.items.length + t.table.countP (fun kv => t.delkey = some kv.1) =
      t.table.countP (fun kv => t.emptyval.1 ≠ kv.1) := by
  unfold items
  induction t.table with
  | nil => rfl
  | cons kv l ih =>
    rw [List.map_cons, List.countP_cons, List.countP_cons, ← ih]
    by_cases hempty : t.emptyval.1 = kv.1
    · have hdeleted : t.delkey ≠ some kv.1 := hempty ▸ h
      rw [cell_eq_none_iff.mpr (Or.inl hempty), List.reduceOption_cons_of_none]
      simp [hempty, hdeleted]
    · by_cases hdeleted : t.delkey = some kv.1
      · rw [cell_eq_none_iff.mpr (Or.inr hdeleted), List.reduceOption_cons_of_none]
        simp [hempty, hdeleted]
        omega
      · rw [cell_eq_some_iff.mpr ⟨rfl, hempty, hdeleted⟩, List.reduceOption_cons_of_some,
          List.length_cons]
        simp [hempty, hdeleted]
        omega

/-! ### The way of a key -/

/-- The place of the `j`-th probe from `h` among `n` buckets. -/
def probe (n h j : ℕ) : ℕ := (h + triangular j) % n

/-- The bucket is in use. -/
def Used (t : DenseHash K V) (p : ℕ) : Prop := ∃ kv, t.table[p]? = some kv ∧ t.emptyval.1 ≠ kv.1

/-- The first `j` buckets on the way of the key are in use. -/
def Way (hash : K → U64) (t : DenseHash K V) (key : K) (j : ℕ) : Prop :=
  ∀ j' < j, t.Used (probe t.table.length (hash key).toNat j')

/-- Every element is on the way of its key, and the counters count. -/
structure Laid (hash : K → U64) (t : DenseHash K V) : Prop where
  pow : ∃ b, 2 ≤ b ∧ b ≤ 63 ∧ t.table.length = 2 ^ b
  markers : t.delkey ≠ some t.emptyval.1
  reached : ∀ {p : ℕ} {kv : K × V}, t.table[p]? = some kv → t.cell kv = some kv →
    ∃ j, probe t.table.length (hash kv.1).toNat j = p ∧ Way hash t kv.1 j
  nodup : (t.items.map Prod.fst).Nodup
  elements : t.numElements = t.table.countP fun kv => t.emptyval.1 ≠ kv.1
  deleted : t.numDeleted = t.table.countP fun kv => t.delkey = some kv.1
  room : t.numElements < t.table.length

namespace Laid

variable (h : Laid hash t)

include h

theorem length_items : t.items.length + t.numDeleted = t.numElements := by
  rw [h.deleted, h.elements]
  exact length_items_add_countP h.markers

theorem size_eq : t.size = t.items.length := by
  have hlen := h.length_items
  unfold size
  omega

theorem numDeleted_pos {p : ℕ} (hp : t.table[p]? = some kv) (hkv : t.delkey = some kv.1) :
    0 < t.numDeleted := by
  rw [h.deleted]
  exact List.countP_pos_iff.mpr ⟨kv, List.mem_of_getElem? hp, by simpa using hkv⟩

/-- The assertion of `test_deleted` holds, and the test is right. -/
theorem testDeleted {p : ℕ} (hp : t.table[p]? = some kv) :
    t.testDeleted kv = .ok (decide (t.delkey = some kv.1)) := by
  have hnone : ¬(t.delkey = none ∧ t.numDeleted ≠ 0) := by
    rintro ⟨hkey, hne⟩
    refine hne ?_
    rw [h.deleted, List.countP_eq_zero]
    intro kv _
    simp [hkey]
  rw [DenseHash.testDeleted, if_neg hnone]
  by_cases hkv : t.delkey = some kv.1
  · simp [hkv, h.numDeleted_pos hp hkv]
  · simp [hkv]

theorem and_mask (x : ℕ) : x &&& (t.bucketCount - 1) = x % t.table.length := by
  obtain ⟨b, -, -, hb⟩ := h.pow
  rw [bucketCount, hb, Nat.and_two_pow_sub_one_eq_mod]

theorem jump_probe (x j : ℕ) :
    t.jump (probe t.table.length x j) (j + 1) = probe t.table.length x (j + 1) := by
  rw [jump, h.and_mask, probe, probe, Nat.mod_add_mod, triangular_succ, add_assoc]

theorem length_pos : 0 < t.table.length := by
  have := h.room
  omega

/-- Some probe finds an empty bucket. -/
theorem exists_empty (x : ℕ) : ∃ j < t.table.length, ∃ kv,
    t.table[probe t.table.length x j]? = some kv ∧ t.emptyval.1 = kv.1 := by
  obtain ⟨b, -, -, hb⟩ := h.pow
  have hfree : ∃ kv ∈ t.table, t.emptyval.1 = kv.1 := by
    by_contra hall
    push Not at hall
    have hcount := h.room
    rw [h.elements, List.countP_eq_length.mpr (by simpa using hall)] at hcount
    exact Nat.lt_irrefl _ hcount
  obtain ⟨kv, hmem, hempty⟩ := hfree
  obtain ⟨q, hq⟩ := List.mem_iff_getElem?.mp hmem
  have hlt : q < 1 * 2 ^ b := by
    rw [one_mul, ← hb]
    exact (List.getElem?_eq_some_iff.mp hq).1
  obtain ⟨j, hj, i, hi, hplace⟩ := exists_window one_pos x hlt
  obtain rfl : i = 0 := by omega
  rw [one_mul, one_mul, add_zero, ← hb] at hplace
  exact ⟨j, hb ▸ hj, kv, by rw [probe, hplace]; exact hq, hempty⟩

end Laid

/-! ### Searches -/

/-- A place where the key can be put: an empty or erased bucket on its way. -/
structure Free (hash : K → U64) (t : DenseHash K V) (key : K) (p : ℕ) : Prop where
  marked : ∃ kv, t.table[p]? = some kv ∧ t.cell kv = none
  way : ∃ j, probe t.table.length (hash key).toNat j = p ∧ Way hash t key j

/-- The key is in the bucket. -/
def Holds (t : DenseHash K V) (key : K) (p : ℕ) : Prop :=
  ∃ kv, t.table[p]? = some kv ∧ t.cell kv = some kv ∧ kv.1 = key

/-- What a position says. -/
def Found (hash : K → U64) (t : DenseHash K V) (key : K) : Position → Prop
  | .there p => t.Holds key p
  | .insert p => key ∉ t.items.map Prod.fst ∧ Free hash t key p

omit [DecidableEq K] in
theorem bucketAt_of_getElem? (hp : t.table[p]? = some kv) : t.bucketAt p = .ok kv := by
  rw [bucketAt, hp]

/-- A key that was not met before an empty bucket is not there. -/
theorem Laid.notMem_of_empty (h : Laid hash t) {j : ℕ}
    (hempty : ¬t.Used (probe t.table.length (hash key).toNat j))
    (hmissed : ∀ j' < j, ¬t.Holds key (probe t.table.length (hash key).toNat j')) :
    key ∉ t.items.map Prod.fst := by
  intro hmem
  obtain ⟨kv, hkv, rfl⟩ := List.mem_map.mp hmem
  obtain ⟨p, hp, hcell⟩ := mem_items_iff.mp hkv
  obtain ⟨i, rfl, hway⟩ := h.reached hp hcell
  rcases Nat.lt_trichotomy i j with hlt | rfl | hgt
  · exact hmissed i hlt ⟨kv, hp, hcell, rfl⟩
  · exact hempty ⟨kv, hp, (cell_eq_some_iff.mp hcell).2.1⟩
  · exact hempty (hway j hgt)

/-- The buckets before the `j`-th probe are in use and do not hold the key, and the place
kept for an insertion is the first erased one of them. -/
structure Passed (hash : K → U64) (t : DenseHash K V) (key : K) (j : ℕ) (insertPos : Option ℕ) :
    Prop where
  way : Way hash t key j
  missed : ∀ j' < j, ¬t.Holds key (probe t.table.length (hash key).toNat j')
  free : ∀ p, insertPos = some p → Free hash t key p

theorem Passed.next {j : ℕ} {insertPos insertPos' : Option ℕ} (h : Passed hash t key j insertPos)
    (hused : t.Used (probe t.table.length (hash key).toNat j))
    (hmissed : ¬t.Holds key (probe t.table.length (hash key).toNat j))
    (hfree : ∀ p, insertPos' = some p → insertPos = some p ∨ Free hash t key p) :
    Passed hash t key (j + 1) insertPos' where
  way j' hj' := by
    rcases Nat.lt_succ_iff_lt_or_eq.mp hj' with hlt | rfl
    · exact h.way j' hlt
    · exact hused
  missed j' hj' := by
    rcases Nat.lt_succ_iff_lt_or_eq.mp hj' with hlt | rfl
    · exact h.missed j' hlt
    · exact hmissed
  free p hp := (hfree p hp).elim (h.free p) id

theorem findPositionLoop_spec (h : Laid hash t) {j₀ : ℕ} {e : K × V}
    (he : t.table[probe t.table.length (hash key).toNat j₀]? = some e) (hempty : t.emptyval.1 = e.1)
    (rounds : ℕ) {j : ℕ} (hj : j ≤ j₀) (hrounds : j₀ < rounds + j) {insertPos : Option ℕ}
    (hp : Passed hash t key j insertPos) :
    ∃ r, t.findPositionLoop key rounds (probe t.table.length (hash key).toNat j) j insertPos =
      .ok r ∧ Found hash t key r := by
  induction rounds generalizing j insertPos with
  | zero => omega
  | succ rounds ih =>
    have hlt : probe t.table.length (hash key).toNat j < t.table.length :=
      Nat.mod_lt _ h.length_pos
    obtain ⟨kv, hkv⟩ : ∃ kv, t.table[probe t.table.length (hash key).toNat j]? = some kv :=
      ⟨_, List.getElem?_eq_getElem hlt⟩
    rw [findPositionLoop, bucketAt_of_getElem? hkv, ok_bind]
    by_cases hstop : t.emptyval.1 = kv.1
    · have hnot : ¬t.Used (probe t.table.length (hash key).toNat j) := by
        rintro ⟨kv', hkv', hne⟩
        rw [hkv, Option.some.injEq] at hkv'
        exact hne (hkv' ▸ hstop)
      rw [testEmpty, if_pos (decide_eq_true hstop)]
      refine ⟨_, rfl, h.notMem_of_empty hnot hp.missed, ?_⟩
      cases insertPos with
      | none => exact ⟨⟨kv, hkv, cell_eq_none_iff.mpr (Or.inl hstop)⟩, j, rfl, hp.way⟩
      | some p => exact hp.free p rfl
    · have hused : t.Used (probe t.table.length (hash key).toNat j) := ⟨kv, hkv, hstop⟩
      have hne : j ≠ j₀ := by
        rintro rfl
        rw [hkv, Option.some.injEq] at he
        exact hstop (he ▸ hempty)
      rw [testEmpty, if_neg (by simpa using hstop), h.testDeleted hkv, ok_bind, h.jump_probe]
      by_cases hdeleted : t.delkey = some kv.1
      · rw [if_pos (decide_eq_true hdeleted)]
        have hmissed : ¬t.Holds key (probe t.table.length (hash key).toNat j) := by
          rintro ⟨kv', hkv', hcell, -⟩
          rw [hkv, Option.some.injEq] at hkv'
          exact (cell_eq_some_iff.mp hcell).2.2 (hkv' ▸ hdeleted)
        refine ih (by omega) (by omega) (hp.next hused hmissed fun p hpos => ?_)
        cases insertPos with
        | none =>
          rw [Option.getD_none, Option.some.injEq] at hpos
          subst hpos
          exact Or.inr ⟨⟨kv, hkv, cell_eq_none_iff.mpr (Or.inr hdeleted)⟩, j, rfl, hp.way⟩
        | some q => exact Or.inl hpos
      · rw [if_neg (by simpa using hdeleted)]
        by_cases hkey : key = kv.1
        · rw [if_pos hkey]
          exact ⟨_, rfl, kv, hkv, cell_eq_some_iff.mpr ⟨rfl, hstop, hdeleted⟩, hkey.symm⟩
        · rw [if_neg hkey]
          have hmissed : ¬t.Holds key (probe t.table.length (hash key).toNat j) := by
            rintro ⟨kv', hkv', -, heq⟩
            rw [hkv, Option.some.injEq] at hkv'
            exact hkey (hkv' ▸ heq.symm)
          exact ih (by omega) (by omega) (hp.next hused hmissed fun p hpos => Or.inl hpos)

/-- `find_position` ends without a failed assertion, and is right. -/
theorem Laid.findPosition (h : Laid hash t) (key : K) :
    ∃ r, t.findPosition hash key = .ok r ∧ Found hash t key r := by
  obtain ⟨j₀, hj₀, e, he, hempty⟩ := h.exists_empty (hash key).toNat
  have hstart : (hash key).toNat &&& (t.bucketCount - 1) =
      probe t.table.length (hash key).toNat 0 := h.and_mask _
  rw [DenseHash.findPosition, hstart]
  exact findPositionLoop_spec h he hempty _ (Nat.zero_le j₀) hj₀
    ⟨fun _ hj => absurd hj (Nat.not_lt_zero _), fun _ hj => absurd hj (Nat.not_lt_zero _), nofun⟩

/-- The search of `copy_from` finds an empty bucket on the way. -/
theorem emptyLoop_spec (h : Laid hash t) {j₀ : ℕ} {e : K × V}
    (he : t.table[probe t.table.length (hash key).toNat j₀]? = some e) (hempty : t.emptyval.1 = e.1)
    (rounds : ℕ) {j : ℕ} (hj : j ≤ j₀) (hrounds : j₀ < rounds + j) (hway : Way hash t key j) :
    ∃ p kv, t.emptyLoop rounds (probe t.table.length (hash key).toNat j) j = .ok p ∧
      t.table[p]? = some kv ∧ t.emptyval.1 = kv.1 ∧ Free hash t key p := by
  induction rounds generalizing j with
  | zero => omega
  | succ rounds ih =>
    have hlt : probe t.table.length (hash key).toNat j < t.table.length :=
      Nat.mod_lt _ h.length_pos
    obtain ⟨kv, hkv⟩ : ∃ kv, t.table[probe t.table.length (hash key).toNat j]? = some kv :=
      ⟨_, List.getElem?_eq_getElem hlt⟩
    rw [emptyLoop, bucketAt_of_getElem? hkv, ok_bind]
    by_cases hstop : t.emptyval.1 = kv.1
    · rw [testEmpty, if_pos (decide_eq_true hstop)]
      exact ⟨_, kv, rfl, hkv, hstop, ⟨kv, hkv, cell_eq_none_iff.mpr (Or.inl hstop)⟩, j, rfl, hway⟩
    · have hne : j ≠ j₀ := by
        rintro rfl
        rw [hkv, Option.some.injEq] at he
        exact hstop (he ▸ hempty)
      rw [testEmpty, if_neg (by simpa using hstop), h.jump_probe]
      refine ih (by omega) (by omega) fun j' hj' => ?_
      rcases Nat.lt_succ_iff_lt_or_eq.mp hj' with hlt' | rfl
      · exact hway j' hlt'
      · exact ⟨kv, hkv, hstop⟩

/-! ### Writing a bucket -/

omit [DecidableEq K] in
theorem setBucket_of_getElem? (hp : t.table[p]? = some kv) (e : K × V) :
    t.setBucket p e = .ok { t with table := t.table.set p e } :=
  if_pos (List.getElem?_eq_some_iff.mp hp).1

/-- The other table has `e` in the bucket and the same markers. -/
structure Written (t : DenseHash K V) (p : ℕ) (e : K × V) (t' : DenseHash K V) : Prop where
  table : t'.table = t.table.set p e
  emptyval : t'.emptyval = t.emptyval
  delkey : t'.delkey = t.delkey

section Written

variable {e : K × V} {t' : DenseHash K V}

omit [DecidableEq K] in
/-- A bucket in use stays in use when another key than the empty one is written. -/
theorem Written.used (h : Written t p e t') (he : t.emptyval.1 ≠ e.1) {q : ℕ} (hq : t.Used q) :
    t'.Used q := by
  obtain ⟨kv, hkv, hne⟩ := hq
  rw [Used, h.table, h.emptyval]
  by_cases hpq : p = q
  · subst hpq
    exact ⟨e, List.getElem?_set_self (List.getElem?_eq_some_iff.mp hkv).1, he⟩
  · exact ⟨kv, (List.getElem?_set_ne hpq).trans hkv, hne⟩

omit [DecidableEq K] in
theorem Written.length (h : Written t p e t') : t'.table.length = t.table.length := by
  rw [h.table, List.length_set]

omit [DecidableEq K] in
theorem Written.way (h : Written t p e t') (he : t.emptyval.1 ≠ e.1) {j : ℕ}
    (hway : Way hash t key j) : Way hash t' key j := by
  intro j' hj'
  rw [h.length]
  exact h.used he (hway j' hj')

theorem Written.cell (h : Written t p e t') : t'.cell = t.cell := by
  funext kv
  rw [DenseHash.cell, DenseHash.cell, h.emptyval, h.delkey]

/-- The elements after a bucket was written. -/
def itemsSet (t : DenseHash K V) (p : ℕ) (e : K × V) : List (K × V) :=
  ((t.table.map t.cell).set p (t.cell e)).reduceOption

theorem Written.items (h : Written t p e t') : t'.items = itemsSet t p e := by
  rw [DenseHash.items, itemsSet, h.cell, h.table, List.map_set]

end Written

section ItemsSet

variable (hp : t.table[p]? = some kv) {e : K × V}

include hp

theorem itemsSet_fill (hkv : t.cell kv = none) (he : t.cell e = some e) :
    (itemsSet t p e).Perm (e :: t.items) := by
  rw [itemsSet, he]
  exact reduceOption_fill ((getElem?_cells hp).trans (congrArg some hkv)) e

theorem itemsSet_clear (hkv : t.cell kv = some kv) (he : t.cell e = none) :
    (kv :: itemsSet t p e).Perm t.items := by
  rw [itemsSet, he]
  exact reduceOption_clear ((getElem?_cells hp).trans (congrArg some hkv))

theorem itemsSet_replace (hkv : t.cell kv = some kv) (he : t.cell e = some e) :
    ∃ rest, (kv :: rest).Perm t.items ∧ (itemsSet t p e).Perm (e :: rest) := by
  have hcell := (getElem?_cells hp).trans (congrArg some hkv)
  refine ⟨((t.table.map t.cell).set p none).reduceOption, reduceOption_clear hcell, ?_⟩
  have hfill : ((t.table.map t.cell).set p none)[p]? = some none :=
    List.getElem?_set_self (List.getElem?_eq_some_iff.mp hcell).1
  have hperm := reduceOption_fill hfill e
  rwa [List.set_set, ← he] at hperm

end ItemsSet

/-- A bucket is written with a key that belongs there. -/
theorem Laid.write (h : Laid hash t) (hp : t.table[p]? = some kv) {e : K × V} {t' : DenseHash K V}
    (hw : Written t p e t') (he : t.emptyval.1 ≠ e.1)
    (hway : t.cell e = some e → ∃ j, probe t.table.length (hash e.1).toNat j = p ∧ Way hash t e.1 j)
    (hnodup : ((itemsSet t p e).map Prod.fst).Nodup)
    (hne : t'.numElements = t.numElements + if t.emptyval.1 = kv.1 then 1 else 0)
    (hnd : t'.numDeleted + (if t.delkey = some kv.1 then 1 else 0) =
      t.numDeleted + if t.delkey = some e.1 then 1 else 0)
    (hroom : t'.numElements < t.table.length) : Laid hash t' := by
  have hlt : p < t.table.length := (List.getElem?_eq_some_iff.mp hp).1
  have hget : t.table[p] = kv := (List.getElem?_eq_some_iff.mp hp).2
  have hmem : kv ∈ t.table := List.mem_of_getElem? hp
  refine ⟨?_, ?_, fun {q e'} hq hcell => ?_, ?_, ?_, ?_, ?_⟩
  · rw [hw.length]
    exact h.pow
  · rw [hw.delkey, hw.emptyval]
    exact h.markers
  · rw [hw.table] at hq
    rw [hw.cell] at hcell
    rw [hw.length]
    by_cases hpq : p = q
    · subst hpq
      obtain rfl : e = e' := by
        rw [List.getElem?_set_self hlt] at hq
        exact Option.some.inj hq
      obtain ⟨j, hj, hway⟩ := hway hcell
      exact ⟨j, hj, hw.way he hway⟩
    · obtain ⟨j, hj, hway⟩ := h.reached ((List.getElem?_set_ne hpq).symm.trans hq) hcell
      exact ⟨j, hj, hw.way he hway⟩
  · rw [hw.items]
    exact hnodup
  · rw [hw.table, hw.emptyval, List.countP_set hlt, hget, ← h.elements, hne]
    by_cases hempty : t.emptyval.1 = kv.1
    · simp [hempty, hempty ▸ he]
    · have hpos : 0 < t.numElements := by
        rw [h.elements]
        exact List.countP_pos_iff.mpr ⟨kv, hmem, by simpa using hempty⟩
      simp [hempty, he]
      omega
  · rw [hw.table, hw.delkey, List.countP_set hlt, hget, ← h.deleted]
    by_cases hdeleted : t.delkey = some kv.1
    · have hpos := h.numDeleted_pos hp hdeleted
      simp only [hdeleted, decide_true, if_true] at hnd ⊢
      simp only [decide_eq_true_eq] at hnd ⊢
      omega
    · simp only [hdeleted, decide_false, Bool.false_eq_true, if_false, Nat.sub_zero] at hnd ⊢
      simpa using hnd
  · rw [hw.length]
    exact hroom

end EntropyLearnedHashing.DenseHash
