import EntropyLearnedHashing.Tables.RawProbe

/-! Filling and growing `raw_hash_set`. A fresh key in the first group of its probe with an
empty byte keeps the invariant, since groups only fill up. A table whose growth is used
up is copied slot by slot into one of twice the size; the growth of seven eighths leaves
an empty byte in it. -/

namespace EntropyLearnedHashing.RawHashSet

open Ctrl CircularArray

variable {K V : Type} {hash : K → U64} {mem : Memory} {allowed : RawFault → Prop}
  {t : RawHashSet K V} {slots : Slots K V} {p : ℕ}

/-! ### One key -/

theorem Blocked.set {o : ℕ} (h : Blocked hash slots o) (hp : p < slots.length) (kv : K × V) :
    Blocked hash (slots.set p (some kv)) o := by
  intro i hi
  rw [byteAt_set hp]
  split_ifs
  · exact H2_ne_kEmpty _
  · exact h i hi

theorem Reached.set {seed : U64} {key : K} {q : ℕ} (h : Reached hash seed slots key q)
    (hp : p < slots.length) (kv : K × V) :
    Reached hash seed (slots.set p (some kv)) key q := by
  obtain ⟨j, i, hi, hle, hplace, hblocked⟩ := h
  refine ⟨j, i, hi, ?_, ?_, fun j' hj' => ?_⟩
  · rwa [List.length_set]
  · rwa [List.length_set]
  · rw [List.length_set]
    exact (hblocked j' hj').set hp kv

/-- The fields that the invariant does not read. -/
theorem Filled.update (h : Filled hash t) (size growthLeft allocations : ℕ) (counter : U64) :
    Filled hash { t with
      size := size, growthLeft := growthLeft, allocations := allocations, counter := counter } :=
  ⟨⟨h.slots, h.capacity, h.length, h.ctrl⟩, h.reached, h.nodup⟩

/-- A fresh key in a target. -/
theorem Filled.place (h : Filled hash t) (key : K) (htarget : Target hash t (hash key) p)
    (hempty : ∃ q : ℕ, t.slots[q]? = some none) (hfresh : key ∉ (items t.slots).map Prod.fst) :
    ∃ ctrl, t.setCtrl p (H2 (hash key)) = .ok { t with ctrl := ctrl } ∧ p < t.slots.length ∧
      ∀ v, Filled hash { t with ctrl := ctrl, slots := t.slots.set p (some (key, v)) } ∧
        (items (t.slots.set p (some (key, v)))).Perm ((key, v) :: items t.slots) := by
  obtain ⟨hnone, j, i, hi, hle, hplace, hblocked⟩ := htarget.place hempty
  have hlt : p < t.slots.length := (List.getElem?_eq_some_iff.mp hnone).1
  have hslots := h.slots
  obtain ⟨ctrl, hctrl, hlen, hbytes⟩ := h.toLaid.setCtrl (by omega : p < t.capacity) key
  refine ⟨ctrl, hctrl, hlt, fun v => ⟨⟨⟨?_, h.capacity, ?_, ?_⟩, ?_, ?_⟩, reduceOption_fill hnone _⟩⟩
  · rw [List.length_set]
    exact hslots
  · rw [hlen]
    exact h.length
  · intro x hx
    exact hbytes v x hx
  · intro q kv' hq
    rw [List.getElem?_set] at hq
    split_ifs at hq with hpq
    · obtain rfl : (key, v) = kv' := by simpa using hq
      refine ⟨j, i, hi, ?_, ?_, fun j' hj' => ?_⟩
      · rw [List.length_set, hslots]
        exact hle
      · rw [List.length_set, hslots, ← hpq]
        exact hplace
      · rw [List.length_set, hslots]
        exact (hblocked j' hj').set hlt _
    · exact (h.reached hq).set hlt _
  · rw [((reduceOption_fill hnone (key, v)).map Prod.fst).nodup_iff]
    exact List.nodup_cons.mpr ⟨hfresh, h.nodup⟩

/-- Another value for a key. -/
theorem Filled.setValue (h : Filled hash t) {kv : K × V} (hkv : t.slots[p]? = some (some kv))
    (v : V) : Filled hash { t with slots := t.slots.set p (some (kv.1, v)) } ∧
      (items (t.slots.set p (some (kv.1, v)))).Perm ((kv.1, v) :: items (t.slots.set p none)) := by
  have hlt : p < t.slots.length := (List.getElem?_eq_some_iff.mp hkv).1
  have hperm : (items (t.slots.set p (some (kv.1, v)))).Perm
      ((kv.1, v) :: items (t.slots.set p none)) := by
    have hfill := reduceOption_fill (List.getElem?_set_self (a := none) hlt) (kv.1, v)
    rwa [List.set_set] at hfill
  have hbyte : ∀ x, byteAt hash (t.slots.set p (some (kv.1, v))) x = byteAt hash t.slots x := by
    intro x
    rw [byteAt_set hlt]
    split_ifs with hx
    · rw [byteAt, if_pos hx.1, hx.2, ringByte_of_getElem? hkv, slotByte]
    · rfl
  refine ⟨⟨⟨?_, h.capacity, h.length, ?_⟩, ?_, ?_⟩, hperm⟩
  · rw [List.length_set]
    exact h.slots
  · intro x hx
    rw [hbyte]
    exact h.ctrl x hx
  · intro q kv' hq
    rw [List.getElem?_set] at hq
    split_ifs at hq with hpq
    · obtain rfl : (kv.1, v) = kv' := by simpa using hq
      have hreached := h.reached hkv
      rw [hpq] at hreached
      exact hreached.set hlt _
    · exact (h.reached hq).set hlt _
  · rw [(hperm.map Prod.fst).nodup_iff]
    exact ((reduceOption_clear hkv).map Prod.fst).nodup_iff.mpr h.nodup

/-! ### Between two calls -/

/-- What holds of a table between any two calls. -/
structure Valid (hash : K → U64) (t : RawHashSet K V) : Prop extends Filled hash t where
  count : t.size = (items t.slots).length
  growth : t.growthLeft + t.size = capacityToGrowth t.capacity

theorem capacityToGrowth_lt {n : ℕ} (hn : 15 ≤ n) : capacityToGrowth n < n := by
  rw [capacityToGrowth]
  omega

theorem Valid.length_lt (hv : Valid hash t) (hpos : 0 < t.growthLeft) :
    (items t.slots).length < t.slots.length := by
  have hgrowth := hv.growth
  have hcount := hv.count
  rw [hv.slots]
  rw [capacityToGrowth] at hgrowth
  omega

theorem Valid.open (hv : Valid hash t) : Open t := by
  rcases Nat.lt_or_ge t.capacity 15 with hsmall | hlarge
  · exact Or.inr hsmall
  · refine open_of_length_lt ?_
    have hgrowth := hv.growth
    have hlt := capacityToGrowth_lt hlarge
    rw [hv.slots, ← hv.count]
    omega

/-! ### New tables -/

theorem byteAt_replicate (hash : K → U64) {n x : ℕ} :
    byteAt hash (List.replicate n (none : Option (K × V))) x = if x = n then kSentinel else kEmpty := by
  rw [byteAt, List.length_replicate]
  by_cases hx : x ≤ 2 * n
  · rw [if_pos hx, ringByte, List.getElem?_replicate]
    rcases Nat.lt_trichotomy x n with hlt | rfl | hgt
    · rw [Nat.mod_eq_of_lt (by omega), if_pos hlt, if_neg hlt.ne]
      rfl
    · rw [Nat.mod_eq_of_lt (by omega), if_neg (Nat.lt_irrefl x), if_pos rfl]
    · rw [Nat.mod_eq_sub_mod (by omega), Nat.mod_eq_of_lt (by omega), if_pos (by omega),
        if_neg (by omega)]
      rfl
  · rw [if_neg hx, if_neg (by omega)]

theorem items_replicate (n : ℕ) : items (List.replicate n (none : Option (K × V))) = [] :=
  List.reduceOption_replicate_none

theorem Filled.empty (emptyGroupAddress : U64) :
    Filled hash (RawHashSet.empty emptyGroupAddress : RawHashSet K V) where
  slots := rfl
  capacity := ⟨0, Nat.zero_le _, rfl⟩
  length h := absurd h (Nat.lt_irrefl 0)
  ctrl x hx := by
    have hbyte := byteAt_replicate (V := V) hash (n := 0) (x := x)
    rw [List.replicate_zero] at hbyte
    change (kSentinel :: List.replicate 15 kEmpty)[x]? = some (byteAt hash [] x)
    rw [hbyte]
    cases x with
    | zero => rfl
    | succ x =>
      rw [List.getElem?_cons_succ, List.getElem?_replicate, if_neg (Nat.succ_ne_zero x)]
      refine if_pos ?_
      change x + 1 < 0 + kWidth at hx
      rw [kWidth] at hx
      omega
  reached h := by
    change ([] : Slots K V)[_]? = _ at h
    rw [List.getElem?_nil] at h
    cases h
  nodup := List.nodup_nil

theorem resetGrowthLeft_of_le (h : t.size ≤ capacityToGrowth t.capacity) :
    t.resetGrowthLeft = .ok { t with growthLeft := capacityToGrowth t.capacity - t.size } := if_pos h

/-- The slots that `initialize_slots` makes. -/
theorem initializeSlots_outcome (hash : K → U64) {m : ℕ} (hm : t.capacity + 1 = 2 ^ m)
    (hpos : 0 < t.capacity) (hsize : t.size ≤ capacityToGrowth t.capacity)
    (hlimit : allowed .memory ∨ t.capacity ≤ mem.limit) :
    Outcome allowed (fun t' => Filled hash t' ∧ items t'.slots = [] ∧ t'.capacity = t.capacity ∧
      t'.size = t.size ∧ t'.growthLeft + t.size = capacityToGrowth t.capacity)
      (t.initializeSlots mem) := by
  unfold initializeSlots
  rw [if_neg (by omega)]
  split_ifs with hbig
  · exact hlimit.resolve_right (by omega)
  · rw [resetGrowthLeft_of_le (by exact hsize)]
    have hm63 : m ≤ 63 := by
      have hlt := mem.limit_lt
      have hpow : 2 ^ m ≤ 2 ^ 63 := by omega
      exact (Nat.pow_le_pow_iff_right (by norm_num)).mp hpow
    refine ⟨⟨⟨List.length_replicate, ⟨m, hm63, hm⟩, fun _ => ?_, fun x hx => ?_⟩, fun h => ?_, ?_⟩,
      items_replicate _, rfl, rfl, Nat.sub_add_cancel hsize⟩
    · simp only [List.length_set, List.length_append, List.length_replicate, List.length_singleton]
      omega
    · dsimp only at hx ⊢
      rw [byteAt_replicate, List.getElem?_set]
      by_cases hxn : x = t.capacity
      · have hlt : t.capacity <
            (List.replicate (t.capacity + kWidth) kEmpty ++ [mem.garbage t.allocations]).length := by
          rw [List.length_append, List.length_replicate, List.length_singleton]
          omega
        rw [if_pos hxn.symm, if_pos hxn, if_pos hlt]
      · rw [if_neg (Ne.symm hxn), if_neg hxn, List.getElem?_append_left (by simpa using hx),
          List.getElem?_replicate, if_pos hx]
    · dsimp only at h
      rw [List.getElem?_replicate] at h
      split_ifs at h
      cases h
    · dsimp only
      rw [items_replicate]
      exact List.nodup_nil

/-! ### Resize -/

theorem setSlot_of_lt (hp : p < t.slots.length) (kv : K × V) :
    t.setSlot p kv = .ok { t with slots := t.slots.set p (some kv) } := if_pos hp

/-- The table into which the first slots have been moved. -/
structure Moved (hash : K → U64) (old new : RawHashSet K V) (n : ℕ) (t : RawHashSet K V) : Prop where
  filled : Filled hash t
  capacity : t.capacity = new.capacity
  size : t.size = new.size
  growthLeft : t.growthLeft = new.growthLeft
  perm : (items t.slots).Perm (items (old.slots.take n))

theorem transfer_spec (mem : Memory) {old new : RawHashSet K V} {n : ℕ} (hold : Filled hash old)
    (hlt : old.capacity < new.capacity) (hn : n < old.capacity) (h : Moved hash old new n t) :
    ∃ t', transfer mem hash old t n = .ok t' ∧ Moved hash old new (n + 1) t' := by
  have hslots := hold.slots
  have hnlt : n < old.slots.length := by omega
  have hcell := List.getElem?_eq_getElem hnlt
  have htake : items (old.slots.take (n + 1)) =
      items (old.slots.take n) ++ old.slots[n].toList := by
    rw [items, items, List.take_add_one, List.reduceOption_append, hcell, Option.toList_some,
      List.reduceOption_singleton]
  unfold transfer
  rw [hold.toLaid.ctrlAt (by rw [kWidth]; omega), ok_bind, byteAt_of_lt hnlt]
  cases hslot : old.slots[n] with
  | none =>
    rw [hslot, Option.toList_none, List.append_nil] at htake
    have hempty : (slotByte hash (none : Option (K × V))).isFull = false := by
      rw [slotByte]
      decide
    rw [hempty, if_neg Bool.false_ne_true]
    exact ⟨t, rfl, h.filled, h.capacity, h.size, h.growthLeft, by rw [htake]; exact h.perm⟩
  | some kv =>
    rw [hslot, Option.toList_some] at htake
    rw [hslot] at hcell
    rw [slotByte, isFull_H2, if_pos rfl, slotAt_of_getElem? hcell, ok_bind]
    have hlength : (items t.slots).length < t.slots.length := by
      rw [h.perm.length_eq, h.filled.slots, h.capacity]
      have hle := List.reduceOption_length_le (old.slots.take n)
      rw [List.length_take] at hle
      change (old.slots.take n).reduceOption.length < _
      omega
    have hfresh : kv.1 ∉ (items t.slots).map Prod.fst := by
      rw [(h.perm.map Prod.fst).mem_iff]
      have hsub : (items (old.slots.take (n + 1))).Sublist (items old.slots) :=
        (List.take_sublist _ _).filterMap _
      have hnodup := hold.nodup.sublist (hsub.map Prod.fst)
      rw [htake, List.map_append, List.nodup_append] at hnodup
      exact fun hmem => hnodup.2.2 _ hmem _ (by simp) rfl
    obtain ⟨info, c, hfind, htarget⟩ :=
      h.filled.toLaid.findFirstNonFull mem (open_of_length_lt hlength) (hash kv.1)
    obtain ⟨q, -, hq⟩ := exists_none hlength
    have hfilled := h.filled.update t.size t.growthLeft t.allocations c
    obtain ⟨ctrl, hctrl, hplt, hplace⟩ := hfilled.place kv.1
      ⟨htarget.le, htarget.place⟩ ⟨q, hq⟩ hfresh
    rw [hfind, ok_bind]
    dsimp only at hctrl hplt hplace ⊢
    rw [hctrl, ok_bind]
    obtain ⟨hdone, hperm⟩ := hplace kv.2
    refine ⟨_, if_pos hplt, hdone, h.capacity, h.size, h.growthLeft, hperm.trans ?_⟩
    rw [htake]
    exact (h.perm.cons _).trans (List.perm_append_singleton _ _).symm

theorem resize_outcome (mem : Memory) (hv : Valid hash t) {n m : ℕ} (hm : n + 1 = 2 ^ m) (hlt : t.capacity < n)
    (hsize : t.size ≤ capacityToGrowth n) (hlimit : allowed .memory ∨ n ≤ mem.limit) :
    Outcome allowed (fun t' => Valid hash t' ∧ (items t'.slots).Perm (items t.slots) ∧
      t'.capacity = n) (t.resize mem hash n) := by
  have hvalid : isValidCapacity n = true := by
    have hand : (n + 1) &&& n = 0 := by
      rw [hm, show n = 2 ^ m - 1 by omega, Nat.and_two_pow_sub_one_eq_mod, Nat.mod_self]
    rw [isValidCapacity, hand]
    simp
    omega
  unfold resize
  rw [hvalid]
  refine (initializeSlots_outcome (t := { t with capacity := n }) hash hm (by simp; omega)
    hsize hlimit).bind ?_
  rintro new ⟨hfilled, hnil, hcapacity, hsame, hgrowth⟩
  dsimp only at hcapacity hsame hgrowth
  have hstart : Moved hash t new 0 new :=
    ⟨hfilled, rfl, rfl, rfl, by rw [hnil]; exact List.Perm.nil⟩
  have hloop : ∀ k ≤ t.capacity, ∃ t',
      (List.range k).foldlM (transfer mem hash t) new = .ok t' ∧ Moved hash t new k t' := by
    intro k hk
    induction k with
    | zero => exact ⟨new, rfl, hstart⟩
    | succ k ih =>
      obtain ⟨t', hfold, hmoved⟩ := ih (by omega)
      obtain ⟨t'', hstep, hmoved'⟩ := transfer_spec mem hv.toFilled
        (by rw [hcapacity]; exact hlt) hk hmoved
      refine ⟨t'', ?_, hmoved'⟩
      rw [List.range_succ, List.foldlM_append, hfold]
      simp [hstep]
  obtain ⟨t', hfold, hmoved⟩ := hloop t.capacity le_rfl
  rw [hfold]
  have hperm := hmoved.perm
  rw [← hv.slots, List.take_length] at hperm
  refine ⟨⟨hmoved.filled, ?_, ?_⟩, hperm, hmoved.capacity.trans hcapacity⟩
  · rw [hmoved.size, hsame, hv.count, hperm.length_eq]
  · rw [hmoved.growthLeft, hmoved.size, hsame, hmoved.capacity, hcapacity]
    exact hgrowth

/-- Only a table whose growth is used up is rehashed, and then it grows. -/
theorem rehashAndGrowIfNecessary_outcome (hv : Valid hash t) (hfull : t.growthLeft = 0)
    (hlimit : allowed .memory ∨ t.capacity * 2 + 1 ≤ mem.limit) :
    Outcome allowed (fun t' => Valid hash t' ∧ (items t'.slots).Perm (items t.slots) ∧
      t'.capacity = t.capacity * 2 + 1 ∧ 0 < t'.growthLeft)
      (t.rehashAndGrowIfNecessary mem hash) := by
  have hgrowth := hv.growth
  rw [hfull, zero_add] at hgrowth
  obtain ⟨m, -, hm⟩ := hv.capacity
  have hm' : t.capacity * 2 + 1 + 1 = 2 ^ (m + 1) := by
    rw [pow_succ, ← hm]
    omega
  have hless : t.size < capacityToGrowth (t.capacity * 2 + 1) := by
    rw [hgrowth, capacityToGrowth, capacityToGrowth]
    omega
  have hresize := resize_outcome mem hv hm' (by omega) hless.le hlimit
  have hgrown : Outcome allowed (fun t' => Valid hash t' ∧ (items t'.slots).Perm (items t.slots) ∧
      t'.capacity = t.capacity * 2 + 1 ∧ 0 < t'.growthLeft)
      (t.resize mem hash (t.capacity * 2 + 1)) := by
    refine hresize.mono ?_
    rintro t' ⟨hv', hperm, hcapacity⟩
    refine ⟨hv', hperm, hcapacity, ?_⟩
    have hgrowth' := hv'.growth
    have hcount := hperm.length_eq
    rw [hcapacity] at hgrowth'
    rw [← hv.count, ← hv'.count] at hcount
    omega
  unfold rehashAndGrowIfNecessary
  by_cases hzero : t.capacity = 0
  · rw [if_pos hzero]
    rw [hzero] at hgrown ⊢
    exact hgrown
  · have hnot : ¬t.size ≤ capacityToGrowth t.capacity / 2 := by
      rw [hgrowth, capacityToGrowth]
      omega
    rw [if_neg hzero, if_neg hnot]
    exact hgrown

end EntropyLearnedHashing.RawHashSet
