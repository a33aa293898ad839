import EntropyLearnedHashing.Library.MapRefinement
import EntropyLearnedHashing.Tables.RawResize

/-! Whole runs of `absl::flat_hash_map` with assignments and lookups. No assertion fails, no
slot is read before it is filled and no deleted byte ever has to be dropped, whatever the
hash function, the addresses and the random numbers are. Every run answers as a map does
unless the allocator refuses, and with room for three times as many slots as there are
keys it does not. -/

namespace EntropyLearnedHashing.RawHashSet

open Ctrl CircularArray

variable {K V : Type} {hash : K → U64} {mem : Memory} {allowed : RawFault → Prop}
  {t : RawHashSet K V} {key : K} {m : K → Option V}

/-! ### Insertion -/

/-- What is left to do after `prepare_insert`: the element is constructed. -/
structure Prepared (hash : K → U64) (t : RawHashSet K V) (key : K) (p : ℕ)
    (t' : RawHashSet K V) : Prop where
  lt : p < t'.slots.length
  valid : ∀ v, Valid hash { t' with slots := t'.slots.set p (some (key, v)) }
  perm : ∀ v, (items (t'.slots.set p (some (key, v)))).Perm ((key, v) :: items t.slots)
  capacity : t'.capacity = t.capacity ∨ t.growthLeft = 0 ∧ t'.capacity = t.capacity * 2 + 1

theorem Valid.setCounter (hv : Valid hash t) (c : U64) : Valid hash { t with counter := c } :=
  ⟨hv.toFilled.update t.size t.growthLeft t.allocations c, hv.count, hv.growth⟩

/-- The end of `prepare_insert`, in a table that may still grow. -/
theorem commitInsert_outcome {t₁ : RawHashSet K V} (hv : Valid hash t₁) (hpos : 0 < t₁.growthLeft)
    (hperm : (items t₁.slots).Perm (items t.slots))
    (hfresh : key ∉ (items t.slots).map Prod.fst)
    (hcapacity : t₁.capacity = t.capacity ∨ t.growthLeft = 0 ∧ t₁.capacity = t.capacity * 2 + 1)
    {info : FindInfo} (htarget : Target hash t₁ (hash key) info.offset) :
    Outcome allowed (fun r => Prepared hash t key r.1 r.2)
      (t₁.commitInsert info (hash key)) := by
  obtain ⟨q, -, hq⟩ := exists_none (hv.length_lt hpos)
  have hfresh₁ : key ∉ (items t₁.slots).map Prod.fst := by
    rwa [(hperm.map Prod.fst).mem_iff]
  obtain ⟨hnone, -⟩ := htarget.place ⟨q, hq⟩
  have hplt : info.offset < t₁.slots.length := (List.getElem?_eq_some_iff.mp hnone).1
  have hctrl : t₁.ctrlAt info.offset = .ok kEmpty := by
    have hslot : t₁.slots[info.offset] = none := (List.getElem?_eq_some_iff.mp hnone).2
    have hslots := hv.slots
    rw [hv.toLaid.ctrlAt (by rw [kWidth]; omega), byteAt_of_lt hplt, hslot, slotByte]
  have hfilled := hv.toFilled.update (t₁.size + 1) (t₁.growthLeft - 1) t₁.allocations t₁.counter
  obtain ⟨ctrl, hset, -, hplace⟩ := hfilled.place key ⟨htarget.le, htarget.place⟩
    ⟨q, hq⟩ hfresh₁
  have hempty : kEmpty.isEmpty = true := by decide
  unfold commitInsert
  rw [hctrl, ok_bind, if_neg (fun h => absurd h.2 hpos.ne'), if_pos hempty, hset, ok_bind]
  refine ⟨hplt, fun v => ⟨(hplace v).1, ?_, ?_⟩, fun v => ?_, hcapacity⟩
  · have hlen := (hplace v).2.length_eq
    rw [List.length_cons, ← hv.count] at hlen
    exact hlen.symm
  · have hgrowth := hv.growth
    dsimp only
    omega
  · exact (hplace v).2.trans (hperm.cons _)

theorem prepareInsert_outcome (hv : Valid hash t) (hfresh : key ∉ (items t.slots).map Prod.fst)
    (hlimit : allowed .memory ∨ (t.growthLeft = 0 → t.capacity * 2 + 1 ≤ mem.limit)) :
    Outcome allowed (fun r => Prepared hash t key r.1 r.2)
      (t.prepareInsert mem hash (hash key)) := by
  obtain ⟨info, c, hfind, htarget⟩ := hv.toLaid.findFirstNonFull mem hv.open (hash key)
  have hle := htarget.le
  have hv₀ := hv.setCounter c
  unfold prepareInsert
  rw [hfind, ok_bind]
  dsimp only
  rw [hv₀.toLaid.ctrlAt (by rw [kWidth]; dsimp only; omega), ok_bind, isDeleted_byteAt]
  by_cases hfull : t.growthLeft = 0
  · rw [if_pos ⟨hfull, Bool.false_ne_true⟩]
    refine (rehashAndGrowIfNecessary_outcome hv₀ hfull
      (hlimit.imp_right fun h => h hfull)).bind ?_
    rintro t₁ ⟨hv₁, hperm, hcapacity, hpos⟩
    obtain ⟨info₁, c₁, hfind₁, htarget₁⟩ := hv₁.toLaid.findFirstNonFull mem hv₁.open (hash key)
    rw [hfind₁, ok_bind]
    exact commitInsert_outcome (t := t) (hv₁.setCounter c₁) hpos hperm hfresh (Or.inr ⟨hfull, hcapacity⟩)
      ⟨htarget₁.le, htarget₁.place⟩
  · rw [if_neg fun h => hfull h.1]
    exact commitInsert_outcome (t := t) hv₀ (Nat.pos_of_ne_zero hfull) (List.Perm.refl _) hfresh
      (Or.inl rfl) ⟨htarget.le, htarget.place⟩

/-! ### Calls -/

variable [DecidableEq K]

theorem find_eq_some (hv : Valid hash t) {p : ℕ} {kv : K × V}
    (hkv : t.slots[p]? = some (some kv)) : t.find kv.1 (hash kv.1) = .ok (some p) := by
  obtain ⟨r, hr, hspec⟩ := hv.toFilled.find hv.open kv.1
  rw [hr]
  cases r with
  | some q =>
    obtain ⟨kv', hkv', hkey⟩ := hspec
    rw [index_inj hv.nodup hkv' hkv hkey]
  | none =>
    exact absurd (List.mem_map_of_mem (f := Prod.fst) (mem_items_iff.mpr ⟨p, hkv⟩)) hspec

theorem lookup_spec (hv : Valid hash t) (hm : Represents m (items t.slots)) (key : K) :
    t.lookup hash key = .ok (m key) := by
  obtain ⟨r, hr, hspec⟩ := hv.toFilled.find hv.open key
  unfold lookup
  rw [hr, ok_bind]
  cases r with
  | some p =>
    obtain ⟨kv, hkv, rfl⟩ := hspec
    dsimp only
    rw [slotAt_of_getElem? hkv, ok_bind, hm.iff_mem.mpr (mem_items_iff.mpr ⟨p, hkv⟩)]
    rfl
  | none =>
    dsimp only
    rw [hm.eq_none_iff.mpr hspec]
    rfl

/-- What an assignment leaves. -/
structure AssignEnd (hash : K → U64) (t : RawHashSet K V) (m : K → Option V) (key : K)
    (t' : RawHashSet K V) : Prop where
  valid : Valid hash t'
  represents : Represents m (items t'.slots)
  capacity : t'.capacity = t.capacity ∨ key ∉ (items t.slots).map Prod.fst ∧
    t.growthLeft = 0 ∧ t'.capacity = t.capacity * 2 + 1

/-- The value is assigned through the reference that `operator[]` returns. -/
theorem assignAt_outcome {t₁ : RawHashSet K V} {m₁ : K → Option V} (hv : Valid hash t₁)
    (hm : Represents m₁ (items t₁.slots)) {p : ℕ} {kv : K × V} (hkv : t₁.slots[p]? = some (some kv))
    (value : V)
    (hcapacity : t₁.capacity = t.capacity ∨ kv.1 ∉ (items t.slots).map Prod.fst ∧
      t.growthLeft = 0 ∧ t₁.capacity = t.capacity * 2 + 1) :
    Outcome allowed (AssignEnd hash t (Function.update m₁ kv.1 (some value)) kv.1)
      (do let kv ← t₁.slotAt p
          t₁.setSlot p (kv.1, value)) := by
  have hplt : p < t₁.slots.length := (List.getElem?_eq_some_iff.mp hkv).1
  obtain ⟨hfilled, hperm⟩ := hv.toFilled.setValue hkv value
  rw [slotAt_of_getElem? hkv, ok_bind, setSlot_of_lt hplt]
  refine ⟨⟨hfilled, ?_, hv.growth⟩, (hm.perm (reduceOption_clear hkv)).replace.perm hperm, hcapacity⟩
  have hlen := hperm.length_eq.trans (reduceOption_clear hkv).length_eq
  exact hv.count.trans hlen.symm

theorem findOrPrepareInsert_outcome (hv : Valid hash t) (key : K)
    (hlimit : allowed .memory ∨ (key ∉ (items t.slots).map Prod.fst → t.growthLeft = 0 →
      t.capacity * 2 + 1 ≤ mem.limit)) :
    Outcome allowed (fun r : ℕ × Bool × RawHashSet K V =>
      (∃ kv, r.2 = (false, t) ∧ t.slots[r.1]? = some (some kv) ∧ kv.1 = key) ∨
        r.2.1 = true ∧ key ∉ (items t.slots).map Prod.fst ∧ Prepared hash t key r.1 r.2.2)
      (t.findOrPrepareInsert mem hash key) := by
  obtain ⟨r, hr, hspec⟩ := hv.toFilled.find hv.open key
  unfold findOrPrepareInsert
  rw [hr, ok_bind]
  cases r with
  | some p =>
    obtain ⟨kv, hkv, hkey⟩ := hspec
    exact Or.inl ⟨kv, rfl, hkv, hkey⟩
  | none =>
    refine (prepareInsert_outcome hv hspec (hlimit.imp_right fun h => h hspec)).bind ?_
    intro r hprepared
    exact Or.inr ⟨rfl, hspec, hprepared⟩

/-- The assertion of `emplace_at` holds. -/
theorem emplaceAt_eq {t' : RawHashSet K V} {p : ℕ} (h : Prepared hash t key p t') (v : V) :
    t'.emplaceAt hash p (key, v) = .ok { t' with slots := t'.slots.set p (some (key, v)) } := by
  have hfind := find_eq_some (h.valid v) (List.getElem?_set_self (a := some (key, v)) h.lt)
  unfold emplaceAt
  rw [setSlot_of_lt h.lt, ok_bind, hfind, ok_bind, if_pos rfl]
  rfl

theorem assign_outcome [Inhabited V] (hv : Valid hash t) (hm : Represents m (items t.slots))
    (key : K) (value : V)
    (hlimit : allowed .memory ∨ (key ∉ (items t.slots).map Prod.fst → t.growthLeft = 0 →
      t.capacity * 2 + 1 ≤ mem.limit)) :
    Outcome allowed (AssignEnd hash t (Function.update m key (some value)) key)
      (t.assign mem hash key value) := by
  unfold assign
  refine (findOrPrepareInsert_outcome hv key hlimit).bind ?_
  rintro ⟨p, inserted, t₁⟩ (⟨kv, heq, hkv, rfl⟩ | ⟨htrue, hfresh, hprepared⟩)
  · obtain ⟨rfl, rfl⟩ := Prod.mk.inj heq
    exact assignAt_outcome hv hm hkv value (Or.inl rfl)
  · dsimp only at htrue hprepared ⊢
    rw [if_pos htrue, emplaceAt_eq hprepared default, ok_bind]
    have hm₁ := (hm.cons (v := default) hfresh).perm (hprepared.perm default)
    have hassign : Outcome allowed _ _ := assignAt_outcome (t := t) (hprepared.valid default) hm₁
      (List.getElem?_set_self (a := some (key, default)) hprepared.lt) value
      (hprepared.capacity.imp_right fun h => ⟨hfresh, h⟩)
    rw [Function.update_idem] at hassign
    exact hassign

/-! ### Runs -/

section Run

variable (mem : Memory) (hash : K → U64) [Inhabited V]

/-- A call on the table. -/
def call (t : RawHashSet K V) : StoreCall K V → Except RawFault (RawHashSet K V × MapReply V)
  | .assign key value => do
    let t ← t.assign mem hash key value
    return (t, .done)
  | .find key => do
    let v ← t.lookup hash key
    return (t, .value v)

/-- A new table and a run of calls on it. -/
def runTable (emptyGroupAddress : U64) (bucketCount : ℕ) (calls : List (StoreCall K V)) :
    Except RawFault (RawHashSet K V × List (MapReply V)) := do
  let t ← new mem emptyGroupAddress bucketCount
  runCalls (call mem hash) t calls

end Run

/-- The table holds what the map holds. -/
structure Refines (hash : K → U64) (t : RawHashSet K V) (m : K → Option V) : Prop where
  valid : Valid hash t
  represents : Represents m (items t.slots)

variable [Inhabited V]

/-- What one call does. -/
theorem call_outcome (h : Refines hash t m) (c : StoreCall K V)
    (hlimit : allowed .memory ∨ ∀ key, c.toMapCall.assigned = some key →
      key ∉ (items t.slots).map Prod.fst → t.growthLeft = 0 → t.capacity * 2 + 1 ≤ mem.limit) :
    Outcome allowed (fun r => Refines hash r.1 (c.toMapCall.spec m).1 ∧
      r.2 = (c.toMapCall.spec m).2 ∧
      (r.1.capacity = t.capacity ∨ ∃ key, c.toMapCall.assigned = some key ∧
        key ∉ (items t.slots).map Prod.fst ∧ t.growthLeft = 0 ∧
        r.1.capacity = t.capacity * 2 + 1)) (call mem hash t c) := by
  cases c with
  | assign key value =>
    refine (assign_outcome h.valid h.represents key value
      (hlimit.imp_right fun h => h key rfl)).bind ?_
    intro t' hend
    exact ⟨⟨hend.valid, hend.represents⟩, rfl,
      hend.capacity.imp_right fun hgrow => ⟨key, rfl, hgrow⟩⟩
  | find key =>
    rw [call, lookup_spec h.valid h.represents, ok_bind]
    exact ⟨h, rfl, Or.inl rfl⟩

omit [DecidableEq K] [Inhabited V] in
theorem exists_normalizeCapacity (n : ℕ) : ∃ k, 0 < k ∧ normalizeCapacity n + 1 = 2 ^ k := by
  unfold normalizeCapacity
  split_ifs with hn
  · exact ⟨1, one_pos, rfl⟩
  · have hsize : 0 < Nat.size n := Nat.size_pos.mpr (Nat.pos_of_ne_zero hn)
    set j := 64 - Nat.size n with hj
    have hsplit : 2 ^ (64 - j) * 2 ^ j = 2 ^ 64 := by
      rw [← pow_add, Nat.sub_add_cancel (by omega)]
    have hpos : 0 < 2 ^ (64 - j) := Nat.two_pow_pos _
    have hposj : 0 < 2 ^ j := Nat.two_pow_pos _
    have hdiv : (2 ^ 64 - 1) / 2 ^ j = 2 ^ (64 - j) - 1 := by
      refine Nat.div_eq_of_lt_le ?_ ?_
      · rw [Nat.sub_mul, one_mul, hsplit]
        omega
      · rw [Nat.sub_add_cancel hpos, hsplit]
        omega
    refine ⟨64 - j, by omega, ?_⟩
    rw [Nat.shiftRight_eq_div_pow, hdiv, Nat.sub_add_cancel hpos]

omit [DecidableEq K] [Inhabited V] in
theorem new_outcome (hash : K → U64) {bucketCount : ℕ} (emptyGroupAddress : U64)
    (hlimit : allowed .memory ∨ (0 < bucketCount → normalizeCapacity bucketCount ≤ mem.limit)) :
    Outcome allowed (fun t : RawHashSet K V => Refines hash t (fun _ => none) ∧
      t.capacity ≤ normalizeCapacity bucketCount) (new mem emptyGroupAddress bucketCount) := by
  unfold new
  dsimp only
  split_ifs with hzero
  · refine ⟨⟨⟨Filled.empty _, rfl, ?_⟩, Represents.empty⟩, Nat.zero_le _⟩
    simp [RawHashSet.empty, capacityToGrowth]
  · obtain ⟨k, hk, hpow⟩ := exists_normalizeCapacity bucketCount
    have htwo : 2 ^ 1 ≤ 2 ^ k := Nat.pow_le_pow_right two_pos hk
    rw [resetGrowthLeft_of_le (Nat.zero_le _), ok_bind]
    refine (initializeSlots_outcome hash hpow (by dsimp only; omega) (Nat.zero_le _)
      (hlimit.imp_right fun h => h (Nat.pos_of_ne_zero hzero))).mono ?_
    rintro t ⟨hfilled, hnil, hcapacity, hsize, hgrowth⟩
    have hsize' : t.size = 0 := hsize
    refine ⟨⟨⟨hfilled, ?_, ?_⟩, ?_⟩, hcapacity.le⟩
    · rw [hsize', hnil]
      rfl
    · rw [hsize', hcapacity]
      exact hgrowth
    · rw [hnil]
      exact Represents.empty

/-- Every run answers as a map does, unless the allocator refuses. -/
theorem runTable_refines_map (mem : Memory) (hash : K → U64) (emptyGroupAddress : U64)
    (bucketCount : ℕ) (calls : List (StoreCall K V)) :
    Outcome (fun f => f = .memory)
      (fun r => r.2 = (runSpec (fun m c => c.toMapCall.spec m) (fun _ => none) calls).2 ∧
        Represents (runSpec (fun m c => c.toMapCall.spec m) (fun _ => none) calls).1
          (items r.1.slots) ∧
        r.1.size = (items r.1.slots).length)
      (runTable mem hash emptyGroupAddress bucketCount calls) := by
  unfold runTable
  refine (new_outcome hash emptyGroupAddress (Or.inl (by rfl))).bind ?_
  rintro t ⟨hstart, -⟩
  refine (runCalls_refines (R := Refines hash) (fun m c => c.toMapCall.spec m) calls ?_
    hstart).mono ?_
  · intro t m c _ h
    refine (call_outcome h c (Or.inl (by rfl))).mono ?_
    rintro r ⟨href, hreply, -⟩
    exact ⟨href, hreply⟩
  · rintro r ⟨href, hreplies⟩
    exact ⟨hreplies, href.represents, href.valid.count⟩

omit [DecidableEq K] [Inhabited V] in
/-- A full table below the number of keys doubles to at most three slots for each. -/
theorem double_le_of_full (hv : Valid hash t) (hfull : t.growthLeft = 0) {n : ℕ}
    (hn : (items t.slots).length < n) : t.capacity * 2 + 1 ≤ 3 * n := by
  have hgrowth := hv.growth
  rw [hfull, hv.count, capacityToGrowth] at hgrowth
  omega

/-- With room for three slots for each distinct key, and for the slots the constructor asks
for, no run fails. -/
theorem runTable_never_fails (mem : Memory) (hash : K → U64) (emptyGroupAddress : U64)
    (bucketCount : ℕ) (calls : List (StoreCall K V))
    (hstart : normalizeCapacity bucketCount ≤ mem.limit)
    (hroom : 3 * (calls.filterMap fun c => c.toMapCall.assigned).toFinset.card ≤ mem.limit) :
    ∃ t, runTable mem hash emptyGroupAddress bucketCount calls =
        .ok (t, (runSpec (fun m c => c.toMapCall.spec m) (fun _ => none) calls).2) ∧
      t.capacity ≤ max (normalizeCapacity bucketCount)
        (3 * (calls.filterMap fun c => c.toMapCall.assigned).toFinset.card) := by
  set keys := (calls.filterMap fun c => c.toMapCall.assigned).toFinset with hkeys
  set bound := max (normalizeCapacity bucketCount) (3 * keys.card) with hbound
  have hrun : Outcome (fun _ => False)
      (fun r => r.2 = (runSpec (fun m c => c.toMapCall.spec m) (fun _ => none) calls).2 ∧
        r.1.capacity ≤ bound) (runTable mem hash emptyGroupAddress bucketCount calls) := by
    unfold runTable
    refine (new_outcome hash emptyGroupAddress (Or.inr fun _ => hstart)).bind ?_
    rintro t ⟨href, hcapacity⟩
    refine (runCalls_refines (fun m c => c.toMapCall.spec m)
      (R := fun t m => Refines hash t m ∧ Within keys m ∧ t.capacity ≤ bound) calls
      (fun t m c hc h => ?_) ⟨href, fun _ _ => rfl, hcapacity.trans (le_max_left _ _)⟩).mono ?_
    · obtain ⟨href, hwithin, hle⟩ := h
      have hassigned : ∀ key, c.toMapCall.assigned = some key → key ∈ keys := by
        intro key hkey
        rw [hkeys]
        exact List.mem_toFinset.mpr (List.mem_filterMap.mpr ⟨c, hc, hkey⟩)
      have hdouble : ∀ key, c.toMapCall.assigned = some key →
          key ∉ (items t.slots).map Prod.fst → t.growthLeft = 0 →
          t.capacity * 2 + 1 ≤ 3 * keys.card := fun key hkey hfresh hfull =>
        double_le_of_full href.valid hfull
          (href.represents.length_lt_card hwithin (hassigned key hkey) hfresh)
      refine (call_outcome href c (Or.inr fun key hkey hfresh hfull =>
        (hdouble key hkey hfresh hfull).trans hroom)).mono ?_
      rintro r ⟨href', hreply, hgrow⟩
      refine ⟨⟨href', hwithin.spec hassigned, ?_⟩, hreply⟩
      rcases hgrow with hsame | ⟨key, hkey, hfresh, hfull, hcap⟩
      · rw [hsame]
        exact hle
      · rw [hcap]
        exact (hdouble key hkey hfresh hfull).trans (le_max_right _ _)
    · rintro r ⟨⟨-, -, hle⟩, hreplies⟩
      exact ⟨hreplies, hle⟩
  obtain ⟨⟨t, replies⟩, hok, rfl, hle⟩ := hrun.exists_ok
  exact ⟨t, hok, hle⟩

/-- An allocator that gives up to a hundred slots, all at one address. -/
def hundredSlots : Memory := ⟨fun _ => 0, fun _ => 0, 100, by decide, 0⟩

/-- A table that starts with a single slot, and one hash for all keys. -/
theorem runTable_never_fails_constant_hash :
    ∃ t, runTable hundredSlots (fun _ : ℕ => 0) 0 1
        [.assign 1 10, .assign 2 20, .find 1, .assign 1 11, .find 1, .find 3] =
        .ok (t, [.done, .done, .value (some 10), .done, .value (some 11), .value none]) ∧
      t.capacity ≤ 6 := by
  obtain ⟨t, hok, hle⟩ := runTable_never_fails (V := ℕ) hundredSlots (fun _ : ℕ => 0) 0 1
    [.assign 1 10, .assign 2 20, .find 1, .assign 1 11, .find 1, .find 3]
    (by decide) (by decide)
  exact ⟨t, hok, hle.trans (by decide)⟩

end EntropyLearnedHashing.RawHashSet
