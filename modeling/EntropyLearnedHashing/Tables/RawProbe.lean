import EntropyLearnedHashing.Tables.RawLayout

/-! The probe loops of `raw_hash_set`. Every key lies in the first group of its probe that has
an empty byte, or before it. So a lookup may stop at such a group, and an insertion puts
its key into one. -/

namespace EntropyLearnedHashing.RawHashSet

open Ctrl CircularArray

variable {K V : Type} {hash : K → U64} {t : RawHashSet K V} {slots : Slots K V} {key : K}
  {a j i o p : ℕ}

/-! ### The invariant -/

/-- The probe of the key comes to the place before any group with an empty byte is behind it. -/
def Reached (hash : K → U64) (seed : U64) (slots : Slots K V) (key : K) (p : ℕ) : Prop :=
  ∃ j, ∃ i < kWidth, window slots.length (H1 (hash key) seed).toNat j + i ≤ 2 * slots.length ∧
    (window slots.length (H1 (hash key) seed).toNat j + i) % (slots.length + 1) = p ∧
    ∀ j' < j, Blocked hash slots (window slots.length (H1 (hash key) seed).toNat j')

/-- The keys with their values. -/
abbrev items (slots : Slots K V) : List (K × V) := slots.reduceOption

/-- What holds of a table while it is filled. -/
structure Filled (hash : K → U64) (t : RawHashSet K V) : Prop extends Laid hash t where
  reached : ∀ {p kv}, t.slots[p]? = some (some kv) → Reached hash t.seed t.slots kv.1 p
  nodup : ((items t.slots).map Prod.fst).Nodup

/-- A probe of the table ends. -/
def Open (t : RawHashSet K V) : Prop := (∃ p : ℕ, t.slots[p]? = some none) ∨ t.capacity < 15

theorem open_of_length_lt (h : (items t.slots).length < t.slots.length) : Open t := by
  obtain ⟨p, -, hp⟩ := exists_none h
  exact Or.inl ⟨p, hp⟩

theorem mem_items_iff {kv : K × V} : kv ∈ items slots ↔ ∃ p : ℕ, slots[p]? = some (some kv) :=
  mem_reduceOption_iff_getElem?

/-! ### Lookup -/

/-- The key is not in the group. -/
def Misses (slots : Slots K V) (key : K) (o : ℕ) : Prop :=
  ∀ i < kWidth, o + i ≤ 2 * slots.length → ∀ kv,
    slots[(o + i) % (slots.length + 1)]? = some (some kv) → kv.1 ≠ key

theorem slotAt_of_getElem? {kv : K × V} (h : t.slots[p]? = some (some kv)) : t.slotAt p = .ok kv := by
  rw [slotAt, h]

/-- A key in the group is among its matches. -/
theorem misses_of_matches (h : Laid hash t)
    (hnone : ∀ i ∈ Group.matchHash (bytes hash t.slots o) (H2 (hash key)), ∀ kv,
      t.slots[(o + i) % (t.capacity + 1)]? = some (some kv) → kv.1 ≠ key) :
    Misses t.slots key o := by
  intro i hi hle kv hkv heq
  have hbyte : byteAt hash t.slots (o + i) = H2 (hash key) := by
    rw [byteAt, if_pos hle, ringByte_of_getElem? hkv, slotByte, heq]
  rw [h.slots] at hkv
  exact hnone i (mem_matchHash.mpr ⟨hi, hbyte⟩) kv hkv heq

variable [DecidableEq K]

/-- The loop over the matches of a group compares all their keys. -/
theorem matchLoop_spec (key : K) (h : Laid hash t) (l : List ℕ)
    (hl : ∀ i ∈ l, byteAt hash t.slots (window t.capacity a j + i) = H2 (hash key)) :
    ∃ r, t.matchLoop key (seqAt t.capacity a j) l = .ok r ∧ match r with
      | some p => ∃ kv, t.slots[p]? = some (some kv) ∧ kv.1 = key
      | none => ∀ i ∈ l, ∀ kv, t.slots[(window t.capacity a j + i) % (t.capacity + 1)]? =
          some (some kv) → kv.1 ≠ key := by
  induction l with
  | nil => exact ⟨none, rfl, fun i hi => absurd hi List.not_mem_nil⟩
  | cons i l ih =>
    have hbyte := hl i List.mem_cons_self
    obtain ⟨kv, hkv⟩ : ∃ kv, t.slots[(window t.capacity a j + i) % (t.capacity + 1)]? =
        some (some kv) := by
      have hmsb := msb_H2 (hash key)
      rw [← hbyte] at hmsb
      obtain ⟨hempty, -⟩ | ⟨hsentinel, -⟩ | ⟨kv, -, -, hkv⟩ :=
        byteAt_cases hash t.slots (window t.capacity a j + i)
      · rw [hempty] at hmsb
        cases hmsb
      · rw [hsentinel] at hmsb
        cases hmsb
      · rw [h.slots] at hkv
        exact ⟨kv, hkv⟩
    rw [matchLoop, h.offsetAt_seqAt, slotAt_of_getElem? hkv, ok_bind]
    by_cases hkey : kv.1 = key
    · rw [if_pos hkey]
      exact ⟨_, rfl, kv, hkv, hkey⟩
    · rw [if_neg hkey]
      obtain ⟨r, hr, hspec⟩ := ih fun i hi => hl i (List.mem_cons_of_mem _ hi)
      refine ⟨r, hr, ?_⟩
      cases r with
      | some p => exact hspec
      | none =>
        intro i' hi' kv' hkv'
        rcases List.mem_cons.mp hi' with rfl | hmem
        · obtain rfl : kv = kv' := by simpa [hkv] using hkv'
          exact hkey
        · exact hspec i' hmem kv' hkv'

theorem findLoop_spec (key : K) (h : Laid hash t) {j₀ : ℕ}
    (hopen : ¬Blocked hash t.slots (window t.capacity a j₀)) {rounds j : ℕ} (hj : j ≤ j₀)
    (hrounds : j₀ < rounds + j)
    (hpassed : ∀ j' < j, Blocked hash t.slots (window t.capacity a j') ∧
      Misses t.slots key (window t.capacity a j')) :
    ∃ r, t.findLoop key (hash key) rounds (seqAt t.capacity a j) = .ok r ∧ match r with
      | some p => ∃ kv, t.slots[p]? = some (some kv) ∧ kv.1 = key
      | none => ∃ j, ¬Blocked hash t.slots (window t.capacity a j) ∧
          ∀ j' ≤ j, Misses t.slots key (window t.capacity a j') := by
  induction rounds generalizing j with
  | zero => omega
  | succ rounds ih =>
    obtain ⟨r, hr, hspec⟩ := matchLoop_spec (a := a) (j := j) key h
      (Group.matchHash (bytes hash t.slots (window t.capacity a j)) (H2 (hash key)))
      fun i hi => (mem_matchHash.mp hi).2
    rw [findLoop, seqAt_offset, h.group (window_le _ _ _), ok_bind, hr, ok_bind]
    cases r with
    | some p => exact ⟨some p, rfl, hspec⟩
    | none =>
      have hmisses := misses_of_matches h hspec
      dsimp only
      by_cases hblocked : Blocked hash t.slots (window t.capacity a j)
      · rw [if_neg (not_not.mpr (matchEmpty_eq_nil.mpr hblocked)), h.next_seqAt]
        have hne : j ≠ j₀ := fun heq => hopen (heq ▸ hblocked)
        refine ih (by omega) (by omega) fun j' hj' => ?_
        rcases Nat.lt_succ_iff_lt_or_eq.mp hj' with hlt | rfl
        · exact hpassed j' hlt
        · exact ⟨hblocked, hmisses⟩
      · rw [if_pos fun hnil => hblocked (matchEmpty_eq_nil.mp hnil)]
        refine ⟨none, rfl, j, hblocked, fun j' hj' => ?_⟩
        rcases Nat.lt_or_eq_of_le hj' with hlt | rfl
        · exact (hpassed j' hlt).2
        · exact hmisses

/-- `find` finds a key that is there. -/
theorem Filled.find (h : Filled hash t) (hopen : Open t) (key : K) :
    ∃ r, t.find key (hash key) = .ok r ∧ match r with
      | some p => ∃ kv, t.slots[p]? = some (some kv) ∧ kv.1 = key
      | none => key ∉ (items t.slots).map Prod.fst := by
  obtain ⟨j₀, hj₀, hstop⟩ := h.toLaid.exists_not_blocked hopen (H1 (hash key) t.seed).toNat
  have hrounds : j₀ < t.capacity + 1 + 0 := by
    rw [kWidth] at hj₀
    omega
  rw [RawHashSet.find, h.toLaid.probe]
  obtain ⟨r, hr, hspec⟩ := findLoop_spec key h.toLaid hstop (Nat.zero_le j₀) hrounds
    fun j' hj' => absurd hj' (Nat.not_lt_zero j')
  refine ⟨r, hr, ?_⟩
  cases r with
  | some p => exact hspec
  | none =>
    obtain ⟨j, hblocked, hmisses⟩ := hspec
    intro hmem
    obtain ⟨kv, hkv, rfl⟩ := List.mem_map.mp hmem
    obtain ⟨p, hp⟩ := mem_items_iff.mp hkv
    obtain ⟨j', i, hi, hle, hplace, hbefore⟩ := h.reached hp
    rw [← h.slots] at hblocked hmisses
    rcases Nat.lt_or_ge j j' with hlt | hge
    · exact hblocked (hbefore j hlt)
    · refine hmisses j' hge i hi hle kv ?_ rfl
      rw [hplace]
      exact hp

/-! ### The first empty place -/

/-- Where a new key may go: an empty byte of the first group that has one. -/
structure Target (hash : K → U64) (t : RawHashSet K V) (x : U64) (p : ℕ) : Prop where
  le : p ≤ t.capacity
  place : (∃ q : ℕ, t.slots[q]? = some none) → t.slots[p]? = some none ∧
    ∃ j, ∃ i < kWidth, window t.capacity (H1 x t.seed).toNat j + i ≤ 2 * t.capacity ∧
      (window t.capacity (H1 x t.seed).toNat j + i) % (t.capacity + 1) = p ∧
      ∀ j' < j, Blocked hash t.slots (window t.capacity (H1 x t.seed).toNat j')

omit [DecidableEq K] in
/-- In a small table the lowest empty byte is that of a slot, if there is an empty one. -/
theorem lowest_le_of_small (h : Laid hash t) (hsmall : t.capacity < 15) (ho : o ≤ t.capacity)
    {rest : List ℕ} (hmatch : Group.matchEmptyOrDeleted (bytes hash t.slots o) = i :: rest) {q : ℕ}
    (hq : t.slots[q]? = some none) : o + i ≤ 2 * t.capacity := by
  have hslots := h.slots
  have hcap := h.small hsmall
  have hlt : q < t.capacity := by
    rw [← hslots]
    exact (List.getElem?_eq_some_iff.mp hq).1
  -- the place of the empty slot in the group
  obtain ⟨y, hy, hplace⟩ : ∃ y, o + y ≤ 2 * t.capacity ∧ (o + y) % (t.capacity + 1) = q := by
    rcases Nat.lt_or_ge q o with hbefore | hafter
    · refine ⟨q + (t.capacity + 1) - o, by omega, ?_⟩
      rw [show o + (q + (t.capacity + 1) - o) = q + (t.capacity + 1) by omega, Nat.add_mod_right,
        Nat.mod_eq_of_lt (by omega)]
    · refine ⟨q - o, by omega, ?_⟩
      rw [show o + (q - o) = q by omega, Nat.mod_eq_of_lt (by omega)]
  have hbyte : byteAt hash t.slots (o + y) = kEmpty := by
    rw [byteAt, hslots, if_pos hy, hplace, ringByte_of_getElem? hq, slotByte]
  have hmem : y ∈ i :: rest := by
    rw [← hmatch, mem_matchEmptyOrDeleted, kWidth]
    exact ⟨by omega, hbyte⟩
  have hle := le_of_movemaskEpi8_eq_cons hmatch hmem
  omega

omit [DecidableEq K] in
theorem Target.of_mem (h : Laid hash t) {x : U64}
    (hblocked : ∀ j' < j, Blocked hash t.slots (window t.capacity (H1 x t.seed).toNat j'))
    (hi : i ∈ Group.matchEmptyOrDeleted (bytes hash t.slots
      (window t.capacity (H1 x t.seed).toNat j)))
    (hle : (∃ q : ℕ, t.slots[q]? = some none) →
      window t.capacity (H1 x t.seed).toNat j + i ≤ 2 * t.capacity) :
    Target hash t x ((window t.capacity (H1 x t.seed).toNat j + i) % (t.capacity + 1)) where
  le := Nat.le_of_lt_succ (Nat.mod_lt _ (Nat.succ_pos _))
  place hq := by
    obtain ⟨hlt, hbyte⟩ := mem_matchEmptyOrDeleted.mp hi
    obtain ⟨-, hempty⟩ | ⟨hsentinel, -⟩ | ⟨kv, hfull, -⟩ := byteAt_cases hash t.slots
      (window t.capacity (H1 x t.seed).toNat j + i)
    · have hnone := hempty (by rw [h.slots]; exact hle hq)
      rw [h.slots] at hnone
      exact ⟨hnone, j, i, hlt, hle hq, rfl, hblocked⟩
    · rw [hbyte] at hsentinel
      cases hsentinel
    · rw [hbyte] at hfull
      exact absurd hfull.symm (H2_ne_kEmpty _)

omit [DecidableEq K] in
theorem findFirstNonFullLoop_spec (mem : Memory) (h : Laid hash t) {x : U64} {j₀ : ℕ}
    (hopen : ¬Blocked hash t.slots (window t.capacity (H1 x t.seed).toNat j₀))
    (hj₀ : kWidth * j₀ ≤ t.capacity) {rounds j : ℕ} (hj : j ≤ j₀) (hrounds : j₀ < rounds + j)
    (hblocked : ∀ j' < j, Blocked hash t.slots (window t.capacity (H1 x t.seed).toNat j')) :
    ∃ info c, t.findFirstNonFullLoop mem x rounds (seqAt t.capacity (H1 x t.seed).toNat j) =
        .ok (info, { t with counter := c }) ∧ Target hash t x info.offset := by
  induction rounds generalizing j with
  | zero => omega
  | succ rounds ih =>
    rw [findFirstNonFullLoop, seqAt_offset, h.group (window_le _ _ _), ok_bind]
    cases hmatch : Group.matchEmptyOrDeleted
        (bytes hash t.slots (window t.capacity (H1 x t.seed).toNat j)) with
    | nil =>
      have hfull := matchEmptyOrDeleted_eq_nil.mp hmatch
      have hne : j ≠ j₀ := fun heq => hopen (heq ▸ hfull)
      have hindex : kWidth * j < t.capacity := by
        rw [kWidth] at hj₀ ⊢
        omega
      dsimp only
      rw [seqAt_index, if_pos hindex, h.next_seqAt]
      refine ih (by omega) (by omega) fun j' hj' => ?_
      rcases Nat.lt_succ_iff_lt_or_eq.mp hj' with hlt | rfl
      · exact hblocked j' hlt
      · exact hfull
    | cons i rest =>
      dsimp only
      rw [h.offsetAt_seqAt, h.offsetAt_seqAt]
      by_cases hsmall : t.isSmall = true
      · rw [if_pos hsmall]
        have hlt : t.capacity < 15 := of_decide_eq_true hsmall
        refine ⟨_, t.counter, rfl, Target.of_mem h hblocked
          (by rw [hmatch]; exact List.mem_cons_self) fun hempty => ?_⟩
        obtain ⟨q, hq⟩ := hempty
        exact lowest_le_of_small h hlt (window_le _ _ _) hmatch hq
      · rw [if_neg hsmall]
        have hlarge : 15 ≤ t.capacity := Nat.le_of_not_lt fun hlt => hsmall (decide_eq_true hlt)
        have hle : ∀ y ∈ i :: rest, window t.capacity (H1 x t.seed).toNat j + y ≤ 2 * t.capacity := by
          intro y hy
          rw [← hmatch, mem_matchEmptyOrDeleted, kWidth] at hy
          have := window_le t.capacity (H1 x t.seed).toNat j
          omega
        have hlast : rest.getLastD i ∈ i :: rest := List.getLastD_mem_cons
        have hrandom : t.shouldInsertBackwards mem x =
            ((t.shouldInsertBackwards mem x).1, { t with counter := t.counter + 1 }) := rfl
        rw [hrandom]
        cases (t.shouldInsertBackwards mem x).1 with
        | true =>
          exact ⟨_, t.counter + 1, rfl, Target.of_mem h hblocked (by rw [hmatch]; exact hlast)
            fun _ => hle _ hlast⟩
        | false =>
          exact ⟨_, t.counter + 1, rfl, Target.of_mem h hblocked
            (by rw [hmatch]; exact List.mem_cons_self) fun _ => hle _ List.mem_cons_self⟩

omit [DecidableEq K] in
/-- `find_first_non_full` only draws a random number. -/
theorem Laid.findFirstNonFull (mem : Memory) (h : Laid hash t) (hopen : Open t) (x : U64) :
    ∃ info c, t.findFirstNonFull mem x = .ok (info, { t with counter := c }) ∧
      Target hash t x info.offset := by
  obtain ⟨j₀, hj₀, hstop⟩ := h.exists_not_blocked hopen (H1 x t.seed).toNat
  rw [RawHashSet.findFirstNonFull, h.probe]
  refine findFirstNonFullLoop_spec mem h hstop hj₀ (Nat.zero_le j₀) ?_
    fun j' hj' => absurd hj' (Nat.not_lt_zero j')
  rw [kWidth] at hj₀
  omega

end EntropyLearnedHashing.RawHashSet
