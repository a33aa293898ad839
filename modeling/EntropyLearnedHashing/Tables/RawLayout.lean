import EntropyLearnedHashing.Library.CircularArray
import EntropyLearnedHashing.Library.Outcome
import EntropyLearnedHashing.Library.TriangularProbe
import EntropyLearnedHashing.Tables.RawHashSet

/-! The control bytes of `raw_hash_set` as a function of the slots. The slots and the sentinel
form a ring, the bytes behind the sentinel repeat the first ones, and in a table with
fewer than 15 slots the rest are dummies that read as empty. A group is a window of the
ring; the windows of a probe together cover it. -/

namespace EntropyLearnedHashing

open Ctrl

/-! ### Bytes -/

theorem msb_mmSignEpi8 (c : Ctrl) : (mmSignEpi8 c c).msb = c.isEmpty := by
  revert c
  decide

theorem msb_mmCmpgtEpi8 (c : Ctrl) : (mmCmpgtEpi8 kSentinel c).msb = c.isEmptyOrDeleted := by
  revert c
  decide

theorem msb_mmCmpeqEpi8 (h c : Ctrl) : (mmCmpeqEpi8 h c).msb = decide (h = c) := by
  unfold mmCmpeqEpi8
  by_cases heq : h = c
  · rw [if_pos heq, decide_eq_true heq]
    rfl
  · rw [if_neg heq, decide_eq_false heq]
    rfl

theorem msb_H2 (h : U64) : (H2 h).msb = false := by
  unfold H2
  rw [BitVec.msb_eq_getLsbD_last, BitVec.getLsbD_setWidth, BitVec.getLsbD_and]
  simp

theorem H2_ne_kEmpty (h : U64) : H2 h ≠ kEmpty := by
  intro heq
  have := msb_H2 h
  rw [heq] at this
  cases this

theorem isFull_H2 (h : U64) : (H2 h).isFull = true := by
  have hbyte : ∀ c : Ctrl, c.msb = false → c.isFull = true := by decide
  exact hbyte _ (msb_H2 h)

namespace RawHashSet

variable {K V : Type} {hash : K → U64} {t : RawHashSet K V}

/-- The slots of a table. -/
abbrev Slots (K V : Type) := List (Option (K × V))

/-- The control byte of a slot. -/
def slotByte (hash : K → U64) : Option (K × V) → Ctrl
  | none => kEmpty
  | some kv => H2 (hash kv.1)

/-- The control byte at a place of the ring. -/
def ringByte (hash : K → U64) (slots : Slots K V) (p : ℕ) : Ctrl :=
  match slots[p]? with
  | some s => slotByte hash s
  | none => kSentinel

/-- The control byte at an index of the array. -/
def byteAt (hash : K → U64) (slots : Slots K V) (x : ℕ) : Ctrl :=
  if x ≤ 2 * slots.length then ringByte hash slots (x % (slots.length + 1)) else kEmpty

section Byte

variable {slots : Slots K V} {x p : ℕ}

theorem ringByte_of_getElem? {s : Option (K × V)} (h : slots[p]? = some s) :
    ringByte hash slots p = slotByte hash s := by
  rw [ringByte, h]

theorem byteAt_cases (hash : K → U64) (slots : Slots K V) (x : ℕ) :
    (byteAt hash slots x = kEmpty ∧
      (x ≤ 2 * slots.length → slots[x % (slots.length + 1)]? = some none)) ∨
    (byteAt hash slots x = kSentinel ∧ x ≤ 2 * slots.length ∧
      slots[x % (slots.length + 1)]? = none) ∨
    ∃ kv, byteAt hash slots x = H2 (hash kv.1) ∧ x ≤ 2 * slots.length ∧
      slots[x % (slots.length + 1)]? = some (some kv) := by
  unfold byteAt
  by_cases hx : x ≤ 2 * slots.length
  · rw [if_pos hx, ringByte]
    match slots[x % (slots.length + 1)]? with
    | none => exact Or.inr (Or.inl ⟨rfl, hx, rfl⟩)
    | some none => exact Or.inl ⟨rfl, fun _ => rfl⟩
    | some (some kv) => exact Or.inr (Or.inr ⟨kv, rfl, hx, rfl⟩)
  · rw [if_neg hx]
    exact Or.inl ⟨rfl, fun h => absurd h hx⟩

theorem isEmpty_byteAt : (byteAt hash slots x).isEmpty = decide (byteAt hash slots x = kEmpty) :=
  rfl

/-- Nothing is marked as deleted. -/
theorem isEmptyOrDeleted_byteAt :
    (byteAt hash slots x).isEmptyOrDeleted = decide (byteAt hash slots x = kEmpty) := by
  obtain ⟨hbyte, -⟩ | ⟨hbyte, -⟩ | ⟨kv, hbyte, -⟩ := byteAt_cases hash slots x
  · rw [hbyte]
    decide
  · rw [hbyte]
    decide
  · have hfull : ∀ c : Ctrl, c.msb = false → c.isEmptyOrDeleted = decide (c = kEmpty) := by decide
    rw [hbyte]
    exact hfull _ (msb_H2 _)

theorem isDeleted_byteAt : (byteAt hash slots x).isDeleted = false := by
  obtain ⟨hbyte, -⟩ | ⟨hbyte, -⟩ | ⟨kv, hbyte, -⟩ := byteAt_cases hash slots x
  · rw [hbyte]
    decide
  · rw [hbyte]
    decide
  · have hfull : ∀ c : Ctrl, c.msb = false → c.isDeleted = false := by decide
    rw [hbyte]
    exact hfull _ (msb_H2 _)

theorem byteAt_of_lt (hp : p < slots.length) :
    byteAt hash slots p = slotByte hash slots[p] := by
  rw [byteAt, if_pos (by omega), Nat.mod_eq_of_lt (by omega),
    ringByte_of_getElem? (List.getElem?_eq_getElem hp)]

/-- The bytes after a slot has been filled. -/
theorem byteAt_set (hp : p < slots.length) (kv : K × V) (x : ℕ) :
    byteAt hash (slots.set p (some kv)) x =
      if x ≤ 2 * slots.length ∧ x % (slots.length + 1) = p then H2 (hash kv.1)
      else byteAt hash slots x := by
  unfold byteAt ringByte
  rw [List.length_set, List.getElem?_set]
  by_cases hx : x ≤ 2 * slots.length
  · by_cases hxp : x % (slots.length + 1) = p
    · rw [if_pos hx, if_pos hxp.symm, if_pos hp, if_pos ⟨hx, hxp⟩]
      rfl
    · rw [if_pos hx, if_neg (Ne.symm hxp), if_neg (fun h => hxp h.2), if_pos hx]
  · rw [if_neg hx, if_neg (fun h => hx h.1), if_neg hx]

end Byte

/-! ### The array -/

/-- The control bytes of a table are those of its slots. -/
structure Laid (hash : K → U64) (t : RawHashSet K V) : Prop where
  slots : t.slots.length = t.capacity
  capacity : ∃ m ≤ 63, t.capacity + 1 = 2 ^ m
  length : 0 < t.capacity → t.capacity + kWidth < t.ctrl.length
  ctrl : ∀ x < t.capacity + kWidth, t.ctrl[x]? = some (byteAt hash t.slots x)

theorem Laid.and_capacity (h : Laid hash t) (x : ℕ) : x &&& t.capacity = x % (t.capacity + 1) := by
  obtain ⟨m, -, hm⟩ := h.capacity
  rw [hm, show t.capacity = 2 ^ m - 1 by omega, Nat.and_two_pow_sub_one_eq_mod]

theorem Laid.ctrlAt (h : Laid hash t) {x : ℕ} (hx : x < t.capacity + kWidth) :
    t.ctrlAt x = .ok (byteAt hash t.slots x) := by
  rw [RawHashSet.ctrlAt, h.ctrl x hx]

/-- The bytes of the group at an offset. -/
def bytes (hash : K → U64) (slots : Slots K V) (o : ℕ) : List Ctrl :=
  (List.range kWidth).map fun i => byteAt hash slots (o + i)

theorem Laid.group (h : Laid hash t) {o : ℕ} (ho : o ≤ t.capacity) :
    t.group o = .ok (bytes hash t.slots o) := by
  have hlen : o + kWidth ≤ t.ctrl.length := by
    have hlast := h.ctrl (t.capacity + 15) (by rw [kWidth]; omega)
    have := (List.getElem?_eq_some_iff.mp hlast).1
    rw [kWidth]
    omega
  rw [RawHashSet.group, if_pos hlen, bytes]
  congr 1
  refine List.ext_getElem? fun i => ?_
  rw [List.getElem?_take, List.getElem?_drop, List.getElem?_map]
  by_cases hi : i < kWidth
  · rw [if_pos hi, h.ctrl _ (by omega), List.getElem?_range hi, Option.map_some]
  · rw [if_neg hi, List.getElem?_eq_none (by rw [List.length_range]; omega), Option.map_none]

/-- The index of the clone, computed modulo 2^64. -/
theorem clone_eq {m n p : ℕ} (hm : m ≤ 63) (hn : n + 1 = 2 ^ m) (hp : p < n) :
    (p + (2 ^ 64 - kWidth)) % 2 ^ m + 1 + (kWidth - 1) % 2 ^ m =
      if p < kWidth then n + 1 + p else p := by
  obtain ⟨q, hq⟩ : 2 ^ m ∣ 2 ^ 64 := Nat.pow_dvd_pow 2 (by omega)
  rcases Nat.lt_or_ge m 4 with hsmall | hlarge
  · -- the width is a multiple of the size of the ring
    have hvalues : m = 0 ∨ m = 1 ∨ m = 2 ∨ m = 3 := by omega
    rw [if_pos (by rw [kWidth]; rcases hvalues with rfl | rfl | rfl | rfl <;> omega)]
    rw [kWidth]
    rcases hvalues with rfl | rfl | rfl | rfl <;> omega
  · have hpow : 2 ^ 4 ≤ 2 ^ m := Nat.pow_le_pow_right two_pos hlarge
    have hqpos : 0 < q := Nat.pos_of_ne_zero (by rintro rfl; norm_num at hq)
    have hwidth : (kWidth - 1) % 2 ^ m = 15 := Nat.mod_eq_of_lt (by rw [kWidth]; omega)
    rw [hwidth, hq]
    by_cases hlt : p < kWidth
    · rw [if_pos hlt]
      rw [kWidth] at hlt ⊢
      have hsplit : p + (2 ^ m * q - 16) = p + 2 ^ m - 16 + 2 ^ m * (q - 1) := by
        obtain ⟨r, rfl⟩ := Nat.exists_eq_succ_of_ne_zero hqpos.ne'
        rw [Nat.succ_sub_one, Nat.mul_succ]
        omega
      rw [hsplit, Nat.add_mul_mod_self_left, Nat.mod_eq_of_lt (by omega)]
      omega
    · rw [if_neg hlt]
      rw [kWidth] at hlt ⊢
      have hle : 2 ^ m ≤ 2 ^ m * q := Nat.le_mul_of_pos_right _ hqpos
      rw [show p + (2 ^ m * q - 16) = p - 16 + 2 ^ m * q by omega, Nat.add_mul_mod_self_left,
        Nat.mod_eq_of_lt (by omega)]
      omega

/-- `set_ctrl` writes the byte of the slot and its clone. -/
theorem Laid.setCtrl (h : Laid hash t) {p : ℕ} (hp : p < t.capacity) (key : K) :
    ∃ ctrl, t.setCtrl p (H2 (hash key)) = .ok { t with ctrl := ctrl } ∧
      ctrl.length = t.ctrl.length ∧
      ∀ v, ∀ x < t.capacity + kWidth,
        ctrl[x]? = some (byteAt hash (t.slots.set p (some (key, v))) x) := by
  have hlen := h.length (by omega)
  have hslots := h.slots
  obtain ⟨m, hm64, hm⟩ := h.capacity
  set clone := ((p + (2 ^ 64 - kWidth)) % 2 ^ 64 &&& t.capacity) + 1 +
    ((kWidth - 1) &&& t.capacity) with hdef
  have hclone : clone = if p < kWidth then t.capacity + 1 + p else p := by
    rw [← clone_eq hm64 hm hp, hdef, h.and_capacity, h.and_capacity, hm,
      Nat.mod_mod_of_dvd _ (Nat.pow_dvd_pow 2 (by omega : m ≤ 64))]
  have hlt : clone < t.ctrl.length := by
    rw [hclone]
    split_ifs <;> omega
  refine ⟨(t.ctrl.set p (H2 (hash key))).set clone (H2 (hash key)), ?_, by simp, fun v x hx => ?_⟩
  · rw [RawHashSet.setCtrl, if_pos hp]
    exact if_pos hlt
  · have hwritten : (x ≤ 2 * t.slots.length ∧ x % (t.slots.length + 1) = p) ↔
        clone = x ∨ p = x := by
      rw [hslots, hclone]
      rw [kWidth] at hx ⊢
      rcases Nat.lt_or_ge x (t.capacity + 1) with hring | hbehind
      · rw [Nat.mod_eq_of_lt hring]
        split_ifs <;> omega
      · rcases Nat.lt_or_ge (2 * t.capacity) x with hdummy | hring
        · split_ifs <;> omega
        · rw [Nat.mod_eq_sub_mod hbehind, Nat.mod_eq_of_lt (by omega)]
          split_ifs <;> omega
    rw [byteAt_set (by omega), List.getElem?_set, List.getElem?_set, List.length_set]
    by_cases hx' : clone = x ∨ p = x
    · rw [if_pos (hwritten.mpr hx')]
      rcases hx' with rfl | rfl
      · rw [if_pos rfl, if_pos hlt]
      · by_cases hclone' : clone = p
        · rw [if_pos hclone', if_pos hlt]
        · rw [if_neg hclone', if_pos rfl, if_pos (by omega)]
    · rw [if_neg (fun hc => hx' (hwritten.mp hc)), if_neg (fun hc => hx' (Or.inl hc)),
        if_neg (fun hc => hx' (Or.inr hc))]
      exact h.ctrl x hx

/-! ### Groups -/

/-- No byte of the group is empty. -/
def Blocked (hash : K → U64) (slots : Slots K V) (o : ℕ) : Prop :=
  ∀ i < kWidth, byteAt hash slots (o + i) ≠ kEmpty

section Group

variable {slots : Slots K V} {o i : ℕ}

theorem mem_movemaskEpi8 {f : Ctrl → Ctrl} :
    i ∈ movemaskEpi8 ((bytes hash slots o).map f) ↔
      i < kWidth ∧ (f (byteAt hash slots (o + i))).msb = true := by
  unfold movemaskEpi8 bytes
  rw [List.map_map, List.length_map, List.length_range, List.mem_filter, List.mem_range]
  refine and_congr_right fun hi => ?_
  rw [List.getD_eq_getElem?_getD, List.getElem?_map, List.getElem?_range hi]
  rfl

theorem mem_matchHash {h : Ctrl} :
    i ∈ Group.matchHash (bytes hash slots o) h ↔ i < kWidth ∧ byteAt hash slots (o + i) = h := by
  rw [Group.matchHash, mem_movemaskEpi8, msb_mmCmpeqEpi8, decide_eq_true_iff, eq_comm]

theorem matchEmpty_eq_nil :
    Group.matchEmpty (bytes hash slots o) = [] ↔ Blocked hash slots o := by
  rw [List.eq_nil_iff_forall_not_mem]
  refine forall_congr' fun i => ?_
  rw [Group.matchEmpty, mem_movemaskEpi8, msb_mmSignEpi8, isEmpty_byteAt, decide_eq_true_iff, not_and]

theorem mem_matchEmptyOrDeleted :
    i ∈ Group.matchEmptyOrDeleted (bytes hash slots o) ↔
      i < kWidth ∧ byteAt hash slots (o + i) = kEmpty := by
  rw [Group.matchEmptyOrDeleted, mem_movemaskEpi8, msb_mmCmpgtEpi8, isEmptyOrDeleted_byteAt,
    decide_eq_true_iff]

theorem matchEmptyOrDeleted_eq_nil :
    Group.matchEmptyOrDeleted (bytes hash slots o) = [] ↔ Blocked hash slots o := by
  rw [List.eq_nil_iff_forall_not_mem]
  refine forall_congr' fun i => ?_
  rw [mem_matchEmptyOrDeleted, not_and]

/-- The lowest bit of a mask comes first. -/
theorem le_of_movemaskEpi8_eq_cons {g : List Ctrl} {rest : List ℕ} {j : ℕ}
    (h : movemaskEpi8 g = i :: rest) (hj : j ∈ i :: rest) : i ≤ j := by
  have hsorted : (movemaskEpi8 g).Pairwise (· < ·) := List.pairwise_lt_range.filter _
  rw [h, List.pairwise_cons] at hsorted
  rcases List.mem_cons.mp hj with rfl | hmem
  · exact le_rfl
  · exact (hsorted.1 j hmem).le

end Group

/-! ### Windows -/

/-- The offset of the `j`-th group of a probe that starts at `a`. -/
def window (n a j : ℕ) : ℕ := (a + kWidth * triangular j) % (n + 1)

/-- The `j`-th group of a probe. -/
def seqAt (n a j : ℕ) : ProbeSeq where
  mask := n
  offset := window n a j
  index := kWidth * j

theorem seqAt_offset (n a j : ℕ) : (seqAt n a j).offset = window n a j := rfl

theorem seqAt_index (n a j : ℕ) : (seqAt n a j).index = kWidth * j := rfl

theorem window_le (n a j : ℕ) : window n a j ≤ n := Nat.le_of_lt_succ (Nat.mod_lt _ (Nat.succ_pos n))

section Window

variable {a j i : ℕ}

theorem Laid.probe (h : Laid hash t) (x : U64) :
    t.probe x = seqAt t.capacity (H1 x t.seed).toNat 0 := by
  rw [RawHashSet.probe, ProbeSeq.new, seqAt, window, h.and_capacity, triangular_zero, mul_zero,
    add_zero]

theorem Laid.next_seqAt (h : Laid hash t) :
    (seqAt t.capacity a j).next = seqAt t.capacity a (j + 1) := by
  have hoffset : (window t.capacity a j + (kWidth * j + kWidth)) &&& t.capacity =
      window t.capacity a (j + 1) := by
    rw [h.and_capacity, window, Nat.mod_add_mod, window, triangular_succ]
    congr 1
    ring
  simp only [ProbeSeq.next, seqAt, hoffset, Nat.mul_succ]

theorem Laid.offsetAt_seqAt (h : Laid hash t) :
    (seqAt t.capacity a j).offsetAt i = (window t.capacity a j + i) % (t.capacity + 1) :=
  h.and_capacity _

theorem Laid.small (h : Laid hash t) (hlt : t.capacity < 15) : t.capacity ≤ 7 := by
  obtain ⟨m, -, hm⟩ := h.capacity
  by_contra hgt
  have hm4 : m < 4 := (Nat.pow_lt_pow_iff_right (by norm_num : 1 < 2)).mp (by omega : 2 ^ m < 2 ^ 4)
  have hm3 : 2 ^ m ≤ 2 ^ 3 := Nat.pow_le_pow_right two_pos (by omega)
  omega

/-- In a small table every group has a dummy. -/
theorem Laid.not_blocked_of_small (h : Laid hash t) (hlt : t.capacity < 15) {o : ℕ}
    (ho : o ≤ t.capacity) : ¬Blocked hash t.slots o := by
  intro hblocked
  have hsmall := h.small hlt
  have hslots := h.slots
  refine hblocked (2 * t.capacity + 1 - o) (by rw [kWidth]; omega) ?_
  rw [byteAt, if_neg (by omega)]

/-- A probe comes to a group with an empty byte within one round. -/
theorem Laid.exists_not_blocked (h : Laid hash t)
    (hopen : (∃ p : ℕ, t.slots[p]? = some none) ∨ t.capacity < 15) (a : ℕ) :
    ∃ j, kWidth * j ≤ t.capacity ∧ ¬Blocked hash t.slots (window t.capacity a j) := by
  rcases Nat.lt_or_ge t.capacity 15 with hsmall | hlarge
  · exact ⟨0, Nat.zero_le _, h.not_blocked_of_small hsmall (window_le _ _ _)⟩
  · obtain ⟨p, hp⟩ := hopen.resolve_right (by omega)
    have hlt : p < t.capacity := by
      rw [← h.slots]
      exact (List.getElem?_eq_some_iff.mp hp).1
    obtain ⟨m, -, hm⟩ := h.capacity
    have hm4 : 4 ≤ m := (Nat.pow_le_pow_iff_right (by norm_num : 1 < 2)).mp (by omega : 2 ^ 4 ≤ 2 ^ m)
    have hring : t.capacity + 1 = kWidth * 2 ^ (m - 4) := by
      rw [hm, kWidth, show (16 : ℕ) = 2 ^ 4 by norm_num, ← pow_add]
      congr 1
      omega
    obtain ⟨j, hj, i, hi, hplace⟩ := exists_window (w := kWidth) (k := m - 4) (by norm_num [kWidth]) a
      (p := p) (by omega)
    refine ⟨j, ?_, fun hblocked => hblocked i hi ?_⟩
    · have hle : kWidth * (j + 1) ≤ kWidth * 2 ^ (m - 4) := Nat.mul_le_mul_left _ hj
      rw [Nat.mul_succ, kWidth] at hle
      rw [kWidth] at hring ⊢
      omega
    · have hwindow := window_le t.capacity a j
      have hslots := h.slots
      rw [kWidth] at hi
      rw [byteAt, if_pos (by omega), hslots, window, Nat.mod_add_mod, hring, hplace,
        ringByte_of_getElem? hp, slotByte]

end Window

end RawHashSet

end EntropyLearnedHashing
