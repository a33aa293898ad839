import EntropyLearnedHashing.Tables.DenseProbe

/-! Sizes of `dense_hashtable`. A number of buckets is a power of two, of which a fraction below
one may be in use, so that a bucket is always empty. Growing and shrinking both copy the
elements into a new table and drop the erased buckets on the way. -/

namespace EntropyLearnedHashing.DenseHash

open BinaryRounding CircularArray

variable {K V : Type} {hash : K → U64} {t : DenseHash K V} {alloc : Allocator}
  {allowed : DenseFault → Prop} {g : ℚ}

/-! ### Thresholds -/

/-- A load factor below one. -/
structure Factor (g : ℚ) : Prop where
  isFloat : toFloat g = g
  nonneg : 0 ≤ g
  lt_one : g < 1

theorem factor_occupancy : Factor occupancy where
  isFloat := by
    have h : toFloat (2 ^ (-1 : ℤ)) = 2 ^ (-1 : ℤ) := round_zpow (by norm_num) (by norm_num)
    rwa [zpow_neg_one, ← one_div] at h
  nonneg := by norm_num [occupancy]
  lt_one := by norm_num [occupancy]

theorem scaled_two_pow (hfloat : toFloat g = g) (h0 : 0 ≤ g) (b : ℕ) :
    scaled g (2 ^ b) = ⌊2 ^ b * g⌋₊ := by
  rw [scaled, toFloat_two_pow]
  exact congrArg Nat.floor (round_two_pow_mul h0 hfloat b)

theorem Factor.scaled_lt (hg : Factor g) (b : ℕ) : scaled g (2 ^ b) < 2 ^ b := by
  have hpos : (0 : ℚ) < 2 ^ b := by positivity
  rw [scaled_two_pow hg.isFloat hg.nonneg, Nat.floor_lt (mul_nonneg hpos.le hg.nonneg)]
  push_cast
  exact mul_lt_of_lt_one_right hpos hg.lt_one

theorem Factor.scaled_mono (hg : Factor g) {b c : ℕ} (hbc : b ≤ c) :
    scaled g (2 ^ b) ≤ scaled g (2 ^ c) := by
  rw [scaled_two_pow hg.isFloat hg.nonneg, scaled_two_pow hg.isFloat hg.nonneg]
  exact Nat.floor_le_floor (mul_le_mul_of_nonneg_right
    (pow_le_pow_right₀ one_le_two hbc) hg.nonneg)

theorem scaled_occupancy {b : ℕ} (hb : 1 ≤ b) : scaled occupancy (2 ^ b) = 2 ^ (b - 1) := by
  obtain ⟨c, rfl⟩ := Nat.exists_eq_add_of_le' hb
  rw [scaled_two_pow factor_occupancy.isFloat factor_occupancy.nonneg, Nat.add_sub_cancel]
  have hhalf : (2 : ℚ) ^ (c + 1) * occupancy = ((2 ^ c : ℕ) : ℚ) := by
    push_cast
    rw [occupancy, pow_succ]
    ring
  rw [hhalf, Nat.floor_natCast]

/-- The shrink factor is more than 3/16. -/
theorem le_scaled_emptiness (b : ℕ) : 3 * 2 ^ b ≤ scaled emptiness (2 ^ (b + 4)) := by
  have hround : (1 / 5 : ℚ) * (1 - 2 ^ (-(24 : ℕ) : ℤ)) ≤ emptiness :=
    mul_one_sub_le_round (by norm_num)
  have hle : (3 / 16 : ℚ) ≤ emptiness := le_trans (by norm_num) hround
  have hpos : (0 : ℚ) < 2 ^ b := by positivity
  have hfloat : toFloat emptiness = emptiness := round_round (by norm_num) (by norm_num)
  rw [scaled_two_pow hfloat (by linarith)]
  refine Nat.le_floor ?_
  push_cast
  rw [pow_add]
  nlinarith

/-! ### Numbers of buckets -/

/-- A number of buckets that is large enough. -/
def Good (g : ℚ) (numElts wanted c : ℕ) : Prop := wanted ≤ 2 ^ c ∧ numElts < scaled g (2 ^ c)

theorem minBucketsLoop_outcome (g : ℚ) (numElts wanted : ℕ) (rounds : ℕ) {b : ℕ} (hb : b ≤ 63)
    (hrounds : rounds + b = 65)
    (hlen : allowed .length ∨ ∃ c, b ≤ c ∧ c ≤ 63 ∧ Good g numElts wanted c) :
    Outcome allowed (fun n => ∃ c, b ≤ c ∧ c ≤ 63 ∧ n = 2 ^ c ∧ Good g numElts wanted c ∧
      ∀ c', b ≤ c' → c' < c → ¬Good g numElts wanted c')
      (minBucketsLoop g numElts wanted rounds (2 ^ b)) := by
  induction rounds generalizing b with
  | zero => omega
  | succ rounds ih =>
    rw [minBucketsLoop]
    by_cases hgood : Good g numElts wanted b
    · rw [if_neg (by rw [not_or, not_lt, not_le]; exact hgood)]
      exact ⟨b, le_rfl, hb, rfl, hgood, fun c' hle hlt => by omega⟩
    · have hbad : 2 ^ b < wanted ∨ scaled g (2 ^ b) ≤ numElts := by
        by_contra hnot
        rw [not_or, not_lt, not_le] at hnot
        exact hgood hnot
      have hlater : ∀ c, b ≤ c → Good g numElts wanted c → b + 1 ≤ c := by
        intro c hle hc
        have hne : b ≠ c := fun heq => hgood (heq ▸ hc)
        omega
      rw [if_pos hbad]
      split_ifs with hwrap
      · refine hlen.resolve_right ?_
        rintro ⟨c, hle, hc, hg⟩
        have hstep := hlater c hle hg
        have hpow : 2 ^ b * 2 < 2 ^ 64 := by
          rw [← pow_succ]
          exact Nat.pow_lt_pow_right one_lt_two (by omega)
        rw [Nat.mod_eq_of_lt hpow] at hwrap
        omega
      · have hb63 : b + 1 ≤ 63 := by
          by_contra hnot
          obtain rfl : b = 63 := by omega
          exact hwrap (by norm_num)
        have hpow : 2 ^ b * 2 % 2 ^ 64 = 2 ^ (b + 1) := by
          rw [← pow_succ]
          exact Nat.mod_eq_of_lt (Nat.pow_lt_pow_right one_lt_two (by omega))
        rw [hpow]
        refine (ih hb63 (by omega) (hlen.imp_right ?_)).mono ?_
        · rintro ⟨c, hle, hc, hg⟩
          exact ⟨c, hlater c hle hg, hc, hg⟩
        · rintro n ⟨c, hle, hc, rfl, hg, hmin⟩
          refine ⟨c, by omega, hc, rfl, hg, fun c' hbc' hc' => ?_⟩
          rcases hbc'.eq_or_lt with rfl | hlt
          · exact hgood
          · exact hmin c' hlt hc'

/-- `min_buckets` gives the smallest number of buckets that is large enough. -/
theorem minBuckets_outcome (g : ℚ) (numElts wanted : ℕ)
    (hlen : allowed .length ∨ ∃ c, 2 ≤ c ∧ c ≤ 63 ∧ Good g numElts wanted c) :
    Outcome allowed (fun n => ∃ c, 2 ≤ c ∧ c ≤ 63 ∧ n = 2 ^ c ∧ Good g numElts wanted c ∧
      ∀ c', 2 ≤ c' → c' < c → ¬Good g numElts wanted c') (minBuckets g numElts wanted) :=
  minBucketsLoop_outcome g numElts wanted 63 (b := 2) (by norm_num) rfl hlen

/-! ### Tables with a threshold -/

section Copies

variable [DecidableEq K]

/-- A table in which a bucket is always empty. -/
structure Valid (hash : K → U64) (t : DenseHash K V) : Prop extends Laid hash t where
  factor : Factor t.enlargeFactor
  threshold : t.enlargeThreshold = scaled t.enlargeFactor t.table.length

/-- The other table has the same markers and factors. -/
structure Kin (t t' : DenseHash K V) : Prop where
  emptyval : t'.emptyval = t.emptyval
  delkey : t'.delkey = t.delkey
  enlargeFactor : t'.enlargeFactor = t.enlargeFactor
  shrinkFactor : t'.shrinkFactor = t.shrinkFactor

omit [DecidableEq K] in
theorem Kin.refl (t : DenseHash K V) : Kin t t := ⟨rfl, rfl, rfl, rfl⟩

omit [DecidableEq K] in
theorem Kin.trans {t₁ t₂ : DenseHash K V} (h : Kin t t₁) (h' : Kin t₁ t₂) : Kin t t₂ where
  emptyval := h'.emptyval.trans h.emptyval
  delkey := h'.delkey.trans h.delkey
  enlargeFactor := h'.enlargeFactor.trans h.enlargeFactor
  shrinkFactor := h'.shrinkFactor.trans h.shrinkFactor

/-- Only buckets, markers and counters matter. -/
theorem Laid.settings (h : Laid hash t) (enlargeFactor shrinkFactor : ℚ)
    (enlargeThreshold shrinkThreshold : ℕ) (considerShrink : Bool) :
    Laid hash { t with
      enlargeFactor := enlargeFactor, shrinkFactor := shrinkFactor
      enlargeThreshold := enlargeThreshold, shrinkThreshold := shrinkThreshold
      considerShrink := considerShrink } :=
  ⟨h.pow, h.markers, h.reached, h.nodup, h.elements, h.deleted, h.room⟩

theorem Laid.resetThresholds (h : Laid hash t) (hg : Factor t.enlargeFactor) :
    Valid hash t.resetThresholds :=
  ⟨h.settings _ _ _ _ _, hg, rfl⟩

/-! ### Copies -/

omit [DecidableEq K] in
theorem allocate_outcome {n : ℕ} (hmem : allowed .memory ∧ allowed .overrun ∨
    n * alloc.sizeofValue ≤ alloc.limit) : Outcome allowed (fun _ => True) (alloc.allocate n) := by
  unfold Allocator.allocate
  split_ifs with hlimit hwrap
  · refine (hmem.resolve_right fun hle => ?_).1
    have hlt := alloc.limit_lt
    rw [Nat.mod_eq_of_lt (by omega)] at hlimit
    omega
  · refine (hmem.resolve_right fun hle => ?_).2
    have hlt := alloc.limit_lt
    rw [Nat.mod_eq_of_lt (by omega)] at hwrap
    omega
  · trivial

theorem laid_replicate (hash : K → U64) {c : ℕ} (h2 : 2 ≤ c) (h63 : c ≤ 63)
    (hmarkers : t.delkey ≠ some t.emptyval.1) (htable : t.table = List.replicate (2 ^ c) t.emptyval)
    (hne : t.numElements = 0) (hnd : t.numDeleted = 0) : Laid hash t ∧ t.items = [] := by
  have hcell : t.cell t.emptyval = none := cell_eq_none_iff.mpr (Or.inl rfl)
  have hitems : t.items = [] := by
    rw [items, htable, List.map_replicate, hcell, List.reduceOption_replicate_none]
  refine ⟨⟨⟨c, h2, h63, by rw [htable, List.length_replicate]⟩, hmarkers, fun {p kv} hp hkv => ?_, ?_,
    ?_, ?_, ?_⟩, hitems⟩
  · have hmem := List.mem_of_getElem? hp
    rw [htable] at hmem
    rw [List.eq_of_mem_replicate hmem, hcell] at hkv
    cases hkv
  · rw [hitems]
    exact List.nodup_nil
  · rw [hne, htable, List.countP_replicate]
    simp
  · rw [hnd, htable, List.countP_replicate]
    simp [hmarkers]
  · rw [hne, htable, List.length_replicate]
    exact Nat.two_pow_pos c

/-- A table without elements. -/
structure Cleared (hash : K → U64) (t : DenseHash K V) (n : ℕ) (t' : DenseHash K V) : Prop where
  valid : Valid hash t'
  kin : Kin t t'
  items : t'.items = []
  numDeleted : t'.numDeleted = 0
  considerShrink : t'.considerShrink = false
  length : t'.table.length = n

theorem cleared_outcome (hash : K → U64) {c : ℕ} (h2 : 2 ≤ c) (h63 : c ≤ 63)
    (hmarkers : t.delkey ≠ some t.emptyval.1) (hg : Factor t.enlargeFactor)
    (hmem : allowed .memory ∧ allowed .overrun ∨ 2 ^ c * alloc.sizeofValue ≤ alloc.limit) :
    Outcome allowed (Cleared hash t (2 ^ c)) (t.cleared alloc (2 ^ c)) := by
  unfold cleared
  refine (allocate_outcome hmem).bind fun _ _ => ?_
  obtain ⟨hlaid, hnil⟩ := laid_replicate hash h2 h63
    (t := { t with table := List.replicate (2 ^ c) t.emptyval, numElements := 0, numDeleted := 0 })
    hmarkers rfl rfl rfl
  exact ⟨hlaid.resetThresholds hg, ⟨rfl, rfl, rfl, rfl⟩, hnil, rfl, rfl, List.length_replicate⟩

/-- The elements among these buckets of the old table. -/
def elements (old : DenseHash K V) (l : List (K × V)) : List (K × V) := (l.map old.cell).reduceOption

/-- A new table during a copy of `old`. -/
structure Copying (hash : K → U64) (old : DenseHash K V) (n : ℕ) (done : List (K × V))
    (t : DenseHash K V) : Prop where
  laid : Laid hash t
  kin : Kin old t
  numDeleted : t.numDeleted = 0
  length : t.table.length = n
  perm : t.items.Perm done

theorem copyBucket_spec {old : DenseHash K V} (hold : Laid hash old) {n : ℕ} {done : List (K × V)}
    (h : Copying hash old n done t) {kv : K × V} {p : ℕ} (hp : old.table[p]? = some kv)
    (hnodup : ((done ++ elements old [kv]).map Prod.fst).Nodup)
    (hroom : (done ++ elements old [kv]).length < n) :
    ∃ t', copyBucket hash old t kv = .ok t' ∧ Copying hash old n (done ++ elements old [kv]) t' := by
  unfold copyBucket
  by_cases hempty : old.emptyval.1 = kv.1
  · have hnone : elements old [kv] = [] := by
      simp [elements, cell_eq_none_iff.mpr (Or.inl hempty)]
    rw [testEmpty, if_pos (decide_eq_true hempty), hnone, List.append_nil]
    exact ⟨t, rfl, h⟩
  rw [testEmpty, if_neg (by simpa using hempty), hold.testDeleted hp, ok_bind]
  by_cases hdeleted : old.delkey = some kv.1
  · have hnone : elements old [kv] = [] := by
      simp [elements, cell_eq_none_iff.mpr (Or.inr hdeleted)]
    rw [if_pos (decide_eq_true hdeleted), hnone, List.append_nil]
    exact ⟨t, rfl, h⟩
  have hone : elements old [kv] = [kv] := by
    simp [elements, cell_eq_some_iff.mpr ⟨rfl, hempty, hdeleted⟩]
  rw [hone] at hnodup hroom ⊢
  rw [if_neg (by simpa using hdeleted)]
  have hcell : t.cell kv = some kv := by
    refine cell_eq_some_iff.mpr ⟨rfl, ?_, ?_⟩
    · rw [h.kin.emptyval]
      exact hempty
    · rw [h.kin.delkey]
      exact hdeleted
  obtain ⟨j₀, hj₀, e, he, heempty⟩ := h.laid.exists_empty (hash kv.1).toNat
  obtain ⟨q, kv', hq, hkv', hstop, hfree⟩ := emptyLoop_spec h.laid he heempty t.table.length
    (Nat.zero_le j₀) hj₀ fun _ hj => absurd hj (Nat.not_lt_zero _)
  have hstart : (hash kv.1).toNat &&& (t.bucketCount - 1) =
      probe t.table.length (hash kv.1).toNat 0 := h.laid.and_mask _
  rw [hstart, bucketCount, hq, ok_bind, setBucket_of_getElem? hkv', ok_bind]
  have hperm := (itemsSet_fill hkv' (cell_eq_none_iff.mpr (Or.inl hstop)) hcell).trans
    ((h.perm.cons kv).trans (List.perm_append_singleton kv done).symm)
  have hlen := h.laid.length_items
  have hdone := h.perm.length_eq
  rw [List.length_append, List.length_singleton] at hroom
  have hn := h.length
  have hnd := h.numDeleted
  have hw : Written t q kv { t with
      table := t.table.set q kv, numElements := t.numElements + 1 } := ⟨rfl, rfl, rfl⟩
  refine ⟨_, rfl, h.laid.write hkv' hw (cell_eq_some_iff.mp hcell).2.1
    (fun _ => hfree.way) ((hperm.map Prod.fst).nodup_iff.mpr hnodup) ?_ ?_ ?_, h.kin.trans ?_, hnd,
    ?_, ?_⟩
  · rw [if_pos hstop]
  · have hmarkers := h.laid.markers
    rw [hstop] at hmarkers
    rw [if_neg hmarkers, if_neg (cell_eq_some_iff.mp hcell).2.2]
  · dsimp only
    omega
  · exact ⟨rfl, rfl, rfl, rfl⟩
  · rw [← hn]
    exact List.length_set
  · exact (List.Perm.of_eq hw.items).trans hperm

theorem elements_append (old : DenseHash K V) (l l' : List (K × V)) :
    elements old (l ++ l') = elements old l ++ elements old l' := by
  rw [elements, List.map_append, List.reduceOption_append]
  rfl

/-- All buckets of the old table are copied. -/
theorem copyLoop_spec {old : DenseHash K V} (hold : Laid hash old) {n : ℕ} (l : List (K × V))
    (hl : ∀ kv ∈ l, kv ∈ old.table) {done : List (K × V)} (h : Copying hash old n done t)
    (hnodup : ((done ++ elements old l).map Prod.fst).Nodup)
    (hroom : (done ++ elements old l).length < n) :
    ∃ t', l.foldlM (copyBucket hash old) t = .ok t' ∧
      Copying hash old n (done ++ elements old l) t' := by
  induction l generalizing done t with
  | nil =>
    rw [elements, List.map_nil, List.reduceOption_nil, List.append_nil]
    exact ⟨t, rfl, h⟩
  | cons kv l ih =>
    have hsplit : done ++ elements old (kv :: l) = done ++ elements old [kv] ++ elements old l := by
      rw [List.append_assoc, ← elements_append, List.singleton_append]
    rw [hsplit] at hnodup hroom ⊢
    obtain ⟨p, hp⟩ := List.mem_iff_getElem?.mp (hl kv List.mem_cons_self)
    obtain ⟨t', hstep, h'⟩ := copyBucket_spec hold h hp
      (hnodup.sublist ((List.sublist_append_left _ _).map _))
      (lt_of_le_of_lt (List.sublist_append_left _ _).length_le hroom)
    rw [List.foldlM_cons, hstep, ok_bind]
    exact ih (fun kv hkv => hl kv (List.mem_cons_of_mem _ hkv)) h' hnodup hroom

/-- What a copy for at least `wanted` buckets leaves. -/
structure Copied (hash : K → U64) (t : DenseHash K V) (wanted : ℕ) (t' : DenseHash K V) : Prop where
  valid : Valid hash t'
  kin : Kin t t'
  perm : t'.items.Perm t.items
  numDeleted : t'.numDeleted = 0
  considerShrink : t'.considerShrink = false
  good : ∃ c, 2 ≤ c ∧ c ≤ 63 ∧ t'.table.length = 2 ^ c ∧ Good t.enlargeFactor t.size wanted c ∧
    ∀ c', 2 ≤ c' → c' < c → ¬Good t.enlargeFactor t.size wanted c'

theorem copied_outcome (hv : Valid hash t) (wanted : ℕ)
    (hok : allowed .length ∧ allowed .memory ∧ allowed .overrun ∨
      ∃ c, 2 ≤ c ∧ c ≤ 63 ∧ Good t.enlargeFactor t.size wanted c ∧
        2 ^ c * alloc.sizeofValue ≤ alloc.limit) :
    Outcome allowed (Copied hash t wanted) (t.copied alloc hash wanted) := by
  unfold copied
  refine (minBuckets_outcome t.enlargeFactor t.size wanted
    (hok.imp (fun h => h.1) fun ⟨c, h2, h63, hg, _⟩ => ⟨c, h2, h63, hg⟩)).bind ?_
  rintro _ ⟨c, h2, h63, rfl, hgood, hmin⟩
  have hfits : allowed .memory ∧ allowed .overrun ∨ 2 ^ c * alloc.sizeofValue ≤ alloc.limit := by
    refine hok.imp (fun h => h.2) ?_
    rintro ⟨c', h2', -, hg, hlimit⟩
    have hle : c ≤ c' := by
      by_contra hlt
      exact hmin c' h2' (by omega) hg
    exact (Nat.mul_le_mul_right _ (Nat.pow_le_pow_right two_pos hle)).trans hlimit
  refine (cleared_outcome hash h2 h63 hv.markers hv.factor hfits).bind ?_
  intro t₁ hclear
  have hstart : Copying hash t (2 ^ c) [] t₁ :=
    ⟨hclear.valid.toLaid, hclear.kin, hclear.numDeleted, hclear.length, by rw [hclear.items]⟩
  have hroom : ([] ++ elements t t.table).length < 2 ^ c := by
    have hlt := hv.factor.scaled_lt c
    have hsize := hv.toLaid.size_eq
    have hg := hgood.2
    rw [List.nil_append]
    change t.items.length < 2 ^ c
    omega
  obtain ⟨t₂, hloop, hcopied⟩ := copyLoop_spec hv.toLaid t.table (fun _ h => h) hstart
    (by rw [List.nil_append]; exact hv.nodup) hroom
  rw [hloop, ok_bind]
  have hfactor : Factor t₂.enlargeFactor := by
    rw [hcopied.kin.enlargeFactor]
    exact hv.factor
  exact ⟨hcopied.laid.resetThresholds hfactor,
    hcopied.kin.trans ⟨rfl, rfl, rfl, rfl⟩, hcopied.perm, hcopied.numDeleted, rfl,
    c, h2, h63, hcopied.length, hgood, hmin⟩

/-! ### Shrinking and growing -/

/-- The allocator gives `2 ^ c` buckets. -/
structure Gives (alloc : Allocator) (c : ℕ) : Prop where
  two_le : 2 ≤ c
  le : c ≤ 61
  limit : 2 ^ c * alloc.sizeofValue ≤ alloc.limit

/-- With the default factors, `2 ^ c` buckets are many for the table and `n` elements. -/
structure Ample (c n : ℕ) (t : DenseHash K V) : Prop where
  enlarge : t.enlargeFactor = occupancy
  shrink : t.shrinkFactor = emptiness
  buckets : t.table.length ≤ 2 ^ c
  few : 8 * n ≤ 2 ^ c

/-- Either all faults of a resize are permitted, or there is enough memory. -/
def Affords (allowed : DenseFault → Prop) (alloc : Allocator) (n : ℕ) (t : DenseHash K V) : Prop :=
  allowed .length ∧ allowed .memory ∧ allowed .overrun ∨ ∃ c, Gives alloc c ∧ Ample c n t

theorem Good.mono {g : ℚ} (hg : Factor g) {a w c d : ℕ} (h : Good g a w c) (hcd : c ≤ d) :
    Good g a w d :=
  ⟨h.1.trans (Nat.pow_le_pow_right two_pos hcd), h.2.trans_le (hg.scaled_mono hcd)⟩

theorem good_occupancy {a w c : ℕ} (hc : 1 ≤ c) (ha : 2 * a < 2 ^ c) (hw : w ≤ 2 ^ c) :
    Good occupancy a w c := by
  refine ⟨hw, ?_⟩
  have hpow : 2 ^ c = 2 * 2 ^ (c - 1) := by rw [← pow_succ', Nat.sub_add_cancel hc]
  rw [scaled_occupancy hc]
  omega

theorem Copied.length_le {wanted c : ℕ} {t' : DenseHash K V} (h : Copied hash t wanted t')
    (hc : 2 ≤ c) (hgood : Good t.enlargeFactor t.size wanted c) : t'.table.length ≤ 2 ^ c := by
  obtain ⟨d, -, -, hd, -, hmin⟩ := h.good
  rw [hd]
  refine Nat.pow_le_pow_right two_pos ?_
  by_contra hlt
  exact hmin c hc (by omega) hgood

theorem shrinkLoop_le (s : ℚ) (numRemain rounds sz : ℕ) : shrinkLoop s numRemain rounds sz ≤ sz := by
  induction rounds generalizing sz with
  | zero => exact le_rfl
  | succ rounds ih =>
    rw [shrinkLoop]
    split_ifs
    · exact (ih _).trans (Nat.div_le_self _ _)
    · exact le_rfl

/-- A table with the same elements. -/
structure Resized (hash : K → U64) (t : DenseHash K V) (r : Bool × DenseHash K V) : Prop where
  valid : Valid hash r.2
  kin : Kin t r.2
  perm : r.2.items.Perm t.items
  same : r.1 = false → ∃ flag, r.2 = { t with considerShrink := flag }

theorem Copied.resized {wanted : ℕ} {t' : DenseHash K V} (h : Copied hash t wanted t') :
    Resized hash t (true, t') := ⟨h.valid, h.kin, h.perm, nofun⟩

theorem Valid.length_le (hv : Valid hash t) : t.table.length ≤ 2 ^ 63 := by
  obtain ⟨b, -, hb, hlen⟩ := hv.pow
  rw [hlen]
  exact Nat.pow_le_pow_right two_pos hb

theorem maybeShrink_outcome (hv : Valid hash t) {n : ℕ} (hn : t.items.length ≤ n) (hpos : 0 < n)
    (hok : Affords allowed alloc n t) :
    Outcome allowed (fun r => Resized hash t r ∧ ∀ c, 2 ≤ c → Ample c n t → Ample c n r.2)
      (t.maybeShrink alloc hash) := by
  have hlen := hv.toLaid.length_items
  obtain ⟨b, h2, -, hb⟩ := hv.pow
  have hfour : HT_MIN_BUCKETS ≤ t.bucketCount := by
    rw [bucketCount, hb]
    exact Nat.pow_le_pow_right two_pos h2
  have hmask : t.bucketCount &&& (t.bucketCount - 1) = 0 := by
    rw [hv.toLaid.and_mask, bucketCount, Nat.mod_self]
  unfold maybeShrink
  rw [if_neg (by omega), if_neg (not_not.mpr hmask), if_neg (by omega)]
  dsimp only
  split_ifs with hshrink
  · set sz := shrinkLoop t.shrinkFactor (t.numElements - t.numDeleted) 64 (t.bucketCount / 2) with hsz
    have hle : sz ≤ t.table.length := (shrinkLoop_le _ _ _ _).trans (Nat.div_le_self _ _)
    have hgood : ∀ c, 2 ≤ c → Ample c n t → Good t.enlargeFactor t.size sz c := by
      intro c hc hample
      have hfew := hample.few
      rw [hample.enlarge, hv.toLaid.size_eq]
      exact good_occupancy (by omega) (by omega) (hle.trans hample.buckets)
    refine (copied_outcome hv sz (hok.imp_right ?_)).bind ?_
    · rintro ⟨c, hgives, hample⟩
      have hc := hgives.le
      exact ⟨c, hgives.two_le, by omega, hgood c hgives.two_le hample, hgives.limit⟩
    · intro t' h
      refine ⟨⟨⟨h.valid.toLaid.settings _ _ _ _ _, h.valid.factor, h.valid.threshold⟩,
        h.kin.trans ⟨rfl, rfl, rfl, rfl⟩, h.perm, fun hfalse => ?_⟩, fun c hc hample => ?_⟩
      · cases hfalse
      · exact ⟨h.kin.enlargeFactor.trans hample.enlarge, h.kin.shrinkFactor.trans hample.shrink,
          h.length_le hc (hgood c hc hample), hample.few⟩
  · exact ⟨⟨⟨hv.toLaid.settings _ _ _ _ _, hv.factor, hv.threshold⟩, ⟨rfl, rfl, rfl, rfl⟩,
      List.Perm.refl _, fun _ => ⟨false, rfl⟩⟩, fun c _ hample =>
      ⟨hample.enlarge, hample.shrink, hample.buckets, hample.few⟩⟩

omit [DecidableEq K] in
/-- Four times `2 ^ c` buckets hold as many elements as the table has buckets. -/
theorem Ample.good {c n a : ℕ} (h : Ample c n t) (ha : a ≤ t.table.length) :
    Good t.enlargeFactor a 0 (c + 2) := by
  have hbuckets := h.buckets
  have hpos : 0 < 2 ^ c := Nat.two_pow_pos c
  have hpow : 2 ^ (c + 2) = 2 ^ c * 4 := pow_add 2 c 2
  rw [h.enlarge]
  exact good_occupancy (by omega) (by omega) (Nat.zero_le _)

omit [DecidableEq K] in
/-- Two times `2 ^ c` buckets would be nearly empty. -/
theorem Ample.lt_scaled {c n : ℕ} (h : Ample c n t) (hpos : 0 < n) :
    n < scaled t.shrinkFactor (2 ^ c * 2) := by
  have hfew := h.few
  have hc : 3 ≤ c := by
    by_contra hlt
    have hpow : 2 ^ c ≤ 2 ^ 2 := Nat.pow_le_pow_right two_pos (by omega)
    omega
  obtain ⟨b, rfl⟩ := Nat.exists_eq_add_of_le' hc
  have hle := le_scaled_emptiness b
  rw [h.shrink, ← pow_succ]
  rw [pow_add] at hfew
  have hb : 0 < 2 ^ b := Nat.two_pow_pos b
  change n < scaled emptiness (2 ^ (b + 4))
  omega

theorem resizeTo_outcome (hv : Valid hash t) {n : ℕ} (hn : t.items.length + 1 ≤ n)
    (hok : Affords allowed alloc n t) :
    Outcome allowed (fun m => ∃ d, 2 ≤ d ∧ d ≤ 63 ∧ m = 2 ^ d ∧
      Good t.enlargeFactor (t.size + 1) t.table.length d ∧ ∀ c, 2 ≤ c → Ample c n t → d ≤ c)
      (t.resizeTo 1) := by
  have hsize := hv.toLaid.size_eq
  have hroom := hv.room
  have hgood : ∀ c, 2 ≤ c → Ample c n t → Good t.enlargeFactor (t.size + 1) t.table.length c := by
    intro c hc hample
    have hfew := hample.few
    rw [hample.enlarge]
    exact good_occupancy (by omega) (by omega) hample.buckets
  unfold resizeTo
  refine (minBuckets_outcome t.enlargeFactor (t.size + 1) t.table.length
    (hok.imp (fun h => h.1) ?_)).bind ?_
  · rintro ⟨c, hgives, hample⟩
    have hc := hgives.le
    exact ⟨c, hgives.two_le, by omega, hgood c hgives.two_le hample⟩
  rintro _ ⟨d, h2, h63, rfl, hd, hmin⟩
  have hbound : ∀ c, 2 ≤ c → Ample c n t → d ≤ c := by
    intro c hc hample
    by_contra hlt
    exact hmin c hc (by omega) (hgood c hc hample)
  refine (minBuckets_outcome t.enlargeFactor (t.numElements - t.numDeleted / 4 + 1) 0
    (hok.imp (fun h => h.1) ?_)).bind ?_
  · rintro ⟨c, hgives, hample⟩
    have hc := hgives.le
    exact ⟨c + 2, by omega, by omega, hample.good (by omega)⟩
  rintro needed -
  split_ifs with hdouble
  · have hd62 : d + 1 ≤ 63 := by
      by_contra hlt
      obtain rfl : d = 63 := by omega
      exact absurd hdouble.2.1 (by norm_num)
    refine ⟨d + 1, by omega, hd62, (pow_succ 2 d).symm, hd.mono hv.factor (Nat.le_succ d), ?_⟩
    intro c hc hample
    have hle := hbound c hc hample
    have hne : d ≠ c := by
      rintro rfl
      have hlt := hample.lt_scaled (by omega)
      have hsmall := hdouble.2.2
      change scaled t.shrinkFactor (2 ^ d * 2) ≤ t.size + 1 at hsmall
      omega
    omega
  · exact ⟨d, h2, h63, rfl, hd, hbound⟩

theorem enlarge_outcome (hv : Valid hash t) {n : ℕ} (hn : t.items.length + 1 ≤ n)
    (hok : Affords allowed alloc n t) :
    Outcome allowed (fun r => Resized hash t r ∧ r.2.numElements + 1 < r.2.table.length ∧
      ∀ c, 2 ≤ c → Ample c n t → Ample c n r.2) (t.enlarge alloc hash 1) := by
  have hroom := hv.room
  have hlen := hv.length_le
  obtain ⟨b, -, -, hb⟩ := hv.pow
  have hsame : Resized hash t (false, t) :=
    ⟨hv, Kin.refl t, List.Perm.refl _, fun _ => ⟨t.considerShrink, rfl⟩⟩
  unfold enlarge
  rw [if_neg (by norm_num at hlen ⊢; omega)]
  dsimp only
  split_ifs with hfits
  · have hlt := hv.factor.scaled_lt b
    have hthreshold := hv.threshold
    rw [hb] at hthreshold hroom
    have hle := hfits.2
    refine ⟨hsame, ?_, fun c _ h => h⟩
    dsimp only
    omega
  refine (minBuckets_outcome t.enlargeFactor (t.numElements + 1) 0
    (hok.imp (fun h => h.1) ?_)).bind ?_
  · rintro ⟨c, hgives, hample⟩
    have hc := hgives.le
    exact ⟨c + 2, by omega, by omega, hample.good (by omega)⟩
  rintro _ ⟨d, -, -, rfl, hd, -⟩
  split_ifs with hneeded
  · rw [bucketCount, hb] at hneeded
    have hlt := (hd.mono hv.factor ((Nat.pow_le_pow_iff_right one_lt_two).mp hneeded)).2
    have hscaled := hv.factor.scaled_lt b
    refine ⟨hsame, ?_, fun c _ h => h⟩
    dsimp only
    omega
  refine (resizeTo_outcome hv hn hok).bind ?_
  rintro _ ⟨d', h2, h63, rfl, hd', hbound⟩
  have hcopy : Good t.enlargeFactor t.size (2 ^ d') d' := ⟨le_rfl, (Nat.lt_succ_self _).trans hd'.2⟩
  refine (copied_outcome hv (2 ^ d') (hok.imp_right ?_)).bind ?_
  · rintro ⟨c, hgives, hample⟩
    have hpow := Nat.pow_le_pow_right two_pos (hbound c hgives.two_le hample)
    exact ⟨d', h2, h63, hcopy, (Nat.mul_le_mul_right _ hpow).trans hgives.limit⟩
  · intro t' h
    obtain ⟨e, -, -, he, hgood, -⟩ := h.good
    have hde : d' ≤ e := (Nat.pow_le_pow_iff_right one_lt_two).mp hgood.1
    have hlt := (hd'.mono hv.factor hde).2
    have hscaled := hv.factor.scaled_lt e
    have hitems := h.valid.toLaid.length_items
    have hperm := h.perm.length_eq
    have hnd := h.numDeleted
    have hsize := hv.toLaid.size_eq
    refine ⟨h.resized, ?_, fun c hc hample => ?_⟩
    · dsimp only
      omega
    · have hle := h.length_le h2 hcopy
      exact ⟨h.kin.enlargeFactor.trans hample.enlarge, h.kin.shrinkFactor.trans hample.shrink,
        hle.trans (Nat.pow_le_pow_right two_pos (hbound c hc hample)), hample.few⟩

/-- `resize_delta(1)` makes room for one more element. -/
theorem resizeDelta_outcome (hv : Valid hash t) {n : ℕ} (hn : t.items.length + 1 ≤ n)
    (hok : Affords allowed alloc n t) :
    Outcome allowed (fun r => Resized hash t r ∧ r.2.numElements + 1 < r.2.table.length ∧
      ∀ c, 2 ≤ c → Ample c n t → Ample c n r.2) (t.resizeDelta alloc hash 1) := by
  have hshrink : Outcome allowed
      (fun r => Resized hash t r ∧ ∀ c, 2 ≤ c → Ample c n t → Ample c n r.2)
      (if t.considerShrink then t.maybeShrink alloc hash else .ok (false, t)) := by
    split_ifs
    · exact maybeShrink_outcome hv (by omega) (by omega) hok
    · exact ⟨⟨hv, Kin.refl t, List.Perm.refl _, fun _ => ⟨t.considerShrink, rfl⟩⟩, fun c _ h => h⟩
  unfold resizeDelta
  refine hshrink.bind ?_
  rintro ⟨shrunk, t₁⟩ ⟨h₁, hample₁⟩
  have hv₁ : Valid hash t₁ := h₁.valid
  have hlen : t₁.items.length = t.items.length := h₁.perm.length_eq
  have hok₁ : Affords allowed alloc n t₁ := by
    refine hok.imp_right ?_
    rintro ⟨c, hgives, hample⟩
    exact ⟨c, hgives, hample₁ c hgives.two_le hample⟩
  refine (enlarge_outcome hv₁ (by omega) hok₁).bind ?_
  rintro ⟨enlarged, t₂⟩ ⟨h₂, hroom, hample₂⟩
  refine ⟨⟨h₂.valid, h₁.kin.trans h₂.kin, h₂.perm.trans h₁.perm, fun hfalse => ?_⟩, hroom,
    fun c hc h => hample₂ c hc (hample₁ c hc h)⟩
  obtain ⟨hs, he⟩ := Bool.or_eq_false_iff.mp hfalse
  obtain ⟨flag₁, heq₁⟩ := h₁.same hs
  obtain ⟨flag₂, heq₂⟩ := h₂.same he
  refine ⟨flag₂, ?_⟩
  dsimp only at heq₁ heq₂ ⊢
  rw [heq₂, heq₁]

end Copies

end EntropyLearnedHashing.DenseHash
