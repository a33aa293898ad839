import EntropyLearnedHashing.Tables.RobinLoad
import EntropyLearnedHashing.Tables.RobinLoops

/-! Building and rebuilding the Robin Hood table. Between two calls the buckets are ordered
and one of them is empty; growing, and shrinking after an erasure, keep the items and
leave room for the next one. Only the two exceptional ends of the source can occur: a
`std::length_error`, and a distance that does not fit. -/

namespace EntropyLearnedHashing.RobinHash

open CircularArray

variable {K V : Type} {hash : K → U64} {maxSize : ℕ} {allowed : Fault → Prop}
  {t : RobinHash K V} {l : Buckets K V} {i : ℕ} {key : K}

/-- What holds of a table between any two calls. -/
structure Valid (hash : K → U64) (t : RobinHash K V) : Prop where
  ordered : Ordered hash t.buckets
  count : t.nbElements = (items t.buckets).length
  room : (items t.buckets).length < t.buckets.length ∨ t.buckets = []
  factor : LoadRange t.maxLoadFactor
  threshold : t.loadThreshold = ⌊toFloat (toFloat t.buckets.length * t.maxLoadFactor)⌋₊

theorem Valid.exists_pow (hv : Valid hash t) (h : 0 < t.buckets.length) :
    ∃ b, t.buckets.length = 2 ^ b := hv.ordered.size.resolve_left (by omega)

theorem Valid.threshold_le (hv : Valid hash t) : t.loadThreshold ≤ t.mask := by
  rcases Nat.eq_zero_or_pos t.buckets.length with hzero | hpos
  · rw [hv.threshold, hzero]
    simp [toFloat]
  · obtain ⟨b, hb⟩ := hv.exists_pow hpos
    have hlt := threshold_lt (b := b) hv.factor
    rw [hv.threshold, mask, hb]
    omega

/-! ### Rehash -/

theorem exists_empty_from (hroom : (items l).length < l.length) (h : ℕ) :
    ∃ z < l.length, l[(h + z) % l.length]? = some none := by
  rw [items, List.length_map] at hroom
  obtain ⟨j, hj, hnone⟩ := exists_none hroom
  obtain ⟨z, hz, hzj⟩ := exists_add_mod_eq (Nat.mod_lt h (by omega : 0 < l.length)) hj
  rw [Nat.mod_add_mod] at hzj
  exact ⟨z, hz, by rw [hzj]; exact hnone⟩

/-- A value is carried to where a search for its key has stopped. -/
theorem Carried.of_passed (hash : K → U64) {p : BucketEntry K V → Prop} {c : BucketEntry K V}
    (hpos : 0 < l.length) (hp : Passed p l (hash c.key).toNat c.dist)
    (hhash : c.hash = (hash c.key).setWidth 32)
    (hfresh : c.key ∉ (items l).map Prod.fst) :
    Carried hash l (((hash c.key).toNat + c.dist) % l.length) c where
  lt := Nat.mod_lt _ hpos
  hash_eq := hhash
  place := rfl
  fresh := hfresh
  step j hj hnext := by
    rcases Nat.eq_zero_or_pos c.dist with hzero | hdist
    · have hmin := neg_one_le_distAt l j
      omega
    · obtain ⟨e, he, hle, -⟩ := hp (c.dist - 1) (by omega)
      obtain rfl : j = ((hash c.key).toNat + (c.dist - 1)) % l.length := by
        refine add_one_mod_inj hj (Nat.mod_lt _ hpos) ?_
        rw [hnext, Nat.mod_add_mod, add_assoc, Nat.sub_add_cancel hdist]
      rw [distAt_of_getElem? he, bucketDist]
      omega

theorem Inserting.of_carried {c : BucketEntry K V} (ho : Ordered hash l)
    (hroom : (items l).length < l.length) (hc : Carried hash l i c) :
    ∃ z, Inserting hash l i c z := by
  obtain ⟨z, hz, hempty⟩ := exists_empty_from hroom i
  exact ⟨z, ho, hc, hz, hempty⟩

/-- The stored bits of a hash determine the bucket. -/
theorem rehashHash_spec {n : ℕ} (hn : ∃ b, n = 2 ^ b) {e : BucketEntry K V}
    (he : e.hash = (hash e.key).setWidth 32) :
    (rehashHash hash n e).toNat % n = (hash e.key).toNat % n ∧
      (rehashHash hash n e).setWidth 32 = (hash e.key).setWidth 32 := by
  obtain ⟨b, rfl⟩ := hn
  unfold rehashHash
  split_ifs with hle
  · have hb : b ≤ 32 := by
      by_contra hlt
      have hpow : 2 ^ 33 ≤ 2 ^ b := Nat.pow_le_pow_right two_pos (by omega)
      omega
    rw [he]
    constructor
    · have hlt : (hash e.key).toNat % 2 ^ 32 < 2 ^ 64 :=
        (Nat.mod_lt _ (by norm_num)).trans (by norm_num)
      rw [BitVec.toNat_setWidth, BitVec.toNat_setWidth, Nat.mod_eq_of_lt hlt,
        Nat.mod_mod_of_dvd _ (Nat.pow_dvd_pow 2 hb)]
    · ext j hj
      simp
  · exact ⟨rfl, rfl⟩

/-- The loop of `rehash_impl`. -/
theorem rehashLoop_outcome (rest : Buckets K V) (ho : Ordered hash t.buckets)
    (hhash : ∀ e, some e ∈ rest → e.hash = (hash e.key).setWidth 32)
    (hnodup : ((items t.buckets ++ items rest).map Prod.fst).Nodup)
    (hroom : (items t.buckets).length + (items rest).length < t.buckets.length)
    (hn : allowed .distance ∨ (items t.buckets).length + (items rest).length ≤ 2 ^ 15 - 1) :
    Outcome allowed (fun t' => ∃ l', t' = { t with buckets := l' } ∧
      l'.length = t.buckets.length ∧ Ordered hash l' ∧
      (items l').Perm (items t.buckets ++ items rest))
      (rest.foldlM (fun newTable bucket =>
        match bucket with
        | none => pure newTable
        | some e =>
          let h := rehashHash hash newTable.buckets.length e
          insertValueOnRehash (newTable.buckets.length + 1) newTable (newTable.bucketForHash h)
            { e with dist := 0, hash := h.setWidth 32 }) t) := by
  induction rest generalizing t with
  | nil => exact ⟨t.buckets, rfl, rfl, ho, by simp [items]⟩
  | cons bucket rest ih =>
    rw [List.foldlM_cons]
    cases bucket with
    | none => exact ih ho (fun e he => hhash e (List.mem_cons_of_mem _ he)) hnodup hroom hn
    | some e =>
      have hcons : items (some e :: rest) = (e.key, e.value) :: items rest := rfl
      rw [hcons] at hnodup hroom hn ⊢
      rw [List.length_cons] at hroom hn
      have hpos : 0 < t.buckets.length := by omega
      have he := hhash e List.mem_cons_self
      obtain ⟨hplace, hwidth⟩ := rehashHash_spec (ho.size.resolve_left (by omega)) he
      simp only [ho.bucketForHash_eq hpos, hplace, hwidth]
      have hmiddle : ((items t.buckets ++ (e.key, e.value) :: items rest).map Prod.fst).Perm
          (((e.key, e.value) :: (items t.buckets ++ items rest)).map Prod.fst) :=
        List.perm_middle.map Prod.fst
      have hfresh := hmiddle.nodup_iff.mp hnodup
      rw [List.map_cons, List.nodup_cons, List.map_append] at hfresh
      have hcarried := Carried.of_passed hash (l := t.buckets)
        (c := { e with dist := 0, hash := (hash e.key).setWidth 32 }) (p := fun _ => True) hpos
        Passed.zero rfl (fun hmem => hfresh.1 (List.mem_append_left _ hmem))
      obtain ⟨z, hz⟩ := Inserting.of_carried ho (by omega) hcarried
      refine (insertValueOnRehash_outcome (by simpa using hz) (by have := hz.lt; omega)
        (hn.imp_right (by omega))).bind ?_
      rintro _ ⟨l', rfl, hl'⟩
      have hlen := hl'.perm.length_eq
      rw [List.length_cons] at hlen
      have happend : (items l' ++ items rest).Perm
          (items t.buckets ++ (e.key, e.value) :: items rest) :=
        (hl'.perm.append_right _).trans List.perm_middle.symm
      refine (ih (t := { t with buckets := l' }) hl'.ordered
        (fun e he => hhash e (List.mem_cons_of_mem _ he))
        ((happend.map Prod.fst).nodup_iff.mpr hnodup)
        (by simp only [hl'.length]; omega) (hn.imp_right (by simp only; omega))).mono ?_
      rintro _ ⟨l'', rfl, hl'', ho'', hperm''⟩
      exact ⟨l'', rfl, hl''.trans hl'.length, ho'', hperm''.trans happend⟩

/-- When the constructor does not throw. -/
def CountOk (maxSize count : ℕ) : Prop :=
  count ≤ 2 ^ 63 ∧ (0 < count → 2 ^ Nat.size (count - 1) ≤ min (2 ^ 63) maxSize)

/-- The bucket count for which a table is built. -/
def normalBucketCount (count : ℕ) : ℕ := if count = 0 then 0 else 2 ^ Nat.size (count - 1)

theorem normalBucketCount_eq_zero_or (count : ℕ) :
    normalBucketCount count = 0 ∨ ∃ b, normalBucketCount count = 2 ^ b := by
  unfold normalBucketCount
  split_ifs
  · exact Or.inl rfl
  · exact Or.inr ⟨_, rfl⟩

theorem growthPolicy_outcome {count : ℕ} (hlen : allowed .length ∨ CountOk maxSize count) :
    Outcome allowed (fun n => n = normalBucketCount count ∧
      (allowed .length ∨ n ≤ min (2 ^ 63) maxSize)) (growthPolicy count) := by
  unfold growthPolicy
  split_ifs with hbig hpos
  · exact hlen.resolve_right fun h => absurd h.1 (by omega)
  · refine ⟨by rw [roundUpToPowerOfTwo_eq hpos (by omega), normalBucketCount, if_neg (by omega)], ?_⟩
    rw [roundUpToPowerOfTwo_eq hpos (by omega)]
    exact hlen.imp_right fun h => h.2 hpos
  · exact ⟨by rw [normalBucketCount, if_pos (by omega)], Or.inr (Nat.zero_le _)⟩

theorem new_outcome (hash : K → U64) {count : ℕ} {minLoadFactor maxLoadFactor : ℚ}
    (hlen : allowed .length ∨ CountOk maxSize count) :
    Outcome allowed (fun t : RobinHash K V => Valid hash t ∧ items t.buckets = [] ∧
      t.buckets.length = normalBucketCount count ∧
      t.minLoadFactor = clamp minLoadFactor MINIMUM_MIN_LOAD_FACTOR MAXIMUM_MIN_LOAD_FACTOR ∧
      t.growOnNextInsert = false) (new maxSize count minLoadFactor maxLoadFactor) := by
  unfold new
  refine (growthPolicy_outcome hlen).bind ?_
  rintro n ⟨hn, hok⟩
  split_ifs with hthrow
  · exact hok.resolve_right (by omega)
  · have hsize : n = 0 ∨ ∃ b, n = 2 ^ b := by
      rw [hn]
      exact normalBucketCount_eq_zero_or count
    have hitems : items (List.replicate n (none : Option (BucketEntry K V))) = [] := by
      simp [items, List.reduceOption_replicate_none]
    refine ⟨⟨Ordered.replicate_none hsize, ?_, ?_, loadRange_clamp _, rfl⟩, hitems, ?_, rfl, rfl⟩
    · exact (congrArg List.length hitems).symm
    · rcases Nat.eq_zero_or_pos n with hzero | hpos
      · right
        simp [setMaxLoadFactor, setMinLoadFactor, hzero]
      · left
        simp only [setMaxLoadFactor, setMinLoadFactor, hitems, List.length_replicate]
        exact hpos
    · simpa [setMaxLoadFactor, setMinLoadFactor] using hn

theorem rehashImpl_outcome (hv : Valid hash t) {count : ℕ}
    (hcount : (items t.buckets).length < count)
    (hlen : allowed .length ∨ CountOk maxSize count)
    (hn : allowed .distance ∨ (items t.buckets).length ≤ 2 ^ 15 - 1) :
    Outcome allowed (fun t' => Valid hash t' ∧ (items t'.buckets).Perm (items t.buckets) ∧
      t'.buckets.length = 2 ^ Nat.size (count - 1) ∧
      t'.minLoadFactor = clamp t.minLoadFactor MINIMUM_MIN_LOAD_FACTOR MAXIMUM_MIN_LOAD_FACTOR ∧
      t'.growOnNextInsert = false) (t.rehashImpl hash maxSize count) := by
  unfold rehashImpl
  refine (new_outcome (K := K) (V := V) hash hlen).bind ?_
  rintro new ⟨hnew, hnil, hsize, hmin, hgrow⟩
  rw [normalBucketCount, if_neg (by omega)] at hsize
  have hle := le_two_pow_size count
  have hnilp : items new.buckets ++ items t.buckets = items t.buckets := by rw [hnil, List.nil_append]
  refine (rehashLoop_outcome t.buckets hnew.ordered (fun e he => ?_) ?_ ?_ ?_).bind ?_
  · obtain ⟨j, hj⟩ := List.mem_iff_getElem?.mp he
    exact (hv.ordered.placed hj).1
  · rw [hnilp]
    exact hv.ordered.nodup
  · rw [hnil, hsize, List.length_nil]
    omega
  · rw [hnil, List.length_nil, zero_add]
    exact hn
  · rintro _ ⟨l', rfl, hl', ho', hperm⟩
    rw [hnilp] at hperm
    refine ⟨⟨ho', ?_, Or.inl ?_, hnew.factor, ?_⟩, hperm, hl'.trans hsize, hmin, hgrow⟩
    · exact hv.count.trans hperm.length_eq.symm
    · simp only [hperm.length_eq, hl', hsize]
      omega
    · rw [hnew.threshold]
      simp only [hl']

/-! ### Growing and shrinking -/

theorem Valid.length_lt (hv : Valid hash t) : (items t.buckets).length < t.mask + 1 := by
  rcases hv.room with hlt | hnil
  · rw [mask]
    omega
  · rw [hnil]
    exact Nat.succ_pos _

theorem Valid.double_pow (hv : Valid hash t) :
    2 ^ Nat.size ((t.mask + 1) * 2 - 1) = (t.mask + 1) * 2 := by
  obtain ⟨b, hb⟩ : ∃ b, t.mask + 1 = 2 ^ b := by
    rcases hv.ordered.size with hzero | ⟨b, hb⟩
    · exact ⟨0, by simp [mask, hzero]⟩
    · have hpos : 0 < 2 ^ b := Nat.two_pow_pos b
      exact ⟨b, by rw [mask]; omega⟩
  have hpos : 0 < 2 ^ (b + 1) := Nat.two_pow_pos _
  rw [hb, ← pow_succ]
  congr 1
  refine le_antisymm (Nat.size_le.mpr (by omega)) (Nat.lt_size.mpr ?_)
  rw [pow_succ]
  have := Nat.two_pow_pos b
  omega

/-- A table that neither shrinks nor grows before its threshold. -/
structure Steady (t : RobinHash K V) : Prop where
  minLoadFactor : t.minLoadFactor = 0
  growOnNextInsert : t.growOnNextInsert = false

theorem clamp_zero : clamp 0 MINIMUM_MIN_LOAD_FACTOR MAXIMUM_MIN_LOAD_FACTOR = 0 := by
  rw [clamp, MINIMUM_MIN_LOAD_FACTOR, max_self]
  exact min_eq_right MAXIMUM_MIN_LOAD_FACTOR_nonneg

/-- When the next insertion does not throw. -/
def GrowOk (maxSize : ℕ) (t : RobinHash K V) : Prop :=
  Steady t ∧ (t.loadThreshold ≤ t.nbElements → CountOk maxSize ((t.mask + 1) * 2))

/-- What is left by a rehash, or by none. -/
structure Roomy (hash : K → U64) (t t' : RobinHash K V) : Prop where
  valid : Valid hash t'
  perm : (items t'.buckets).Perm (items t.buckets)
  room : (items t.buckets).length + 1 < t'.buckets.length
  steady : Steady t → Steady t' ∧ (t'.buckets.length = t.buckets.length ∨
    t.loadThreshold ≤ t.nbElements ∧ t'.buckets.length = (t.mask + 1) * 2)

theorem Roomy.refl (hv : Valid hash t) (hlt : t.nbElements < t.loadThreshold) :
    Roomy hash t t where
  valid := hv
  perm := List.Perm.refl _
  room := by
    have hle := hv.threshold_le
    rw [← hv.count]
    rw [mask] at hle
    omega
  steady hs := ⟨hs, Or.inl rfl⟩

theorem nextBucketCount_outcome
    (hlen : allowed .length ∨ CountOk maxSize ((t.mask + 1) * 2)) :
    Outcome allowed (fun n => n = (t.mask + 1) * 2) t.nextBucketCount := by
  unfold nextBucketCount
  split_ifs with hbig
  · exact hlen.resolve_right fun h => absurd h.1 (by omega)
  · rfl

theorem reserve_outcome (hv : Valid hash t) (hlen : allowed .length)
    (hn : allowed .distance ∨ (items t.buckets).length ≤ 2 ^ 15 - 1) :
    Outcome allowed (fun t' => Valid hash t' ∧ (items t'.buckets).Perm (items t.buckets) ∧
      (items t.buckets).length + 1 < t'.buckets.length)
      (t.reserve hash maxSize (t.nbElements + 1)) := by
  unfold reserve rehash
  set count := max ⌈toFloat (toFloat (t.nbElements + 1 : ℕ) / t.maxLoadFactor)⌉₊
    ⌈toFloat (toFloat t.nbElements / t.maxLoadFactor)⌉₊ with hdef
  have hlt : (items t.buckets).length + 1 < count := by
    rw [hdef, ← hv.count]
    exact lt_max_of_lt_left (lt_ceil_div (Nat.succ_pos _) hv.factor)
  refine (rehashImpl_outcome hv (by omega) (Or.inl hlen) hn).mono ?_
  rintro t' ⟨hv', hperm, hsize, -⟩
  refine ⟨hv', hperm, ?_⟩
  have hle := le_two_pow_size count
  omega

theorem rehashOnExtremeLoad_outcome (hv : Valid hash t) (hlen : allowed .length ∨ GrowOk maxSize t)
    (hn : allowed .distance ∨ (items t.buckets).length ≤ 2 ^ 15 - 1) :
    Outcome allowed (fun r => Roomy hash t r.1 ∧ (r.2 = false → r.1.buckets = t.buckets))
      (t.rehashOnExtremeLoad hash maxSize) := by
  unfold rehashOnExtremeLoad
  split_ifs with hgrow hshrink
  · have hcount : allowed .length ∨
        (t.loadThreshold ≤ t.nbElements ∧ CountOk maxSize ((t.mask + 1) * 2)) := by
      refine hlen.imp_right fun h => ?_
      have hle := hgrow.resolve_left (by simp [h.1.growOnNextInsert])
      exact ⟨hle, h.2 hle⟩
    refine (nextBucketCount_outcome (hcount.imp_right And.right)).bind ?_
    rintro _ rfl
    have hlt := hv.length_lt
    refine (rehashImpl_outcome hv (by omega) (hcount.imp_right And.right) hn).bind ?_
    rintro t' ⟨hv', hperm, hsize, hmin, hflag⟩
    rw [hv.double_pow] at hsize
    refine ⟨⟨⟨hv'.ordered, hv'.count, hv'.room, hv'.factor, hv'.threshold⟩, hperm, ?_, ?_⟩, ?_⟩
    · simp only [hsize]
      omega
    · intro hs
      refine ⟨⟨?_, rfl⟩, Or.inr ⟨hgrow.resolve_left (by simp [hs.growOnNextInsert]), hsize⟩⟩
      simp only [hmin, hs.minLoadFactor, clamp_zero]
    · intro hfalse
      cases hfalse
  · have hlt : t.nbElements < t.loadThreshold := by
      by_contra hge
      exact hgrow (Or.inr (Nat.le_of_not_lt hge))
    set t₁ : RobinHash K V := { t with tryShrinkOnNextInsert := false } with ht₁
    have hv₁ : Valid hash t₁ := ⟨hv.ordered, hv.count, hv.room, hv.factor, hv.threshold⟩
    dsimp only
    split_ifs with hload
    · have hlength : allowed .length := hlen.resolve_right fun h => hload.1 h.1.minLoadFactor
      refine (reserve_outcome hv₁ hlength hn).bind ?_
      rintro t' ⟨hv', hperm, hroom⟩
      refine ⟨⟨hv', hperm, hroom, fun hs => absurd hs.minLoadFactor hload.1⟩, fun hfalse => ?_⟩
      cases hfalse
    · have hroomy := Roomy.refl hv₁ hlt
      refine ⟨⟨hv₁, List.Perm.refl _, hroomy.room, fun hs => ⟨⟨hs.1, hs.2⟩, Or.inl rfl⟩⟩, fun _ => rfl⟩
  · have hlt : t.nbElements < t.loadThreshold := by
      by_contra hge
      exact hgrow (Or.inr (Nat.le_of_not_lt hge))
    exact ⟨Roomy.refl hv hlt, fun _ => rfl⟩

end EntropyLearnedHashing.RobinHash
