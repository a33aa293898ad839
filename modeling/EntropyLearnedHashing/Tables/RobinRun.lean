import EntropyLearnedHashing.Tables.RobinCalls

/-! Whole runs of `tsl::robin_map`. Every run from the constructor on answers as a map does,
up to the two exceptional ends. With the default load factors and no more than 4096
distinct keys neither end can occur, whatever the hash function does. No run gets more
than 2^15 keys with one hash into the table. -/

namespace EntropyLearnedHashing.RobinHash

open CircularArray

variable {K V : Type} [DecidableEq K] [Inhabited V] {hash : K → U64} {maxSize : ℕ}
  {allowed : Fault → Prop} {t : RobinHash K V} {m : K → Option V}

section Run

variable (hash : K → U64) (maxSize : ℕ)

/-- A call on the table. -/
def call (t : RobinHash K V) : MapCall K V → Except Fault (RobinHash K V × MapReply V)
  | .assign key value => do
    let t ← t.assign hash maxSize key value
    return (t, .done)
  | .find key => do
    let v ← t.lookup hash key
    return (t, .value v)
  | .erase key => do
    let (t, count) ← t.erase hash key
    return (t, .erased count)

/-- A new table and a run of calls on it. -/
def runTable (bucketCount : ℕ) (minLoadFactor maxLoadFactor : ℚ) (calls : List (MapCall K V)) :
    Except Fault (RobinHash K V × List (MapReply V)) := do
  let t ← new maxSize bucketCount minLoadFactor maxLoadFactor
  runCalls (call hash maxSize) t calls

end Run

/-! ### Refinement -/

/-- The table holds what the map holds. -/
structure Refines (hash : K → U64) (t : RobinHash K V) (m : K → Option V) : Prop where
  valid : Valid hash t
  represents : Represents m (items t.buckets)

omit [DecidableEq K] [Inhabited V] in
theorem Refines.empty (hv : Valid hash t) (hnil : items t.buckets = []) :
    Refines hash t fun _ => none :=
  ⟨hv, by rw [hnil]; exact Represents.empty⟩

theorem call_outcome (h : Refines hash t m) (c : MapCall K V)
    (hlen : allowed .length ∨ ∀ key, c.assigned = some key → InsertOk maxSize t key)
    (hn : allowed .distance ∨ (items t.buckets).length ≤ 2 ^ 15 - 1) :
    Outcome allowed (fun r => Refines hash r.1 (c.spec m).1 ∧ r.2 = (c.spec m).2 ∧
      (Steady t → (∀ key, c.assigned = some key → key ∉ (items t.buckets).map Prod.fst →
          (items t.buckets).length < DIST_FROM_IDEAL_BUCKET_LIMIT) →
        Steady r.1 ∧ (r.1.buckets.length = t.buckets.length ∨
          ∃ key, c.assigned = some key ∧ key ∉ (items t.buckets).map Prod.fst ∧
            t.loadThreshold ≤ t.nbElements ∧ r.1.buckets.length = (t.mask + 1) * 2)))
      (call hash maxSize t c) := by
  cases c with
  | assign key value =>
    have hok : allowed .length ∨ InsertOk maxSize t key := hlen.imp_right fun h => h key rfl
    refine (assign_outcome h.valid h.represents value hok hn).bind ?_
    intro t' hend
    refine ⟨⟨hend.valid, hend.represents⟩, rfl, fun hs hfew => ?_⟩
    obtain ⟨hs', hlength⟩ := hend.steady hs (hfew key rfl)
    exact ⟨hs', hlength.imp_right fun hgrow => ⟨key, rfl, hgrow⟩⟩
  | find key =>
    refine (lookup_outcome h.valid h.represents hn).bind ?_
    rintro _ rfl
    exact ⟨h, rfl, fun hs _ => ⟨hs, Or.inl rfl⟩⟩
  | erase key =>
    refine (erase_outcome h.valid h.represents hn).bind ?_
    rintro ⟨t', count⟩ ⟨hend, hcount⟩
    refine ⟨⟨hend.valid, hend.represents⟩, congrArg MapReply.erased hcount, fun hs _ => ?_⟩
    exact ⟨hend.steady hs, Or.inl hend.length⟩

/-- Every run answers as a map does, or ends with `std::length_error` or a distance that
does not fit. -/
theorem runTable_refines (hash : K → U64) (maxSize bucketCount : ℕ)
    (minLoadFactor maxLoadFactor : ℚ) (calls : List (MapCall K V)) :
    Outcome (fun f => f = .distance ∨ f = .length)
      (fun r => r.2 = (runSpec MapCall.spec (fun _ => none) calls).2 ∧
        Represents (runSpec MapCall.spec (fun _ => none) calls).1 (items r.1.buckets) ∧
        r.1.nbElements = (items r.1.buckets).length)
      (runTable hash maxSize bucketCount minLoadFactor maxLoadFactor calls) := by
  unfold runTable
  refine (new_outcome hash (Or.inl (Or.inr rfl))).bind ?_
  rintro t ⟨hv, hnil, -⟩
  refine (runCalls_refines (R := Refines hash) MapCall.spec calls ?_
    (Refines.empty hv hnil)).mono ?_
  · intro t m c _ h
    refine (call_outcome h c (Or.inl (Or.inr rfl)) (Or.inl (Or.inl rfl))).mono ?_
    rintro r ⟨href, hreply, -⟩
    exact ⟨href, hreply⟩
  · rintro r ⟨href, hreplies⟩
    exact ⟨hreplies, href.represents, href.valid.count⟩

/-! ### Few keys -/

/-- What a run over at most 4096 distinct keys keeps. -/
structure Few (hash : K → U64) (keys : Finset K) (bound : ℕ) (t : RobinHash K V)
    (m : K → Option V) : Prop where
  refines : Refines hash t m
  steady : Steady t
  within : Within keys m
  length : t.buckets.length ≤ bound

section Few

variable {keys : Finset K} {bound : ℕ}

omit [DecidableEq K] [Inhabited V] in
/-- A table at its threshold with fewer than 4096 entries has at most 2^14 buckets. -/
theorem Valid.double_le (hv : Valid hash t) (hle : t.loadThreshold ≤ t.nbElements)
    (hfew : (items t.buckets).length < DIST_FROM_IDEAL_BUCKET_LIMIT) :
    (t.mask + 1) * 2 ≤ 2 ^ 15 := by
  rcases Nat.eq_zero_or_pos t.buckets.length with hzero | hpos
  · rw [mask, hzero]
    norm_num
  · obtain ⟨b, hb⟩ := hv.exists_pow hpos
    have hb14 : b ≤ 14 := by
      by_contra hlt
      have hthreshold := le_threshold (b := b) hv.factor (by omega)
      rw [← hb, ← hv.threshold] at hthreshold
      have hpow : 2 ^ 12 ≤ 2 ^ (b - 3) := Nat.pow_le_pow_right two_pos (by omega)
      rw [← hv.count, DIST_FROM_IDEAL_BUCKET_LIMIT] at hfew
      omega
    have hpow : 2 ^ b ≤ 2 ^ 14 := Nat.pow_le_pow_right two_pos hb14
    rw [mask, hb]
    omega

omit [DecidableEq K] [Inhabited V] in
theorem Valid.countOk (hv : Valid hash t) (hle : (t.mask + 1) * 2 ≤ 2 ^ 15)
    (hmax : 2 ^ 15 ≤ maxSize) : CountOk maxSize ((t.mask + 1) * 2) := by
  refine ⟨by omega, fun _ => ?_⟩
  rw [hv.double_pow]
  omega

theorem Few.call (h : Few hash keys bound t m) (hcard : keys.card ≤ DIST_FROM_IDEAL_BUCKET_LIMIT)
    (hbound : 2 ^ 15 ≤ bound) (hmax : 2 ^ 15 ≤ maxSize) (c : MapCall K V)
    (hc : ∀ key, c.assigned = some key → key ∈ keys) :
    Outcome (fun _ => False)
      (fun r => Few hash keys bound r.1 (c.spec m).1 ∧ r.2 = (c.spec m).2)
      (call hash maxSize t c) := by
  have hlimit : ∀ key, c.assigned = some key → key ∉ (items t.buckets).map Prod.fst →
      (items t.buckets).length < DIST_FROM_IDEAL_BUCKET_LIMIT :=
    fun key hkey hfresh =>
      (h.refines.represents.length_lt_card h.within (hc key hkey) hfresh).trans_le hcard
  have hv := h.refines.valid
  refine (call_outcome h.refines c (Or.inr fun key hkey hfresh => ⟨h.steady, fun hle => ?_⟩)
    (Or.inr ?_)).mono ?_
  · exact hv.countOk (hv.double_le hle (hlimit key hkey hfresh)) hmax
  · have hle := (h.refines.represents.length_le_card h.within).trans hcard
    rw [DIST_FROM_IDEAL_BUCKET_LIMIT] at hle
    omega
  · rintro r ⟨href, hreply, hsteady⟩
    obtain ⟨hs, hlength⟩ := hsteady h.steady hlimit
    refine ⟨⟨href, hs, h.within.spec hc, ?_⟩, hreply⟩
    rcases hlength with hsame | ⟨key, hkey, hfresh, hle, hdouble⟩
    · rw [hsame]
      exact h.length
    · rw [hdouble]
      exact (hv.double_le hle (hlimit key hkey hfresh)).trans hbound

end Few

/-- With the default smallest load factor, a run that assigns at most 4096 distinct keys
never fails: no distance overflows and no length error is thrown, for any hash function. -/
theorem runTable_total (hash : K → U64) {maxSize bucketCount : ℕ} (maxLoadFactor : ℚ)
    {calls : List (MapCall K V)} (hcount : CountOk maxSize bucketCount) (hmax : 2 ^ 15 ≤ maxSize)
    (hfew : (calls.filterMap MapCall.assigned).toFinset.card ≤ DIST_FROM_IDEAL_BUCKET_LIMIT) :
    ∃ t, runTable hash maxSize bucketCount DEFAULT_MIN_LOAD_FACTOR maxLoadFactor calls =
        .ok (t, (runSpec MapCall.spec (fun _ => none) calls).2) ∧
      t.buckets.length ≤ max (normalBucketCount bucketCount) (2 ^ 15) := by
  have hrun : Outcome (fun _ => False)
      (fun r => r.2 = (runSpec MapCall.spec (fun _ => none) calls).2 ∧
        r.1.buckets.length ≤ max (normalBucketCount bucketCount) (2 ^ 15))
      (runTable hash maxSize bucketCount DEFAULT_MIN_LOAD_FACTOR maxLoadFactor calls) := by
    unfold runTable
    refine (new_outcome hash (Or.inr hcount)).bind ?_
    rintro t ⟨hv, hnil, hlength, hmin, hgrow⟩
    have hstart : Few hash (calls.filterMap MapCall.assigned).toFinset
        (max (normalBucketCount bucketCount) (2 ^ 15)) t fun _ => none := by
      refine ⟨Refines.empty hv hnil, ⟨hmin.trans clamp_zero, hgrow⟩, fun _ _ => rfl, ?_⟩
      rw [hlength]
      exact le_max_left _ _
    refine (runCalls_refines MapCall.spec calls (fun t m c hc h => ?_) hstart).mono ?_
    · refine h.call hfew (le_max_right _ _) hmax c fun key hkey => ?_
      exact List.mem_toFinset.mpr (List.mem_filterMap.mpr ⟨c, hc, hkey⟩)
    · rintro r ⟨hr, hreplies⟩
      exact ⟨hreplies, hr.length⟩
  obtain ⟨⟨t, replies⟩, hok, rfl, hlength⟩ := hrun.exists_ok
  exact ⟨t, hok, hlength⟩

theorem runTable_total_constant_hash : CountOk (2 ^ 20) 4 ∧
    ∃ t, runTable (fun _ : ℕ => 0) (2 ^ 20) 4 DEFAULT_MIN_LOAD_FACTOR DEFAULT_MAX_LOAD_FACTOR
        [.assign 1 10, .assign 2 20, .find 2, .erase 1, .find 1, .find 2] =
        .ok (t, [.done, .done, .value (some 20), .erased 1, .value none, .value (some 20)]) ∧
      t.buckets.length ≤ max (normalBucketCount 4) (2 ^ 15) := by
  have hcount : CountOk (2 ^ 20) 4 := ⟨by norm_num, fun _ => by decide⟩
  exact ⟨hcount, runTable_total (fun _ => 0) DEFAULT_MAX_LOAD_FACTOR hcount (by norm_num) (by decide)⟩

/-! ### Many keys with one hash -/

omit [Inhabited V] in
/-- A search that stops has counted its distance in 16 bits. -/
theorem searchLoop_stopped_le (t : RobinHash K V) (key : K) (h : U64) (rounds : ℕ) {i d : ℕ}
    (hd : d ≤ 2 ^ 15 - 1) :
    Outcome (fun _ => True) (fun r => ∀ i' s, r = .stopped i' s → s ≤ 2 ^ 15 - 1)
      (t.searchLoop key h rounds i d) := by
  induction rounds generalizing i d with
  | zero => trivial
  | succ rounds ih =>
    rw [searchLoop]
    cases t.bucketAt i with
    | error f => trivial
    | ok bucket =>
      rw [ok_bind]
      split_ifs with hle
      · cases bucket with
        | none => trivial
        | some e =>
          dsimp only
          split_ifs with hmatches
          · intro i' s heq
            cases heq
          · rw [incDistance]
            split_ifs with hlt
            · exact ih (by omega)
            · trivial
      · intro i' s heq
        cases heq
        exact hd

section Collisions

variable {l : Buckets K V} {key : K} {i s : ℕ}

omit [DecidableEq K] [Inhabited V] in
/-- A search stops behind all entries with the hash of its key. -/
theorem SearchEnd.countP_le (ho : Ordered hash l) (h : SearchEnd hash l key (.stopped i s)) :
    ((items l).map Prod.fst).countP (fun k => hash k = hash key) ≤ s := by
  obtain ⟨rfl, -, hlt, -⟩ := h
  set same := l.reduceOption.filter (fun e => hash e.key = hash key) with hsame
  have hcount : ((items l).map Prod.fst).countP (fun k => hash k = hash key) = same.length := by
    rw [items, List.map_map, List.countP_map, List.countP_eq_length_filter]
    rfl
  have hentry : ∀ e ∈ same, hash e.key = hash key ∧
      l[((hash key).toNat + e.dist) % l.length]? = some (some e) := by
    intro e he
    obtain ⟨hmem, heq⟩ := List.mem_filter.mp he
    obtain ⟨j, hj⟩ := mem_reduceOption_iff_getElem?.mp hmem
    have heq' : hash e.key = hash key := of_decide_eq_true heq
    have hplace := (ho.placed hj).2
    rw [heq'] at hplace
    exact ⟨heq', hplace ▸ hj⟩
  have hinj : ∀ e ∈ same, ∀ e' ∈ same, e.dist = e'.dist → e = e' := by
    intro e he e' he' hdist
    have hcell := (hentry e he).2
    rw [hdist, (hentry e' he').2] at hcell
    simpa using hcell.symm
  have hnodup : (same.map BucketEntry.dist).Nodup := by
    refine List.Nodup.map_on hinj (List.Nodup.filter _ (List.Nodup.of_map BucketEntry.key ?_))
    have hkeys := ho.nodup
    rw [items, List.map_map] at hkeys
    exact hkeys
  have hsub : (same.map BucketEntry.dist).toFinset ⊆ Finset.range s := by
    intro d hd
    obtain ⟨e, he, rfl⟩ := List.mem_map.mp (List.mem_toFinset.mp hd)
    obtain ⟨heq, hcell⟩ := hentry e he
    rw [Finset.mem_range]
    by_contra hge
    have hway := ho.le_distAt hcell (Nat.le_of_not_lt hge)
    rw [heq] at hway
    omega
  have hcard := Finset.card_le_card hsub
  rw [List.toFinset_card_of_nodup hnodup, List.length_map, Finset.card_range] at hcard
  rw [hcount]
  exact hcard

/-- An assignment of a fresh key succeeds only below the limit of its hash. -/
theorem countP_lt_of_assign (hv : Valid hash t) (hfresh : key ∉ (items t.buckets).map Prod.fst)
    {value : V} {t' : RobinHash K V} (hassign : t.assign hash maxSize key value = .ok t') :
    ((items t.buckets).map Prod.fst).countP (fun k => hash k = hash key) < 2 ^ 15 := by
  have hsought : Outcome (fun _ => True) (Sought hash t.buckets key) _ :=
    search_outcome hv (Or.inl trivial)
  have hstopped := searchLoop_stopped_le t key (hash key) (t.buckets.length + 1)
    (i := t.bucketForHash (hash key)) (d := 0) (by norm_num)
  unfold assign insertImpl at hassign
  cases hsearch : t.searchLoop key (hash key) (t.buckets.length + 1)
      (t.bucketForHash (hash key)) 0 with
  | error f =>
    rw [hsearch] at hassign
    cases hassign
  | ok r =>
    rw [hsearch] at hsought hstopped
    cases r with
    | found i =>
      obtain ⟨e, he, rfl⟩ := hsought
      exact absurd (List.mem_map_of_mem (f := Prod.fst) (mem_items_of_getElem? he)) hfresh
    | stopped i s =>
      have hs : s ≤ 2 ^ 15 - 1 := hstopped i s rfl
      rcases hv.room with hroom | hnil
      · have hcount := (hsought.2 (by omega)).countP_le hv.ordered
        omega
      · rw [hnil]
        norm_num [items]

end Collisions

/-- No hash has more than 2^15 keys. -/
def Spread (hash : K → U64) (keys : List K) : Prop :=
  ∀ h, keys.countP (fun k => hash k = h) ≤ 2 ^ 15

omit [DecidableEq K] in
theorem Spread.subset {keys keys' : List K} (h : Spread hash keys) (hnodup : keys'.Nodup)
    (hsub : ∀ k ∈ keys', k ∈ keys) : Spread hash keys' := fun x =>
  (List.Subperm.countP_le _ (hnodup.subperm hsub)).trans (h x)

omit [DecidableEq K] in
theorem Spread.cons {keys : List K} (h : Spread hash keys) {key : K}
    (hlt : keys.countP (fun k => hash k = hash key) < 2 ^ 15) : Spread hash (key :: keys) := by
  intro x
  rw [List.countP_cons]
  split_ifs with heq
  · rw [decide_eq_true_iff] at heq
    rw [← heq]
    exact hlt
  · exact h x

theorem call_spread (href : Refines hash t m) (hspread : Spread hash ((items t.buckets).map Prod.fst))
    (c : MapCall K V) {r : RobinHash K V × MapReply V} (hr : call hash maxSize t c = .ok r) :
    Spread hash ((items r.1.buckets).map Prod.fst) := by
  have hcall : Outcome (fun _ => True) _ (call hash maxSize t c) :=
    call_outcome href c (Or.inl trivial) (Or.inl trivial)
  have hafter := hcall.of_ok hr
  have hrep := hafter.1.represents
  have hold : ∀ k, c.assigned ≠ some k → k ∈ (items r.1.buckets).map Prod.fst →
      k ∈ (items t.buckets).map Prod.fst := by
    intro k hk hmem
    by_contra hout
    have hnone := MapCall.spec_eq_none (href.represents.eq_none_iff.mpr hout) hk
    exact hrep.eq_none_iff.mp hnone hmem
  cases c with
  | assign key value =>
    by_cases hkey : key ∈ (items t.buckets).map Prod.fst
    · refine hspread.subset hrep.nodup fun k hk => ?_
      by_cases heq : key = k
      · exact heq ▸ hkey
      · exact hold k (fun h => heq (Option.some.inj h)) hk
    · have hassign : ∃ t', t.assign hash maxSize key value = .ok t' := by
        unfold call at hr
        dsimp only at hr
        cases h : t.assign hash maxSize key value with
        | error f =>
          rw [h] at hr
          cases hr
        | ok t' => exact ⟨t', rfl⟩
      obtain ⟨t', ht'⟩ := hassign
      refine (hspread.cons (countP_lt_of_assign href.valid hkey ht')).subset hrep.nodup fun k hk => ?_
      by_cases heq : key = k
      · exact heq ▸ List.mem_cons_self
      · exact List.mem_cons_of_mem _ (hold k (fun h => heq (Option.some.inj h)) hk)
  | find key => exact hspread.subset hrep.nodup fun k hk => hold k nofun hk
  | erase key => exact hspread.subset hrep.nodup fun k hk => hold k nofun hk

/-- However large the table is, a run that returns has stored at most 2^15 keys with one
hash. -/
theorem runTable_spread (hash : K → U64) (maxSize bucketCount : ℕ)
    (minLoadFactor maxLoadFactor : ℚ) (calls : List (MapCall K V)) :
    Outcome (fun f => f = .distance ∨ f = .length)
      (fun r => ∀ h, ((items r.1.buckets).map Prod.fst).countP (fun k => hash k = h) ≤ 2 ^ 15)
      (runTable hash maxSize bucketCount minLoadFactor maxLoadFactor calls) := by
  unfold runTable
  refine (new_outcome hash (Or.inl (Or.inr rfl))).bind ?_
  rintro t ⟨hv, hnil, -⟩
  have hstart : Refines hash t (fun _ => none) ∧ Spread hash ((items t.buckets).map Prod.fst) :=
    ⟨Refines.empty hv hnil, fun h => by rw [hnil]; exact Nat.zero_le _⟩
  refine (runCalls_refines
    (R := fun t m => Refines hash t m ∧ Spread hash ((items t.buckets).map Prod.fst)) MapCall.spec calls
    (fun t m c _ h => ?_) hstart).mono ?_
  · have hcall : Outcome (fun f => f = Fault.distance ∨ f = Fault.length) _
        (call hash maxSize t c) :=
      call_outcome h.1 c (Or.inl (Or.inr rfl)) (Or.inl (Or.inl rfl))
    cases hr : call hash maxSize t c with
    | error f =>
      rw [hr] at hcall
      exact hcall
    | ok r =>
      obtain ⟨href, hreply, -⟩ := hcall.of_ok hr
      exact ⟨⟨href, call_spread h.1 h.2 c hr⟩, hreply⟩
  · rintro r ⟨⟨-, hspread⟩, -⟩
    exact hspread

end EntropyLearnedHashing.RobinHash
