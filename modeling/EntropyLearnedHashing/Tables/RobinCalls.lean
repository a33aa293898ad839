import EntropyLearnedHashing.Library.MapRefinement
import EntropyLearnedHashing.Tables.RobinRehash

/-! The calls of the Robin Hood table as calls on a map. A search ends at the key or shows
that it is absent; an assignment, after growing or shrinking where the load asks for it,
and an erasure leave the items that the map has afterwards. -/

namespace EntropyLearnedHashing.RobinHash

open CircularArray

variable {K V : Type} {hash : K → U64} {maxSize : ℕ} {allowed : Fault → Prop}
  {t : RobinHash K V} {l : Buckets K V} {i j : ℕ} {key : K} {m : K → Option V}

/-! ### Items -/

theorem mem_items_of_getElem? {e : BucketEntry K V} (he : l[i]? = some (some e)) :
    (e.key, e.value) ∈ items l :=
  List.mem_map_of_mem (mem_reduceOption_iff_getElem?.mpr ⟨i, he⟩)

theorem exists_entry_of_mem (h : key ∈ (items l).map Prod.fst) :
    ∃ (i : ℕ) (e : BucketEntry K V), l[i]? = some (some e) ∧ e.key = key := by
  obtain ⟨p, hp, rfl⟩ := List.mem_map.mp h
  obtain ⟨e, he, rfl⟩ := List.mem_map.mp hp
  obtain ⟨i, hi⟩ := mem_reduceOption_iff_getElem?.mp he
  exact ⟨i, e, hi, rfl⟩

/-- A key has one bucket. -/
theorem Ordered.index_inj (ho : Ordered hash l) {e e' : BucketEntry K V}
    (he : l[i]? = some (some e)) (he' : l[j]? = some (some e')) (hkey : e.key = e'.key) : i = j := by
  have hkeys := ho.nodup
  rw [items, List.map_map] at hkeys
  exact CircularArray.index_inj hkeys he he' hkey

/-- Another value for a key that has a bucket. -/
theorem Ordered.setValue (ho : Ordered hash l) {e : BucketEntry K V} (he : l[i]? = some (some e))
    (v : V) : Ordered hash (l.set i (some { e with value := v })) ∧
      (items (l.set i (some { e with value := v }))).Perm
        ((e.key, v) :: items (l.set i none)) := by
  have hi := lt_of_getElem? he
  have hperm := items_replace he { e with value := v }
  have hdist : ∀ j, distAt (l.set i (some { e with value := v })) j = distAt l j := by
    intro j
    rw [distAt_set hi]
    split_ifs with hj
    · rw [hj, distAt_of_getElem? he, bucketDist, bucketDist]
    · rfl
  have hplaced := ho.placed he
  refine ⟨⟨by simpa using ho.size, ?_, ?_, ?_⟩, hperm⟩
  · intro j e' he'
    rw [List.length_set]
    exact placed_set (P := fun e j => e.hash = (hash e.key).setWidth 32 ∧
      ((hash e.key).toNat + e.dist) % l.length = j) ho.placed
      (c := { e with value := v }) hplaced he'
  · intro j hj
    rw [List.length_set] at hj ⊢
    rw [hdist, hdist]
    exact ho.step j hj
  · rw [(hperm.map Prod.fst).nodup_iff]
    exact ((ho.clear he).2.map Prod.fst).nodup_iff.mpr ho.nodup

/-! ### Search -/

/-- A stopped search has shown that the key is absent. -/
theorem SearchEnd.not_mem (ho : Ordered hash l) {s : ℕ}
    (h : SearchEnd hash l key (.stopped i s)) : key ∉ (items l).map Prod.fst := by
  intro hmem
  obtain ⟨j, e, he, rfl⟩ := exists_entry_of_mem hmem
  obtain ⟨rfl, -, hlt, hpassed⟩ := h
  obtain ⟨hhash, hplace⟩ := ho.placed he
  by_cases hs : s ≤ e.dist
  · -- the bucket where the search stopped lies on the way to the entry
    have hway := ho.le_distAt he hs
    omega
  · obtain ⟨e', he', -, hno⟩ := hpassed e.dist (by omega)
    rw [hplace, he] at he'
    obtain rfl : e = e' := by simpa using he'
    exact hno ⟨hhash, rfl⟩

/-- What the search of a call tells. -/
def Sought (hash : K → U64) (l : Buckets K V) (key : K) : Search → Prop
  | .found i => ∃ e, l[i]? = some (some e) ∧ e.key = key
  | .stopped i s => key ∉ (items l).map Prod.fst ∧
      (0 < l.length → SearchEnd hash l key (.stopped i s))

variable [DecidableEq K]

theorem search_outcome (hv : Valid hash t)
    (hn : allowed .distance ∨ (items t.buckets).length ≤ 2 ^ 15 - 1) :
    Outcome allowed (Sought hash t.buckets key)
      (t.searchLoop key (hash key) (t.buckets.length + 1) (t.bucketForHash (hash key)) 0) := by
  rcases hv.room with hroom | hnil
  · obtain ⟨z, hz, hempty⟩ := exists_empty_from hroom (hash key).toNat
    rw [hv.ordered.bucketForHash_eq (by omega), ← Nat.add_zero (hash key).toNat]
    refine (searchLoop_outcome hv.ordered hz hempty hn (Nat.zero_le z) (by omega)
      Passed.zero).mono ?_
    rintro (i | ⟨i, s⟩) hend
    · obtain ⟨_, e, _, he, _, hmatches, _⟩ := hend
      exact ⟨e, he, hmatches.2⟩
    · exact ⟨hend.not_mem hv.ordered, fun _ => hend⟩
  · have hzero : t.bucketForHash (hash key) = 0 := by simp [bucketForHash, mask, hnil]
    have hcell : t.bucketAt 0 = .ok none := by simp [bucketAt, hnil]
    rw [searchLoop, hzero, hcell]
    simp only [ok_bind, bucketDist]
    rw [hnil]
    exact ⟨List.not_mem_nil, fun h => absurd h (Nat.lt_irrefl 0)⟩

theorem findImpl_outcome (hv : Valid hash t)
    (hn : allowed .distance ∨ (items t.buckets).length ≤ 2 ^ 15 - 1) :
    Outcome allowed (fun r => match r with
      | some i => ∃ e, t.buckets[i]? = some (some e) ∧ e.key = key
      | none => key ∉ (items t.buckets).map Prod.fst) (t.findImpl key (hash key)) := by
  unfold findImpl
  refine (search_outcome hv hn).bind ?_
  rintro (i | ⟨i, s⟩) hend
  · exact hend
  · exact hend.1

theorem lookup_outcome (hv : Valid hash t) (hm : Represents m (items t.buckets))
    (hn : allowed .distance ∨ (items t.buckets).length ≤ 2 ^ 15 - 1) :
    Outcome allowed (fun v => v = m key) (t.lookup hash key) := by
  unfold lookup
  refine (findImpl_outcome hv hn).bind ?_
  rintro (_ | i) hr
  · exact (hm.eq_none_iff.mpr hr).symm
  · obtain ⟨e, he, rfl⟩ := hr
    simp only [bucketAt_of_getElem? he, ok_bind]
    exact (hm.iff_mem.mpr (mem_items_of_getElem? he)).symm

/-! ### Insertion -/

/-- What an insertion leaves of a table that had room for it. -/
structure Grown (hash : K → U64) (t : RobinHash K V) (i : ℕ) (key : K) (value : V)
    (t' : RobinHash K V) : Prop where
  valid : Valid hash t'
  perm : (items t'.buckets).Perm ((key, value) :: items t.buckets)
  length : t'.buckets.length = t.buckets.length
  cell : ∃ e, t'.buckets[i]? = some (some e) ∧ e.key = key
  minLoadFactor : t'.minLoadFactor = t.minLoadFactor
  flag : t'.growOnNextInsert = true → t.growOnNextInsert = true ∨
    DIST_FROM_IDEAL_BUCKET_LIMIT ≤ (items t.buckets).length

omit [DecidableEq K] in
theorem Grown.of_inserted {c : BucketEntry K V} {z : ℕ} {l' : Buckets K V} (grow : Bool)
    (hv : Valid hash t) (hroom : (items t.buckets).length + 1 < t.buckets.length)
    (h : Inserted hash t.buckets i c z l') (hcell : l'[i]? = some (some c))
    (hflag : grow = true → t.growOnNextInsert = true ∨
      DIST_FROM_IDEAL_BUCKET_LIMIT ≤ (items t.buckets).length) :
    Grown hash t i c.key c.value { t with
      buckets := l', growOnNextInsert := grow, nbElements := t.nbElements + 1 } where
  valid := by
    have hlen := h.perm.length_eq
    rw [List.length_cons] at hlen
    refine ⟨h.ordered, ?_, Or.inl ?_, hv.factor, ?_⟩
    · simp only [hlen, hv.count]
    · simp only [hlen, h.length]
      exact hroom
    · simp only [h.length]
      exact hv.threshold
  perm := h.perm
  length := h.length
  cell := ⟨c, hcell, rfl⟩
  minLoadFactor := rfl
  flag := hflag

omit [DecidableEq K] in
theorem insertAt_outcome (hv : Valid hash t) {s : ℕ} {value : V} {p : BucketEntry K V → Prop}
    (hroom : (items t.buckets).length + 1 < t.buckets.length)
    (hfresh : key ∉ (items t.buckets).map Prod.fst)
    (hlt : distAt t.buckets (((hash key).toNat + s) % t.buckets.length) < s)
    (hp : Passed p t.buckets (hash key).toNat s)
    (hn : allowed .distance ∨ (items t.buckets).length ≤ 2 ^ 15 - 1) :
    Outcome allowed (Grown hash t (((hash key).toNat + s) % t.buckets.length) key value)
      (t.insertAt hash (((hash key).toNat + s) % t.buckets.length) s key value) := by
  have hpos : 0 < t.buckets.length := by omega
  set c : BucketEntry K V :=
    { dist := s, hash := (hash key).setWidth 32, key := key, value := value } with hc
  have hcarried : Carried hash t.buckets (((hash key).toNat + s) % t.buckets.length) c :=
    Carried.of_passed hash (c := c) hpos hp rfl hfresh
  have hi := hcarried.lt
  unfold insertAt
  rw [← hc]
  dsimp only
  cases hcell : t.buckets[((hash key).toNat + s) % t.buckets.length]? with
  | none => exact absurd hi (Nat.not_lt.mpr (List.getElem?_eq_none_iff.mp hcell))
  | some b =>
    rw [bucketAt_of_getElem? hcell]
    cases b with
    | none =>
      obtain ⟨ho, hperm⟩ := hv.ordered.place hcarried hcell
      simp only [ok_bind, setBucket_of_lt hi]
      exact Grown.of_inserted t.growOnNextInsert hv hroom
        (Inserted.place (z := 0) hi ho hperm) (List.getElem?_set_self hi) Or.inl
    | some e =>
      rw [distAt_of_getElem? hcell, bucketDist] at hlt
      obtain ⟨z, hz⟩ := Inserting.of_carried hv.ordered (by omega) hcarried
      simp only [ok_bind]
      refine (insertValueImpl_outcome hz hcell (by simp only [hc]; omega) hn).bind ?_
      rintro _ ⟨l', grow, rfl, hl', hcell', hflag⟩
      exact Grown.of_inserted _ hv hroom hl' hcell' hflag

/-- What `insert_impl` leaves. -/
structure InsertEnd (hash : K → U64) (t : RobinHash K V) (key : K) (value : V)
    (t' : RobinHash K V) (i : ℕ) : Prop where
  valid : Valid hash t'
  cell : ∃ e, t'.buckets[i]? = some (some e) ∧ e.key = key
  change : key ∈ (items t.buckets).map Prod.fst ∧ t' = t ∨
    key ∉ (items t.buckets).map Prod.fst ∧
      (items t'.buckets).Perm ((key, value) :: items t.buckets)
  steady : Steady t → (key ∉ (items t.buckets).map Prod.fst →
      (items t.buckets).length < DIST_FROM_IDEAL_BUCKET_LIMIT) →
    Steady t' ∧ (t'.buckets.length = t.buckets.length ∨
      key ∉ (items t.buckets).map Prod.fst ∧ t.loadThreshold ≤ t.nbElements ∧
        t'.buckets.length = (t.mask + 1) * 2)

omit [DecidableEq K] in
theorem InsertEnd.of_grown {t₁ t' : RobinHash K V} {value : V} (hroomy : Roomy hash t t₁)
    (hfresh : key ∉ (items t.buckets).map Prod.fst)
    (h : Grown hash t₁ i key value t') : InsertEnd hash t key value t' i where
  valid := h.valid
  cell := h.cell
  change := Or.inr ⟨hfresh, h.perm.trans (hroomy.perm.cons _)⟩
  steady hs hfew := by
    obtain ⟨hs₁, hlen⟩ := hroomy.steady hs
    have hcount := hroomy.perm.length_eq
    have hlimit := hfew hfresh
    refine ⟨⟨h.minLoadFactor.trans hs₁.minLoadFactor, ?_⟩, ?_⟩
    · cases hflag : t'.growOnNextInsert with
      | false => rfl
      | true =>
        rcases h.flag hflag with hbefore | hmany
        · rw [hs₁.growOnNextInsert] at hbefore
          cases hbefore
        · omega
    · rw [h.length]
      exact hlen.imp_right fun hgrow => ⟨hfresh, hgrow⟩

/-- When the calls that insert do not throw. -/
def InsertOk (maxSize : ℕ) (t : RobinHash K V) (key : K) : Prop :=
  key ∉ (items t.buckets).map Prod.fst → GrowOk maxSize t

theorem insertImpl_outcome (hv : Valid hash t) (value : V)
    (hlen : allowed .length ∨ InsertOk maxSize t key)
    (hn : allowed .distance ∨ (items t.buckets).length ≤ 2 ^ 15 - 1) :
    Outcome allowed (fun r => InsertEnd hash t key value r.1 r.2.1)
      (t.insertImpl hash maxSize key value) := by
  unfold insertImpl
  refine (search_outcome hv hn).bind ?_
  rintro (i | ⟨i, s⟩) hend
  · obtain ⟨e, he, rfl⟩ := hend
    have hmem : e.key ∈ (items t.buckets).map Prod.fst :=
      List.mem_map_of_mem (f := Prod.fst) (mem_items_of_getElem? he)
    exact ⟨hv, ⟨e, he, rfl⟩, Or.inl ⟨hmem, rfl⟩, fun hs _ => ⟨hs, Or.inl rfl⟩⟩
  · obtain ⟨hfresh, hend⟩ := hend
    dsimp only
    refine (rehashOnExtremeLoad_outcome hv (hlen.imp_right fun h => h hfresh) hn).bind ?_
    rintro ⟨t₁, rehashed⟩ ⟨hroomy, hsame⟩
    dsimp only at hroomy hsame ⊢
    have hcount := hroomy.perm.length_eq
    have hroom := hroomy.room
    have hfresh₁ : key ∉ (items t₁.buckets).map Prod.fst := by
      rwa [(hroomy.perm.map Prod.fst).mem_iff]
    have hn₁ : allowed .distance ∨ (items t₁.buckets).length ≤ 2 ^ 15 - 1 := by rwa [hcount]
    cases rehashed with
    | true =>
      obtain ⟨z, hz, hempty⟩ := exists_empty_from (l := t₁.buckets) (by omega) (hash key).toNat
      rw [if_pos rfl, hroomy.valid.ordered.bucketForHash_eq (by omega),
        ← Nat.add_zero (hash key).toNat]
      refine (skipLoop_outcome hroomy.valid.ordered hz hempty hn₁ (Nat.zero_le z) (by omega)
        Passed.zero).bind ?_
      rintro ⟨i', s'⟩ ⟨hi', -, hlt, hpassed⟩
      dsimp only at hi' hlt hpassed ⊢
      subst hi'
      refine (insertAt_outcome hroomy.valid (by omega) hfresh₁ hlt hpassed hn₁).bind ?_
      intro t' hgrown
      exact InsertEnd.of_grown hroomy hfresh hgrown
    | false =>
      have hbuckets := hsame rfl
      obtain ⟨rfl, -, hlt, hpassed⟩ := hend (by rw [← hbuckets]; omega)
      rw [← hbuckets] at hlt hpassed
      rw [if_neg Bool.false_ne_true, ← hbuckets]
      refine (insertAt_outcome hroomy.valid (by omega) hfresh₁ hlt hpassed hn₁).bind ?_
      intro t' hgrown
      exact InsertEnd.of_grown hroomy hfresh hgrown

/-! ### Assignment -/

/-- What an assignment leaves. -/
structure AssignEnd (hash : K → U64) (t : RobinHash K V) (m : K → Option V) (key : K)
    (t' : RobinHash K V) : Prop where
  valid : Valid hash t'
  represents : Represents m (items t'.buckets)
  steady : Steady t → (key ∉ (items t.buckets).map Prod.fst →
      (items t.buckets).length < DIST_FROM_IDEAL_BUCKET_LIMIT) →
    Steady t' ∧ (t'.buckets.length = t.buckets.length ∨
      key ∉ (items t.buckets).map Prod.fst ∧ t.loadThreshold ≤ t.nbElements ∧
        t'.buckets.length = (t.mask + 1) * 2)

omit [DecidableEq K] in
theorem Valid.setValue (hv : Valid hash t) {e : BucketEntry K V}
    (he : t.buckets[i]? = some (some e)) (v : V) :
    Valid hash { t with buckets := t.buckets.set i (some { e with value := v }) } := by
  obtain ⟨ho, hperm⟩ := hv.ordered.setValue he v
  have hlen : (items (t.buckets.set i (some { e with value := v }))).length =
      (items t.buckets).length :=
    hperm.length_eq.trans (hv.ordered.clear he).2.length_eq
  have hi := lt_of_getElem? he
  refine ⟨ho, hv.count.trans hlen.symm, Or.inl ?_, hv.factor, ?_⟩
  · simp only [hlen, List.length_set]
    refine hv.room.resolve_right fun hnil => ?_
    rw [hnil] at hi
    exact absurd hi (Nat.not_lt_zero _)
  · simp only [List.length_set]
    exact hv.threshold

theorem assign_outcome [Inhabited V] (hv : Valid hash t) (hm : Represents m (items t.buckets))
    (value : V) (hlen : allowed .length ∨ InsertOk maxSize t key)
    (hn : allowed .distance ∨ (items t.buckets).length ≤ 2 ^ 15 - 1) :
    Outcome allowed (AssignEnd hash t (Function.update m key (some value)) key)
      (t.assign hash maxSize key value) := by
  unfold assign
  refine (insertImpl_outcome hv default hlen hn).bind ?_
  rintro ⟨t₁, i, _⟩ hend
  dsimp only at hend ⊢
  obtain ⟨e, he, rfl⟩ := hend.cell
  have hupdate : ∃ m₁, Represents m₁ (items t₁.buckets) ∧
      Function.update m₁ e.key (some value) = Function.update m e.key (some value) := by
    rcases hend.change with ⟨-, heq⟩ | ⟨hfresh, hperm⟩
    · exact ⟨m, by rw [heq]; exact hm, rfl⟩
    · exact ⟨_, (hm.cons (v := default) hfresh).perm hperm, Function.update_idem _ _ _⟩
  obtain ⟨m₁, hm₁, heq⟩ := hupdate
  have hclear := (hend.valid.ordered.clear he).2
  simp only [bucketAt_of_getElem? he, ok_bind, setBucket_of_lt (lt_of_getElem? he)]
  refine ⟨hend.valid.setValue he value, ?_, ?_⟩
  · rw [← heq]
    exact (hm₁.perm hclear).replace.perm (hend.valid.ordered.setValue he value).2
  · intro hs hfew
    obtain ⟨hs₁, hlength⟩ := hend.steady hs hfew
    exact ⟨⟨hs₁.1, hs₁.2⟩, by simpa only [List.length_set] using hlength⟩

/-! ### Erasure -/

/-- What an erasure leaves. -/
structure EraseEnd (hash : K → U64) (t : RobinHash K V) (m : K → Option V)
    (t' : RobinHash K V) : Prop where
  valid : Valid hash t'
  represents : Represents m (items t'.buckets)
  length : t'.buckets.length = t.buckets.length
  steady : Steady t → Steady t'

omit [DecidableEq K] in
theorem eraseFromBucket_outcome (hv : Valid hash t) {e : BucketEntry K V}
    (he : t.buckets[i]? = some (some e)) :
    Outcome allowed (fun t' => Valid hash t' ∧
      ((e.key, e.value) :: items t'.buckets).Perm (items t.buckets) ∧
      t'.buckets.length = t.buckets.length ∧ (Steady t → Steady t')) (t.eraseFromBucket i) := by
  have hi := lt_of_getElem? he
  have hroom : (items t.buckets).length < t.buckets.length := by
    refine hv.room.resolve_right fun hnil => ?_
    rw [hnil] at hi
    exact absurd hi (Nat.not_lt_zero _)
  obtain ⟨hhole, hperm⟩ := hv.ordered.clear he
  obtain ⟨z, hz, hempty⟩ := exists_empty_from hroom i
  have hne : i ≠ (i + z) % t.buckets.length := by
    intro heq
    rw [← heq, he] at hempty
    cases hempty
  have hpos : 0 < z := by
    refine Nat.pos_of_ne_zero ?_
    rintro rfl
    exact hne (by rw [add_zero, Nat.mod_eq_of_lt hi])
  unfold eraseFromBucket
  rw [setBucket_of_lt hi]
  simp only [ok_bind]
  set t₁ : RobinHash K V :=
    { t with buckets := t.buckets.set i none, nbElements := t.nbElements - 1 } with ht₁
  have hlen : t₁.buckets.length = t.buckets.length := List.length_set
  have hnext : t₁.nextBucket i = (i + 1) % t₁.buckets.length := by
    have hmask : t₁.mask = t.mask := by rw [mask, mask, hlen]
    rw [nextBucket, hmask, hlen]
    exact hv.ordered.nextBucket_eq hi
  rw [hnext]
  refine (shiftLoop_outcome (t := t₁) hhole hpos (by omega) ?_
    (by rw [List.length_set]; omega)).mono ?_
  · rw [hlen, ht₁, List.getElem?_set_ne hne]
    exact hempty
  · rintro _ ⟨l', rfl, hl', ho', hperm'⟩
    have hall : ((e.key, e.value) :: items l').Perm (items t.buckets) := (hperm'.cons _).trans hperm
    have hcount := hall.length_eq
    rw [List.length_cons] at hcount
    refine ⟨⟨ho', ?_, Or.inl ?_, hv.factor, ?_⟩, hall, hl'.trans hlen, fun hs => ⟨hs.1, hs.2⟩⟩
    · simp only [ht₁, hv.count]
      omega
    · simp only [hl', hlen]
      omega
    · simp only [hl', hlen]
      exact hv.threshold

theorem erase_outcome (hv : Valid hash t) (hm : Represents m (items t.buckets))
    (hn : allowed .distance ∨ (items t.buckets).length ≤ 2 ^ 15 - 1) :
    Outcome allowed (fun r => EraseEnd hash t (Function.update m key none) r.1 ∧
      r.2 = if (m key).isSome then 1 else 0) (t.erase hash key) := by
  unfold erase
  refine (findImpl_outcome hv hn).bind ?_
  rintro (_ | i) hr
  · have hnone := hm.eq_none_iff.mpr hr
    refine ⟨⟨hv, ?_, rfl, id⟩, by simp [hnone]⟩
    rwa [← hnone, Function.update_eq_self]
  · obtain ⟨e, he, rfl⟩ := hr
    refine (eraseFromBucket_outcome hv he).bind ?_
    rintro t' ⟨hv', hperm, hlen, hs⟩
    have hsome : m e.key = some e.value := hm.iff_mem.mpr (mem_items_of_getElem? he)
    refine ⟨⟨⟨hv'.ordered, hv'.count, hv'.room, hv'.factor, hv'.threshold⟩,
      (hm.perm hperm).tail, hlen, fun h => ⟨(hs h).1, (hs h).2⟩⟩, by simp [hsome]⟩

end EntropyLearnedHashing.RobinHash
