import EntropyLearnedHashing.Library.Outcome
import EntropyLearnedHashing.Tables.RobinOrder

/-! The loops of the Robin Hood table on ordered buckets. Each loop ends within one round
of the buckets. The only fault it may run into is a distance that does not fit, and
only when there are more entries than distances. -/

namespace EntropyLearnedHashing.RobinHash

open CircularArray

variable {K V : Type} {hash : K → U64} {allowed : Fault → Prop}
  {t : RobinHash K V} {l : Buckets K V} {i : ℕ}

/-! ### Buckets -/

theorem Ordered.and_mask (ho : Ordered hash t.buckets) (hpos : 0 < t.buckets.length) (x : ℕ) :
    x &&& t.mask = x % t.buckets.length := by
  obtain hzero | ⟨b, hb⟩ := ho.size
  · omega
  · rw [mask, hb, Nat.and_two_pow_sub_one_eq_mod]

theorem Ordered.nextBucket_eq (ho : Ordered hash t.buckets) (hi : i < t.buckets.length) :
    t.nextBucket i = (i + 1) % t.buckets.length :=
  ho.and_mask (Nat.zero_lt_of_lt hi) _

theorem Ordered.bucketForHash_eq (ho : Ordered hash t.buckets) (hpos : 0 < t.buckets.length)
    (h : U64) : t.bucketForHash h = h.toNat % t.buckets.length :=
  ho.and_mask hpos _

theorem bucketAt_of_getElem? {b : Option (BucketEntry K V)} (h : t.buckets[i]? = some b) :
    t.bucketAt i = .ok b := by
  have hne : t.buckets.isEmpty = false := by
    cases hl : t.buckets with
    | nil => simp [hl] at h
    | cons b l => rfl
  simp [bucketAt, hne, h]

theorem setBucket_of_lt (hi : i < t.buckets.length) (b : Option (BucketEntry K V)) :
    t.setBucket i b = .ok { t with buckets := t.buckets.set i b } := if_pos hi

theorem incDistance_outcome {d n : ℕ} (hn : allowed .distance ∨ n ≤ 2 ^ 15 - 1) (hd : d + 1 ≤ n) :
    Outcome allowed (fun d' => d' = d + 1) (incDistance d) := by
  unfold incDistance
  split_ifs with hlt
  · rfl
  · exact hn.resolve_right (by omega)

theorem lt_of_getElem? {b : Option (BucketEntry K V)} (h : l[i]? = some b) : i < l.length :=
  (List.getElem?_eq_some_iff.mp h).1

/-! ### Insertion -/

/-- What an insertion of a carried value leaves: ordered buckets with one more item, and the
buckets beyond the first empty one as they were. -/
structure Inserted (hash : K → U64) (l : Buckets K V) (i : ℕ) (c : BucketEntry K V) (z : ℕ)
    (l' : Buckets K V) : Prop where
  length : l'.length = l.length
  ordered : Ordered hash l'
  perm : (items l').Perm ((c.key, c.value) :: items l)
  frame : ∀ k, z < k → k < l.length → l'[(i + k) % l.length]? = l[(i + k) % l.length]?

section Inserted

variable {c e : BucketEntry K V} {z : ℕ} {l' : Buckets K V}

theorem Inserted.place (hi : i < l.length) (ho : Ordered hash (l.set i (some c)))
    (hperm : (items (l.set i (some c))).Perm ((c.key, c.value) :: items l)) :
    Inserted hash l i c z (l.set i (some c)) where
  length := List.length_set
  ordered := ho
  perm := hperm
  frame k hk hlt := by
    refine List.getElem?_set_ne fun heq => ?_
    have : 0 = k := add_mod_inj (by omega) hlt (by rwa [add_zero, Nat.mod_eq_of_lt hi])
    omega

theorem Inserted.exchange (hi : i < l.length) (hz : 0 < z)
    (hperm : ((e.key, e.value) :: items (l.set i (some c))).Perm ((c.key, c.value) :: items l))
    (h : Inserted hash (l.set i (some c)) ((i + 1) % l.length) { e with dist := e.dist + 1 }
      (z - 1) l') : Inserted hash l i c z l' where
  length := h.length.trans List.length_set
  ordered := h.ordered
  perm := h.perm.trans hperm
  frame k hk hlt := by
    have hframe := h.frame (k - 1) (by omega) (by rw [List.length_set]; omega)
    rw [List.length_set, Nat.mod_add_mod, show i + 1 + (k - 1) = i + k by omega] at hframe
    rw [hframe]
    refine List.getElem?_set_ne fun heq => ?_
    have : 0 = k := add_mod_inj (by omega) hlt (by rwa [add_zero, Nat.mod_eq_of_lt hi])
    omega

theorem Inserted.pass (hz : 0 < z)
    (h : Inserted hash l ((i + 1) % l.length) { c with dist := c.dist + 1 } (z - 1) l') :
    Inserted hash l i c z l' where
  length := h.length
  ordered := h.ordered
  perm := h.perm
  frame k hk hlt := by
    have hframe := h.frame (k - 1) (by omega) (by omega)
    rwa [Nat.mod_add_mod, show i + 1 + (k - 1) = i + k by omega] at hframe

end Inserted

theorem insertValueOnRehash_outcome {rounds : ℕ} {c : BucketEntry K V} {z : ℕ}
    (h : Inserting hash t.buckets i c z) (hz : z < rounds)
    (hn : allowed .distance ∨ (items t.buckets).length ≤ 2 ^ 15 - 1) :
    Outcome allowed (fun t' => ∃ l', t' = { t with buckets := l' } ∧
      Inserted hash t.buckets i c z l') (insertValueOnRehash rounds t i c) := by
  induction rounds generalizing t i c z with
  | zero => omega
  | succ rounds ih =>
    have hi := h.carried.lt
    rw [insertValueOnRehash]
    obtain ⟨hcell, ho, hperm⟩ | ⟨e, hcell, hlt, hdist, -, hpos, hnext, hperm⟩ |
      ⟨e, hcell, hle, hdist, hpos, hnext⟩ := h.cases
    · rw [bucketAt_of_getElem? hcell]
      have hlt : bucketDist (none : Option (BucketEntry K V)) < c.dist := by
        rw [bucketDist]
        omega
      simp only [ok_bind, if_pos hlt, setBucket_of_lt hi]
      exact ⟨_, rfl, Inserted.place hi ho hperm⟩
    · rw [bucketAt_of_getElem? hcell]
      have hlt' : bucketDist (some e) < c.dist := by
        rw [bucketDist]
        omega
      simp only [ok_bind, if_pos hlt', setBucket_of_lt hi]
      refine (incDistance_outcome hn hdist).bind ?_
      rintro _ rfl
      have hcount : (items (t.buckets.set i (some c))).length = (items t.buckets).length := by
        simpa using hperm.length_eq
      rw [Ordered.nextBucket_eq (t := { t with buckets := t.buckets.set i (some c) })
        hnext.ordered (by simpa using hi)]
      refine (ih (t := { t with buckets := t.buckets.set i (some c) }) (by simpa using hnext)
        (by omega) (by rwa [hcount])).mono ?_
      rintro _ ⟨l', rfl, hl'⟩
      exact ⟨l', rfl, Inserted.exchange hi hpos hperm (by simpa using hl')⟩
    · rw [bucketAt_of_getElem? hcell]
      have hle' : ¬bucketDist (some e) < c.dist := by
        rw [bucketDist]
        omega
      simp only [ok_bind, if_neg hle']
      refine (incDistance_outcome hn hdist).bind ?_
      rintro _ rfl
      rw [h.ordered.nextBucket_eq hi]
      refine (ih hnext (by omega) hn).mono ?_
      rintro _ ⟨l', rfl, hl'⟩
      exact ⟨l', rfl, hl'.pass hpos⟩

/-- The loop of an ordinary insertion. The table is marked for growth only when a distance
reaches the limit. -/
theorem insertValueLoop_outcome {rounds : ℕ} {c : BucketEntry K V} {z : ℕ}
    (h : Inserting hash t.buckets i c z) (hz : z < rounds)
    (hn : allowed .distance ∨ (items t.buckets).length ≤ 2 ^ 15 - 1) :
    Outcome allowed (fun t' => ∃ l' grow, t' = { t with buckets := l', growOnNextInsert := grow } ∧
      Inserted hash t.buckets i c z l' ∧
      (grow = true → t.growOnNextInsert = true ∨
        DIST_FROM_IDEAL_BUCKET_LIMIT ≤ (items t.buckets).length))
      (insertValueLoop rounds t i c) := by
  induction rounds generalizing t i c z with
  | zero => omega
  | succ rounds ih =>
    have hi := h.carried.lt
    rw [insertValueLoop]
    obtain ⟨hcell, ho, hperm⟩ | ⟨e, hcell, hlt, hdist, hcdist, hpos, hnext, hperm⟩ |
      ⟨e, hcell, hle, hdist, hpos, hnext⟩ := h.cases
    · rw [bucketAt_of_getElem? hcell]
      simp only [ok_bind, setBucket_of_lt hi]
      exact ⟨_, t.growOnNextInsert, rfl, Inserted.place hi ho hperm, Or.inl⟩
    · rw [bucketAt_of_getElem? hcell]
      set grow := t.growOnNextInsert || decide (DIST_FROM_IDEAL_BUCKET_LIMIT ≤ c.dist) with hgrow
      have hset : ({ t with growOnNextInsert := grow } : RobinHash K V).setBucket i (some c) =
          .ok { t with buckets := t.buckets.set i (some c), growOnNextInsert := grow } :=
        setBucket_of_lt (t := { t with growOnNextInsert := grow }) hi _
      simp only [ok_bind, if_pos hlt, hset]
      refine (incDistance_outcome hn hdist).bind ?_
      rintro _ rfl
      have hcount : (items (t.buckets.set i (some c))).length = (items t.buckets).length := by
        simpa using hperm.length_eq
      rw [Ordered.nextBucket_eq
        (t := { t with buckets := t.buckets.set i (some c), growOnNextInsert := grow })
        hnext.ordered (by simpa using hi)]
      refine (ih
        (t := { t with buckets := t.buckets.set i (some c), growOnNextInsert := grow })
        (by simpa using hnext) (by omega) (by rwa [hcount])).mono ?_
      rintro _ ⟨l', grow', rfl, hl', hflag⟩
      refine ⟨l', grow', rfl, Inserted.exchange hi hpos hperm (by simpa using hl'), fun hg => ?_⟩
      rcases hflag hg with hbefore | hlimit
      · simp only [hgrow, Bool.or_eq_true, decide_eq_true_iff] at hbefore
        exact hbefore.imp_right fun hlimit => hlimit.trans hcdist
      · exact Or.inr (by rwa [hcount] at hlimit)
    · rw [bucketAt_of_getElem? hcell]
      simp only [ok_bind, if_neg (Nat.not_lt.mpr hle)]
      refine (incDistance_outcome hn hdist).bind ?_
      rintro _ rfl
      rw [h.ordered.nextBucket_eq hi]
      refine (ih hnext (by omega) hn).mono ?_
      rintro _ ⟨l', grow, rfl, hl', hflag⟩
      exact ⟨l', grow, rfl, hl'.pass hpos, hflag⟩

/-- `insert_value_impl` steals the bucket it is called with. -/
theorem insertValueImpl_outcome {c e : BucketEntry K V} {z : ℕ}
    (h : Inserting hash t.buckets i c z) (hcell : t.buckets[i]? = some (some e))
    (hlt : e.dist < c.dist) (hn : allowed .distance ∨ (items t.buckets).length ≤ 2 ^ 15 - 1) :
    Outcome allowed (fun t' => ∃ l' grow, t' = { t with buckets := l', growOnNextInsert := grow } ∧
      Inserted hash t.buckets i c z l' ∧ l'[i]? = some (some c) ∧
      (grow = true → t.growOnNextInsert = true ∨
        DIST_FROM_IDEAL_BUCKET_LIMIT ≤ (items t.buckets).length))
      (t.insertValueImpl i c) := by
  have hi := h.carried.lt
  obtain ⟨hnone, -⟩ | ⟨e', hcell', -, hdist, -, hpos, hnext, hperm⟩ | ⟨e', hcell', hle, -⟩ := h.cases
  · rw [hcell] at hnone
    cases hnone
  · obtain rfl : e = e' := by simpa [hcell] using hcell'
    rw [insertValueImpl, bucketAt_of_getElem? hcell]
    simp only [ok_bind, setBucket_of_lt hi]
    refine (incDistance_outcome hn hdist).bind ?_
    rintro _ rfl
    have hcount : (items (t.buckets.set i (some c))).length = (items t.buckets).length := by
      simpa using hperm.length_eq
    rw [Ordered.nextBucket_eq (t := { t with buckets := t.buckets.set i (some c) })
      hnext.ordered (by simpa using hi)]
    refine (insertValueLoop_outcome (t := { t with buckets := t.buckets.set i (some c) })
      (by simpa using hnext) ?_ (by rwa [hcount])).mono ?_
    · have := h.lt
      simp only [List.length_set]
      omega
    · rintro _ ⟨l', grow, rfl, hl', hflag⟩
      have hl : Inserted hash (t.buckets.set i (some c)) ((i + 1) % t.buckets.length)
        { e with dist := e.dist + 1 } (z - 1) l' := by simpa using hl'
      refine ⟨l', grow, rfl, hl.exchange hi hpos hperm, ?_, fun hg => ?_⟩
      · have hz := h.lt
        have hframe := hl.frame (t.buckets.length - 1) (by omega) (by rw [List.length_set]; omega)
        rw [List.length_set, Nat.mod_add_mod,
          show i + 1 + (t.buckets.length - 1) = i + t.buckets.length by omega, Nat.add_mod_right,
          Nat.mod_eq_of_lt hi, List.getElem?_set_self hi] at hframe
        exact hframe
      · have := hflag hg
        rwa [hcount] at this
  · obtain rfl : e = e' := by simpa [hcell] using hcell'
    omega

/-! ### Search -/

/-- The buckets from the ideal one of a hash on that a search has gone by. -/
def Passed (p : BucketEntry K V → Prop) (l : Buckets K V) (h s : ℕ) : Prop :=
  ∀ r < s, ∃ e, l[(h + r) % l.length]? = some (some e) ∧ r ≤ e.dist ∧ p e

section Passed

variable {p : BucketEntry K V → Prop} {h s z : ℕ}

theorem Passed.zero : Passed p l h 0 := fun _ hr => absurd hr (Nat.not_lt_zero _)

theorem Passed.succ (hp : Passed p l h s) {e : BucketEntry K V}
    (he : l[(h + s) % l.length]? = some (some e)) (hs : s ≤ e.dist) (hpe : p e) :
    Passed p l h (s + 1) := by
  intro r hr
  rcases Nat.lt_succ_iff_lt_or_eq.mp hr with hlt | rfl
  · exact hp r hlt
  · exact ⟨e, he, hs, hpe⟩

theorem Passed.le_length (hp : Passed p l h s) (hs : s ≤ l.length) : s ≤ (items l).length := by
  rw [items, List.length_map]
  refine le_length_reduceOption_of_run (i := h) hs fun r hr => ?_
  obtain ⟨e, he, -⟩ := hp r hr
  exact ⟨e, he⟩

/-- Everything that a round of a search can see, when there is an empty bucket ahead. -/
theorem search_cases (hz : z < l.length) (hempty : l[(h + z) % l.length]? = some none)
    (hs : s ≤ z) :
    (∃ e, l[(h + s) % l.length]? = some (some e) ∧ s ≤ e.dist ∧ s < z) ∨
      ∃ b, l[(h + s) % l.length]? = some b ∧ bucketDist b < s := by
  have hlt : (h + s) % l.length < l.length := Nat.mod_lt _ (by omega)
  rw [List.getElem?_eq_getElem hlt]
  match hcell : l[(h + s) % l.length] with
  | none =>
    right
    exact ⟨none, rfl, by rw [bucketDist]; omega⟩
  | some e =>
    by_cases hle : s ≤ e.dist
    · left
      refine ⟨e, rfl, hle, lt_of_le_of_ne hs ?_⟩
      rintro rfl
      rw [List.getElem?_eq_getElem hlt, hcell] at hempty
      cases hempty
    · right
      exact ⟨some e, rfl, by rw [bucketDist]; omega⟩

end Passed

section Search

variable [DecidableEq K] {key : K} {z : ℕ}

/-- The bucket entry that a search for the key looks for. -/
def Matches (hash : K → U64) (key : K) (e : BucketEntry K V) : Prop :=
  e.hash = (hash key).setWidth 32 ∧ e.key = key

/-- How a search for the key ends. -/
def SearchEnd (hash : K → U64) (l : Buckets K V) (key : K) : Search → Prop
  | .found i => ∃ s e, i = ((hash key).toNat + s) % l.length ∧ l[i]? = some (some e) ∧
      s ≤ e.dist ∧ Matches hash key e ∧
      Passed (fun e => ¬Matches hash key e) l (hash key).toNat s
  | .stopped i s => i = ((hash key).toNat + s) % l.length ∧ s < l.length ∧ distAt l i < s ∧
      Passed (fun e => ¬Matches hash key e) l (hash key).toNat s

theorem searchLoop_outcome (ho : Ordered hash t.buckets) (hz : z < t.buckets.length)
    (hempty : t.buckets[((hash key).toNat + z) % t.buckets.length]? = some none)
    (hn : allowed .distance ∨ (items t.buckets).length ≤ 2 ^ 15 - 1) {rounds s : ℕ} (hs : s ≤ z)
    (hrounds : z < rounds + s)
    (hp : Passed (fun e => ¬Matches hash key e) t.buckets (hash key).toNat s) :
    Outcome allowed (SearchEnd hash t.buckets key)
      (t.searchLoop key (hash key) rounds (((hash key).toNat + s) % t.buckets.length) s) := by
  induction rounds generalizing s with
  | zero => omega
  | succ rounds ih =>
    rw [searchLoop]
    obtain ⟨e, hcell, hle, hlt⟩ | ⟨b, hcell, hlt⟩ := search_cases hz hempty hs
    · have hdist : (s : ℤ) ≤ bucketDist (some e) := by
        rw [bucketDist]
        omega
      rw [bucketAt_of_getElem? hcell]
      simp only [ok_bind, if_pos hdist]
      by_cases hm : e.hash = (hash key).setWidth 32 ∧ e.key = key
      · rw [if_pos hm]
        exact ⟨s, e, rfl, hcell, hle, hm, hp⟩
      · rw [if_neg hm]
        have hp' := hp.succ hcell hle hm
        refine (incDistance_outcome hn (hp'.le_length (by omega))).bind ?_
        rintro _ rfl
        rw [ho.nextBucket_eq (Nat.mod_lt _ (by omega)), Nat.mod_add_mod, add_assoc]
        exact ih hlt (by omega) hp'
    · rw [bucketAt_of_getElem? hcell]
      simp only [ok_bind, if_neg (not_le.mpr hlt)]
      exact ⟨rfl, by omega, by rwa [distAt_of_getElem? hcell], hp⟩

end Search

theorem skipLoop_outcome {h z : ℕ} (ho : Ordered hash t.buckets) (hz : z < t.buckets.length)
    (hempty : t.buckets[(h + z) % t.buckets.length]? = some none)
    (hn : allowed .distance ∨ (items t.buckets).length ≤ 2 ^ 15 - 1) {rounds s : ℕ} (hs : s ≤ z)
    (hrounds : z < rounds + s) (hp : Passed (fun _ => True) t.buckets h s) :
    Outcome allowed (fun r => r.1 = (h + r.2) % t.buckets.length ∧ r.2 < t.buckets.length ∧
      distAt t.buckets r.1 < r.2 ∧ Passed (fun _ => True) t.buckets h r.2)
      (t.skipLoop rounds ((h + s) % t.buckets.length) s) := by
  induction rounds generalizing s with
  | zero => omega
  | succ rounds ih =>
    rw [skipLoop]
    obtain ⟨e, hcell, hle, hlt⟩ | ⟨b, hcell, hlt⟩ := search_cases hz hempty hs
    · have hdist : (s : ℤ) ≤ bucketDist (some e) := by
        rw [bucketDist]
        omega
      rw [bucketAt_of_getElem? hcell]
      simp only [ok_bind, if_pos hdist]
      have hp' := hp.succ hcell hle trivial
      refine (incDistance_outcome hn (hp'.le_length (by omega))).bind ?_
      rintro _ rfl
      rw [ho.nextBucket_eq (Nat.mod_lt _ (by omega)), Nat.mod_add_mod, add_assoc]
      exact ih hlt (by omega) hp'
    · rw [bucketAt_of_getElem? hcell]
      simp only [ok_bind, if_neg (not_le.mpr hlt)]
      exact ⟨rfl, by omega, by rwa [distAt_of_getElem? hcell], hp⟩

/-! ### Backward shift -/

theorem shiftLoop_outcome {p z rounds : ℕ} (h : Hole hash t.buckets p) (hpos : 0 < z)
    (hz : z < t.buckets.length) (hempty : t.buckets[(p + z) % t.buckets.length]? = some none)
    (hrounds : z ≤ rounds) :
    Outcome allowed (fun t' => ∃ l', t' = { t with buckets := l' } ∧
      l'.length = t.buckets.length ∧ Ordered hash l' ∧ (items l').Perm (items t.buckets))
      (shiftLoop rounds t p ((p + 1) % t.buckets.length)) := by
  induction rounds generalizing t p z with
  | zero => omega
  | succ rounds ih =>
    have hp := h.lt
    have hq : (p + 1) % t.buckets.length < t.buckets.length := Nat.mod_lt _ (by omega)
    rw [shiftLoop]
    by_cases hstop : distAt t.buckets ((p + 1) % t.buckets.length) ≤ 0
    · have hdone : ∃ l', t = { t with buckets := l' } ∧ l'.length = t.buckets.length ∧
          Ordered hash l' ∧ (items l').Perm (items t.buckets) :=
        ⟨t.buckets, rfl, rfl, h.ordered hstop, List.Perm.refl _⟩
      cases hcell : t.buckets[(p + 1) % t.buckets.length]? with
      | none => exact absurd hq (Nat.not_lt.mpr (List.getElem?_eq_none_iff.mp hcell))
      | some b =>
        rw [bucketAt_of_getElem? hcell]
        cases b with
        | none => exact hdone
        | some e =>
          rw [distAt_of_getElem? hcell, bucketDist] at hstop
          simp only [ok_bind, if_neg (by omega : ¬0 < e.dist)]
          exact hdone
    · obtain ⟨e, hcell, hdist⟩ := exists_entry_of_le_distAt (l := t.buckets) (d := 1)
        (i := (p + 1) % t.buckets.length) (by push_cast; omega)
      have hdist' : 0 < e.dist := hdist
      obtain ⟨hnext, hperm⟩ := h.shift hcell hdist
      have hne : z ≠ 1 := by
        rintro rfl
        rw [hcell] at hempty
        cases hempty
      have hpz : p ≠ (p + z) % t.buckets.length := by
        intro heq
        have : 0 = z := add_mod_inj (by omega) hz (by rw [add_zero, Nat.mod_eq_of_lt hp]; exact heq)
        omega
      have hqz : (p + 1) % t.buckets.length ≠ (p + z) % t.buckets.length := by
        intro heq
        exact hne (add_mod_inj (by omega) hz heq).symm
      have hlen : ((t.buckets.set p (some { e with dist := e.dist - 1 })).set
          ((p + 1) % t.buckets.length) none).length = t.buckets.length := by
        rw [List.length_set, List.length_set]
      rw [bucketAt_of_getElem? hcell]
      simp only [ok_bind, if_pos hdist', setBucket_of_lt hp]
      rw [setBucket_of_lt (by simpa using hq)]
      simp only [ok_bind]
      set t' : RobinHash K V := { t with
        buckets := (t.buckets.set p (some { e with dist := e.dist - 1 })).set
          ((p + 1) % t.buckets.length) none } with ht'
      have hnextBucket : t'.nextBucket ((p + 1) % t.buckets.length) =
          ((p + 1) % t.buckets.length + 1) % t'.buckets.length := by
        have hor : 0 < t'.buckets.length := by rw [ht', hlen]; omega
        obtain hzero | ⟨b, hb⟩ := hnext.size
        · rw [hlen] at hzero
          omega
        · rw [nextBucket, mask, ht', hb, Nat.and_two_pow_sub_one_eq_mod]
      rw [hnextBucket]
      refine (ih (t := t') (z := z - 1) hnext (by omega) (by rw [ht', hlen]; omega) ?_
        (by omega)).mono ?_
      · rw [ht', hlen, Nat.mod_add_mod, show p + 1 + (z - 1) = p + z by omega,
          List.getElem?_set_ne hqz, List.getElem?_set_ne hpz]
        exact hempty
      · rintro _ ⟨l', rfl, hl', ho', hperm'⟩
        exact ⟨l', rfl, hl'.trans hlen, ho', hperm'.trans hperm⟩

end EntropyLearnedHashing.RobinHash
