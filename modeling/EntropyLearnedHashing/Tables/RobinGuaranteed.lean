import Mathlib.Data.List.Forall2
import EntropyLearnedHashing.Tables.RobinRun

/-! `find_guaranteed`, the lookup that does not compare keys when a single stored hash
matches. With at most 2^31 buckets all keys with the same low 32 bits of the hash lie on
the way of the search. So it answers with the value of the only such key if there is
exactly one, and as `find` does otherwise. -/

namespace EntropyLearnedHashing.RobinHash

open CircularArray

variable {K V : Type} {hash : K → U64} {allowed : Fault → Prop}
  {t : RobinHash K V} {l : Buckets K V} {key : K} {m : K → Option V} {h s z : ℕ} {x : U32}

/-- `find_guaranteed(key)` and the value at the iterator. -/
def lookupGuaranteed [DecidableEq K] (t : RobinHash K V) (hash : K → U64) (key : K) :
    Except Fault (Option V) := do
  match ← t.findGuaranteedImpl key (hash key) with
  | none => return none
  | some ibucket =>
    match ← t.bucketAt ibucket with
    | none => .error .outside
    | some e => return some e.value

/-- The stored keys with the stored hash of a key. -/
def sameStored (hash : K → U64) (keys : List K) (key : K) : List K :=
  keys.filter fun k => (hash k).setWidth 32 = (hash key).setWidth 32

/-- What `find_guaranteed` answers on a map with these keys. -/
def guaranteedSpec (hash : K → U64) (keys : List K) (m : K → Option V) (key : K) : Option V :=
  match sameStored hash keys key with
  | [k] => m k
  | _ => m key

/-! ### Collecting -/

/-- The entries with a stored hash among the first buckets from an ideal one on. -/
def stored (l : Buckets K V) (h : ℕ) (x : U32) : ℕ → List (BucketEntry K V)
  | 0 => []
  | s + 1 => stored l h x s ++ (l[(h + s) % l.length]?.join.toList.filter fun e => e.hash = x)

theorem stored_succ {e : BucketEntry K V} (he : l[(h + s) % l.length]? = some (some e)) :
    stored l h x (s + 1) = stored l h x s ++ if e.hash = x then [e] else [] := by
  rw [stored, he]
  simp only [Option.join_some, Option.toList_some, List.filter_cons, List.filter_nil,
    decide_eq_true_iff]

theorem mem_stored {e : BucketEntry K V} :
    e ∈ stored l h x s ↔ ∃ r < s, l[(h + r) % l.length]? = some (some e) ∧ e.hash = x := by
  induction s with
  | zero => simp [stored]
  | succ s ih =>
    rw [stored, List.mem_append, ih, List.mem_filter, Option.mem_toList,
      Option.join_eq_some_iff, decide_eq_true_iff]
    constructor
    · rintro (⟨r, hr, hcell⟩ | hcell)
      · exact ⟨r, Nat.lt_succ_of_lt hr, hcell⟩
      · exact ⟨s, Nat.lt_succ_self s, hcell⟩
    · rintro ⟨r, hr, hcell⟩
      rcases Nat.lt_succ_iff_lt_or_eq.mp hr with hlt | rfl
      · exact Or.inl ⟨r, hlt, hcell⟩
      · exact Or.inr hcell

/-- The collected keys are distinct. -/
theorem Ordered.nodup_stored (ho : Ordered hash l) (hs : s ≤ l.length) :
    ((stored l h x s).map BucketEntry.key).Nodup := by
  induction s with
  | zero => exact List.nodup_nil
  | succ s ih =>
    rw [stored, List.map_append]
    cases hcell : l[(h + s) % l.length]?.join with
    | none =>
      simpa [hcell] using ih (by omega)
    | some e =>
      refine List.Nodup.append (ih (by omega)) ?_ ?_
      · exact List.Nodup.map_on (by simp) (List.Nodup.filter _ (List.nodup_singleton e))
      · intro k hk hk'
        obtain ⟨e', he', rfl⟩ := List.mem_map.mp hk
        obtain ⟨r, hr, hcell', -⟩ := mem_stored.mp he'
        obtain ⟨e'', he'', hkey⟩ := List.mem_map.mp hk'
        obtain rfl : e'' = e := by simpa using (List.mem_filter.mp he'').1
        have heq := ho.index_inj (Option.join_eq_some_iff.mp hcell) hcell' hkey
        exact absurd (add_mod_inj (by omega) (by omega) heq) (by omega)

/-- An index of the array `hash_matches` and the entry at it. -/
def PointsTo (l : Buckets K V) (i : U32) (e : BucketEntry K V) : Prop :=
  i.toNat < 2 ^ 31 ∧ l[i.toNat]? = some (some e)

theorem pointsTo_ofNat {i : ℕ} {e : BucketEntry K V} (hl : l.length ≤ 2 ^ 31)
    (he : l[i]? = some (some e)) : PointsTo l (BitVec.ofNat 32 i) e := by
  have hi := lt_of_getElem? he
  have hnat : (BitVec.ofNat 32 i).toNat = i := by
    rw [BitVec.toNat_ofNat]
    exact Nat.mod_eq_of_lt (by omega)
  unfold PointsTo
  rw [hnat]
  exact ⟨by omega, he⟩

/-- How the loop over the matches ends. -/
def MatchesEnd (l : Buckets K V) (h : ℕ) (x : U32) : Option (List U32) → Prop
  | none => ∃ s ≤ l.length, maxMatches ≤ (stored l h x s).length
  | some hashMatches => ∃ s, s < l.length ∧ distAt l ((h + s) % l.length) < s ∧
      List.Forall₂ (PointsTo l) hashMatches (stored l h x s)

theorem matchesLoop_outcome (ho : Ordered hash t.buckets) (hz : z < t.buckets.length)
    (hlen : t.buckets.length ≤ 2 ^ 31) {y : U64}
    (hempty : t.buckets[(y.toNat + z) % t.buckets.length]? = some none)
    (hn : allowed .distance ∨ (items t.buckets).length ≤ 2 ^ 15 - 1) {rounds s : ℕ} (hs : s ≤ z)
    (hrounds : z < rounds + s) (hp : Passed (fun _ => True) t.buckets y.toNat s)
    {hashMatches : List U32}
    (hm : List.Forall₂ (PointsTo t.buckets) hashMatches
      (stored t.buckets y.toNat (y.setWidth 32) s)) :
    Outcome allowed (MatchesEnd t.buckets y.toNat (y.setWidth 32))
      (t.matchesLoop y rounds ((y.toNat + s) % t.buckets.length) s hashMatches) := by
  induction rounds generalizing s hashMatches with
  | zero => omega
  | succ rounds ih =>
    rw [matchesLoop]
    obtain ⟨e, hcell, hle, hlt⟩ | ⟨b, hcell, hlt⟩ := search_cases hz hempty hs
    · have hdist : (s : ℤ) ≤ bucketDist (some e) := by
        rw [bucketDist]
        omega
      have hp' := hp.succ hcell hle trivial
      have hnext : t.nextBucket ((y.toNat + s) % t.buckets.length) =
          (y.toNat + (s + 1)) % t.buckets.length := by
        rw [ho.nextBucket_eq (Nat.mod_lt _ (by omega)), Nat.mod_add_mod, add_assoc]
      have hstored := stored_succ (x := y.setWidth 32) hcell
      rw [bucketAt_of_getElem? hcell]
      simp only [ok_bind, if_pos hdist]
      by_cases hhash : e.hash = y.setWidth 32
      · rw [if_pos hhash]
        rw [if_pos hhash] at hstored
        by_cases hfull : maxMatches - 1 ≤ hashMatches.length
        · rw [if_pos hfull]
          refine ⟨s + 1, by omega, ?_⟩
          rw [hstored, List.length_append, ← hm.length_eq, List.length_singleton]
          exact Nat.le_add_of_sub_le hfull
        · rw [if_neg hfull]
          refine (incDistance_outcome hn (hp'.le_length (by omega))).bind ?_
          rintro _ rfl
          rw [hnext]
          refine ih hlt (by omega) hp' ?_
          rw [hstored]
          exact List.rel_append hm (List.Forall₂.cons (pointsTo_ofNat hlen hcell) List.Forall₂.nil)
      · rw [if_neg hhash]
        rw [if_neg hhash, List.append_nil] at hstored
        refine (incDistance_outcome hn (hp'.le_length (by omega))).bind ?_
        rintro _ rfl
        rw [hnext]
        refine ih hlt (by omega) hp' ?_
        rw [hstored]
        exact hm
    · rw [bucketAt_of_getElem? hcell]
      simp only [ok_bind, if_neg (not_le.mpr hlt)]
      exact ⟨s, by omega, by rwa [distAt_of_getElem? hcell], hm⟩

/-! ### The collected keys -/

/-- The ideal bucket is given by the stored bits of the hash. -/
theorem add_mod_eq_of_setWidth_eq {n : ℕ} (hn : ∃ b, n = 2 ^ b) (hle : n ≤ 2 ^ 31) {y y' : U64}
    (hy : y.setWidth 32 = y'.setWidth 32) (d : ℕ) : (y.toNat + d) % n = (y'.toNat + d) % n := by
  obtain ⟨b, rfl⟩ := hn
  have hb : b ≤ 31 := by
    by_contra hlt
    have hpow : 2 ^ 32 ≤ 2 ^ b := Nat.pow_le_pow_right two_pos (by omega)
    omega
  have hmod := congrArg BitVec.toNat hy
  rw [BitVec.toNat_setWidth, BitVec.toNat_setWidth] at hmod
  have hdvd : 2 ^ b ∣ 2 ^ 32 := Nat.pow_dvd_pow 2 (by omega)
  exact Nat.ModEq.add_right d (Nat.ModEq.of_dvd hdvd hmod)

section Collected

variable (ho : Ordered hash l) (hlen : l.length ≤ 2 ^ 31)

include ho

theorem map_stored_subset (key : K) {k : K}
    (hk : k ∈ (stored l (hash key).toNat ((hash key).setWidth 32) s).map BucketEntry.key) :
    k ∈ sameStored hash ((items l).map Prod.fst) key := by
  obtain ⟨e, he, rfl⟩ := List.mem_map.mp hk
  obtain ⟨r, -, hcell, hhash⟩ := mem_stored.mp he
  rw [(ho.placed hcell).1] at hhash
  exact List.mem_filter.mpr
    ⟨List.mem_map_of_mem (f := Prod.fst) (mem_items_of_getElem? hcell), by simpa using hhash⟩

include hlen

/-- A whole search meets every key with the stored hash. -/
theorem map_stored_perm (key : K) (hs : s < l.length)
    (hstop : distAt l (((hash key).toNat + s) % l.length) < s) :
    ((stored l (hash key).toNat ((hash key).setWidth 32) s).map BucketEntry.key).Perm
      (sameStored hash ((items l).map Prod.fst) key) := by
  have hpow := ho.size.resolve_left (by omega)
  refine (List.perm_ext_iff_of_nodup (ho.nodup_stored hs.le) (ho.nodup.filter _)).mpr fun k =>
    ⟨map_stored_subset ho key, fun hk => ?_⟩
  obtain ⟨hmem, hsame⟩ := List.mem_filter.mp hk
  obtain ⟨j, e, he, rfl⟩ := exists_entry_of_mem hmem
  have hwidth : (hash e.key).setWidth 32 = (hash key).setWidth 32 := of_decide_eq_true hsame
  have hplace := ho.placed he
  refine List.mem_map_of_mem (mem_stored.mpr ⟨e.dist, ?_, ?_, hplace.1.trans hwidth⟩)
  · by_contra hge
    have hway := ho.le_distAt he (Nat.le_of_not_lt hge)
    rw [add_mod_eq_of_setWidth_eq hpow hlen hwidth] at hway
    omega
  · rw [← add_mod_eq_of_setWidth_eq hpow hlen hwidth, hplace.2]
    exact he

end Collected

/-! ### The lookup -/

variable [DecidableEq K]

/-- The last loop compares the keys of the collected entries. -/
theorem compareLoop_spec (key : K) {hashMatches : List U32} {es : List (BucketEntry K V)}
    (hm : List.Forall₂ (PointsTo t.buckets) hashMatches es) :
    ∃ r, t.compareLoop key hashMatches = .ok r ∧ match r with
      | some i => ∃ e, t.buckets[i]? = some (some e) ∧ e.key = key
      | none => key ∉ es.map BucketEntry.key := by
  induction hm with
  | nil => exact ⟨none, rfl, List.not_mem_nil⟩
  | @cons i e hashMatches es hi _ ih =>
    have hindex : intIndex i = .ok i.toNat := if_pos hi.1
    simp only [compareLoop, hindex, ok_bind, bucketAt_of_getElem? hi.2]
    by_cases hkey : e.key = key
    · rw [if_pos hkey]
      exact ⟨some i.toNat, rfl, e, hi.2, hkey⟩
    · rw [if_neg hkey]
      obtain ⟨r, hr, hspec⟩ := ih
      refine ⟨r, hr, ?_⟩
      cases r with
      | some j => exact hspec
      | none => exact List.not_mem_cons_of_ne_of_not_mem (Ne.symm hkey) hspec

/-- What `find_guaranteed` finds. -/
def Guaranteed (hash : K → U64) (l : Buckets K V) (key : K) : Option ℕ → Prop
  | some i => ∃ e, l[i]? = some (some e) ∧
      (e.key = key ∨ sameStored hash ((items l).map Prod.fst) key = [e.key])
  | none => key ∉ (items l).map Prod.fst ∧
      (sameStored hash ((items l).map Prod.fst) key).length ≠ 1

omit [DecidableEq K] in
theorem mem_sameStored (h : key ∈ (items l).map Prod.fst) :
    key ∈ sameStored hash ((items l).map Prod.fst) key :=
  List.mem_filter.mpr ⟨h, decide_eq_true rfl⟩

section Matches

variable (ho : Ordered hash t.buckets) (hlen : t.buckets.length ≤ 2 ^ 31)
  (hs : s < t.buckets.length)
  (hstop : distAt t.buckets (((hash key).toNat + s) % t.buckets.length) < s)

include ho hlen hs hstop

omit [DecidableEq K] in
/-- A single match is the answer. -/
theorem guaranteed_singleton {i : U32} (hm : List.Forall₂ (PointsTo t.buckets) [i]
    (stored t.buckets (hash key).toNat ((hash key).setWidth 32) s)) :
    intIndex i = .ok i.toNat ∧ Guaranteed hash t.buckets key (some i.toNat) := by
  have hperm := map_stored_perm ho hlen key hs hstop
  cases hes : stored t.buckets (hash key).toNat ((hash key).setWidth 32) s with
  | nil =>
    rw [hes] at hm
    cases hm
  | cons e es =>
    rw [hes] at hm hperm
    obtain ⟨hi, hrest⟩ := List.forall₂_cons.mp hm
    obtain rfl : es = [] := List.forall₂_nil_left_iff.mp hrest
    exact ⟨if_pos hi.1, e, hi.2, Or.inr (List.perm_singleton.mp hperm.symm)⟩

/-- Otherwise the keys are compared. -/
theorem guaranteed_compare {hashMatches : List U32} (hne : hashMatches.length ≠ 1)
    (hm : List.Forall₂ (PointsTo t.buckets) hashMatches
      (stored t.buckets (hash key).toNat ((hash key).setWidth 32) s)) :
    Outcome allowed (Guaranteed hash t.buckets key) (t.compareLoop key hashMatches) := by
  have hperm := map_stored_perm ho hlen key hs hstop
  obtain ⟨r, hr, hspec⟩ := compareLoop_spec key hm
  rw [hr]
  cases r with
  | some i =>
    obtain ⟨e, he, hkey⟩ := hspec
    exact ⟨e, he, Or.inl hkey⟩
  | none =>
    refine ⟨fun hmem => hspec (hperm.mem_iff.mpr (mem_sameStored hmem)), ?_⟩
    rw [← hperm.length_eq, List.length_map, ← hm.length_eq]
    exact hne

end Matches

theorem findGuaranteedImpl_outcome (hv : Valid hash t) (hlen : t.buckets.length ≤ 2 ^ 31)
    (hn : allowed .distance ∨ (items t.buckets).length ≤ 2 ^ 15 - 1) :
    Outcome allowed (Guaranteed hash t.buckets key) (t.findGuaranteedImpl key (hash key)) := by
  unfold findGuaranteedImpl
  rcases hv.room with hroom | hnil
  · obtain ⟨z, hz, hempty⟩ := exists_empty_from hroom (hash key).toNat
    rw [hv.ordered.bucketForHash_eq (by omega), ← Nat.add_zero (hash key).toNat]
    refine (matchesLoop_outcome hv.ordered hz hlen hempty hn (Nat.zero_le z) (by omega)
      Passed.zero (by exact List.Forall₂.nil)).bind ?_
    rintro (_ | hashMatches) hend
    · -- too many matches: an ordinary search
      obtain ⟨s, hs, hmany⟩ := hend
      have hsub := ((hv.ordered.nodup_stored hs).subperm
        fun k hk => map_stored_subset hv.ordered key hk).length_le
      rw [List.length_map] at hsub
      refine (findImpl_outcome hv hn).mono ?_
      rintro (_ | i) hr
      · refine ⟨hr, ?_⟩
        rw [maxMatches] at hmany
        omega
      · obtain ⟨e, he, hkey⟩ := hr
        exact ⟨e, he, Or.inl hkey⟩
    · obtain ⟨s, hs, hstop, hm⟩ := hend
      match hashMatches, hm with
      | [i], hm =>
        obtain ⟨hindex, hanswer⟩ := guaranteed_singleton hv.ordered hlen hs hstop hm
        simp only [hindex, ok_bind]
        exact hanswer
      | [], hm => exact guaranteed_compare hv.ordered hlen hs hstop (by simp) hm
      | _ :: _ :: _, hm => exact guaranteed_compare hv.ordered hlen hs hstop (by simp) hm
  · have hzero : t.bucketForHash (hash key) = 0 := by simp [bucketForHash, mask, hnil]
    have hcell : t.bucketAt 0 = .ok none := by simp [bucketAt, hnil]
    rw [matchesLoop, hzero, hcell, hnil]
    exact ⟨List.not_mem_nil, by simp [sameStored, items]⟩

theorem lookupGuaranteed_outcome (h : Refines hash t m) (hlen : t.buckets.length ≤ 2 ^ 31)
    (hn : allowed .distance ∨ (items t.buckets).length ≤ 2 ^ 15 - 1) :
    Outcome allowed
      (fun v => v = guaranteedSpec hash ((items t.buckets).map Prod.fst) m key)
      (t.lookupGuaranteed hash key) := by
  unfold lookupGuaranteed
  refine (findGuaranteedImpl_outcome h.valid hlen hn).bind ?_
  unfold guaranteedSpec
  rintro (_ | i) hr
  · obtain ⟨hfresh, hne⟩ := hr
    have hnone := h.represents.eq_none_iff.mpr hfresh
    match hsame : sameStored hash ((items t.buckets).map Prod.fst) key with
    | [k] => exact absurd (by rw [hsame]; rfl) hne
    | [] | _ :: _ :: _ => exact hnone.symm
  · obtain ⟨e, he, hkey⟩ := hr
    have hvalue := h.represents.iff_mem.mpr (mem_items_of_getElem? he)
    simp only [bucketAt_of_getElem? he, ok_bind]
    rcases hkey with rfl | hsame
    · have hmem : e.key ∈ sameStored hash ((items t.buckets).map Prod.fst) e.key :=
        mem_sameStored (List.mem_map_of_mem (f := Prod.fst) (mem_items_of_getElem? he))
      match hsame : sameStored hash ((items t.buckets).map Prod.fst) e.key with
      | [k] =>
        rw [hsame, List.mem_singleton] at hmem
        rw [← hmem]
        exact hvalue.symm
      | [] | _ :: _ :: _ => exact hvalue.symm
    · rw [hsame]
      exact hvalue.symm

variable [Inhabited V]

/-- After every run, `find_guaranteed` gives the value of the only key with the same 32
stored bits of the hash, if there is exactly one, and what `find` gives otherwise. A key
that was never stored is therefore reported as present when it meets a single other. -/
theorem runTable_lookupGuaranteed (hash : K → U64) (maxSize bucketCount : ℕ)
    (minLoadFactor maxLoadFactor : ℚ) (calls : List (MapCall K V)) :
    Outcome (fun f => f = .distance ∨ f = .length)
      (fun r => r.1.buckets.length ≤ 2 ^ 31 → ∀ key,
        Outcome (fun f => f = .distance)
          (fun v => v = guaranteedSpec hash ((items r.1.buckets).map Prod.fst)
            (runSpec MapCall.spec (fun _ => none) calls).1 key)
          (r.1.lookupGuaranteed hash key))
      (runTable hash maxSize bucketCount minLoadFactor maxLoadFactor calls) := by
  unfold runTable
  refine (new_outcome hash (Or.inl (Or.inr rfl))).bind ?_
  rintro t ⟨hv, hnil, -⟩
  refine (runCalls_refines (R := Refines hash) MapCall.spec calls ?_
    (Refines.empty hv hnil)).mono ?_
  · intro t m c _ h
    refine (call_outcome h c (Or.inl (Or.inr rfl)) (Or.inl (Or.inl rfl))).mono ?_
    rintro r ⟨href, hreply, -⟩
    exact ⟨href, hreply⟩
  · rintro r ⟨href, -⟩ hlen key
    exact lookupGuaranteed_outcome href hlen (Or.inl rfl)

end EntropyLearnedHashing.RobinHash
