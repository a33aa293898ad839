import EntropyLearnedHashing.Library.MapRefinement
import EntropyLearnedHashing.Tables.DenseResize

/-! Whole runs of `google::dense_hash_map`. A run answers as a map does as long as it keeps away
from the two marker keys: assigning or erasing one of them ends in an assertion, and so
does erasing before a deleted key was set. Looking up a marker is harmless. -/

namespace EntropyLearnedHashing.DenseHash

open CircularArray

variable {K V : Type} [DecidableEq K] {hash : K → U64} {t : DenseHash K V} {alloc : Allocator}
  {allowed : DenseFault → Prop} {key : K} {p n : ℕ} {m : K → Option V}

/-! ### Insertion -/

/-- The key is not one of the markers. -/
def Ordinary (t : DenseHash K V) (key : K) : Prop := key ≠ t.emptyval.1 ∧ t.delkey ≠ some key

theorem Ordinary.cell (h : t.Ordinary key) (v : V) : t.cell (key, v) = some (key, v) :=
  cell_eq_some_iff.mpr ⟨rfl, h.1.symm, h.2⟩

theorem checkKey_outcome (hkey : allowed .assertion ∨ t.Ordinary key) :
    Outcome allowed (fun _ => t.Ordinary key) (t.checkKey key) := by
  unfold checkKey
  split_ifs with hempty hdeleted
  · exact hkey.resolve_right fun h => h.1 hempty
  · exact hkey.resolve_right fun h => h.2 hdeleted
  · exact ⟨hempty, hdeleted⟩

/-- The table after an insertion. -/
structure Inserted (hash : K → U64) (t : DenseHash K V) (kv : K × V) (p : ℕ) (t' : DenseHash K V) :
    Prop where
  valid : Valid hash t'
  kin : Kin t t'
  perm : t'.items.Perm (kv :: t.items)
  bucket : t'.table[p]? = some kv
  length : t'.table.length = t.table.length

theorem insertAt_outcome (hv : Valid hash t) (hkey : t.Ordinary key) (hfree : Free hash t key p)
    (hfresh : key ∉ t.items.map Prod.fst) (hroom : t.numElements + 1 < t.table.length) (v : V)
    (hmax : allowed .length ∨ t.size < alloc.maxSize) :
    Outcome allowed (Inserted hash t (key, v) p) (t.insertAt alloc (key, v) p) := by
  obtain ⟨⟨kv, hkv, hnone⟩, hway⟩ := hfree
  have hcell := hkey.cell v
  have hplt : p < t.table.length := (List.getElem?_eq_some_iff.mp hkv).1
  have hperm := itemsSet_fill hkv hnone hcell
  have hnodup : ((itemsSet t p (key, v)).map Prod.fst).Nodup :=
    (hperm.map Prod.fst).nodup_iff.mpr (List.nodup_cons.mpr ⟨hfresh, hv.nodup⟩)
  unfold insertAt
  by_cases hfull : alloc.maxSize ≤ t.size
  · rw [if_pos hfull]
    exact hmax.resolve_right (by omega)
  rw [if_neg hfull]
  dsimp only
  rw [bucketAt_of_getElem? hkv, ok_bind, hv.toLaid.testDeleted hkv, ok_bind]
  by_cases hdeleted : t.delkey = some kv.1
  · have hpos := hv.toLaid.numDeleted_pos hkv hdeleted
    have hused : t.emptyval.1 ≠ kv.1 := fun heq => hv.markers (heq ▸ hdeleted)
    have hset : ¬(t.delkey = none ∨ t.numDeleted = 0) := by
      rw [hdeleted]
      simp only [reduceCtorEq, false_or]
      omega
    rw [if_pos (decide_eq_true hdeleted), if_neg hset]
    have hw : Written t p (key, v) { t with
        table := t.table.set p (key, v), numDeleted := t.numDeleted - 1 } := ⟨rfl, rfl, rfl⟩
    rw [setBucket, if_pos hplt]
    refine ⟨⟨hv.toLaid.write hkv hw hkey.1.symm (fun _ => hway) hnodup ?_ ?_ ?_, hv.factor, ?_⟩,
      ⟨rfl, rfl, rfl, rfl⟩, (List.Perm.of_eq hw.items).trans hperm, List.getElem?_set_self hplt,
      List.length_set⟩
    · rw [if_neg hused]
      rfl
    · rw [if_pos hdeleted, if_neg hkey.2]
      dsimp only
      omega
    · dsimp only
      omega
    · rw [hw.length]
      exact hv.threshold
  · have hempty : t.emptyval.1 = kv.1 := (cell_eq_none_iff.mp hnone).resolve_right hdeleted
    rw [if_neg (by simpa using hdeleted)]
    have hw : Written t p (key, v) { t with
        table := t.table.set p (key, v), numElements := t.numElements + 1 } := ⟨rfl, rfl, rfl⟩
    rw [setBucket, if_pos hplt]
    refine ⟨⟨hv.toLaid.write hkv hw hkey.1.symm (fun _ => hway) hnodup ?_ ?_ ?_, hv.factor, ?_⟩,
      ⟨rfl, rfl, rfl, rfl⟩, (List.Perm.of_eq hw.items).trans hperm, List.getElem?_set_self hplt,
      List.length_set⟩
    · rw [if_pos hempty]
    · rw [if_neg hdeleted, if_neg hkey.2]
    · exact hroom
    · rw [hw.length]
      exact hv.threshold

/-- With enough memory, `max_size` is not reached. -/
theorem Affords.size_lt (hok : Affords allowed alloc n t) (hv : Valid hash t) :
    allowed .length ∨ t.size < alloc.maxSize := by
  refine hok.imp (fun h => h.1) ?_
  rintro ⟨c, hgives, hample⟩
  have hbytes : 2 ^ c * alloc.sizeofValue ≤ 2 ^ 64 - 1 :=
    hgives.limit.trans (Nat.le_sub_one_of_lt alloc.limit_lt)
  have hle : 2 ^ c ≤ alloc.maxSize := (Nat.le_div_iff_mul_le alloc.sizeof_pos).mpr hbytes
  have hbuckets := hample.buckets
  have hroom := hv.room
  have hsize : t.size ≤ t.numElements := Nat.sub_le _ _
  omega

omit [DecidableEq K] in
theorem Affords.mono (hok : Affords allowed alloc n t) {t' : DenseHash K V}
    (h : ∀ c, 2 ≤ c → Ample c n t → Ample c n t') : Affords allowed alloc n t' := by
  refine hok.imp_right ?_
  rintro ⟨c, hgives, hample⟩
  exact ⟨c, hgives, h c hgives.two_le hample⟩

theorem Inserted.ample {kv : K × V} {t' : DenseHash K V} (h : Inserted hash t kv p t') {c : ℕ}
    (hample : Ample c n t) : Ample c n t' :=
  ⟨h.kin.enlargeFactor.trans hample.enlarge, h.kin.shrinkFactor.trans hample.shrink,
    h.length.trans_le hample.buckets, hample.few⟩

/-- The key has a place, with a value. -/
structure Placed (hash : K → U64) (t : DenseHash K V) (m : K → Option V) (key : K)
    (r : ℕ × DenseHash K V) (v : V) : Prop where
  valid : Valid hash r.2
  kin : Kin t r.2
  bucket : r.2.table[r.1]? = some (key, v)
  represents : Represents (Function.update m key (some v)) r.2.items

theorem placed_of_holds (hv : Valid hash t) (hm : Represents m t.items) (h : t.Holds key p) :
    ∃ v, Placed hash t m key (p, t) v := by
  obtain ⟨⟨k, v⟩, hkv, hcell, rfl⟩ := h
  refine ⟨v, hv, Kin.refl t, hkv, ?_⟩
  rw [Function.update_eq_self_iff.mpr (hm.iff_mem.mpr (mem_items_iff.mpr ⟨p, hkv, hcell⟩)).symm]
  exact hm

theorem Inserted.placed (hm : Represents m t.items) (hfresh : key ∉ t.items.map Prod.fst) {v : V}
    {t' : DenseHash K V} (h : Inserted hash t (key, v) p t') : Placed hash t m key (p, t') v :=
  ⟨h.valid, h.kin, h.bucket, (hm.cons hfresh).perm h.perm⟩

theorem insertNoresize_outcome (hv : Valid hash t) (hm : Represents m t.items)
    (hkey : t.Ordinary key) (hfresh : key ∉ t.items.map Prod.fst)
    (hroom : t.numElements + 1 < t.table.length) (v : V) (hok : Affords allowed alloc n t) :
    Outcome allowed (fun r => Placed hash t m key r v ∧ ∀ c, 2 ≤ c → Ample c n t → Ample c n r.2)
      (t.insertNoresize alloc hash (key, v)) := by
  unfold insertNoresize
  refine (checkKey_outcome (Or.inr hkey)).bind fun _ _ => ?_
  obtain ⟨r, hr, hfound⟩ := hv.toLaid.findPosition key
  rw [hr, ok_bind]
  cases r with
  | there p =>
    obtain ⟨kv, hkv, hcell, rfl⟩ := hfound
    exact absurd (List.mem_map_of_mem (f := Prod.fst) (mem_items_iff.mpr ⟨p, hkv, hcell⟩)) hfresh
  | insert p =>
    refine (insertAt_outcome hv hkey hfound.2 hfresh hroom v (hok.size_lt hv)).bind ?_
    intro t' h
    exact ⟨h.placed hm hfresh, fun c _ => h.ample⟩

theorem findOrInsert_outcome [Inhabited V] (hv : Valid hash t) (hm : Represents m t.items)
    (hkey : allowed .assertion ∨ t.Ordinary key)
    (hok : key ∉ t.items.map Prod.fst → t.items.length + 1 ≤ n ∧ Affords allowed alloc n t) :
    Outcome allowed (fun r => t.Ordinary key ∧ (∃ v, Placed hash t m key r v) ∧
      ∀ c, 2 ≤ c → Ample c n t → Ample c n r.2) (t.findOrInsert alloc hash key) := by
  unfold findOrInsert
  refine (checkKey_outcome hkey).bind fun _ hkey => ?_
  obtain ⟨r, hr, hfound⟩ := hv.toLaid.findPosition key
  rw [hr, ok_bind]
  cases r with
  | there p => exact ⟨hkey, placed_of_holds hv hm hfound, fun c _ h => h⟩
  | insert p =>
    obtain ⟨hfresh, hfree⟩ := hfound
    obtain ⟨hn, hok⟩ := hok hfresh
    refine (resizeDelta_outcome hv hn hok).bind ?_
    rintro ⟨resized, t₁⟩ ⟨h₁, hroom, hample₁⟩
    have hv₁ : Valid hash t₁ := h₁.valid
    have hperm : t₁.items.Perm t.items := h₁.perm
    have hkey₁ : t₁.Ordinary key := by
      rw [Ordinary, h₁.kin.emptyval, h₁.kin.delkey]
      exact hkey
    have hfresh₁ : key ∉ t₁.items.map Prod.fst := by
      rwa [(hperm.map Prod.fst).mem_iff]
    have hok₁ := hok.mono hample₁
    dsimp only
    split_ifs with hresized
    · refine (insertNoresize_outcome hv₁ (hm.perm hperm) hkey₁ hfresh₁ hroom default hok₁).mono ?_
      rintro r ⟨h₂, hample₂⟩
      exact ⟨hkey, ⟨default, h₂.valid, h₁.kin.trans h₂.kin, h₂.bucket, h₂.represents⟩,
        fun c hc h => hample₂ c hc (hample₁ c hc h)⟩
    · obtain ⟨flag, rfl⟩ := h₁.same (eq_false_of_ne_true hresized)
      refine (insertAt_outcome hv₁ hkey₁ ⟨hfree.marked, hfree.way⟩ hfresh₁ hroom default
        (hok₁.size_lt hv₁)).bind ?_
      intro t₂ h₂
      have hplaced := h₂.placed (hm.perm hperm) hfresh₁
      exact ⟨hkey, ⟨default, hplaced.valid, h₁.kin.trans hplaced.kin, hplaced.bucket,
        hplaced.represents⟩, fun c hc h => h₂.ample (hample₁ c hc h)⟩

/-! ### Calls -/

/-- What a call leaves. -/
structure CallEnd (hash : K → U64) (t : DenseHash K V) (m : K → Option V) (t' : DenseHash K V) :
    Prop where
  valid : Valid hash t'
  kin : Kin t t'
  represents : Represents m t'.items

theorem assign_outcome [Inhabited V] (hv : Valid hash t) (hm : Represents m t.items) (value : V)
    (hkey : allowed .assertion ∨ t.Ordinary key)
    (hok : key ∉ t.items.map Prod.fst → t.items.length + 1 ≤ n ∧ Affords allowed alloc n t) :
    Outcome allowed (fun t' => CallEnd hash t (Function.update m key (some value)) t' ∧
      ∀ c, 2 ≤ c → Ample c n t → Ample c n t') (t.assign alloc hash key value) := by
  unfold assign
  refine (findOrInsert_outcome hv hm hkey hok).bind ?_
  rintro ⟨p, t₁⟩ ⟨hkey, ⟨v, h⟩, hample⟩
  have hv₁ : Valid hash t₁ := h.valid
  have hbucket : t₁.table[p]? = some (key, v) := h.bucket
  have hkey₁ : t₁.Ordinary key := by
    rw [Ordinary, h.kin.emptyval, h.kin.delkey]
    exact hkey
  obtain ⟨rest, hold, hnew⟩ := itemsSet_replace hbucket (hkey₁.cell v) (hkey₁.cell value)
  have hw : Written t₁ p (key, value) { t₁ with table := t₁.table.set p (key, value) } :=
    ⟨rfl, rfl, rfl⟩
  have hrep := (h.represents.perm hold).replace.perm hnew
  have hway := hv₁.reached hbucket (hkey₁.cell v)
  rw [Function.update_idem] at hrep
  dsimp only
  rw [bucketAt_of_getElem? hbucket, ok_bind, setBucket_of_getElem? hbucket]
  refine ⟨⟨⟨hv₁.toLaid.write hbucket hw hkey₁.1.symm (fun _ => hway) hrep.nodup ?_ rfl hv₁.room,
    hv₁.factor, ?_⟩, h.kin.trans ⟨rfl, rfl, rfl, rfl⟩, ?_⟩, fun c hc hc' => ?_⟩
  · rw [if_neg hkey₁.1.symm]
    rfl
  · rw [hw.length]
    exact hv₁.threshold
  · rw [hw.items]
    exact hrep
  · have hafter := hample c hc hc'
    exact ⟨hafter.enlarge, hafter.shrink, hw.length.trans_le hafter.buckets, hafter.few⟩

theorem find_spec (hv : Valid hash t) (key : K) : ∃ r, t.find hash key = .ok r ∧ match r with
    | some p => t.Holds key p
    | none => key ∉ t.items.map Prod.fst := by
  unfold find
  split_ifs with hzero
  · refine ⟨none, rfl, ?_⟩
    rw [hv.toLaid.size_eq, List.length_eq_zero_iff] at hzero
    simp [hzero]
  · obtain ⟨r, hr, hfound⟩ := hv.toLaid.findPosition key
    rw [hr, ok_bind]
    cases r with
    | there p => exact ⟨some p, rfl, hfound⟩
    | insert p => exact ⟨none, rfl, hfound.1⟩

theorem lookup_spec (hv : Valid hash t) (hm : Represents m t.items) (key : K) :
    t.lookup hash key = .ok (m key) := by
  obtain ⟨r, hr, hspec⟩ := find_spec hv key
  unfold lookup
  rw [hr, ok_bind]
  cases r with
  | some p =>
    obtain ⟨kv, hkv, hcell, rfl⟩ := hspec
    dsimp only
    rw [bucketAt_of_getElem? hkv, ok_bind, hm.iff_mem.mpr (mem_items_iff.mpr ⟨p, hkv, hcell⟩)]
    rfl
  | none =>
    dsimp only
    rw [hm.eq_none_iff.mpr hspec]
    rfl

theorem erase_outcome [Inhabited V] (hv : Valid hash t) (hm : Represents m t.items)
    (hkey : allowed .assertion ∨ t.Ordinary key ∧ t.delkey ≠ none) :
    Outcome allowed (fun r => CallEnd hash t (Function.update m key none) r.1 ∧
      r.2 = (if (m key).isSome then 1 else 0) ∧ ∀ c, Ample c n t → Ample c n r.1)
      (t.erase hash key) := by
  unfold erase
  refine (checkKey_outcome (hkey.imp_right fun h => h.1)).bind fun _ hordinary => ?_
  obtain ⟨r, hr, hspec⟩ := find_spec hv key
  rw [hr, ok_bind]
  cases r with
  | none =>
    have hnone : m key = none := hm.eq_none_iff.mpr hspec
    refine ⟨⟨hv, Kin.refl t, ?_⟩, ?_, fun c h => h⟩
    · rw [Function.update_eq_self_iff.mpr hnone.symm]
      exact hm
    · rw [hnone]
      rfl
  | some p =>
    obtain ⟨⟨k, v⟩, hkv, hcell, rfl⟩ := hspec
    have hcases := cell_eq_some_iff.mp hcell
    have hvalue : m k = some v := hm.iff_mem.mpr (mem_items_iff.mpr ⟨p, hkv, hcell⟩)
    have hnot : ¬decide (t.delkey = some k) = true := by simpa using hcases.2.2
    dsimp only
    rw [bucketAt_of_getElem? hkv, ok_bind, hv.toLaid.testDeleted hkv, ok_bind, if_neg hnot]
    cases hdelkey : t.delkey with
    | none => exact hkey.resolve_right fun h => h.2 hdelkey
    | some delkey =>
      have hmark : t.cell (delkey, default) = none := cell_eq_none_iff.mpr (Or.inr hdelkey)
      have hne : t.emptyval.1 ≠ delkey := fun heq => hv.markers (heq ▸ hdelkey)
      have hperm := itemsSet_clear hkv hcell hmark
      have hw : Written t p (delkey, default) { t with
          table := t.table.set p (delkey, default)
          numDeleted := t.numDeleted + 1
          considerShrink := true } := ⟨rfl, rfl, rfl⟩
      have hrep := (hm.perm hperm).tail
      dsimp only
      rw [setBucket_of_getElem? hkv, ok_bind]
      refine ⟨⟨⟨hv.toLaid.write hkv hw hne (fun h => ?_) hrep.nodup ?_ ?_ hv.room, hv.factor, ?_⟩,
        ⟨rfl, rfl, rfl, rfl⟩, ?_⟩, ?_, fun c h => ?_⟩
      · rw [hmark] at h
        cases h
      · rw [if_neg hcases.2.1]
        rfl
      · rw [if_neg hcases.2.2, if_pos hdelkey]
      · rw [hw.length]
        exact hv.threshold
      · rw [hw.items]
        exact hrep
      · rw [hvalue]
        rfl
      · exact ⟨h.enlarge, h.shrink, hw.length.trans_le h.buckets, h.few⟩

/-! ### Runs -/

section Run

variable (alloc : Allocator) (hash : K → U64) [Inhabited V]

/-- A call on the table. -/
def call (t : DenseHash K V) : MapCall K V → Except DenseFault (DenseHash K V × MapReply V)
  | .assign key value => do
    let t ← t.assign alloc hash key value
    return (t, .done)
  | .find key => do
    let v ← t.lookup hash key
    return (t, .value v)
  | .erase key => do
    let (t, count) ← t.erase hash key
    return (t, .erased count)

omit alloc hash [Inhabited V] in
/-- `set_deleted_key` is called or not. -/
def withDeletedKey (t : DenseHash K V) : Option K → Except DenseFault (DenseHash K V)
  | some key => t.setDeletedKey key
  | none => .ok t

omit alloc hash [DecidableEq K] [Inhabited V] in
/-- `max_load_factor` is called or not. -/
def withLoadFactor (t : DenseHash K V) : Option ℚ → Except DenseFault (DenseHash K V)
  | some grow => t.setMaxLoadFactor grow
  | none => .ok t

/-- A new table with its markers and its load factor. -/
def start (emptyKey : K) (delkey : Option K) (loadFactor : Option ℚ) (expectedMaxItems : ℕ) :
    Except DenseFault (DenseHash K V) := do
  let t ← new alloc emptyKey expectedMaxItems
  let t ← t.withDeletedKey delkey
  t.withLoadFactor loadFactor

/-- A new table and a run of calls on it. -/
def runTable (emptyKey : K) (delkey : Option K) (loadFactor : Option ℚ) (expectedMaxItems : ℕ)
    (calls : List (MapCall K V)) : Except DenseFault (DenseHash K V × List (MapReply V)) := do
  let t ← start alloc emptyKey delkey loadFactor expectedMaxItems
  runCalls (call alloc hash) t calls

end Run

/-- The call keeps away from the markers, and erases only after a deleted key was set. -/
def Proper (emptyKey : K) (delkey : Option K) : MapCall K V → Prop
  | .assign key _ => key ≠ emptyKey ∧ delkey ≠ some key
  | .find _ => True
  | .erase key => (key ≠ emptyKey ∧ delkey ≠ some key) ∧ delkey ≠ none

/-- The table holds what the map holds, and has these markers. -/
structure Refines (hash : K → U64) (emptyKey : K) (delkey : Option K) (t : DenseHash K V)
    (m : K → Option V) : Prop where
  valid : Valid hash t
  represents : Represents m t.items
  emptyval : t.emptyval.1 = emptyKey
  delkey_eq : t.delkey = delkey

theorem CallEnd.refines {emptyKey : K} {delkey : Option K} {m' : K → Option V} {t' : DenseHash K V}
    (h : CallEnd hash t m' t') (href : Refines hash emptyKey delkey t m) :
    Refines hash emptyKey delkey t' m' :=
  ⟨h.valid, h.represents, (congrArg Prod.fst h.kin.emptyval).trans href.emptyval,
    h.kin.delkey.trans href.delkey_eq⟩

/-- The empty key is never in the table. -/
theorem Refines.emptyKey_eq_none {emptyKey : K} {delkey : Option K}
    (h : Refines hash emptyKey delkey t m) : m emptyKey = none := by
  refine h.represents.eq_none_iff.mpr fun hmem => ?_
  obtain ⟨kv, hkv, heq⟩ := List.mem_map.mp hmem
  obtain ⟨p, -, hcell⟩ := mem_items_iff.mp hkv
  exact (cell_eq_some_iff.mp hcell).2.1 (h.emptyval.trans heq.symm)

variable [Inhabited V] {emptyKey : K} {delkey : Option K}

/-- What one call does. -/
theorem call_outcome (h : Refines hash emptyKey delkey t m) (c : MapCall K V)
    (hproper : allowed .assertion ∨ Proper emptyKey delkey c)
    (hok : ∀ key, c.assigned = some key → key ∉ t.items.map Prod.fst →
      t.items.length + 1 ≤ n ∧ Affords allowed alloc n t) :
    Outcome allowed (fun r => Refines hash emptyKey delkey r.1 (c.spec m).1 ∧ r.2 = (c.spec m).2 ∧
      ∀ c, 2 ≤ c → Ample c n t → Ample c n r.1) (call alloc hash t c) := by
  have hordinary : ∀ {key}, key ≠ emptyKey ∧ delkey ≠ some key → t.Ordinary key := by
    intro key hkey
    rw [Ordinary, h.emptyval, h.delkey_eq]
    exact hkey
  cases c with
  | assign key value =>
    refine (assign_outcome h.valid h.represents value (hproper.imp_right hordinary)
      (hok key rfl)).bind ?_
    rintro t' ⟨hend, hample⟩
    exact ⟨hend.refines h, rfl, hample⟩
  | find key =>
    rw [call, lookup_spec h.valid h.represents, ok_bind]
    exact ⟨h, rfl, fun c _ hample => hample⟩
  | erase key =>
    refine (erase_outcome (n := n) h.valid h.represents (hproper.imp_right fun hkey =>
      ⟨hordinary hkey.1, h.delkey_eq ▸ hkey.2⟩)).bind ?_
    rintro ⟨t', count⟩ ⟨hend, hcount, hample⟩
    exact ⟨hend.refines h, congrArg MapReply.erased hcount, fun c _ => hample c⟩

omit [Inhabited V] in
theorem setMaxLoadFactor_outcome {g : ℚ} (hg : Factor g) (h : Refines hash emptyKey delkey t m)
    (hshrink : 0 ≤ t.shrinkFactor) :
    Outcome allowed (fun t' => Refines hash emptyKey delkey t' m ∧ 0 ≤ t'.shrinkFactor)
      (t.setMaxLoadFactor g) := by
  have hhalf : 0 ≤ toFloat (g / 2) := BinaryRounding.round_nonneg (div_nonneg hg.nonneg two_pos.le)
  unfold setMaxLoadFactor
  rw [if_neg (by rw [not_or, not_lt, not_lt]; exact ⟨hshrink, hg.lt_one.le⟩)]
  refine ⟨⟨(h.valid.toLaid.settings _ _ _ _ _).resetThresholds hg, h.represents, h.emptyval,
    h.delkey_eq⟩, ?_⟩
  change 0 ≤ if toFloat (g / 2) < t.shrinkFactor then toFloat (g / 2) else t.shrinkFactor
  split_ifs
  · exact hhalf
  · exact hshrink

theorem factor_of_map (loadFactor : Option { g : ℚ // Factor g }) {g : ℚ}
    (hg : loadFactor.map Subtype.val = some g) : Factor g := by
  obtain ⟨⟨g, hfactor⟩, -, rfl⟩ := Option.map_eq_some_iff.mp hg
  exact hfactor

/-- A new table has at most `2 ^ c` buckets if it is asked for few. -/
theorem new_outcome (hash : K → U64) (emptyKey : K) (expected : ℕ)
    (hok : allowed .length ∧ allowed .memory ∧ allowed .overrun ∨
      ∃ c, Gives alloc c ∧ 5 ≤ c ∧ 2 * expected < 2 ^ c) :
    Outcome allowed (fun t : DenseHash K V => Refines hash emptyKey none t (fun _ => none) ∧
      t.enlargeFactor = occupancy ∧ t.shrinkFactor = emptiness ∧
      ∀ c, 5 ≤ c → 2 * expected < 2 ^ c → t.table.length ≤ 2 ^ c) (new alloc emptyKey expected) := by
  have hcount : Outcome allowed (fun n => ∃ d, 2 ≤ d ∧ d ≤ 63 ∧ n = 2 ^ d ∧
      ∀ c, 5 ≤ c → 2 * expected < 2 ^ c → d ≤ c)
      (if expected = 0 then .ok HT_DEFAULT_STARTING_BUCKETS else minBuckets occupancy expected 0) := by
    split_ifs with hzero
    · exact ⟨5, by norm_num, by norm_num, rfl, fun c hc _ => hc⟩
    · refine (minBuckets_outcome occupancy expected 0 (hok.imp (fun h => h.1) ?_)).mono ?_
      · rintro ⟨c, hgives, hc, hlt⟩
        have := hgives.le
        exact ⟨c, by omega, by omega, good_occupancy (by omega) hlt (Nat.zero_le _)⟩
      · rintro n ⟨d, h2, h63, hn, -, hmin⟩
        refine ⟨d, h2, h63, hn, fun c hc hlt => ?_⟩
        by_contra hgt
        exact hmin c (by omega) (by omega) (good_occupancy (by omega) hlt (Nat.zero_le _))
  unfold new
  refine hcount.bind ?_
  rintro _ ⟨d, h2, h63, rfl, hbound⟩
  have hfits : allowed .memory ∧ allowed .overrun ∨ 2 ^ d * alloc.sizeofValue ≤ alloc.limit := by
    refine hok.imp (fun h => h.2) ?_
    rintro ⟨c, hgives, hc, hlt⟩
    have hpow := Nat.pow_le_pow_right two_pos (hbound c hc hlt)
    exact (Nat.mul_le_mul_right _ hpow).trans hgives.limit
  refine (cleared_outcome hash h2 h63 (Option.some_ne_none _).symm factor_occupancy hfits).mono ?_
  intro t h
  refine ⟨⟨h.valid, ?_, congrArg Prod.fst h.kin.emptyval, h.kin.delkey⟩, h.kin.enlargeFactor,
    h.kin.shrinkFactor, fun c hc hlt => ?_⟩
  · rw [h.items]
    exact Represents.empty
  · rw [h.length]
    exact Nat.pow_le_pow_right two_pos (hbound c hc hlt)

theorem emptiness_nonneg : 0 ≤ emptiness := BinaryRounding.round_nonneg (by norm_num)

omit [Inhabited V] in
/-- In an empty table any other key than the empty one can become the deleted one. -/
theorem Laid.mark (h : Laid hash t) (hzero : t.numElements = 0) (hkey : key ≠ t.emptyval.1) :
    Laid hash { t with delkey := some key } ∧ items { t with delkey := some key } = [] := by
  have hlen := h.length_items
  have hempty : ∀ kv ∈ t.table, t.emptyval.1 = kv.1 := by
    have hcount := h.elements
    rw [hzero] at hcount
    intro kv hkv
    simpa using List.countP_eq_zero.mp hcount.symm kv hkv
  have hnil : items { t with delkey := some key } = [] := by
    refine List.eq_nil_iff_forall_not_mem.mpr fun e he => ?_
    obtain ⟨p, hp, hcell⟩ := mem_items_iff.mp he
    exact (cell_eq_some_iff.mp hcell).2.1 (hempty e (List.mem_of_getElem? hp))
  refine ⟨⟨h.pow, fun heq => hkey (Option.some.inj heq), fun hp hcell => ?_, ?_, h.elements, ?_,
    h.room⟩, hnil⟩
  · exact absurd (hempty _ (List.mem_of_getElem? hp)) (cell_eq_some_iff.mp hcell).2.1
  · rw [hnil]
    exact List.nodup_nil
  · have hdeleted : t.table.countP (fun kv => some key = some kv.1) = 0 := by
      refine List.countP_eq_zero.mpr fun kv hkv => ?_
      simpa [← hempty kv hkv] using hkey
    dsimp only
    omega

omit [Inhabited V] in
theorem withDeletedKey_outcome (h : Refines hash emptyKey none t fun _ => none)
    (hmarkers : allowed .assertion ∨ delkey ≠ some emptyKey) :
    Outcome allowed (fun t' => Refines hash emptyKey delkey t' (fun _ => none) ∧
      t'.enlargeFactor = t.enlargeFactor ∧ t'.shrinkFactor = t.shrinkFactor ∧ t'.table = t.table)
      (t.withDeletedKey delkey) := by
  cases delkey with
  | none => exact ⟨h, rfl, rfl, rfl⟩
  | some key =>
    have hnil : t.items = [] := by
      refine List.eq_nil_iff_forall_not_mem.mpr fun e he => ?_
      exact absurd (h.represents.iff_mem.mpr he) nofun
    have hzero : t.numElements = 0 := by
      have hlen := h.valid.toLaid.length_items
      have hdeleted := h.valid.deleted
      rw [h.delkey_eq] at hdeleted
      simp only [reduceCtorEq, decide_false, List.countP_false] at hdeleted
      rw [hnil] at hlen
      simpa [hdeleted] using hlen.symm
    rw [withDeletedKey, setDeletedKey]
    split_ifs with heq
    · refine hmarkers.resolve_right ?_
      rw [heq, h.emptyval]
      exact not_not.mpr rfl
    · obtain ⟨hlaid, hitems⟩ := h.valid.toLaid.mark hzero heq
      refine ⟨⟨⟨hlaid, h.valid.factor, h.valid.threshold⟩, ?_, h.emptyval, rfl⟩, rfl, rfl, rfl⟩
      rw [hitems]
      exact Represents.empty

/-- The start of a run. -/
theorem start_outcome (hash : K → U64) (emptyKey : K) (delkey : Option K)
    {loadFactor : Option ℚ} (hfactor : ∀ g, loadFactor = some g → Factor g) (expected : ℕ)
    (hmarkers : allowed .assertion ∨ delkey ≠ some emptyKey)
    (hok : allowed .length ∧ allowed .memory ∧ allowed .overrun ∨
      ∃ c, Gives alloc c ∧ 5 ≤ c ∧ 2 * expected < 2 ^ c) :
    Outcome allowed (fun t : DenseHash K V => Refines hash emptyKey delkey t (fun _ => none) ∧
      (loadFactor = none → t.enlargeFactor = occupancy ∧ t.shrinkFactor = emptiness ∧
        ∀ c, 5 ≤ c → 2 * expected < 2 ^ c → t.table.length ≤ 2 ^ c))
      (start alloc emptyKey delkey loadFactor expected) := by
  unfold start
  refine (new_outcome hash emptyKey expected hok).bind ?_
  rintro t ⟨href, henlarge, hshrink, hlength⟩
  refine (withDeletedKey_outcome href hmarkers).bind ?_
  rintro t₁ ⟨href₁, henlarge₁, hshrink₁, htable₁⟩
  cases loadFactor with
  | none =>
    refine ⟨href₁, fun _ => ⟨henlarge₁.trans henlarge, hshrink₁.trans hshrink, ?_⟩⟩
    rw [htable₁]
    exact hlength
  | some g =>
    refine (setMaxLoadFactor_outcome (hfactor g rfl) href₁ ?_).mono fun t' h => ⟨h.1, nofun⟩
    rw [hshrink₁, hshrink]
    exact emptiness_nonneg

/-- How a run with markers may fail: sizes and memory apart, only by touching a marker or by
erasing without a deleted key, and never by an index outside of the table. -/
def Blamed (emptyKey : K) (delkey : Option K) (calls : List (MapCall K V)) (f : DenseFault) : Prop :=
  f ≠ .outside ∧ (f = .assertion → delkey = some emptyKey ∨ ∃ c ∈ calls, ¬Proper emptyKey delkey c)

omit [DecidableEq K] [Inhabited V] in
theorem blamed_of_ne (calls : List (MapCall K V)) {f : DenseFault} (hout : f ≠ .outside)
    (hf : f ≠ .assertion) : Blamed emptyKey delkey calls f :=
  ⟨hout, fun h => absurd h hf⟩

/-- Every run answers as a map does, with any markers and any load factor below one. It ends in an
assertion only if a call touches a marker or erases without a deleted key. -/
theorem denseRun_refines (alloc : Allocator) (hash : K → U64) (emptyKey : K) (delkey : Option K)
    (loadFactor : Option { g : ℚ // Factor g }) (expected : ℕ) (calls : List (MapCall K V)) :
    Outcome (Blamed emptyKey delkey calls)
      (fun r => r.2 = (runSpec MapCall.spec (fun _ => none) calls).2 ∧
        Represents (runSpec MapCall.spec (fun _ => none) calls).1 r.1.items ∧
        r.1.size = r.1.items.length)
      (runTable alloc hash emptyKey delkey (loadFactor.map Subtype.val) expected calls) := by
  have hresize : Blamed emptyKey delkey calls .length ∧ Blamed emptyKey delkey calls .memory ∧
      Blamed emptyKey delkey calls .overrun :=
    ⟨blamed_of_ne calls nofun nofun, blamed_of_ne calls nofun nofun, blamed_of_ne calls nofun nofun⟩
  have hmarkers : Blamed emptyKey delkey calls .assertion ∨ delkey ≠ some emptyKey := by
    by_cases h : delkey = some emptyKey
    · exact Or.inl ⟨nofun, fun _ => Or.inl h⟩
    · exact Or.inr h
  unfold runTable
  refine (start_outcome hash emptyKey delkey (fun _ => factor_of_map loadFactor) expected hmarkers
    (Or.inl hresize)).bind ?_
  rintro t ⟨hstart, -⟩
  refine (runCalls_refines MapCall.spec (R := Refines hash emptyKey delkey) calls ?_ hstart).mono ?_
  · intro t m c hc h
    have hproper : Blamed emptyKey delkey calls .assertion ∨ Proper emptyKey delkey c := by
      by_cases hp : Proper emptyKey delkey c
      · exact Or.inr hp
      · exact Or.inl ⟨nofun, fun _ => Or.inr ⟨c, hc, hp⟩⟩
    refine (call_outcome h c hproper fun key _ _ => ⟨le_rfl, Or.inl hresize⟩).mono ?_
    rintro r ⟨href, hreply, -⟩
    exact ⟨href, hreply⟩
  · rintro r ⟨href, hreplies⟩
    exact ⟨hreplies, href.represents, href.valid.toLaid.size_eq⟩

/-- With the default load factors and memory for `2 ^ c` buckets, eight for each distinct key, no run
that keeps away from the markers fails, whatever it erases in between. -/
theorem denseRun_total (alloc : Allocator) (hash : K → U64) (emptyKey : K) (delkey : Option K)
    (expected : ℕ) (calls : List (MapCall K V)) {c : ℕ} (hgives : Gives alloc c) (hc : 5 ≤ c)
    (hexpected : 2 * expected < 2 ^ c)
    (hfew : 8 * (calls.filterMap MapCall.assigned).toFinset.card ≤ 2 ^ c)
    (hmarkers : delkey ≠ some emptyKey) (hproper : ∀ c ∈ calls, Proper emptyKey delkey c) :
    ∃ t, runTable alloc hash emptyKey delkey none expected calls =
        .ok (t, (runSpec MapCall.spec (fun _ => none) calls).2) ∧
      t.table.length ≤ 2 ^ c := by
  set keys := (calls.filterMap MapCall.assigned).toFinset with hkeys
  have hrun : Outcome (fun _ => False)
      (fun r => r.2 = (runSpec MapCall.spec (fun _ => none) calls).2 ∧ r.1.table.length ≤ 2 ^ c)
      (runTable alloc hash emptyKey delkey none expected calls) := by
    unfold runTable
    refine (start_outcome hash emptyKey delkey (by simp) expected (Or.inr hmarkers)
      (Or.inr ⟨c, hgives, hc, hexpected⟩)).bind ?_
    rintro t ⟨hstart, hdefaults⟩
    obtain ⟨henlarge, hshrink, hlength⟩ := hdefaults rfl
    refine (runCalls_refines MapCall.spec (R := fun t m => Refines hash emptyKey delkey t m ∧
      Within keys m ∧ Ample c keys.card t) calls ?_ ⟨hstart, fun _ _ => rfl, henlarge, hshrink,
      hlength c hc hexpected, hfew⟩).mono ?_
    · rintro t m call hcall ⟨href, hwithin, hample⟩
      have hassigned : ∀ key, call.assigned = some key → key ∈ keys := by
        intro key hkey
        rw [hkeys]
        exact List.mem_toFinset.mpr (List.mem_filterMap.mpr ⟨call, hcall, hkey⟩)
      refine (call_outcome (n := keys.card) href call (Or.inr (hproper call hcall)) ?_).mono ?_
      · intro key hkey hfresh
        exact ⟨href.represents.length_lt_card hwithin (hassigned key hkey) hfresh,
          Or.inr ⟨c, hgives, hample⟩⟩
      · rintro r ⟨href', hreply, hkept⟩
        exact ⟨⟨href', hwithin.spec hassigned, hkept c hgives.two_le hample⟩, hreply⟩
    · rintro r ⟨⟨-, -, hample⟩, hreplies⟩
      exact ⟨hreplies, hample.buckets⟩
  obtain ⟨⟨t, replies⟩, hok, rfl, hle⟩ := hrun.exists_ok
  exact ⟨t, hok, hle⟩

/-- Pairs of 16 bytes, and one kibibyte of memory at a time. -/
def kibibyte : Allocator := ⟨16, by decide, 1024, by decide⟩

/-- One hash for all keys, with an element erased and put back. -/
theorem denseRun_total_constant_hash :
    ∃ t, runTable kibibyte (fun _ : ℕ => 0) 0 (some 7) none 3
        [.assign 1 10, .assign 2 20, .erase 1, .find 2, .find 1, .assign 1 11, .find 1, .erase 3,
          .find 0] =
        .ok (t, [.done, .done, .erased 1, .value (some 20), .value none, .done, .value (some 11),
          .erased 0, .value none]) ∧
      t.table.length ≤ 2 ^ 6 := by
  refine denseRun_total (V := ℕ) kibibyte (fun _ : ℕ => 0) 0 (some 7) 3
    [.assign 1 10, .assign 2 20, .erase 1, .find 2, .find 1, .assign 1 11, .find 1, .erase 3,
      .find 0] ⟨by decide, by decide, by decide⟩ (by decide) (by decide) (by decide) (by decide) ?_
  simp [Proper]

end EntropyLearnedHashing.DenseHash
