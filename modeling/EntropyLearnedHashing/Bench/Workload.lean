import EntropyLearnedHashing.Bench.FilterStats
import EntropyLearnedHashing.Storage

/-! `workload_generator.cpp`: probes for a table or a filter, some of them inserted keys and
the others uninserted ones. The second component of the result is meant to be the number of
probes that miss. It is the number of probes drawn from the uninserted keys, and nothing makes
these differ from the inserted ones: a file can repeat a line. -/

namespace EntropyLearnedHashing

variable {κ : Type}

/-! ### The generators -/

/-- The draws of a `uniform_int_distribution<uint32_t>` on `[0, b]`. -/
structure UniformInt (b : U32) where
  draw : ℕ → U32
  draw_le : ∀ i, draw i ≤ b

/-- `keys.size() - 1` as a `uint32_t`. -/
def lastIndex (keys : List κ) : U32 := BitVec.ofNat 32 keys.length - 1

/-- `keys[idx]` with an `int` index; an index outside of the vector is undefined. -/
def keyAt (keys : List κ) (idx : U32) : Option κ :=
  if 0 ≤ idx.toInt then keys[idx.toNat]? else none

/-- `keys[i%size]` with `int size = keys.size()`. -/
def keyAtStatic (keys : List κ) (i : ℕ) : Option κ :=
  let size := BitVec.ofNat 32 keys.length
  if size = 0 then none else keys[i % size.toNat]?

/-- The loop of the four generators. -/
def pushProbes (pick : ℕ → Option κ) (nprobes : U32) (probeArray : List κ) : Option (List κ) :=
  (List.range nprobes.toNat).foldlM (fun probeArray i => (pick i).map (probeArray ++ [·])) probeArray

def generateSuccessfulProbes (insertedKeys : List κ)
    (successGen : UniformInt (lastIndex insertedKeys)) :
    U32 → List κ → Option (List κ) :=
  pushProbes fun i => keyAt insertedKeys (successGen.draw i)

def generateUnsuccessfulProbes (uninsertedKeys : List κ)
    (unsuccessGen : UniformInt (lastIndex uninsertedKeys)) :
    U32 → List κ → Option (List κ) :=
  pushProbes fun i => keyAt uninsertedKeys (unsuccessGen.draw i)

def generateSuccessfulProbesStatic (insertedKeys : List κ) : U32 → List κ → Option (List κ) :=
  pushProbes (keyAtStatic insertedKeys)

def generateUnsuccessfulProbesStatic (uninsertedKeys : List κ) :
    U32 → List κ → Option (List κ) :=
  pushProbes (keyAtStatic uninsertedKeys)

/-- The body that the next two functions share. -/
def generateProbes (successfulProbes unsuccessfulProbes : U32 → List κ → Option (List κ))
    (finish : List κ → List κ) (fractionSuccessful : Fraction) (nprobes : U32) :
    Option (List κ × ℤ) := do
  let successful ← fractionSuccessful.share nprobes.toNat
  let unsuccessful := nprobes - successful
  let probes ← successfulProbes successful []
  let probes ← unsuccessfulProbes unsuccessful probes
  some (finish probes, unsuccessful.toInt)

/-- `generate_probes_with_unselected_keys_as_false`; the second component is an `int`. -/
def generateProbesWithUnselectedKeysAsFalse (insertedKeys uninsertedKeys : List κ)
    (successGen : UniformInt (lastIndex insertedKeys))
    (unsuccessGen : UniformInt (lastIndex uninsertedKeys)) (rng : Storage.Shuffle κ) :
    Fraction → U32 → Option (List κ × ℤ) :=
  generateProbes (generateSuccessfulProbes insertedKeys successGen)
    (generateUnsuccessfulProbes uninsertedKeys unsuccessGen) rng.apply

/-- `generate_probes_with_unselected_keys_as_false_static`. -/
def generateProbesWithUnselectedKeysAsFalseStatic (insertedKeys uninsertedKeys : List κ) :
    Fraction → U32 → Option (List κ × ℤ) :=
  generateProbes (generateSuccessfulProbesStatic insertedKeys)
    (generateUnsuccessfulProbesStatic uninsertedKeys) id

/-! ### The loop -/

/-- The loop returns when every pick does, and appends the picked keys in order. -/
theorem pushProbes_eq_some_iff {pick : ℕ → Option κ} {nprobes : U32} {probeArray out : List κ} :
    pushProbes pick nprobes probeArray = some out ↔
      ∃ keys, (List.range nprobes.toNat).map pick = keys.map some ∧ out = probeArray ++ keys := by
  unfold pushProbes
  induction List.range nprobes.toNat generalizing probeArray with
  | nil =>
    constructor
    · intro h
      exact ⟨[], rfl, by rw [List.append_nil, Option.some.inj h]⟩
    · rintro ⟨keys, hkeys, rfl⟩
      rw [List.map_eq_nil_iff.mp hkeys.symm, List.append_nil]
      rfl
  | cons i l ih =>
    rw [List.foldlM_cons, List.map_cons]
    cases pick i with
    | none =>
      refine iff_of_false (by simp) ?_
      rintro ⟨keys, hkeys, -⟩
      cases keys <;> simp at hkeys
    | some key =>
      simp only [Option.map_some, Option.bind_eq_bind, Option.bind_some, ih]
      constructor
      · rintro ⟨keys, hkeys, rfl⟩
        exact ⟨key :: keys, by rw [hkeys, List.map_cons], by simp⟩
      · rintro ⟨keys, hkeys, rfl⟩
        cases keys with
        | nil => simp at hkeys
        | cons key' keys =>
          rw [List.map_cons, List.cons.injEq, Option.some.injEq] at hkeys
          exact ⟨keys, hkeys.2, by simp [hkeys.1]⟩

theorem length_of_map_range {pick : ℕ → Option κ} {n : ℕ} {keys : List κ}
    (h : (List.range n).map pick = keys.map some) : keys.length = n := by
  have hlen := congrArg List.length h
  simpa using hlen.symm

/-- The picked keys are the picks that succeed. -/
theorem mem_of_map_range {pick : ℕ → Option κ} {n : ℕ} {keys : List κ}
    (h : (List.range n).map pick = keys.map some) {key : κ} :
    key ∈ keys ↔ ∃ i < n, pick i = some key := by
  have hmem : some key ∈ keys.map some ↔ some key ∈ (List.range n).map pick := by rw [h]
  simpa using hmem

theorem exists_mem_of_map_range {pick : ℕ → Option κ} {n : ℕ} {keys : List κ}
    (h : (List.range n).map pick = keys.map some) {i : ℕ} (hi : i < n) :
    ∃ key ∈ keys, pick i = some key := by
  have hmem : pick i ∈ keys.map some := h ▸ List.mem_map_of_mem (List.mem_range.mpr hi)
  obtain ⟨key, hkey, heq⟩ := List.mem_map.mp hmem
  exact ⟨key, hkey, heq.symm⟩

theorem exists_keys {pick : ℕ → Option κ} {n : ℕ} (h : ∀ i < n, ∃ key, pick i = some key) :
    ∃ keys : List κ, (List.range n).map pick = keys.map some := by
  induction n with
  | zero => exact ⟨[], rfl⟩
  | succ n ih =>
    obtain ⟨keys, hkeys⟩ := ih fun i hi => h i (by omega)
    obtain ⟨key, hkey⟩ := h n (Nat.lt_succ_self n)
    refine ⟨keys ++ [key], ?_⟩
    rw [List.range_succ, List.map_append, hkeys, List.map_append]
    simp [hkey]

/-! ### The picks -/

section Picks

variable {keys : List κ}

theorem mem_of_keyAt {idx : U32} {key : κ} (h : keyAt keys idx = some key) : key ∈ keys := by
  unfold keyAt at h
  split_ifs at h
  exact List.mem_of_getElem? h

theorem mem_of_keyAtStatic {i : ℕ} {key : κ} (h : keyAtStatic keys i = some key) : key ∈ keys := by
  unfold keyAtStatic at h
  dsimp only at h
  split_ifs at h
  exact List.mem_of_getElem? h

theorem keyAt_of_lt (hlen : keys.length < 2 ^ 31) {idx : U32} (h : idx.toNat < keys.length) :
    keyAt keys idx = some keys[idx.toNat] := by
  have hint : 0 ≤ idx.toInt := by
    rw [BitVec.toInt_eq_toNat_cond]
    split_ifs <;> omega
  unfold keyAt
  rw [if_pos hint, List.getElem?_eq_getElem h]

/-- The draws from a nonempty vector are its indices. -/
theorem le_lastIndex_iff (hlen : keys.length < 2 ^ 31) (hne : keys ≠ []) {idx : U32} :
    idx ≤ lastIndex keys ↔ idx.toNat < keys.length := by
  have hpos := List.length_pos_of_ne_nil hne
  unfold lastIndex
  bv_omega

theorem exists_keyAt (hlen : keys.length < 2 ^ 31) (hne : keys ≠ []) {idx : U32}
    (h : idx ≤ lastIndex keys) : ∃ key, keyAt keys idx = some key :=
  ⟨_, keyAt_of_lt hlen ((le_lastIndex_iff hlen hne).mp h)⟩

/-- Every key can be drawn. -/
theorem exists_draw (hlen : keys.length < 2 ^ 31) {key : κ} (hkey : key ∈ keys) :
    ∃ idx ≤ lastIndex keys, keyAt keys idx = some key := by
  obtain ⟨j, hj, rfl⟩ := List.mem_iff_getElem.mp hkey
  have hidx : (BitVec.ofNat 32 j).toNat = j := by
    rw [BitVec.toNat_ofNat]
    omega
  have hlt : (BitVec.ofNat 32 j).toNat < keys.length := by omega
  refine ⟨BitVec.ofNat 32 j, (le_lastIndex_iff hlen (List.ne_nil_of_mem hkey)).mpr hlt, ?_⟩
  rw [keyAt_of_lt hlen hlt]
  simp only [hidx]

theorem keyAtStatic_eq (hlen : keys.length < 2 ^ 31) (hne : keys ≠ []) (i : ℕ) :
    keyAtStatic keys i = keys[i % keys.length]? := by
  have hpos := List.length_pos_of_ne_nil hne
  have hsize : (BitVec.ofNat 32 keys.length).toNat = keys.length := by
    rw [BitVec.toNat_ofNat]
    omega
  have hsize0 : BitVec.ofNat 32 keys.length ≠ 0 := by
    intro h
    rw [h] at hsize
    exact hpos.ne hsize
  unfold keyAtStatic
  dsimp only
  rw [if_neg hsize0, hsize]

end Picks

/-! ### What the callers rely on -/

variable [DecidableEq κ]

/-- There are exactly `nprobes` probes, and the second component counts those that are not in
`data`. -/
def ProbesRight (data : List κ) (nprobes : U32) (result : Option (List κ × ℤ)) : Prop :=
  ∃ probes u, result = some (probes, u) ∧ probes.length = nprobes.toNat ∧
    u = numUnsuccessful data probes

/-- The number of successful probes asked for. -/
def numSuccessfulProbes (fraction : Fraction) (nprobes : U32) : ℕ :=
  ⌊fraction.product nprobes.toNat⌋₊

section Counts

variable {fraction : Fraction} {nprobes : U32}
  (h : fraction.value < 1 ∨ toFloat nprobes.toNat ≤ nprobes.toNat)

include h

theorem numSuccessfulProbes_le : numSuccessfulProbes fraction nprobes ≤ nprobes.toNat :=
  Fraction.floor_product_le h

theorem toNat_successful :
    (BitVec.ofNat 32 (numSuccessfulProbes fraction nprobes)).toNat =
      numSuccessfulProbes fraction nprobes := by
  have hle := numSuccessfulProbes_le h
  have hlt := nprobes.isLt
  rw [BitVec.toNat_ofNat]
  omega

theorem toNat_unsuccessful :
    (nprobes - BitVec.ofNat 32 (numSuccessfulProbes fraction nprobes)).toNat =
      nprobes.toNat - numSuccessfulProbes fraction nprobes := by
  have hle := numSuccessfulProbes_le h
  have hS := toNat_successful h
  rw [BitVec.toNat_sub_of_le (by rw [BitVec.le_def, hS]; exact hle), hS]

end Counts

omit [DecidableEq κ] in
/-- A result consists of the keys of the two loops. -/
theorem generateProbes_eq_some_iff {pickS pickU : ℕ → Option κ} {finish : List κ → List κ}
    {fraction : Fraction} {nprobes : U32} {result : List κ × ℤ} :
    generateProbes (pushProbes pickS) (pushProbes pickU) finish fraction nprobes = some result ↔
      ∃ successful, fraction.share nprobes.toNat = some successful ∧ ∃ keysS keysU : List κ,
        (List.range successful.toNat).map pickS = keysS.map some ∧
        (List.range (nprobes - successful).toNat).map pickU = keysU.map some ∧
        result = (finish (keysS ++ keysU), (nprobes - successful).toInt) := by
  simp only [generateProbes, Option.bind_eq_bind, Option.bind_eq_some_iff, pushProbes_eq_some_iff,
    Option.some.injEq]
  constructor
  · rintro ⟨successful, hshare, _, ⟨keysS, hS, hprobes⟩, _, ⟨keysU, hU, rfl⟩, rfl⟩
    rw [List.nil_append] at hprobes
    subst hprobes
    exact ⟨successful, hshare, _, keysU, hS, hU, rfl⟩
  · rintro ⟨successful, hshare, keysS, keysU, hS, hU, rfl⟩
    exact ⟨successful, hshare, keysS, ⟨keysS, hS, by simp⟩, keysS ++ keysU, ⟨keysU, hU, rfl⟩, rfl⟩

/-- Only the keys of the second loop can miss. -/
theorem numUnsuccessful_probes {finish : List κ → List κ} (hfinish : ∀ l, (finish l).Perm l)
    {data keysS : List κ} (hS : ∀ key ∈ keysS, key ∈ data) (keysU : List κ) :
    numUnsuccessful data (finish (keysS ++ keysU)) = numUnsuccessful data keysU := by
  have hzero : numUnsuccessful data keysS = 0 := by
    simpa [numUnsuccessful, List.countP_eq_zero] using hS
  unfold numUnsuccessful at hzero ⊢
  rw [(hfinish _).countP_eq, List.countP_append, hzero, Nat.zero_add]

/-- The `int` is the number of misses when it fits and all keys of the second loop miss. -/
theorem toInt_eq_numUnsuccessful_iff {data keys : List κ} {m : U32}
    (hlen : keys.length = m.toNat) :
    m.toInt = numUnsuccessful data keys ↔ m.toNat < 2 ^ 31 ∧ ∀ key ∈ keys, key ∉ data := by
  have hle : numUnsuccessful data keys ≤ m.toNat := hlen ▸ List.countP_le_length
  have hall : numUnsuccessful data keys = m.toNat ↔ ∀ key ∈ keys, key ∉ data := by
    rw [← hlen, numUnsuccessful, List.countP_eq_length]
    simp
  rw [← hall, BitVec.toInt_eq_toNat_cond]
  have hlt := m.isLt
  split_ifs <;> omega

/-- More successful probes than probes: the other count wraps, and there are too many. -/
theorem not_probesRight_of_lt {pickS pickU : ℕ → Option κ} {finish : List κ → List κ}
    (hfinish : ∀ l, (finish l).Perm l) {data : List κ} {fraction : Fraction} {nprobes : U32}
    (h : ¬(fraction.value < 1 ∨ toFloat nprobes.toNat ≤ nprobes.toNat)) :
    ¬ProbesRight data nprobes
      (generateProbes (pushProbes pickS) (pushProbes pickU) finish fraction nprobes) := by
  rintro ⟨probes, u, hresult, hlen, -⟩
  obtain ⟨successful, hshare, keysS, keysU, hS, hU, heq⟩ := generateProbes_eq_some_iff.mp hresult
  obtain ⟨rfl, -⟩ := Prod.mk.inj heq
  have hlt := Fraction.lt_share h hshare
  rw [(hfinish _).length_eq, List.length_append, length_of_map_range hS, length_of_map_range hU]
    at hlen
  bv_omega

/-- The counts do not wrap, every pick succeeds, and the second loop picks no key of `data`. -/
structure PicksSuffice (data : List κ) (pickS pickU : ℕ → Option κ) (fraction : Fraction)
    (nprobes : U32) : Prop where
  no_wrap : fraction.value < 1 ∨ toFloat nprobes.toNat ≤ nprobes.toNat
  int_fits : nprobes.toNat - numSuccessfulProbes fraction nprobes < 2 ^ 31
  successful : ∀ i < numSuccessfulProbes fraction nprobes, ∃ key, pickS i = some key
  unsuccessful : ∀ i < nprobes.toNat - numSuccessfulProbes fraction nprobes,
    ∃ key, pickU i = some key ∧ key ∉ data

theorem generateProbes_right_iff {pickS pickU : ℕ → Option κ} {finish : List κ → List κ}
    (hfinish : ∀ l, (finish l).Perm l) {data : List κ}
    (hpickS : ∀ i key, pickS i = some key → key ∈ data) (fraction : Fraction) (nprobes : U32) :
    ProbesRight data nprobes
        (generateProbes (pushProbes pickS) (pushProbes pickU) finish fraction nprobes) ↔
      PicksSuffice data pickS pickU fraction nprobes := by
  by_cases hcount : fraction.value < 1 ∨ toFloat nprobes.toNat ≤ nprobes.toNat
  swap
  · exact iff_of_false (not_probesRight_of_lt hfinish hcount) fun h => hcount h.no_wrap
  have hshare : fraction.share nprobes.toNat =
      some (BitVec.ofNat 32 (numSuccessfulProbes fraction nprobes)) :=
    Fraction.share_eq hcount nprobes.isLt
  have hle := numSuccessfulProbes_le hcount
  have hS := toNat_successful hcount
  have hU := toNat_unsuccessful hcount
  -- the successful probes are keys of `data`
  have hin : ∀ {keys : List κ},
      (List.range (numSuccessfulProbes fraction nprobes)).map pickS = keys.map some →
      ∀ key ∈ keys, key ∈ data := by
    intro keys h key hkey
    obtain ⟨i, -, hi⟩ := (mem_of_map_range h).mp hkey
    exact hpickS i key hi
  constructor
  · rintro ⟨probes, u, hresult, -, hu⟩
    obtain ⟨successful, hs, keysS, keysU, hmapS, hmapU, heq⟩ :=
      generateProbes_eq_some_iff.mp hresult
    obtain rfl := Option.some.inj (hshare.symm.trans hs)
    obtain ⟨rfl, rfl⟩ := Prod.mk.inj heq
    have hlenU := length_of_map_range hmapU
    rw [hS] at hmapS
    rw [numUnsuccessful_probes hfinish (hin hmapS), toInt_eq_numUnsuccessful_iff hlenU, hU] at hu
    rw [hU] at hmapU
    refine ⟨hcount, hu.1, ?_, ?_⟩
    · intro i hi
      obtain ⟨key, -, hkey⟩ := exists_mem_of_map_range hmapS hi
      exact ⟨key, hkey⟩
    · intro i hi
      obtain ⟨key, hmem, hkey⟩ := exists_mem_of_map_range hmapU hi
      exact ⟨key, hkey, hu.2 key hmem⟩
  · rintro ⟨-, hlt, hpicksS, hpicksU⟩
    obtain ⟨keysS, hmapS⟩ := exists_keys hpicksS
    obtain ⟨keysU, hmapU⟩ := exists_keys fun i hi => (hpicksU i hi).imp fun _ h => h.1
    refine ⟨_, _, generateProbes_eq_some_iff.mpr ⟨_, hshare, keysS, keysU, by rwa [hS],
      by rwa [hU], rfl⟩, ?_, ?_⟩
    · rw [(hfinish _).length_eq, List.length_append, length_of_map_range hmapS,
        length_of_map_range hmapU]
      omega
    · rw [numUnsuccessful_probes hfinish (hin hmapS), toInt_eq_numUnsuccessful_iff (by
        rw [length_of_map_range hmapU, hU]), hU]
      refine ⟨hlt, ?_⟩
      intro key hkey
      obtain ⟨i, hi, hpick⟩ := (mem_of_map_range hmapU).mp hkey
      obtain ⟨key', hkey', hout⟩ := hpicksU i hi
      rw [hpick, Option.some.injEq] at hkey'
      rwa [hkey']

/-! ### The two functions -/

/-- The counts do not wrap, there are keys to choose from, and none of the `drawn` uninserted
keys is an inserted one too. -/
structure KeysSuffice (data uninserted drawn : List κ) (fraction : Fraction) (nprobes : U32) :
    Prop where
  no_wrap : fraction.value < 1 ∨ toFloat nprobes.toNat ≤ nprobes.toNat
  int_fits : nprobes.toNat - numSuccessfulProbes fraction nprobes < 2 ^ 31
  inserted : 0 < numSuccessfulProbes fraction nprobes → data ≠ []
  uninserted : 0 < nprobes.toNat - numSuccessfulProbes fraction nprobes →
    uninserted ≠ [] ∧ ∀ key ∈ drawn, key ∉ data

/-- The generator that draws the same index every time. -/
def UniformInt.constant {b : U32} (idx : U32) (h : idx ≤ b) : UniformInt b :=
  ⟨fun _ => idx, fun _ => h⟩

variable {data uninserted : List κ} (hdata : data.length < 2 ^ 31)
  (huninserted : uninserted.length < 2 ^ 31) (fraction : Fraction) (nprobes : U32)

include hdata huninserted

theorem random_right_iff :
    (∀ successGen unsuccessGen rng, ProbesRight data nprobes
      (generateProbesWithUnselectedKeysAsFalse data uninserted successGen unsuccessGen rng fraction
        nprobes)) ↔
      KeysSuffice data uninserted uninserted fraction nprobes := by
  have hiff : ∀ (successGen : UniformInt (lastIndex data))
      (unsuccessGen : UniformInt (lastIndex uninserted)) (rng : Storage.Shuffle κ),
      ProbesRight data nprobes (generateProbesWithUnselectedKeysAsFalse data uninserted successGen
        unsuccessGen rng fraction nprobes) ↔
      PicksSuffice data (fun i => keyAt data (successGen.draw i))
        (fun i => keyAt uninserted (unsuccessGen.draw i)) fraction nprobes :=
    fun _ _ rng => generateProbes_right_iff rng.perm (fun _ _ => mem_of_keyAt) fraction nprobes
  have hleast : ∀ b : U32, 0 ≤ b := fun b => BitVec.le_def.mpr (Nat.zero_le _)
  constructor
  · intro h
    have hall : ∀ idx, (hidx : idx ≤ lastIndex uninserted) → PicksSuffice data
        (fun _ => keyAt data 0) (fun _ => keyAt uninserted idx) fraction nprobes := fun idx hidx =>
      (hiff (.constant 0 (hleast _)) (.constant idx hidx) ⟨id, List.Perm.refl⟩).mp (h _ _ _)
    have hzero := hall 0 (hleast _)
    refine ⟨hzero.no_wrap, hzero.int_fits, ?_, ?_⟩
    · intro hpos
      obtain ⟨key, hkey⟩ := hzero.successful 0 hpos
      exact List.ne_nil_of_mem (mem_of_keyAt hkey)
    · intro hpos
      obtain ⟨key, hkey, -⟩ := hzero.unsuccessful 0 hpos
      refine ⟨List.ne_nil_of_mem (mem_of_keyAt hkey), ?_⟩
      intro key hmem
      obtain ⟨idx, hidx, hdraw⟩ := exists_draw huninserted hmem
      obtain ⟨key', hkey', hout⟩ := (hall idx hidx).unsuccessful 0 hpos
      rw [hdraw, Option.some.injEq] at hkey'
      rwa [hkey']
  · intro h successGen unsuccessGen rng
    refine (hiff successGen unsuccessGen rng).mpr ⟨h.no_wrap, h.int_fits, ?_, ?_⟩
    · intro i hi
      exact exists_keyAt hdata (h.inserted (by omega)) (successGen.draw_le i)
    · intro i hi
      obtain ⟨hne, hout⟩ := h.uninserted (by omega)
      obtain ⟨key, hkey⟩ := exists_keyAt huninserted hne (unsuccessGen.draw_le i)
      exact ⟨key, hkey, hout key (mem_of_keyAt hkey)⟩

theorem static_right_iff :
    ProbesRight data nprobes
        (generateProbesWithUnselectedKeysAsFalseStatic data uninserted fraction nprobes) ↔
      KeysSuffice data uninserted
        (uninserted.take (nprobes.toNat - numSuccessfulProbes fraction nprobes)) fraction
        nprobes := by
  have hiff : ProbesRight data nprobes
      (generateProbesWithUnselectedKeysAsFalseStatic data uninserted fraction nprobes) ↔
      PicksSuffice data (keyAtStatic data) (keyAtStatic uninserted) fraction nprobes :=
    generateProbes_right_iff List.Perm.refl (fun _ _ => mem_of_keyAtStatic) fraction nprobes
  rw [hiff]
  constructor
  · intro h
    refine ⟨h.no_wrap, h.int_fits, ?_, ?_⟩
    · intro hpos
      obtain ⟨key, hkey⟩ := h.successful 0 hpos
      exact List.ne_nil_of_mem (mem_of_keyAtStatic hkey)
    · intro hpos
      obtain ⟨key, hkey, -⟩ := h.unsuccessful 0 hpos
      have hne := List.ne_nil_of_mem (mem_of_keyAtStatic hkey)
      refine ⟨hne, ?_⟩
      intro key hmem
      -- the key at position `j` is picked in round `j`
      obtain ⟨j, hj, rfl⟩ := List.mem_take_iff_getElem.mp hmem
      obtain ⟨key', hkey', hout⟩ := h.unsuccessful j (by omega)
      rw [keyAtStatic_eq huninserted hne, Nat.mod_eq_of_lt (by omega),
        List.getElem?_eq_getElem (by omega), Option.some.injEq] at hkey'
      rwa [hkey']
  · intro h
    refine ⟨h.no_wrap, h.int_fits, ?_, ?_⟩
    · intro i hi
      have hne := h.inserted (by omega)
      have hlt : i % data.length < data.length := Nat.mod_lt _ (List.length_pos_of_ne_nil hne)
      exact ⟨_, by rw [keyAtStatic_eq hdata hne, List.getElem?_eq_getElem hlt]⟩
    · intro i hi
      obtain ⟨hne, hout⟩ := h.uninserted (by omega)
      have hlt : i % uninserted.length < uninserted.length :=
        Nat.mod_lt _ (List.length_pos_of_ne_nil hne)
      have hle := Nat.mod_le i uninserted.length
      refine ⟨_, by rw [keyAtStatic_eq huninserted hne, List.getElem?_eq_getElem hlt], ?_⟩
      exact hout _ (List.mem_take_iff_getElem.mpr ⟨i % uninserted.length, by omega, rfl⟩)

omit hdata huninserted

/-- For every split of the lines of a file: the drawn probes are right for every draw exactly when
no uninserted key is an inserted one too, apart from the counts; the static probes exactly when
the uninserted keys that they cycle through are not. -/
theorem workload_right_iff (infile : Str) {data uninserted : List Str}
    (hsplit : Storage.IsSplit (readLines infile) (data, uninserted)) (fraction : Fraction)
    (nprobes : U32) :
    ((∀ successGen unsuccessGen rng, ProbesRight data nprobes
        (generateProbesWithUnselectedKeysAsFalse data uninserted successGen unsuccessGen rng
          fraction nprobes)) ↔
      KeysSuffice data uninserted uninserted fraction nprobes) ∧
    (ProbesRight data nprobes
        (generateProbesWithUnselectedKeysAsFalseStatic data uninserted fraction nprobes) ↔
      KeysSuffice data uninserted
        (uninserted.take (nprobes.toNat - numSuccessfulProbes fraction nprobes)) fraction
        nprobes) := by
  have hlen : (data ++ uninserted).length = (readLines infile).length := hsplit.perm.length_eq
  have hle := length_readLines_le infile
  rw [List.length_append] at hlen
  have hdata : data.length < 2 ^ 31 := by omega
  have huninserted : uninserted.length < 2 ^ 31 := by omega
  exact ⟨random_right_iff hdata huninserted fraction nprobes,
    static_right_iff hdata huninserted fraction nprobes⟩

/-! ### Two lines -/

def lineA : Str := ⟨[97], by decide⟩

def lineB : Str := ⟨[98], by decide⟩

/-- The file `a\na\n`. -/
def repeatedLine : Str := ⟨[97, 10, 97, 10], by decide⟩

/-- The file `a\nb\n`. -/
def distinctLines : Str := ⟨[97, 10, 98, 10], by decide⟩

theorem readLines_repeatedLine : readLines repeatedLine = [lineA, lineA] := rfl

theorem readLines_distinctLines : readLines distinctLines = [lineA, lineB] := rfl

theorem numSuccessfulProbes_half_two : numSuccessfulProbes .half 2 = 1 := by
  have hproduct : Fraction.half.product (2 : U32).toNat = 1 := Fraction.product_half_two
  rw [numSuccessfulProbes, hproduct, Nat.floor_one]

/-- Half of two lines is the first one. -/
theorem isSplit_half (x y : Str) : Storage.IsSplit [x, y] ([x], [y]) := by
  have hshare : Fraction.half.share [x, y].length = some 1 := by
    have hproduct : Fraction.half.product [x, y].length = 1 := Fraction.product_half_two
    rw [Fraction.share, hproduct, if_pos (by norm_num), Nat.floor_one]
    rfl
  refine Or.inl ⟨.half, ?_⟩
  unfold Storage.getSubsetStatic
  rw [hshare]
  rfl

/-- One successful and one unsuccessful probe from two different lines. -/
theorem workload_right_distinctLines :
    Storage.IsSplit (readLines distinctLines) ([lineA], [lineB]) ∧
    ∀ successGen unsuccessGen rng, ProbesRight [lineA] 2
      (generateProbesWithUnselectedKeysAsFalse [lineA] [lineB] successGen unsuccessGen rng .half
        2) := by
  have hsplit : Storage.IsSplit (readLines distinctLines) ([lineA], [lineB]) :=
    readLines_distinctLines ▸ isSplit_half lineA lineB
  refine ⟨hsplit, (workload_right_iff distinctLines hsplit .half 2).1.mpr ⟨Or.inl ?_, ?_, ?_, ?_⟩⟩
  · norm_num [Fraction.half]
  · rw [numSuccessfulProbes_half_two]
    decide
  · simp
  · intro _
    have hnodup : (readLines distinctLines).Nodup := by
      rw [readLines_distinctLines]
      decide
    exact ⟨by simp, hsplit.notMem_of_nodup hnodup⟩

/-- The same line in both halves: the probe counted as unsuccessful hits. -/
theorem workload_wrong_repeatedLine :
    Storage.IsSplit (readLines repeatedLine) ([lineA], [lineA]) ∧
    (¬∀ successGen unsuccessGen rng, ProbesRight [lineA] 2
      (generateProbesWithUnselectedKeysAsFalse [lineA] [lineA] successGen unsuccessGen rng .half
        2)) ∧
    ¬ProbesRight [lineA] 2
      (generateProbesWithUnselectedKeysAsFalseStatic [lineA] [lineA] .half 2) := by
  have hpos : 0 < (2 : U32).toNat - numSuccessfulProbes .half 2 := by
    rw [numSuccessfulProbes_half_two]
    decide
  refine ⟨readLines_repeatedLine ▸ isSplit_half lineA lineA, ?_, ?_⟩
  · rw [random_right_iff (by decide) (by decide)]
    intro h
    exact (h.uninserted hpos).2 lineA (by simp) (by simp)
  · rw [static_right_iff (by decide) (by decide)]
    intro h
    refine (h.uninserted hpos).2 lineA ?_ (by simp)
    rw [numSuccessfulProbes_half_two]
    decide

end EntropyLearnedHashing
