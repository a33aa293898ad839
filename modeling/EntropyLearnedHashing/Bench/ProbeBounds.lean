import EntropyLearnedHashing.Bench.Workload

/-! The split of the data set in `main` and the indices of the probe generators. With no
`data_size`, or with that of the whole data set, nothing is left uninserted, and an
unsuccessful probe indexes an empty vector: the bound of the draw wraps to `2 ^ 32 - 1`
and the modulus is zero. The subset is cut by a `float` fraction, which can be rounded to
one, or to a number of items that is zero. -/

namespace EntropyLearnedHashing

open BinaryRounding

variable {κ : Type}

/-! ### The split -/

/-- `(double) data_size / (double) full_data.size()`. -/
def mainFract (dataSize size : ℕ) : ℚ := toDouble (toDouble dataSize / toDouble size)

/-- A `data_size` between 1 and the size of the data set, which `read_lines` bounds. -/
structure DataSize (size : ℕ) where
  value : ℕ
  one_le : 1 ≤ value
  le_size : value ≤ size
  size_le : size ≤ 210000000

namespace DataSize

variable {size : ℕ} (d : DataSize size)

/-- What `main` takes when the option is absent. -/
def whole (size : ℕ) (hpos : 1 ≤ size) (hle : size ≤ 210000000) : DataSize size :=
  ⟨size, hpos, le_rfl, hle⟩

theorem size_pos (d : DataSize size) : (0 : ℚ) < size := by
  exact_mod_cast d.one_le.trans d.le_size

theorem mainFract_eq : mainFract d.value size = toDouble (d.value / size) := by
  have hsize := d.size_le
  have hle := d.le_size
  rw [mainFract, toDouble_natCast_of_lt (by omega), toDouble_natCast_of_lt (by omega)]

theorem mainFract_nonneg : 0 ≤ mainFract d.value size := by
  rw [d.mainFract_eq]
  exact round_nonneg (div_nonneg d.value.cast_nonneg d.size_pos.le)

theorem mainFract_le_one : mainFract d.value size ≤ 1 := by
  have hle : (d.value : ℚ) / size ≤ 1 := by
    rw [div_le_one d.size_pos]
    exact_mod_cast d.le_size
  have hone : toDouble 1 = 1 := by exact_mod_cast toDouble_natCast_of_lt (n := 1) (by norm_num)
  rw [d.mainFract_eq]
  calc toDouble (d.value / size) ≤ toDouble 1 :=
        round_mono (by norm_num) (div_nonneg d.value.cast_nonneg d.size_pos.le) hle
          (by rw [Int.log_one_right]; norm_num)
    _ = 1 := hone

/-- The argument of `get_subset`, where the `double` becomes a `float`. -/
def fraction : Fraction where
  value := toFloat (mainFract d.value size)
  isFloat := round_round (by norm_num) d.mainFract_nonneg
  nonneg := round_nonneg d.mainFract_nonneg
  le_one := by
    have hone : toFloat 1 = 1 := by
      exact_mod_cast Fraction.toFloat_natCast_of_lt (n := 1) (by norm_num)
    calc toFloat (mainFract d.value size) ≤ toFloat 1 :=
          round_mono (by norm_num) d.mainFract_nonneg d.mainFract_le_one
            (by rw [Int.log_one_right]; norm_num)
      _ = 1 := hone

/-- One less than the whole data set is still a fraction below one. -/
theorem mainFract_eq_one_iff : mainFract d.value size = 1 ↔ d.value = size := by
  constructor
  · intro hone
    by_contra hne
    have hlt : d.value + 1 ≤ size := by
      have := d.le_size
      omega
    -- `1 - 2 ^ (-28)` lies between the quotient and one, and it is a `double`
    have hlog : Int.log 2 ((268435455 / 268435456 : ℚ)) = -1 :=
      log_eq (by norm_num) (by norm_num) (by norm_num)
    have hulp : ulp 53 (-1074) (268435455 / 268435456) = 2 ^ (-53 : ℤ) := by
      unfold ulp ulpExp
      rw [hlog]
      norm_num
    have hdouble : toDouble (268435455 / 268435456) = 268435455 / 268435456 := by
      refine round_eq_self (m := 268435455 * 2 ^ 25) ?_
      rw [hulp]
      norm_num
    have hquot : (d.value : ℚ) / size ≤ 268435455 / 268435456 := by
      rw [div_le_div_iff₀ d.size_pos (by norm_num)]
      have hsize := d.size_le
      have hnat : d.value * 268435456 ≤ 268435455 * size := by omega
      exact_mod_cast hnat
    have hround : toDouble (d.value / size) ≤ toDouble (268435455 / 268435456) :=
      round_mono (by norm_num) (div_nonneg d.value.cast_nonneg d.size_pos.le) hquot
        (by rw [hlog]; norm_num)
    rw [← d.mainFract_eq, hone, hdouble] at hround
    norm_num at hround
  · intro heq
    rw [d.mainFract_eq, heq, div_self d.size_pos.ne']
    exact_mod_cast toDouble_natCast_of_lt (n := 1) (by norm_num)

/-- The number of inserted keys. -/
def nitems : ℕ := if d.value = size then size else ⌊d.fraction.product size⌋₊

end DataSize

/-- The split of a trial: the subset and the rest, or all of the data and nothing. -/
def mainSplit (rng : Storage.Shuffle κ) (fullData : List κ) (d : DataSize fullData.length) :
    Option (List κ × List κ) :=
  if mainFract d.value fullData.length ≠ 1 then Storage.getSubset rng fullData d.fraction
  else some (fullData, [])

/-- The share of at most 210,000,000 items fits an `unsigned`. -/
theorem Fraction.share_eq_of_le (fraction : Fraction) {n : ℕ} (hn : n ≤ 210000000) :
    ∃ nitems, fraction.share n = some nitems ∧ nitems.toNat = ⌊fraction.product n⌋₊ := by
  have hpow : toFloat (2 ^ (28 : ℤ)) = 2 ^ (28 : ℤ) := round_zpow (by norm_num) (by norm_num)
  have hlog : Int.log 2 ((2 : ℚ) ^ (28 : ℤ)) = 28 := by
    exact_mod_cast Int.log_zpow (R := ℚ) one_lt_two 28
  have hfloat : toFloat n ≤ 2 ^ (28 : ℤ) := by
    rw [← hpow]
    refine round_mono (by norm_num) n.cast_nonneg ?_ (by rw [hlog]; norm_num)
    have hcast : (n : ℚ) ≤ 210000000 := by exact_mod_cast hn
    exact hcast.trans (by norm_num)
  have hproduct : fraction.product n ≤ 2 ^ (28 : ℤ) := by
    rw [← hpow]
    refine round_mono (by norm_num) (mul_nonneg fraction.nonneg (round_nonneg n.cast_nonneg)) ?_
      (by rw [hlog]; norm_num)
    exact (mul_le_of_le_one_left (round_nonneg n.cast_nonneg) fraction.le_one).trans hfloat
  have hlt : fraction.product n < 2 ^ 32 := hproduct.trans_lt (by norm_num)
  refine ⟨_, if_pos hlt, ?_⟩
  rw [BitVec.toNat_ofNat, Nat.mod_eq_of_lt]
  exact (Nat.floor_lt product_nonneg).mpr (by exact_mod_cast hlt)

theorem mainSplit_eq (rng : Storage.Shuffle κ) (fullData : List κ) (d : DataSize fullData.length) :
    (d.nitems ≤ fullData.length → ∃ data uninserted,
      mainSplit rng fullData d = some (data, uninserted) ∧ data.length = d.nitems ∧
        uninserted.length = fullData.length - d.nitems) ∧
      (¬d.nitems ≤ fullData.length → mainSplit rng fullData d = none) := by
  obtain ⟨nitems, hshare, hnitems⟩ := d.fraction.share_eq_of_le d.size_le
  unfold mainSplit DataSize.nitems
  by_cases hwhole : d.value = fullData.length
  · rw [if_neg (not_not.mpr (d.mainFract_eq_one_iff.mpr hwhole)), if_pos hwhole]
    refine ⟨fun _ => ⟨fullData, [], rfl, rfl, ?_⟩, fun h => absurd le_rfl h⟩
    simp
  · rw [if_pos (mt d.mainFract_eq_one_iff.mp hwhole), if_neg hwhole, ← hnitems]
    simp only [Storage.getSubset, hshare, Option.bind_eq_bind, Option.bind_some,
      Storage.splitLoop_eq]
    constructor
    · intro hle
      refine ⟨_, _, if_pos hle, ?_, ?_⟩
      · rw [List.length_take, (rng.perm fullData).length_eq]
        omega
      · rw [List.length_drop, (rng.perm fullData).length_eq]
    · intro hgt
      exact if_neg hgt

/-! ### The picks -/

theorem generateProbes_isSome_iff {pickS pickU : ℕ → Option κ} {finish : List κ → List κ}
    {fraction : Fraction} {nprobes : U32} :
    (generateProbes (pushProbes pickS) (pushProbes pickU) finish fraction nprobes).isSome ↔
      ∃ successful, fraction.share nprobes.toNat = some successful ∧
        (∀ i < successful.toNat, ∃ key, pickS i = some key) ∧
          ∀ i < (nprobes - successful).toNat, ∃ key, pickU i = some key := by
  rw [Option.isSome_iff_exists]
  constructor
  · rintro ⟨result, hresult⟩
    obtain ⟨successful, hshare, keysS, keysU, hS, hU, -⟩ := generateProbes_eq_some_iff.mp hresult
    refine ⟨successful, hshare, fun i hi => ?_, fun i hi => ?_⟩
    · obtain ⟨key, -, hkey⟩ := exists_mem_of_map_range hS hi
      exact ⟨key, hkey⟩
    · obtain ⟨key, -, hkey⟩ := exists_mem_of_map_range hU hi
      exact ⟨key, hkey⟩
  · rintro ⟨successful, hshare, hS, hU⟩
    obtain ⟨keysS, hkeysS⟩ := exists_keys hS
    obtain ⟨keysU, hkeysU⟩ := exists_keys hU
    exact ⟨_, generateProbes_eq_some_iff.mpr ⟨successful, hshare, keysS, keysU, hkeysS, hkeysU, rfl⟩⟩

/-- There is a key to choose from wherever a probe is asked for. -/
def HasKeys (inserted uninserted : ℕ) (fraction : Fraction) (nprobes : U32) : Prop :=
  ∃ successful, fraction.share nprobes.toNat = some successful ∧
    (0 < successful.toNat → 0 < inserted) ∧ (0 < (nprobes - successful).toNat → 0 < uninserted)

section

variable {data uninserted : List κ} {fraction : Fraction} {nprobes : U32}

/-- Picks that succeed exactly on nonempty vectors. -/
theorem generateProbes_isSome_iff_hasKeys {pickS pickU : ℕ → Option κ}
    (hS : ∀ i, (∃ key, pickS i = some key) ↔ 0 < data.length)
    (hU : ∀ i, (∃ key, pickU i = some key) ↔ 0 < uninserted.length)
    (finish : List κ → List κ) :
    (generateProbes (pushProbes pickS) (pushProbes pickU) finish fraction nprobes).isSome ↔
      HasKeys data.length uninserted.length fraction nprobes := by
  have hall : ∀ n m : ℕ, (∀ i < n, 0 < m) ↔ (0 < n → 0 < m) :=
    fun n m => ⟨fun h hn => h 0 hn, fun h i hi => h (by omega)⟩
  simp only [generateProbes_isSome_iff, hS, hU, hall, HasKeys]

theorem exists_keyAt_iff {keys : List κ} (hlen : keys.length < 2 ^ 31)
    (gen : UniformInt (lastIndex keys)) (i : ℕ) :
    (∃ key, keyAt keys (gen.draw i) = some key) ↔ 0 < keys.length := by
  constructor
  · rintro ⟨key, hkey⟩
    exact List.length_pos_of_mem (mem_of_keyAt hkey)
  · intro hpos
    exact exists_keyAt hlen (List.ne_nil_of_length_pos hpos) (gen.draw_le i)

theorem exists_keyAtStatic_iff {keys : List κ} (hlen : keys.length < 2 ^ 31) (i : ℕ) :
    (∃ key, keyAtStatic keys i = some key) ↔ 0 < keys.length := by
  constructor
  · rintro ⟨key, hkey⟩
    exact List.length_pos_of_mem (mem_of_keyAtStatic hkey)
  · intro hpos
    have hlt : i % keys.length < keys.length := Nat.mod_lt _ hpos
    rw [keyAtStatic_eq hlen (List.ne_nil_of_length_pos hpos), List.getElem?_eq_getElem hlt]
    exact ⟨_, rfl⟩

end

/-! ### Whole trials -/

/-- In every trial that reaches the generators, all their indices are inside the vectors, for
every draw of the random ones and for the static ones. -/
def IndicesInside (fullData : List κ) (d : DataSize fullData.length) (fraction : Fraction)
    (nprobes : U32) : Prop :=
  ∀ rng data uninserted, mainSplit rng fullData d = some (data, uninserted) →
    (∀ successGen unsuccessGen rng', (generateProbesWithUnselectedKeysAsFalse data uninserted
      successGen unsuccessGen rng' fraction nprobes).isSome) ∧
    (generateProbesWithUnselectedKeysAsFalseStatic data uninserted fraction nprobes).isSome

theorem IndicesInside.hasKeys {fullData : List κ} {d : DataSize fullData.length}
    {fraction : Fraction} {nprobes : U32} (hinside : IndicesInside fullData d fraction nprobes)
    (hle : d.nitems ≤ fullData.length) :
    HasKeys d.nitems (fullData.length - d.nitems) fraction nprobes := by
  have hsize := d.size_le
  obtain ⟨data, uninserted, hsplit, hdata, hun⟩ :=
    (mainSplit_eq ⟨id, List.Perm.refl⟩ fullData d).1 hle
  have hstatic := (hinside _ data uninserted hsplit).2
  rw [← hun, ← hdata]
  exact (generateProbes_isSome_iff_hasKeys (exists_keyAtStatic_iff (by omega))
    (exists_keyAtStatic_iff (by omega)) _).mp hstatic

/-- The indices are inside exactly when there are inserted keys for the successful probes and
uninserted ones for the others. -/
theorem indicesInside_iff (fullData : List κ) (d : DataSize fullData.length) (fraction : Fraction)
    (nprobes : U32) : IndicesInside fullData d fraction nprobes ↔
      (d.nitems ≤ fullData.length →
        HasKeys d.nitems (fullData.length - d.nitems) fraction nprobes) := by
  constructor
  · exact IndicesInside.hasKeys
  · intro hkeys rng data uninserted hsplit
    have hsize := d.size_le
    by_cases hle : d.nitems ≤ fullData.length
    · obtain ⟨data', uninserted', hsplit', hdata, hun⟩ := (mainSplit_eq rng fullData d).1 hle
      obtain ⟨rfl, rfl⟩ := Prod.mk.inj (Option.some.inj (hsplit.symm.trans hsplit'))
      have hhas := hkeys hle
      rw [← hun, ← hdata] at hhas
      constructor
      · intro successGen unsuccessGen rng'
        exact (generateProbes_isSome_iff_hasKeys (exists_keyAt_iff (by omega) successGen)
          (exists_keyAt_iff (by omega) unsuccessGen) _).mpr hhas
      · exact (generateProbes_isSome_iff_hasKeys (exists_keyAtStatic_iff (by omega))
          (exists_keyAtStatic_iff (by omega)) _).mpr hhas
    · rw [(mainSplit_eq rng fullData d).2 hle] at hsplit
      cases hsplit

/-- Two lines, no `data_size`, and half of two probes: the other half has no keys. -/
theorem not_indicesInside_whole :
    ¬IndicesInside [lineA, lineB] (.whole 2 (by decide) (by decide)) .half 2 := by
  intro hinside
  have hnitems : (DataSize.whole 2 (by decide) (by decide)).nitems = 2 := if_pos rfl
  obtain ⟨successful, hshare, -, hun⟩ := hinside.hasKeys hnitems.le
  have hhalf : Fraction.half.share (2 : U32).toNat = some 1 := by
    rw [Fraction.share, show Fraction.half.product (2 : U32).toNat = 1 from Fraction.product_half_two,
      if_pos (by norm_num), Nat.floor_one]
    rfl
  obtain rfl := Option.some.inj (hhalf.symm.trans hshare)
  have hpos := hun (by decide)
  rw [hnitems] at hpos
  exact absurd hpos (by decide)

end EntropyLearnedHashing
