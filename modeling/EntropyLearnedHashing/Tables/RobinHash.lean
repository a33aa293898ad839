import EntropyLearnedHashing.Library.BitSmear
import EntropyLearnedHashing.Storage

/-! `tsl/robin_hash.h`: the Robin Hood table behind `tsl::robin_map`, with the stored
32-bit hash, the power-of-two growth policy of factor two and the added
`find_guaranteed`. An empty bucket is `none`; its distance reads as `-1`. A loop of the
source runs with as many rounds as there are buckets and faults when it needs more;
the theorems show that it never does. -/

namespace EntropyLearnedHashing

/-- What a call can run into. -/
inductive Fault where
  /-- An index outside of the array, or the value of an empty bucket. -/
  | outside
  /-- A loop that is not over after a whole round. -/
  | steps
  /-- `distance_type` is a 16-bit integer and does not hold the next distance. -/
  | distance
  /-- `std::length_error`. -/
  | length
  deriving DecidableEq, Repr

/-- A `bucket_entry` that is not empty. -/
structure BucketEntry (K V : Type) where
  dist : ℕ
  hash : U32
  key : K
  value : V
  deriving DecidableEq, Repr

/-- `dist_from_ideal_bucket()`, with `EMPTY_MARKER_DIST_FROM_IDEAL_BUCKET`. -/
def bucketDist {K V : Type} : Option (BucketEntry K V) → ℤ
  | none => -1
  | some e => e.dist

/-- `dist_from_ideal_bucket++`. -/
def incDistance (dist : ℕ) : Except Fault ℕ :=
  if dist < 2 ^ 15 - 1 then .ok (dist + 1) else .error .distance

/-- The fields of `robin_hash`; `m_bucket_count` is the length of `buckets` and `m_mask` is
one less, or zero. -/
structure RobinHash (K V : Type) where
  buckets : List (Option (BucketEntry K V))
  nbElements : ℕ
  loadThreshold : ℕ
  minLoadFactor : ℚ
  maxLoadFactor : ℚ
  growOnNextInsert : Bool
  tryShrinkOnNextInsert : Bool
  deriving DecidableEq

namespace RobinHash

/-! ### Growth policy and load factors -/

/-- `round_up_to_power_of_two`. -/
def roundUpToPowerOfTwo (value : ℕ) : ℕ :=
  if value ≠ 0 ∧ value &&& (value - 1) = 0 then value
  else if value = 0 then 1
  else smear 6 (value - 1) + 1

/-- The bucket count that `power_of_two_growth_policy` leaves in its argument. -/
def growthPolicy (minBucketCount : ℕ) : Except Fault ℕ :=
  if 2 ^ 63 < minBucketCount then .error .length
  else if 0 < minBucketCount then .ok (roundUpToPowerOfTwo minBucketCount)
  else .ok 0

/-- `clamp` of `robin_hash.h`. -/
def clamp (v lo hi : ℚ) : ℚ := min hi (max lo v)

def MINIMUM_MAX_LOAD_FACTOR : ℚ := toFloat (1 / 5)

def MAXIMUM_MAX_LOAD_FACTOR : ℚ := toFloat (19 / 20)

def DEFAULT_MAX_LOAD_FACTOR : ℚ := toFloat (1 / 2)

def MINIMUM_MIN_LOAD_FACTOR : ℚ := 0

def MAXIMUM_MIN_LOAD_FACTOR : ℚ := toFloat (3 / 20)

def DEFAULT_MIN_LOAD_FACTOR : ℚ := 0

variable {K V : Type}

def setMinLoadFactor (t : RobinHash K V) (ml : ℚ) : RobinHash K V :=
  { t with minLoadFactor := clamp ml MINIMUM_MIN_LOAD_FACTOR MAXIMUM_MIN_LOAD_FACTOR }

/-- `max_load_factor(ml)` also updates `m_load_threshold`, in single precision. -/
def setMaxLoadFactor (t : RobinHash K V) (ml : ℚ) : RobinHash K V :=
  let ml := clamp ml MINIMUM_MAX_LOAD_FACTOR MAXIMUM_MAX_LOAD_FACTOR
  { t with
    maxLoadFactor := ml
    loadThreshold := ⌊toFloat (toFloat t.buckets.length * ml)⌋₊ }

/-- `load_factor()`. -/
def loadFactor (t : RobinHash K V) : ℚ :=
  if t.buckets.length = 0 then 0 else toFloat (toFloat t.nbElements / toFloat t.buckets.length)

/-- The constructor; `maxSize` is `m_buckets_data.max_size()`. -/
def new (maxSize bucketCount : ℕ) (minLoadFactor maxLoadFactor : ℚ) :
    Except Fault (RobinHash K V) := do
  let bucketCount ← growthPolicy bucketCount
  if min (2 ^ 63) maxSize < bucketCount then throw .length
  let table : RobinHash K V :=
    { buckets := List.replicate bucketCount none
      nbElements := 0
      loadThreshold := 0
      minLoadFactor := 0
      maxLoadFactor := 0
      growOnNextInsert := false
      tryShrinkOnNextInsert := false }
  return (table.setMinLoadFactor minLoadFactor).setMaxLoadFactor maxLoadFactor

variable (t : RobinHash K V)

def mask : ℕ := t.buckets.length - 1

/-- `next_bucket_count()`. -/
def nextBucketCount : Except Fault ℕ :=
  if 2 ^ 63 / 2 < t.mask + 1 then .error .length else .ok ((t.mask + 1) * 2)

/-! ### Buckets -/

def bucketForHash (hash : U64) : ℕ := hash.toNat &&& t.mask

def nextBucket (index : ℕ) : ℕ := (index + 1) &&& t.mask

/-- `m_buckets[i]`; without buckets it points to a static empty one. -/
def bucketAt (i : ℕ) : Except Fault (Option (BucketEntry K V)) :=
  if t.buckets.isEmpty ∧ i = 0 then .ok none
  else match t.buckets[i]? with
    | some b => .ok b
    | none => .error .outside

/-- An assignment to `m_buckets[i]`. -/
def setBucket (i : ℕ) (b : Option (BucketEntry K V)) : Except Fault (RobinHash K V) :=
  if i < t.buckets.length then .ok { t with buckets := t.buckets.set i b } else .error .outside

/-! ### Lookup -/

/-- How the search loop of `find_impl` and `insert_impl` ends. -/
inductive Search where
  | found (ibucket : ℕ)
  | stopped (ibucket dist : ℕ)
  deriving DecidableEq, Repr

variable [DecidableEq K]

/-- The loop of `find_impl`, and the first loop of `insert_impl`. -/
def searchLoop (key : K) (hash : U64) : (rounds ibucket dist : ℕ) → Except Fault Search
  | 0, _, _ => .error .steps
  | rounds + 1, ibucket, dist => do
    let bucket ← t.bucketAt ibucket
    if (dist : ℤ) ≤ bucketDist bucket then
      match bucket with
      | none => .error .outside
      | some e =>
        if e.hash = hash.setWidth 32 ∧ e.key = key then
          return .found ibucket
        else do
          let dist' ← incDistance dist
          searchLoop key hash rounds (t.nextBucket ibucket) dist'
    else
      return .stopped ibucket dist

/-- `find_impl`; `none` is `cend()`. -/
def findImpl (key : K) (hash : U64) : Except Fault (Option ℕ) := do
  match ← t.searchLoop key hash (t.buckets.length + 1) (t.bucketForHash hash) 0 with
  | .found ibucket => return some ibucket
  | .stopped _ _ => return none

/-- `max_matches` of `find_guaranteed_impl`. -/
def maxMatches : ℕ := 8

/-- The loop of `find_guaranteed_impl` over the buckets with an equal stored hash; `none` when
there are too many. The indices are stored as `int`. -/
def matchesLoop (hash : U64) :
    (rounds ibucket dist : ℕ) → List U32 → Except Fault (Option (List U32))
  | 0, _, _, _ => .error .steps
  | rounds + 1, ibucket, dist, hashMatches => do
    let bucket ← t.bucketAt ibucket
    if (dist : ℤ) ≤ bucketDist bucket then
      match bucket with
      | none => .error .outside
      | some e =>
        if e.hash = hash.setWidth 32 then
          if maxMatches - 1 ≤ hashMatches.length then
            return none
          else do
            let dist' ← incDistance dist
            matchesLoop hash rounds (t.nextBucket ibucket) dist'
              (hashMatches ++ [BitVec.ofNat 32 ibucket])
        else do
          let dist' ← incDistance dist
          matchesLoop hash rounds (t.nextBucket ibucket) dist' hashMatches
    else
      return some hashMatches

/-- `m_buckets + i` for an `int` index, which must not be negative. -/
def intIndex (i : U32) : Except Fault ℕ :=
  if i.toNat < 2 ^ 31 then .ok i.toNat else .error .outside

/-- The last loop of `find_guaranteed_impl`. -/
def compareLoop (key : K) : List U32 → Except Fault (Option ℕ)
  | [] => .ok none
  | i :: rest => do
    let ibucket ← intIndex i
    match ← t.bucketAt ibucket with
    | none => .error .outside
    | some e => if e.key = key then return some ibucket else compareLoop key rest

/-- `find_guaranteed_impl`. -/
def findGuaranteedImpl (key : K) (hash : U64) : Except Fault (Option ℕ) := do
  match ← t.matchesLoop hash (t.buckets.length + 1) (t.bucketForHash hash) 0 [] with
  | none => t.findImpl key hash
  | some [i] => do
    let ibucket ← intIndex i
    return some ibucket
  | some hashMatches => t.compareLoop key hashMatches

/-! ### Insertion -/

def DIST_FROM_IDEAL_BUCKET_LIMIT : ℕ := 4096

/-- The loop of `insert_value_impl`; the carried value is kept with its hash and distance. -/
def insertValueLoop :
    (rounds : ℕ) → RobinHash K V → (ibucket : ℕ) → BucketEntry K V →
      Except Fault (RobinHash K V)
  | 0, _, _, _ => .error .steps
  | rounds + 1, t, ibucket, carry => do
    match ← t.bucketAt ibucket with
    | none => t.setBucket ibucket (some carry)
    | some e =>
      if e.dist < carry.dist then do
        let t := { t with
          growOnNextInsert :=
            t.growOnNextInsert || decide (DIST_FROM_IDEAL_BUCKET_LIMIT ≤ carry.dist) }
        let t ← t.setBucket ibucket (some carry)
        let dist ← incDistance e.dist
        insertValueLoop rounds t (t.nextBucket ibucket) { e with dist := dist }
      else do
        let dist ← incDistance carry.dist
        insertValueLoop rounds t (t.nextBucket ibucket) { carry with dist := dist }

/-- `insert_value_impl`. -/
def insertValueImpl (ibucket : ℕ) (carry : BucketEntry K V) : Except Fault (RobinHash K V) := do
  match ← t.bucketAt ibucket with
  | none => .error .outside
  | some e => do
    let t ← t.setBucket ibucket (some carry)
    let dist ← incDistance e.dist
    insertValueLoop (t.buckets.length + 1) t (t.nextBucket ibucket) { e with dist := dist }

/-- `insert_value_on_rehash`. -/
def insertValueOnRehash :
    (rounds : ℕ) → RobinHash K V → (ibucket : ℕ) → BucketEntry K V →
      Except Fault (RobinHash K V)
  | 0, _, _, _ => .error .steps
  | rounds + 1, t, ibucket, carry => do
    let bucket ← t.bucketAt ibucket
    if bucketDist bucket < carry.dist then
      match bucket with
      | none => t.setBucket ibucket (some carry)
      | some e => do
        let t ← t.setBucket ibucket (some carry)
        let dist ← incDistance e.dist
        insertValueOnRehash rounds t (t.nextBucket ibucket) { e with dist := dist }
    else do
      let dist ← incDistance carry.dist
      insertValueOnRehash rounds t (t.nextBucket ibucket) { carry with dist := dist }

section Rehash

variable (hash : K → U64) (maxSize : ℕ)

/-- The hash of a bucket on a rehash: `USE_STORED_HASH_ON_REHASH` reads it back from 32 bits. -/
def rehashHash (bucketCount : ℕ) (e : BucketEntry K V) : U64 :=
  if bucketCount - 1 ≤ 2 ^ 32 - 1 then e.hash.setWidth 64 else hash e.key

/-- `rehash_impl`. -/
def rehashImpl (count : ℕ) : Except Fault (RobinHash K V) := do
  let newTable ← new maxSize count t.minLoadFactor t.maxLoadFactor
  let newTable ← t.buckets.foldlM (fun newTable bucket =>
    match bucket with
    | none => pure newTable
    | some e =>
      let h := rehashHash hash newTable.buckets.length e
      insertValueOnRehash (newTable.buckets.length + 1) newTable (newTable.bucketForHash h)
        { e with dist := 0, hash := h.setWidth 32 }) newTable
  return { newTable with nbElements := t.nbElements }

/-- `rehash(count)`, with `std::ceil` of a single-precision quotient. -/
def rehash (count : ℕ) : Except Fault (RobinHash K V) :=
  t.rehashImpl hash maxSize
    (max count ⌈toFloat (toFloat t.nbElements / t.maxLoadFactor)⌉₊)

/-- `reserve(count)`. -/
def reserve (count : ℕ) : Except Fault (RobinHash K V) :=
  t.rehash hash maxSize ⌈toFloat (toFloat count / t.maxLoadFactor)⌉₊

/-- `rehash_on_extreme_load`, with its answer. -/
def rehashOnExtremeLoad : Except Fault (RobinHash K V × Bool) := do
  if t.growOnNextInsert ∨ t.loadThreshold ≤ t.nbElements then
    let count ← t.nextBucketCount
    let t ← t.rehashImpl hash maxSize count
    return ({ t with growOnNextInsert := false }, true)
  else if t.tryShrinkOnNextInsert then
    let t := { t with tryShrinkOnNextInsert := false }
    if t.minLoadFactor ≠ 0 ∧ t.loadFactor < t.minLoadFactor then
      let t ← t.reserve hash maxSize (t.nbElements + 1)
      return (t, true)
    else
      return (t, false)
  else
    return (t, false)

/-- The second loop of `insert_impl`, after a rehash. -/
def skipLoop : (rounds ibucket dist : ℕ) → Except Fault (ℕ × ℕ)
  | 0, _, _ => .error .steps
  | rounds + 1, ibucket, dist => do
    let bucket ← t.bucketAt ibucket
    if (dist : ℤ) ≤ bucketDist bucket then do
      let dist' ← incDistance dist
      skipLoop rounds (t.nextBucket ibucket) dist'
    else
      return (ibucket, dist)

/-- The end of `insert_impl`: the value goes to `ibucket` in any case. -/
def insertAt (ibucket dist : ℕ) (key : K) (value : V) : Except Fault (RobinHash K V) := do
  let carry : BucketEntry K V :=
    { dist := dist, hash := (hash key).setWidth 32, key := key, value := value }
  let t ← match ← t.bucketAt ibucket with
    | none => t.setBucket ibucket (some carry)
    | some _ => t.insertValueImpl ibucket carry
  return { t with nbElements := t.nbElements + 1 }

/-- `insert_impl`: the table, the bucket of the key and whether it is new. -/
def insertImpl (key : K) (value : V) : Except Fault (RobinHash K V × ℕ × Bool) := do
  match ← t.searchLoop key (hash key) (t.buckets.length + 1) (t.bucketForHash (hash key)) 0 with
  | .found ibucket => return (t, ibucket, false)
  | .stopped ibucket dist => do
    let (t, rehashed) ← t.rehashOnExtremeLoad hash maxSize
    if rehashed then do
      let (ibucket, dist) ←
        t.skipLoop (t.buckets.length + 1) (t.bucketForHash (hash key)) 0
      let t ← t.insertAt hash ibucket dist key value
      return (t, ibucket, true)
    else do
      let t ← t.insertAt hash ibucket dist key value
      return (t, ibucket, true)

/-- `map[key] = value`: `operator[]` inserts a default value, which is then assigned. -/
def assign [Inhabited V] (key : K) (value : V) : Except Fault (RobinHash K V) := do
  let (t, ibucket, _) ← t.insertImpl hash maxSize key default
  match ← t.bucketAt ibucket with
  | none => .error .outside
  | some e => t.setBucket ibucket (some { e with value := value })

/-- `find(key)` and the value at the iterator. -/
def lookup (key : K) : Except Fault (Option V) := do
  match ← t.findImpl key (hash key) with
  | none => return none
  | some ibucket =>
    match ← t.bucketAt ibucket with
    | none => .error .outside
    | some e => return some e.value

end Rehash

/-! ### Erasure -/

/-- The backward shift of `erase_from_bucket`. -/
def shiftLoop : (rounds : ℕ) → RobinHash K V → (previous ibucket : ℕ) → Except Fault (RobinHash K V)
  | 0, _, _, _ => .error .steps
  | rounds + 1, t, previous, ibucket => do
    match ← t.bucketAt ibucket with
    | none => return t
    | some e =>
      if 0 < e.dist then do
        let t ← t.setBucket previous (some { e with dist := e.dist - 1 })
        let t ← t.setBucket ibucket none
        shiftLoop rounds t ibucket (t.nextBucket ibucket)
      else
        return t

/-- `erase_from_bucket`. -/
def eraseFromBucket (ibucket : ℕ) : Except Fault (RobinHash K V) := do
  let t ← t.setBucket ibucket none
  let t := { t with nbElements := t.nbElements - 1 }
  shiftLoop (t.buckets.length + 1) t ibucket (t.nextBucket ibucket)

/-- `erase(key)`, with the number of erased elements. -/
def erase (hash : K → U64) (key : K) : Except Fault (RobinHash K V × ℕ) := do
  match ← t.findImpl key (hash key) with
  | none => return (t, 0)
  | some ibucket => do
    let t ← t.eraseFromBucket ibucket
    return ({ t with tryShrinkOnNextInsert := true }, 1)

end RobinHash

end EntropyLearnedHashing
