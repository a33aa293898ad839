import EntropyLearnedHashing.Storage

/-! `google::dense_hash_map` of `sparsehash/internal/densehashtable.h`, as `bench_google_table`
uses it: a table of pairs with quadratic probing. There is no bit that tells a used bucket from
an unused one. An unused bucket holds the empty key, an erased one the deleted key, and
both keys have to be chosen by the caller. -/

namespace EntropyLearnedHashing

/-- How a call can end without a result: a failed `assert`, a `std::length_error`, a `malloc` that
returns `NULL`, buckets behind the bytes that were allocated, or an index outside of the table. -/
inductive DenseFault where
  | assertion
  | length
  | memory
  | overrun
  | outside
  deriving DecidableEq, Repr

/-- `libc_allocator_with_realloc`: `malloc` gives at most `limit` bytes. -/
structure Allocator where
  sizeofValue : ℕ
  sizeof_pos : 0 < sizeofValue
  limit : ℕ
  limit_lt : limit < 2 ^ 64

namespace Allocator

variable (alloc : Allocator)

/-- `max_size`. -/
def maxSize : ℕ := (2 ^ 64 - 1) / alloc.sizeofValue

/-- `allocate(n)`, and the bytes of `n` values written; the product wraps around. -/
def allocate (n : ℕ) : Except DenseFault Unit :=
  if alloc.limit < n * alloc.sizeofValue % 2 ^ 64 then .error .memory
  else if n * alloc.sizeofValue % 2 ^ 64 < n * alloc.sizeofValue then .error .overrun
  else .ok ()

end Allocator

/-- A table after `set_empty_key`. The deleted key is there if `use_deleted` is on. -/
structure DenseHash (K V : Type) where
  emptyval : K × V
  delkey : Option K
  table : List (K × V)
  numDeleted : ℕ
  numElements : ℕ
  enlargeFactor : ℚ
  shrinkFactor : ℚ
  enlargeThreshold : ℕ
  shrinkThreshold : ℕ
  considerShrink : Bool
  deriving DecidableEq, Repr

namespace DenseHash

def HT_MIN_BUCKETS : ℕ := 4

def HT_DEFAULT_STARTING_BUCKETS : ℕ := 32

/-- `HT_OCCUPANCY_PCT / 100.0f`. -/
def occupancy : ℚ := 1 / 2

/-- `HT_EMPTY_PCT / 100.0f`, with the percentage `(int) (0.4 * 50)`. -/
def emptiness : ℚ := toFloat (1 / 5)

/-- `static_cast<size_type>(x * factor)`, for `enlarge_size` and `shrink_size`. -/
def scaled (factor : ℚ) (x : ℕ) : ℕ := ⌊toFloat (toFloat x * factor)⌋₊

/-- The loop of `min_buckets`; `size_type` has 64 bits, so that a doubling can wrap around. -/
def minBucketsLoop (enlarge : ℚ) (numElts minBucketsWanted : ℕ) : (rounds sz : ℕ) →
    Except DenseFault ℕ
  | 0, _ => .error .length
  | rounds + 1, sz =>
    if sz < minBucketsWanted ∨ scaled enlarge sz ≤ numElts then
      if sz * 2 % 2 ^ 64 < sz then .error .length
      else minBucketsLoop enlarge numElts minBucketsWanted rounds (sz * 2 % 2 ^ 64)
    else .ok sz

/-- `min_buckets`. Four can be doubled 61 times. -/
def minBuckets (enlarge : ℚ) (numElts minBucketsWanted : ℕ) : Except DenseFault ℕ :=
  minBucketsLoop enlarge numElts minBucketsWanted 63 HT_MIN_BUCKETS

variable {K V : Type}

section Members

variable (t : DenseHash K V)

def bucketCount : ℕ := t.table.length

def size : ℕ := t.numElements - t.numDeleted

/-- `reset_thresholds`. -/
def resetThresholds : DenseHash K V :=
  { t with
    enlargeThreshold := scaled t.enlargeFactor t.bucketCount
    shrinkThreshold := scaled t.shrinkFactor t.bucketCount
    considerShrink := false }

/-- `max_load_factor(grow)`, which is `set_resizing_parameters(shrink, grow)` with the old
`shrink`. -/
def setMaxLoadFactor (grow : ℚ) : Except DenseFault (DenseHash K V) :=
  if t.shrinkFactor < 0 ∨ 1 < grow then .error .assertion
  else
    let shrink := if toFloat (grow / 2) < t.shrinkFactor then toFloat (grow / 2) else t.shrinkFactor
    .ok { t with shrinkFactor := shrink, enlargeFactor := grow }.resetThresholds

/-- `table[bucknum]`. -/
def bucketAt (bucknum : ℕ) : Except DenseFault (K × V) :=
  match t.table[bucknum]? with
  | some kv => .ok kv
  | none => .error .outside

/-- `set_value(&table[bucknum], kv)`. -/
def setBucket (bucknum : ℕ) (kv : K × V) : Except DenseFault (DenseHash K V) :=
  if bucknum < t.table.length then .ok { t with table := t.table.set bucknum kv }
  else .error .outside

variable [DecidableEq K]

def testEmpty (kv : K × V) : Bool := t.emptyval.1 = kv.1

/-- `test_deleted`, with its assertion. -/
def testDeleted (kv : K × V) : Except DenseFault Bool :=
  if t.delkey = none ∧ t.numDeleted ≠ 0 then .error .assertion
  else .ok (0 < t.numDeleted ∧ t.delkey = some kv.1)

/-- The assertions that a key is neither the empty nor the deleted one. -/
def checkKey (key : K) : Except DenseFault Unit :=
  if key = t.emptyval.1 then .error .assertion
  else if t.delkey = some key then .error .assertion
  else .ok ()

end Members

/-! ### Probing -/

/-- What `find_position` returns: one of its two places is `ILLEGAL_BUCKET`. -/
inductive Position where
  | there (bucknum : ℕ)
  | insert (bucknum : ℕ)
  deriving DecidableEq, Repr

section Probing

variable [DecidableEq K] (t : DenseHash K V)

/-- `(bucknum + JUMP_(key, num_probes)) & bucket_count_minus_one`. -/
def jump (bucknum numProbes : ℕ) : ℕ := (bucknum + numProbes) &&& (t.bucketCount - 1)

/-- The loop of `find_position`. The rounds that are left are those that the assertion
`num_probes < bucket_count()` admits. -/
def findPositionLoop (key : K) : (rounds bucknum numProbes : ℕ) → (insertPos : Option ℕ) →
    Except DenseFault Position
  | 0, _, _, _ => .error .assertion
  | rounds + 1, bucknum, numProbes, insertPos => do
    let kv ← t.bucketAt bucknum
    if t.testEmpty kv then return .insert (insertPos.getD bucknum)
    else
      let deleted ← t.testDeleted kv
      if deleted then
        findPositionLoop key rounds (t.jump bucknum (numProbes + 1)) (numProbes + 1)
          (some (insertPos.getD bucknum))
      else if key = kv.1 then return .there bucknum
      else findPositionLoop key rounds (t.jump bucknum (numProbes + 1)) (numProbes + 1) insertPos

/-- `find_position`. -/
def findPosition (hash : K → U64) (key : K) : Except DenseFault Position :=
  t.findPositionLoop key t.bucketCount ((hash key).toNat &&& (t.bucketCount - 1)) 0 none

/-- The search of `copy_from` for an empty bucket. -/
def emptyLoop : (rounds bucknum numProbes : ℕ) → Except DenseFault ℕ
  | 0, _, _ => .error .assertion
  | rounds + 1, bucknum, numProbes => do
    let kv ← t.bucketAt bucknum
    if t.testEmpty kv then return bucknum
    else emptyLoop rounds (t.jump bucknum (numProbes + 1)) (numProbes + 1)

end Probing

/-! ### Copies of other sizes -/

section Copies

variable (alloc : Allocator) [DecidableEq K] (hash : K → U64) (t : DenseHash K V)

/-- `clear_to_size` of a table without buckets. -/
def cleared (newNumBuckets : ℕ) : Except DenseFault (DenseHash K V) := do
  alloc.allocate newNumBuckets
  return { t with
    table := List.replicate newNumBuckets t.emptyval
    numElements := 0
    numDeleted := 0 }.resetThresholds

/-- One round of `copy_from`: the elements of `old` are passed to `t`. -/
def copyBucket (old t : DenseHash K V) (kv : K × V) : Except DenseFault (DenseHash K V) := do
  if old.testEmpty kv then return t
  let deleted ← old.testDeleted kv
  if deleted then return t
  let bucknum ← t.emptyLoop t.bucketCount ((hash kv.1).toNat &&& (t.bucketCount - 1)) 0
  let t ← t.setBucket bucknum kv
  return { t with numElements := t.numElements + 1 }

/-- `dense_hashtable tmp(*this, min_buckets_wanted); swap(tmp);`. -/
def copied (minBucketsWanted : ℕ) : Except DenseFault (DenseHash K V) := do
  let n ← minBuckets t.enlargeFactor t.size minBucketsWanted
  let new ← t.cleared alloc n
  let new ← t.table.foldlM (copyBucket hash t) new
  return new.resetThresholds

/-- The loop of `maybe_shrink`. -/
def shrinkLoop (shrinkFactor : ℚ) (numRemain : ℕ) : (rounds sz : ℕ) → ℕ
  | 0, sz => sz
  | rounds + 1, sz =>
    if HT_DEFAULT_STARTING_BUCKETS < sz ∧ toFloat numRemain < toFloat (toFloat sz * shrinkFactor) then
      shrinkLoop shrinkFactor numRemain rounds (sz / 2)
    else sz

/-- `maybe_shrink`. Halving 2^63 buckets ends before 64 rounds. -/
def maybeShrink : Except DenseFault (Bool × DenseHash K V) := do
  if t.numElements < t.numDeleted then throw .assertion
  if t.bucketCount &&& (t.bucketCount - 1) ≠ 0 then throw .assertion
  if t.bucketCount < HT_MIN_BUCKETS then throw .assertion
  let numRemain := t.numElements - t.numDeleted
  if 0 < t.shrinkThreshold ∧ numRemain < t.shrinkThreshold ∧
      HT_DEFAULT_STARTING_BUCKETS < t.bucketCount then
    let t ← t.copied alloc hash (shrinkLoop t.shrinkFactor numRemain 64 (t.bucketCount / 2))
    return (true, { t with considerShrink := false })
  else return (false, { t with considerShrink := false })

/-- The number of buckets that `resize_delta` asks for when the table is too small. -/
def resizeTo (delta : ℕ) : Except DenseFault ℕ := do
  let resizeTo ← minBuckets t.enlargeFactor (t.numElements - t.numDeleted + delta) t.bucketCount
  let neededSize ← minBuckets t.enlargeFactor (t.numElements - t.numDeleted / 4 + delta) 0
  if resizeTo < neededSize ∧ resizeTo < (2 ^ 64 - 1) / 2 ∧
      scaled t.shrinkFactor (resizeTo * 2) ≤ t.numElements - t.numDeleted + delta then
    return resizeTo * 2
  else return resizeTo

/-- `resize_delta` behind the shrinking. -/
def enlarge (delta : ℕ) : Except DenseFault (Bool × DenseHash K V) := do
  if 2 ^ 64 - 1 - delta ≤ t.numElements then throw .length
  if HT_MIN_BUCKETS ≤ t.bucketCount ∧ t.numElements + delta ≤ t.enlargeThreshold then
    return (false, t)
  let neededSize ← minBuckets t.enlargeFactor (t.numElements + delta) 0
  if neededSize ≤ t.bucketCount then return (false, t)
  let n ← t.resizeTo delta
  let t ← t.copied alloc hash n
  return (true, t)

/-- `resize_delta`: whether the table was resized, and the table. -/
def resizeDelta (delta : ℕ) : Except DenseFault (Bool × DenseHash K V) := do
  let (shrunk, t) ← (if t.considerShrink then t.maybeShrink alloc hash else .ok (false, t) :
    Except DenseFault (Bool × DenseHash K V))
  let (enlarged, t) ← t.enlarge alloc hash delta
  return (shrunk || enlarged, t)

/-! ### Calls -/

/-- `dense_hash_map(expected_max_items_in_table)` and `set_empty_key(emptyKey)`. -/
def new [Inhabited V] (emptyKey : K) (expectedMaxItemsInTable : ℕ) :
    Except DenseFault (DenseHash K V) := do
  let n ← (if expectedMaxItemsInTable = 0 then .ok HT_DEFAULT_STARTING_BUCKETS
    else minBuckets occupancy expectedMaxItemsInTable 0 : Except DenseFault ℕ)
  let t : DenseHash K V := {
    emptyval := (emptyKey, default), delkey := none, table := [], numDeleted := 0, numElements := 0
    enlargeFactor := occupancy, shrinkFactor := emptiness, enlargeThreshold := 0
    shrinkThreshold := 0, considerShrink := false }
  t.cleared alloc n

/-- `set_deleted_key` of a table from which nothing was erased. -/
def setDeletedKey (key : K) : Except DenseFault (DenseHash K V) :=
  if key = t.emptyval.1 then .error .assertion else .ok { t with delkey := some key }

/-- `insert_at`: the place, and the table. -/
def insertAt (obj : K × V) (pos : ℕ) : Except DenseFault (DenseHash K V) := do
  if alloc.maxSize ≤ t.size then throw .length
  let kv ← t.bucketAt pos
  let deleted ← t.testDeleted kv
  if deleted then
    if t.delkey = none ∨ t.numDeleted = 0 then throw .assertion
    setBucket { t with numDeleted := t.numDeleted - 1 } pos obj
  else setBucket { t with numElements := t.numElements + 1 } pos obj

/-- `insert_noresize`: the place of the key, and the table. -/
def insertNoresize (obj : K × V) : Except DenseFault (ℕ × DenseHash K V) := do
  t.checkKey obj.1
  match ← t.findPosition hash obj.1 with
  | .there p => return (p, t)
  | .insert p =>
    let t ← t.insertAt alloc obj p
    return (p, t)

/-- `find_or_insert`: the place of the key, and the table. -/
def findOrInsert [Inhabited V] (key : K) : Except DenseFault (ℕ × DenseHash K V) := do
  t.checkKey key
  match ← t.findPosition hash key with
  | .there p => return (p, t)
  | .insert p =>
    let (resized, t) ← t.resizeDelta alloc hash 1
    -- the place is out of date after a resize
    if resized then t.insertNoresize alloc hash (key, default)
    else
      let t ← t.insertAt alloc (key, default) p
      return (p, t)

/-- `map[key] = value`. -/
def assign [Inhabited V] (key : K) (value : V) : Except DenseFault (DenseHash K V) := do
  let (p, t) ← t.findOrInsert alloc hash key
  let kv ← t.bucketAt p
  t.setBucket p (kv.1, value)

omit alloc in
/-- `find`: the place of the key. -/
def find (key : K) : Except DenseFault (Option ℕ) := do
  if t.size = 0 then return none
  match ← t.findPosition hash key with
  | .there p => return some p
  | .insert _ => return none

/-- `it->second` of `find(key)`. -/
def lookup (key : K) : Except DenseFault (Option V) := do
  match ← t.find hash key with
  | some p =>
    let kv ← t.bucketAt p
    return some kv.2
  | none => return none

/-- `erase(key)`, with the number of erased elements. -/
def erase [Inhabited V] (key : K) : Except DenseFault (DenseHash K V × ℕ) := do
  t.checkKey key
  match ← t.find hash key with
  | none => return (t, 0)
  | some p =>
    let kv ← t.bucketAt p
    let deleted ← t.testDeleted kv
    if deleted then throw .assertion
    match t.delkey with
    | none => throw .assertion
    | some delkey =>
      let t ← t.setBucket p (delkey, default)
      return ({ t with numDeleted := t.numDeleted + 1, considerShrink := true }, 1)

end Copies

end DenseHash

end EntropyLearnedHashing
