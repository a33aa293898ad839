import Mathlib.Data.Nat.Size
import EntropyLearnedHashing.Str

/-! `absl/container/internal/raw_hash_set.h`: the open addressing table behind
`absl::flat_hash_map`, with groups of 16 control bytes and assertions switched on. The
addresses that the allocator returns and the counter of `RandomSeed` decide where a probe
starts and at which end of a group a key goes; they are parameters. Nothing is ever
erased by this program, so `drop_deletes_without_resize` is only a fault here, and the
theorems show that it is not reached. A loop runs with as many rounds as there are slots
and faults when it needs more. -/

namespace EntropyLearnedHashing

/-- What a call can run into. -/
inductive RawFault where
  /-- A control byte outside of the array, or a slot that holds nothing. -/
  | outside
  /-- A probe that is not over after a whole round. -/
  | steps
  /-- A failed assertion. -/
  | assertion
  /-- `growth_left()` below zero. -/
  | underflow
  /-- `drop_deletes_without_resize`. -/
  | dropDeletes
  /-- The allocator does not give so many slots. -/
  | memory
  deriving DecidableEq, Repr

/-- `ctrl_t`. -/
abbrev Ctrl := BitVec 8

namespace Ctrl

def kEmpty : Ctrl := 0x80

def kDeleted : Ctrl := 0xFE

def kSentinel : Ctrl := 0xFF

def isEmpty (c : Ctrl) : Bool := c == kEmpty

def isFull (c : Ctrl) : Bool := (0 : Ctrl).sle c

def isDeleted (c : Ctrl) : Bool := c == kDeleted

def isEmptyOrDeleted (c : Ctrl) : Bool := c.slt kSentinel

end Ctrl

/-- A byte of `_mm_sign_epi8`. -/
def mmSignEpi8 (a b : Ctrl) : Ctrl := if b.slt 0 then -a else if b = 0 then 0 else a

/-- A byte of `_mm_cmpgt_epi8`. -/
def mmCmpgtEpi8 (a b : Ctrl) : Ctrl := if b.slt a then 0xFF else 0

/-- A byte of `_mm_cmpeq_epi8`. -/
def mmCmpeqEpi8 (a b : Ctrl) : Ctrl := if a = b then 0xFF else 0

/-! ### Groups -/

/-- `Group::kWidth`. -/
def kWidth : ℕ := 16

/-- `_mm_movemask_epi8` as a `BitMask`: the bytes with the highest bit set, from low to high. -/
def movemaskEpi8 (g : List Ctrl) : List ℕ :=
  (List.range g.length).filter fun i => (g.getD i 0).msb

namespace Group

/-- `Match`. -/
def matchHash (g : List Ctrl) (hash : Ctrl) : List ℕ :=
  movemaskEpi8 (g.map fun c => mmCmpeqEpi8 hash c)

def matchEmpty (g : List Ctrl) : List ℕ := movemaskEpi8 (g.map fun c => mmSignEpi8 c c)

def matchEmptyOrDeleted (g : List Ctrl) : List ℕ :=
  movemaskEpi8 (g.map fun c => mmCmpgtEpi8 Ctrl.kSentinel c)

end Group

/-! ### Probing -/

/-- `probe_seq`. -/
structure ProbeSeq where
  mask : ℕ
  offset : ℕ
  index : ℕ
  deriving DecidableEq, Repr

namespace ProbeSeq

def new (hash : U64) (mask : ℕ) : ProbeSeq :=
  { mask := mask, offset := hash.toNat &&& mask, index := 0 }

/-- `offset(i)`. -/
def offsetAt (seq : ProbeSeq) (i : ℕ) : ℕ := (seq.offset + i) &&& seq.mask

def next (seq : ProbeSeq) : ProbeSeq :=
  { mask := seq.mask
    offset := (seq.offset + (seq.index + kWidth)) &&& seq.mask
    index := seq.index + kWidth }

end ProbeSeq

def H1 (hash seed : U64) : U64 := (hash >>> 7) ^^^ seed

def H2 (hash : U64) : Ctrl := (hash &&& 0x7F).setWidth 8

/-! ### Capacities -/

def isValidCapacity (n : ℕ) : Bool := (n + 1) &&& n == 0 && 0 < n

/-- `NormalizeCapacity`; all ones shifted right by the number of leading zeros. -/
def normalizeCapacity (n : ℕ) : ℕ := if n = 0 then 1 else (2 ^ 64 - 1) >>> (64 - Nat.size n)

def capacityToGrowth (capacity : ℕ) : ℕ := capacity - capacity / 8

/-! ### The table -/

/-- What is outside of the table: the address of each allocation, the byte that is not
initialized in it, the largest capacity that is given, and the address of the counter in
`RandomSeed`. -/
structure Memory where
  address : ℕ → U64
  garbage : ℕ → Ctrl
  limit : ℕ
  limit_lt : limit < 2 ^ 63
  counterAddress : U64

/-- The fields of `raw_hash_set`, `HashSeed(ctrl_)`, the number of allocations and the counter
in `RandomSeed`. -/
structure RawHashSet (K V : Type) where
  ctrl : List Ctrl
  slots : List (Option (K × V))
  size : ℕ
  capacity : ℕ
  growthLeft : ℕ
  seed : U64
  allocations : ℕ
  counter : U64
  deriving DecidableEq, Repr

/-- `FindInfo`. -/
structure FindInfo where
  offset : ℕ
  probeLength : ℕ
  deriving DecidableEq, Repr

namespace RawHashSet

variable {K V : Type}

/-- `EmptyGroup()`. -/
def emptyGroup : List Ctrl := Ctrl.kSentinel :: List.replicate 15 Ctrl.kEmpty

/-- The table without slots. -/
def empty (emptyGroupAddress : U64) : RawHashSet K V where
  ctrl := emptyGroup
  slots := []
  size := 0
  capacity := 0
  growthLeft := 0
  seed := emptyGroupAddress >>> 12
  allocations := 0
  counter := 0

variable (t : RawHashSet K V)

def isSmall : Bool := t.capacity < kWidth - 1

/-- `Group{ctrl_ + offset}`. -/
def group (offset : ℕ) : Except RawFault (List Ctrl) :=
  if offset + kWidth ≤ t.ctrl.length then .ok ((t.ctrl.drop offset).take kWidth)
  else .error .outside

/-- `ctrl_[i]`. -/
def ctrlAt (i : ℕ) : Except RawFault Ctrl :=
  match t.ctrl[i]? with
  | some c => .ok c
  | none => .error .outside

/-- The element in a slot. -/
def slotAt (i : ℕ) : Except RawFault (K × V) :=
  match t.slots[i]? with
  | some (some kv) => .ok kv
  | _ => .error .outside

/-- An element is constructed in, or moved to, a slot. -/
def setSlot (i : ℕ) (kv : K × V) : Except RawFault (RawHashSet K V) :=
  if i < t.slots.length then .ok { t with slots := t.slots.set i (some kv) } else .error .outside

def probe (hash : U64) : ProbeSeq := ProbeSeq.new (H1 hash t.seed) t.capacity

def resetGrowthLeft : Except RawFault (RawHashSet K V) :=
  if t.size ≤ capacityToGrowth t.capacity then
    .ok { t with growthLeft := capacityToGrowth t.capacity - t.size }
  else .error .underflow

/-- `set_ctrl`; the index of the clone is computed in `size_t`. -/
def setCtrl (i : ℕ) (h : Ctrl) : Except RawFault (RawHashSet K V) :=
  if i < t.capacity then
    let clone := ((i + (2 ^ 64 - kWidth)) % 2 ^ 64 &&& t.capacity) + 1 + ((kWidth - 1) &&& t.capacity)
    if clone < t.ctrl.length then
      .ok { t with ctrl := (t.ctrl.set i h).set clone h }
    else .error .outside
  else .error .assertion

section Memory

variable (mem : Memory)

/-- `initialize_slots`, with `reset_ctrl`. -/
def initializeSlots : Except RawFault (RawHashSet K V) :=
  if t.capacity = 0 then .error .assertion
  else if mem.limit < t.capacity then .error .memory
  else
    resetGrowthLeft { t with
      ctrl := (List.replicate (t.capacity + kWidth) Ctrl.kEmpty ++
        [mem.garbage t.allocations]).set t.capacity Ctrl.kSentinel
      slots := List.replicate t.capacity none
      seed := mem.address t.allocations >>> 12
      allocations := t.allocations + 1 }

/-- `ShouldInsertBackwards`, with `RandomSeed`. -/
def shouldInsertBackwards (hash : U64) : Bool × RawHashSet K V :=
  let counter := t.counter + 1
  (decide (6 < (H1 hash t.seed ^^^ (counter ^^^ mem.counterAddress)).toNat % 13),
    { t with counter := counter })

/-- The loop of `find_first_non_full`. -/
def findFirstNonFullLoop (hash : U64) :
    (rounds : ℕ) → ProbeSeq → Except RawFault (FindInfo × RawHashSet K V)
  | 0, _ => .error .steps
  | rounds + 1, seq => do
    let g ← t.group seq.offset
    match Group.matchEmptyOrDeleted g with
    | [] =>
      if seq.index < t.capacity then findFirstNonFullLoop hash rounds seq.next
      else .error .assertion
    | i :: rest =>
      if t.isSmall then
        return ({ offset := seq.offsetAt i, probeLength := seq.index }, t)
      else
        let (backwards, t) := t.shouldInsertBackwards mem hash
        if backwards then
          return ({ offset := seq.offsetAt (rest.getLastD i), probeLength := seq.index }, t)
        else
          return ({ offset := seq.offsetAt i, probeLength := seq.index }, t)

def findFirstNonFull (hash : U64) : Except RawFault (FindInfo × RawHashSet K V) :=
  t.findFirstNonFullLoop mem hash (t.capacity + 1) (t.probe hash)

section Resize

variable (hash : K → U64)

/-- The body of the loop in `resize`. -/
def transfer (old : RawHashSet K V) (t : RawHashSet K V) (i : ℕ) :
    Except RawFault (RawHashSet K V) := do
  let c ← old.ctrlAt i
  if c.isFull then do
    let kv ← old.slotAt i
    let (target, t) ← t.findFirstNonFull mem (hash kv.1)
    let t ← t.setCtrl target.offset (H2 (hash kv.1))
    t.setSlot target.offset kv
  else
    return t

def resize (newCapacity : ℕ) : Except RawFault (RawHashSet K V) := do
  if ¬isValidCapacity newCapacity then throw .assertion
  let new ← initializeSlots { t with capacity := newCapacity } mem
  (List.range t.capacity).foldlM (transfer mem hash t) new

def rehashAndGrowIfNecessary : Except RawFault (RawHashSet K V) :=
  if t.capacity = 0 then t.resize mem hash 1
  else if t.size ≤ capacityToGrowth t.capacity / 2 then .error .dropDeletes
  else t.resize mem hash (t.capacity * 2 + 1)

/-- The end of `prepare_insert`, once there is a target. -/
def commitInsert (t : RawHashSet K V) (target : FindInfo) (h : U64) :
    Except RawFault (ℕ × RawHashSet K V) := do
  let c ← t.ctrlAt target.offset
  if c.isEmpty ∧ t.growthLeft = 0 then
    .error .underflow
  else do
    let t ← setCtrl { t with
      size := t.size + 1
      growthLeft := t.growthLeft - (if c.isEmpty then 1 else 0) } target.offset (H2 h)
    return (target.offset, t)

def prepareInsert (h : U64) : Except RawFault (ℕ × RawHashSet K V) := do
  let (target, t) ← t.findFirstNonFull mem h
  let c ← t.ctrlAt target.offset
  if t.growthLeft = 0 ∧ ¬c.isDeleted then do
    let t ← t.rehashAndGrowIfNecessary mem hash
    let (target, t) ← t.findFirstNonFull mem h
    t.commitInsert target h
  else
    t.commitInsert target h

end Resize

end Memory

/-! ### Lookup -/

section Lookup

variable [DecidableEq K]

/-- The loop over the matches of a group. -/
def matchLoop (key : K) (seq : ProbeSeq) : List ℕ → Except RawFault (Option ℕ)
  | [] => .ok none
  | i :: rest => do
    let kv ← t.slotAt (seq.offsetAt i)
    if kv.1 = key then return some (seq.offsetAt i) else matchLoop key seq rest

/-- The loop of `find` and of `find_or_prepare_insert`. -/
def findLoop (key : K) (hash : U64) : (rounds : ℕ) → ProbeSeq → Except RawFault (Option ℕ)
  | 0, _ => .error .steps
  | rounds + 1, seq => do
    let g ← t.group seq.offset
    match ← t.matchLoop key seq (Group.matchHash g (H2 hash)) with
    | some i => return some i
    | none =>
      if Group.matchEmpty g ≠ [] then return none
      else findLoop key hash rounds seq.next

/-- `find(key, hash)`; `none` is `end()`. -/
def find (key : K) (hash : U64) : Except RawFault (Option ℕ) :=
  t.findLoop key hash (t.capacity + 1) (t.probe hash)

variable (mem : Memory) (hash : K → U64)

def findOrPrepareInsert (key : K) : Except RawFault (ℕ × Bool × RawHashSet K V) := do
  match ← t.find key (hash key) with
  | some i => return (i, false, t)
  | none => do
    let (i, t) ← t.prepareInsert mem hash (hash key)
    return (i, true, t)

/-- `emplace_at`, with the assertion that a lookup finds the new element. -/
def emplaceAt (i : ℕ) (kv : K × V) : Except RawFault (RawHashSet K V) := do
  let t ← t.setSlot i kv
  let found ← t.find kv.1 (hash kv.1)
  if found = some i then return t else throw .assertion

/-- `map[key] = value`: `try_emplace` constructs a default value, which is then assigned. -/
def assign [Inhabited V] (key : K) (value : V) : Except RawFault (RawHashSet K V) := do
  let (i, inserted, t) ← t.findOrPrepareInsert mem hash key
  let t ← if inserted then t.emplaceAt hash i (key, default) else pure t
  let kv ← t.slotAt i
  t.setSlot i (kv.1, value)

/-- `find(key)` and the value at the iterator. -/
def lookup (key : K) : Except RawFault (Option V) := do
  match ← t.find key (hash key) with
  | none => return none
  | some i => do
    let kv ← t.slotAt i
    return some kv.2

end Lookup

/-- The constructor; without slots `ctrl_` is `EmptyGroup()`. -/
def new (mem : Memory) (emptyGroupAddress : U64) (bucketCount : ℕ) :
    Except RawFault (RawHashSet K V) :=
  let t := empty emptyGroupAddress
  if bucketCount = 0 then .ok t
  else do
    let t ← resetGrowthLeft { t with capacity := normalizeCapacity bucketCount }
    t.initializeSlots mem

end RawHashSet

end EntropyLearnedHashing
