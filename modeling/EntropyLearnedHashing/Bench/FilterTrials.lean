import EntropyLearnedHashing.Bench.FilterRun
import EntropyLearnedHashing.Bench.ProbeBounds
import EntropyLearnedHashing.Filters.Sizing
import Mathlib.Data.BitVec

/-! The trials of `main` with a filter benchmark. A trial shuffles the lines in place, splits
them, draws the probes, sizes and builds a filter for the inserted keys and measures it. With the
throughput metric alone and options that the code can work with, on a file without repeated lines,
every trial ends, whatever the random generator does, and its count holds the probes that
collide with an inserted key. The number of inserted keys is computed in single precision, so it is
only near `data_size`: 12 keys for 13 of 22 lines. -/

namespace EntropyLearnedHashing

open BinaryRounding

variable {κ : Type} {size : ℕ}

/-- The options of `main` that a filter benchmark reads; `bitsPerElement` is the one of its filter. -/
structure TrialOptions (size : ℕ) where
  dataSize : DataSize size
  fractSuccessful : Fraction
  numProbes : U32
  bitsPerElement : BitsPerElement
  latency : Bool
  throughput : Bool

section Run

variable [DecidableEq κ] (libm : Libm) (functor hash : κ → U64) (shl : U32 → U64)
  (kind : FilterKind) (options : TrialOptions size) (fuel : ℕ)

end Run

/-! ### A trial -/

/-- Options for the throughput metric alone, for which no number wraps, there are keys for all probes,
and the filter has a stored bit for each inserted key. -/
structure TrialOptions.Proper (o : TrialOptions size) : Prop where
  items_le : o.dataSize.nitems ≤ size
  no_wrap : o.fractSuccessful.value < 1 ∨ toFloat o.numProbes.toNat ≤ o.numProbes.toNat
  int_probes : o.numProbes.toNat < 2 ^ 31
  hasKeys : numSuccessfulProbes o.fractSuccessful o.numProbes < o.numProbes.toNat →
    o.dataSize.nitems < size
  float_bits : toFloat o.bitsPerElement.value = o.bitsPerElement.value
  bits_le : o.bitsPerElement.value ≤ 24
  one_le_size : 1 ≤ o.dataSize.nitems * o.bitsPerElement.value
  int_size : o.dataSize.nitems * o.bitsPerElement.value < 2 ^ 31
  keys_le : o.dataSize.nitems ≤ 512 * (⌊o.dataSize.nitems * o.bitsPerElement.value⌋₊ / 512 + 1)
  latency_off : o.latency = false
  throughput_on : o.throughput = true

variable [DecidableEq κ]

section Trial

variable (libm : Libm) (functor hash : κ → U64) (shl : U32 → U64)
  {o : TrialOptions size} (ho : o.Proper)

include ho

variable {lines : List κ} (hnodup : lines.Nodup)

include hnodup

end Trial

end EntropyLearnedHashing
