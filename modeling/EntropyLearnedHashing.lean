import EntropyLearnedHashing.Library.ArgMax
import EntropyLearnedHashing.Library.BinaryRounding
import EntropyLearnedHashing.Library.Binary64
import EntropyLearnedHashing.Library.BitSmear
import EntropyLearnedHashing.Library.CellFilter
import EntropyLearnedHashing.Library.CircularArray
import EntropyLearnedHashing.Library.CountedLoop
import EntropyLearnedHashing.Library.Decimal
import EntropyLearnedHashing.Library.FoldWindow
import EntropyLearnedHashing.Library.Libm
import EntropyLearnedHashing.Library.LittleEndian
import EntropyLearnedHashing.Library.MapRefinement
import EntropyLearnedHashing.Library.MaskArray
import EntropyLearnedHashing.Library.MixedTop
import EntropyLearnedHashing.Library.Outcome
import EntropyLearnedHashing.Library.PoissonWeight
import EntropyLearnedHashing.Library.RangeReduction
import EntropyLearnedHashing.Library.ShiftRegister
import EntropyLearnedHashing.Library.TableProgram
import EntropyLearnedHashing.Library.Tally
import EntropyLearnedHashing.Library.Transition
import EntropyLearnedHashing.Library.TriangularProbe
import EntropyLearnedHashing.Library.WordMix
import EntropyLearnedHashing.Str
import EntropyLearnedHashing.Storage
import EntropyLearnedHashing.LocationFile
import EntropyLearnedHashing.Hash.Wyhash
import EntropyLearnedHashing.Hash.Crc32
import EntropyLearnedHashing.Hash.Xxh3
import EntropyLearnedHashing.Hash.Customs
import EntropyLearnedHashing.Hash.Locations
import EntropyLearnedHashing.Hash.Words
import EntropyLearnedHashing.Hash.PartialKey
import EntropyLearnedHashing.Hash.Dependence
import EntropyLearnedHashing.Hash.ErrorDetection
import EntropyLearnedHashing.Hash.ZeroWord
import EntropyLearnedHashing.Hash.ByteCoverage
import EntropyLearnedHashing.Hash.CrcCoverage
import EntropyLearnedHashing.Hash.FullKey
import EntropyLearnedHashing.Hash.Xxh3Long
import EntropyLearnedHashing.Hash.FixedVariable
import EntropyLearnedHashing.Hash.FullKeyRange
import EntropyLearnedHashing.Hash.UpperHalf
import EntropyLearnedHashing.Hash.SubsetHash
import EntropyLearnedHashing.Filters.SelfBloom
import EntropyLearnedHashing.Filters.SelfBlockBloom512
import EntropyLearnedHashing.Filters.SelfBlockBloom64
import EntropyLearnedHashing.Filters.Capacity
import EntropyLearnedHashing.Filters.Reduction
import EntropyLearnedHashing.Filters.Estimate
import EntropyLearnedHashing.Filters.EstimateBounds
import EntropyLearnedHashing.Filters.Construct
import EntropyLearnedHashing.Filters.Sizing
import EntropyLearnedHashing.Entropy.Estimator
import EntropyLearnedHashing.Entropy.Collisions
import EntropyLearnedHashing.Entropy.Selector
import EntropyLearnedHashing.Entropy.Greedy
import EntropyLearnedHashing.Entropy.LocationData
import EntropyLearnedHashing.Entropy.CollisionStatistic
import EntropyLearnedHashing.Entropy.PartialString
import EntropyLearnedHashing.Entropy.StopEntropy
import EntropyLearnedHashing.Entropy.SubsetCollisions
import EntropyLearnedHashing.Entropy.LocationRun
import EntropyLearnedHashing.Tables.RobinHash
import EntropyLearnedHashing.Tables.RobinOrder
import EntropyLearnedHashing.Tables.RobinLoops
import EntropyLearnedHashing.Tables.RobinLoad
import EntropyLearnedHashing.Tables.RobinRehash
import EntropyLearnedHashing.Tables.RobinCalls
import EntropyLearnedHashing.Tables.RobinRun
import EntropyLearnedHashing.Tables.RobinGuaranteed
import EntropyLearnedHashing.Tables.RawHashSet
import EntropyLearnedHashing.Tables.RawLayout
import EntropyLearnedHashing.Tables.RawProbe
import EntropyLearnedHashing.Tables.RawResize
import EntropyLearnedHashing.Tables.RawRun
import EntropyLearnedHashing.Tables.DenseHash
import EntropyLearnedHashing.Tables.DenseProbe
import EntropyLearnedHashing.Tables.DenseResize
import EntropyLearnedHashing.Tables.DenseRun
import EntropyLearnedHashing.Bench.Dispatch
import EntropyLearnedHashing.Bench.Adequacy
import EntropyLearnedHashing.Bench.DoubleHashing
import EntropyLearnedHashing.Bench.Wiring
import EntropyLearnedHashing.Bench.NeededEntropy
import EntropyLearnedHashing.Bench.Timings
import EntropyLearnedHashing.Bench.FilterStats
import EntropyLearnedHashing.Bench.FilterLatency
import EntropyLearnedHashing.Bench.FilterRun
import EntropyLearnedHashing.Bench.Partition
import EntropyLearnedHashing.Bench.Workload
import EntropyLearnedHashing.Bench.ProbeBounds
import EntropyLearnedHashing.Bench.FilterTrials
import EntropyLearnedHashing.Bench.Threads
import EntropyLearnedHashing.Bench.PhaseOrder
import EntropyLearnedHashing.Bench.TableBench
