import EntropyLearnedHashing.Filters.SelfBlockBloom64
import EntropyLearnedHashing.Library.Libm

/-! The constructors of the filters. All of them choose the number of hashes in double precision.
`selfBloom` computes it. The block filters estimate a false-positive rate for one hash after
another and keep the best: a sum over the number of keys in a block, weighted by the Poisson
distribution, which ends at the first small weight behind the 150th. The bits per element are
divided in `size_t` arithmetic, so they are zero if there are more keys than bits, the
weights are then no numbers, and the sum never ends. -/

namespace EntropyLearnedHashing

open Binary64

/-! ### Estimates -/

section

variable (libm : Libm)

/-- `poisson_pmf`. -/
def poissonPmf (numHashes lambda : Binary64) : Binary64 :=
  libm.exp (numHashes * libm.log lambda - libm.lgamma (numHashes + 1) - lambda)

/-- `fpr_standard`. -/
def fprStandard (numHashes numElementsExpected bitsPerElement : Binary64) : Binary64 :=
  let probabilityBitNotSet :=
    libm.pow (1 - 1 / (numElementsExpected * bitsPerElement)) (numHashes * numElementsExpected)
  libm.pow (1 - probabilityBitNotSet) numHashes

/-- The loop of both estimates from `i` on, for blocks of `width` bits. -/
def estimateLoop (width : ℕ) (meanPerBlock : Binary64) (k : ℕ) :
    ℕ → ℕ → Binary64 → Option Binary64
  | 0, _, _ => none
  | fuel + 1, i, fpr =>
    let threshold := libm.pow 10 (-12)
    let iPMF := poissonPmf libm i meanPerBlock
    let fpr := fpr + fprStandard libm k i (width / i) * iPMF
    if lt iPMF threshold && decide (150 < i) then some fpr
    else estimateLoop width meanPerBlock k fuel ((i + 1) % 2 ^ 32) fpr

/-- An estimate for blocks of `width` bits. -/
def estimateFPR (width : ℕ) (bitsPerElement : Binary64) (k fuel : ℕ) : Option Binary64 :=
  estimateLoop libm width (width / bitsPerElement) k fuel 0 0

/-- `calculateFPRGivenK`. -/
def calculateFPRGivenK (bitsPerElement : Binary64) (k fuel : ℕ) : Option Binary64 :=
  estimateFPR libm 512 bitsPerElement k fuel

/-- `calculateFPRGivenK64`. -/
def calculateFPRGivenK64 (bitsPerElement : Binary64) (k fuel : ℕ) : Option Binary64 :=
  estimateFPR libm 64 bitsPerElement k fuel

end

/-! ### Constructors -/

/-- The loop over the numbers of hashes, with the best estimate and the number for it, which is
unset before. -/
def chooseNumHashes (estimate : ℕ → Option Binary64) (ks : List ℕ) :
    Option (Binary64 × Option ℕ) :=
  ks.foldlM (fun s numHashes => do
    let tempFPR ← estimate numHashes
    return if lt tempFPR s.1 then (tempFPR, some numHashes) else s) (1, none)

/-- `numHashes` behind the assertions of a block filter; `none` when the division by the number of
keys is undefined, an estimate does not end, or an assertion fails or reads an unset field. -/
def blockNumHashes (estimate : Binary64 → ℕ → Option Binary64) (ks : List ℕ) (width : U64)
    (sizeInBits numElementsExpected : U64) : Option ℕ := do
  let sizeInBytes := blockSizeInBytes sizeInBits
  let stored := 8 * sizeInBytes
  if numElementsExpected = 0 then none
  else
    let bitsPerElement : Binary64 := (stored / numElementsExpected).toNat
    let (_, numHashes) ← chooseNumHashes (estimate bitsPerElement) ks
    let numHashes ← numHashes
    if 1 ≤ numHashes ∧ stored / width = sizeInBytes / (width / 8) then some numHashes else none

section

variable {α : Type*} (libm : Libm) (hash : α → U64)

/-- The constructor of `selfBlockBloom512`. -/
def SelfBlockBloom512.construct (sizeInBits numElementsExpected : U64) (fuel : ℕ) :
    Option (SelfBlockBloom512 α) :=
  (blockNumHashes (fun b k => calculateFPRGivenK libm b k fuel) [1, 2, 3, 4] 512 sizeInBits
    numElementsExpected).map fun k => new hash k sizeInBits

/-- The constructor of `selfBlockBloom64`. -/
def SelfBlockBloom64.construct (sizeInBits numElementsExpected : U64) (fuel : ℕ) :
    Option (SelfBlockBloom64 α) :=
  (blockNumHashes (fun b k => calculateFPRGivenK64 libm b k fuel) [1, 2] 64 sizeInBits
    numElementsExpected).map fun k => new hash k sizeInBits

/-- The conversion of a `double` to `unsigned int`; `none` when it is undefined. -/
def toUnsigned : Binary64 → Option ℕ
  | .finite x => if -1 < x ∧ x < 2 ^ 32 then some ⌊x⌋₊ else none
  | _ => none

/-- `std::max`. -/
def stdMax (a b : Binary64) : Binary64 := if lt a b then b else a

/-- `numHashes` behind the assertion of `selfBloom`. -/
def bloomNumHashes (sizeInBytes numElementsExpected : ℕ) : Option ℕ := do
  let bits : Binary64 := sizeInBytes * 8
  let numHashes ← toUnsigned (stdMax 1 (libm.log 2 * bits / numElementsExpected))
  if 1 ≤ numHashes then some numHashes else none

/-- The constructor of `selfBloom`. -/
def SelfBloom.construct (sizeInBits numElementsExpected : ℕ) : Option (SelfBloom α) :=
  (bloomNumHashes libm (new hash 0 sizeInBits).sizeInBytes numElementsExpected).map fun k =>
    new hash k sizeInBits

end

end EntropyLearnedHashing
