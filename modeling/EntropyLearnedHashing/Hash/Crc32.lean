import EntropyLearnedHashing.Str

/-! `crc32_hash.hh`: the CRC full-key hash. The intrinsic `_mm_crc32_u64` is the
CRC-32C update with the reflected Castagnoli polynomial. -/

namespace EntropyLearnedHashing

open LittleEndian

/-- One bit of the reflected CRC-32C division. -/
def crcBit (c : U32) : U32 := if c.getLsbD 0 then (c >>> 1) ^^^ 0x82f63b78 else c >>> 1

/-- The CRC-32C update by one byte. -/
def crcByte (c : U32) (b : Byte) : U32 := crcBit^[8] (c ^^^ b.setWidth 32)

/-- `_mm_crc32_u64`: the low 32 bits of `crc` updated by the 8 bytes of `v`. -/
def mmCrc32U64 (crc v : U64) : U64 :=
  ((leBytes 8 v.toNat).foldl crcByte (crc.setWidth 32)).setWidth 64

theorem toNat_mmCrc32U64_lt (crc v : U64) : (mmCrc32U64 crc v).toNat < 2 ^ 32 := by
  rw [mmCrc32U64, BitVec.toNat_setWidth_of_le (by decide)]
  exact BitVec.isLt _

/-- `Hash128to64`, called as `hashLen16`. -/
def hashLen16 (x1 x2 : U64) : U64 :=
  let kMul : U64 := 0x9ddfea08eb382d69
  let a := (x1 ^^^ x2) * kMul
  let a := a ^^^ (a >>> 47)
  let b := (x2 ^^^ a) * kMul
  let b := b ^^^ (b >>> 47)
  b * kMul

def shiftMix (val : U64) : U64 := val ^^^ (val >>> 47)

def hashLessThan8 (data : List Byte) (size : ℕ) : Option U64 := do
  let k2 : U64 := 0x9ae16a3b2f90404f
  let k3 : U64 := 0xc949d7c7509e6557
  if 4 ≤ size then
    let a := (← load32 data 0).setWidth 64
    let b := (← load32 data (size - 4)).setWidth 64
    return hashLen16 (BitVec.ofNat 64 size + (a <<< 3)) b
  else if 0 < size then
    let a ← data[0]?
    let b ← data[size >>> 1]?
    let c ← data[size - 1]?
    let y : U32 := a.setWidth 32 + (b.setWidth 32 <<< 8)
    let z : U32 := BitVec.ofNat 32 size + (c.setWidth 32 <<< 2)
    return shiftMix (y.setWidth 64 * k2 ^^^ z.setWidth 64 * k3) * k2
  else return k2

/-- The `do … while (pos + 8 < end)` loop of `crcHash`. -/
def crcHashLoop (data : List Byte) (size pos : ℕ) (res : U64) : Option U64 := do
  let res := mmCrc32U64 res (← load64 data pos)
  if _h : pos + 8 + 8 < size then crcHashLoop data size (pos + 8) res else return res
termination_by size - pos

/-- `crcHash`. -/
def crcHash (data : List Byte) (size : ℕ) : Option U64 := do
  if size = 0 then return 0
  else if size < 8 then hashLessThan8 data size
  else
    let res ← crcHashLoop data size 0 (BitVec.allOnes 64)
    return mmCrc32U64 res (← load64 data (size - 8))

/-- The functor `CRC32Hash_s`. -/
def crc32Hash (x : Str) : Option U64 := crcHash x.bytes x.size

end EntropyLearnedHashing
