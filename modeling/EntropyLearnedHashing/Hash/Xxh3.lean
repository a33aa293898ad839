import EntropyLearnedHashing.Str
import EntropyLearnedHashing.Library.WordMix

/-! `orig_xhash.hh`: the parts of XXH3 that the program calls. `XXH3_64bits`
dispatches on the length of the key; the long-key loop is the scalar one. The
key is read through checked loads, the secret is a constant of 192 bytes. -/

namespace EntropyLearnedHashing

open LittleEndian WordMix

def xxhPrime32_1 : U64 := 0x9E3779B1
def xxhPrime32_2 : U64 := 0x85EBCA77
def xxhPrime32_3 : U64 := 0xC2B2AE3D
def xxhPrime64_1 : U64 := 0x9E3779B185EBCA87
def xxhPrime64_2 : U64 := 0xC2B2AE3D27D4EB4F
def xxhPrime64_3 : U64 := 0x165667B19E3779F9
def xxhPrime64_4 : U64 := 0x85EBCA77C2B2AE63
def xxhPrime64_5 : U64 := 0x27D4EB2F165667C5

/-- `XXH3_kSecret`. -/
def xxh3KSecret : List Byte := [
  0xb8, 0xfe, 0x6c, 0x39, 0x23, 0xa4, 0x4b, 0xbe, 0x7c, 0x01, 0x81, 0x2c, 0xf7, 0x21, 0xad, 0x1c,
  0xde, 0xd4, 0x6d, 0xe9, 0x83, 0x90, 0x97, 0xdb, 0x72, 0x40, 0xa4, 0xa4, 0xb7, 0xb3, 0x67, 0x1f,
  0xcb, 0x79, 0xe6, 0x4e, 0xcc, 0xc0, 0xe5, 0x78, 0x82, 0x5a, 0xd0, 0x7d, 0xcc, 0xff, 0x72, 0x21,
  0xb8, 0x08, 0x46, 0x74, 0xf7, 0x43, 0x24, 0x8e, 0xe0, 0x35, 0x90, 0xe6, 0x81, 0x3a, 0x26, 0x4c,
  0x3c, 0x28, 0x52, 0xbb, 0x91, 0xc3, 0x00, 0xcb, 0x88, 0xd0, 0x65, 0x8b, 0x1b, 0x53, 0x2e, 0xa3,
  0x71, 0x64, 0x48, 0x97, 0xa2, 0x0d, 0xf9, 0x4e, 0x38, 0x19, 0xef, 0x46, 0xa9, 0xde, 0xac, 0xd8,
  0xa8, 0xfa, 0x76, 0x3f, 0xe3, 0x9c, 0x34, 0x3f, 0xf9, 0xdc, 0xbb, 0xc7, 0xc7, 0x0b, 0x4f, 0x1d,
  0x8a, 0x51, 0xe0, 0x4b, 0xcd, 0xb4, 0x59, 0x31, 0xc8, 0x9f, 0x7e, 0xc9, 0xd9, 0x78, 0x73, 0x64,
  0xea, 0xc5, 0xac, 0x83, 0x34, 0xd3, 0xeb, 0xc3, 0xc5, 0x81, 0xa0, 0xff, 0xfa, 0x13, 0x63, 0xeb,
  0x17, 0x0d, 0xdd, 0x51, 0xb7, 0xf0, 0xda, 0x49, 0xd3, 0x16, 0x55, 0x26, 0x29, 0xd4, 0x68, 0x9e,
  0x2b, 0x16, 0xbe, 0x58, 0x7d, 0x47, 0xa1, 0xfc, 0x8f, 0xf8, 0xb8, 0xd1, 0x7a, 0xd0, 0x31, 0xce,
  0x45, 0xcb, 0x3a, 0x8f, 0x95, 0x16, 0x04, 0x28, 0xaf, 0xd7, 0xfb, 0xca, 0xbb, 0x4b, 0x40, 0x7e]

/-- `XXH_readLE64` on the secret. -/
def secret64 (secret : List Byte) (off : ℕ) : U64 := word64 ((secret.drop off).take 8)

/-- `XXH_readLE32` on the secret, widened. -/
def secret32 (secret : List Byte) (off : ℕ) : U64 := (word32 ((secret.drop off).take 4)).setWidth 64

/-- `XXH_swap64`. -/
def xxhSwap64 (x : U64) : U64 := word64 (leBytes 8 x.toNat).reverse

/-- `XXH_swap32`. -/
def xxhSwap32 (x : U32) : U32 := word32 (leBytes 4 x.toNat).reverse

/-- `XXH3_mul128_fold64`. -/
def xxh3Mul128Fold64 (lhs rhs : U64) : U64 := fold64 lhs rhs

/-- `XXH_xorshift64`. -/
def xxhXorshift64 (v64 : U64) (shift : ℕ) : U64 := xorshift v64 shift

/-- `XXH64_avalanche`. -/
def xxh64Avalanche (h64 : U64) : U64 :=
  let h64 := (h64 ^^^ (h64 >>> 33)) * xxhPrime64_2
  let h64 := (h64 ^^^ (h64 >>> 29)) * xxhPrime64_3
  h64 ^^^ (h64 >>> 32)

/-- `XXH3_avalanche`. -/
def xxh3Avalanche (h64 : U64) : U64 :=
  let h64 := xxhXorshift64 h64 37
  let h64 := h64 * 0x165667919E3779F9
  xxhXorshift64 h64 32

/-- `XXH3_rrmxmx`. -/
def xxh3Rrmxmx (h64 : U64) (len : U64) : U64 :=
  let h64 := h64 ^^^ (h64.rotateLeft 49 ^^^ h64.rotateLeft 24)
  let h64 := h64 * 0x9FB21C651E98DF25
  let h64 := h64 ^^^ ((h64 >>> 35) + len)
  let h64 := h64 * 0x9FB21C651E98DF25
  xxhXorshift64 h64 28

/-- The avalanche step is a composition of invertible steps. -/
theorem xxh3Avalanche_injective : Function.Injective xxh3Avalanche := by
  have hmul : (0x165667919E3779F9#64 : U64) * 0x08DA8EE41D6DF849#64 = 1#64 := by decide
  exact (xorshift_injective (by norm_num)).comp
    ((mul_right_injective_of_inverse hmul).comp (xorshift_injective (by norm_num)))

/-! ### Short keys -/

def xxh3Len1to3 (input : List Byte) (len : ℕ) (secret : List Byte) (seed : U64) : Option U64 := do
  let c1 ← input[0]?
  let c2 ← input[len >>> 1]?
  let c3 ← input[len - 1]?
  let combined : U32 := (c1.setWidth 32 <<< 16) ||| (c2.setWidth 32 <<< 24) |||
    c3.setWidth 32 ||| (BitVec.ofNat 32 len <<< 8)
  let bitflip := (secret32 secret 0 ^^^ secret32 secret 4) + seed
  return xxh64Avalanche (combined.setWidth 64 ^^^ bitflip)

def xxh3Len4to8 (input : List Byte) (len : ℕ) (secret : List Byte) (seed : U64) : Option U64 := do
  let seed := seed ^^^ ((xxhSwap32 (seed.setWidth 32)).setWidth 64 <<< 32)
  let input1 ← load32 input 0
  let input2 ← load32 input (len - 4)
  let bitflip := (secret64 secret 8 ^^^ secret64 secret 16) - seed
  let input64 := input2.setWidth 64 + (input1.setWidth 64 <<< 32)
  return xxh3Rrmxmx (input64 ^^^ bitflip) (BitVec.ofNat 64 len)

def xxh3Len9to16 (input : List Byte) (len : ℕ) (secret : List Byte) (seed : U64) : Option U64 := do
  let bitflip1 := (secret64 secret 24 ^^^ secret64 secret 32) + seed
  let bitflip2 := (secret64 secret 40 ^^^ secret64 secret 48) - seed
  let inputLo := (← load64 input 0) ^^^ bitflip1
  let inputHi := (← load64 input (len - 8)) ^^^ bitflip2
  return xxh3Avalanche
    (BitVec.ofNat 64 len + xxhSwap64 inputLo + inputHi + xxh3Mul128Fold64 inputLo inputHi)

def xxh3Len0to16 (input : List Byte) (len : ℕ) (secret : List Byte) (seed : U64) : Option U64 :=
  if 8 < len then xxh3Len9to16 input len secret seed
  else if 4 ≤ len then xxh3Len4to8 input len secret seed
  else if len ≠ 0 then xxh3Len1to3 input len secret seed
  else some (xxh64Avalanche (seed ^^^ (secret64 secret 56 ^^^ secret64 secret 64)))

/-- `XXH3_mix16B` at offset `p` of the key with the secret at offset `s`. -/
def xxh3Mix16B (input : List Byte) (p : ℕ) (secret : List Byte) (s : ℕ) (seed64 : U64) :
    Option U64 := do
  let inputLo ← load64 input p
  let inputHi ← load64 input (p + 8)
  return xxh3Mul128Fold64 (inputLo ^^^ (secret64 secret s + seed64))
    (inputHi ^^^ (secret64 secret (s + 8) - seed64))

/-- Add the mixes of a list of `(key offset, secret offset)` pairs in order. -/
def xxh3MixAll (input secret : List Byte) (seed : U64) (acc : U64) (ps : List (ℕ × ℕ)) :
    Option U64 :=
  ps.foldlM (fun acc p => return acc + (← xxh3Mix16B input p.1 secret p.2 seed)) acc

def xxh3Len17to128 (input : List Byte) (len : ℕ) (secret : List Byte) (seed : U64) :
    Option U64 := do
  let acc := BitVec.ofNat 64 len * xxhPrime64_1
  let acc ← if 96 < len then xxh3MixAll input secret seed acc [(48, 96), (len - 64, 112)]
    else some acc
  let acc ← if 64 < len then xxh3MixAll input secret seed acc [(32, 64), (len - 48, 80)]
    else some acc
  let acc ← if 32 < len then xxh3MixAll input secret seed acc [(16, 32), (len - 32, 48)]
    else some acc
  let acc ← xxh3MixAll input secret seed acc [(0, 0), (len - 16, 16)]
  return xxh3Avalanche acc

def xxh3Len129to240 (input : List Byte) (len : ℕ) (secret : List Byte) (seed : U64) :
    Option U64 := do
  let acc := BitVec.ofNat 64 len * xxhPrime64_1
  let nbRounds := len / 16
  let acc ← xxh3MixAll input secret seed acc ((List.range 8).map fun i => (16 * i, 16 * i))
  let acc ← xxh3MixAll input secret seed (xxh3Avalanche acc)
    ((List.range' 8 (nbRounds - 8)).map fun i => (16 * i, 16 * (i - 8) + 3))
  -- the last 16 bytes, with the secret at `XXH3_SECRET_SIZE_MIN - XXH3_MIDSIZE_LASTOFFSET`
  let acc ← xxh3MixAll input secret seed acc [(len - 16, 136 - 17)]
  return xxh3Avalanche acc

/-! ### Long keys -/

/-- `XXH3_accumulate_512_scalar`: one stripe of 64 bytes into the eight lanes. -/
def xxh3Accumulate512 (input : List Byte) (p : ℕ) (secret : List Byte) (s : ℕ) (acc : List U64) :
    Option (List U64) :=
  (List.range 8).foldlM (fun acc i => do
    let dataVal ← load64 input (p + 8 * i)
    let dataKey := dataVal ^^^ secret64 secret (s + 8 * i)
    let acc := acc.modify (i ^^^ 1) (· + dataVal)
    return acc.modify i (· + (dataKey &&& 0xFFFFFFFF) * (dataKey >>> 32))) acc

/-- `XXH3_scrambleAcc_scalar`. -/
def xxh3ScrambleAcc (secret : List Byte) (s : ℕ) (acc : List U64) : List U64 :=
  acc.mapIdx fun i acc64 => (xxhXorshift64 acc64 47 ^^^ secret64 secret (s + 8 * i)) * xxhPrime32_1

/-- `XXH3_accumulate`: consecutive stripes, the secret advancing by 8 bytes. -/
def xxh3Accumulate (input : List Byte) (p : ℕ) (secret : List Byte) (nbStripes : ℕ)
    (acc : List U64) : Option (List U64) :=
  (List.range nbStripes).foldlM (fun acc n => xxh3Accumulate512 input (p + n * 64) secret (n * 8) acc)
    acc

def xxh3HashLongInternalLoop (input : List Byte) (len : ℕ) (secret : List Byte) (acc : List U64) :
    Option (List U64) := do
  let secretSize := secret.length
  let nbStripesPerBlock := (secretSize - 64) / 8
  let blockLen := 64 * nbStripesPerBlock
  let nbBlocks := (len - 1) / blockLen
  let acc ← (List.range nbBlocks).foldlM (fun acc n => do
    let acc ← xxh3Accumulate input (n * blockLen) secret nbStripesPerBlock acc
    return xxh3ScrambleAcc secret (secretSize - 64) acc) acc
  let nbStripes := ((len - 1) - blockLen * nbBlocks) / 64
  let acc ← xxh3Accumulate input (nbBlocks * blockLen) secret nbStripes acc
  xxh3Accumulate512 input (len - 64) secret (secretSize - 64 - 7) acc

/-- `XXH3_mergeAccs` with the secret at offset `s`. -/
def xxh3MergeAccs (acc : List U64) (secret : List Byte) (s : ℕ) (start : U64) : U64 :=
  xxh3Avalanche ((List.range 4).foldl (fun result64 i => result64 +
    xxh3Mul128Fold64 (acc.getD (2 * i) 0 ^^^ secret64 secret (s + 16 * i))
      (acc.getD (2 * i + 1) 0 ^^^ secret64 secret (s + 16 * i + 8))) start)

def xxh3InitAcc : List U64 := [xxhPrime32_3, xxhPrime64_1, xxhPrime64_2, xxhPrime64_3,
  xxhPrime64_4, xxhPrime32_2, xxhPrime64_5, xxhPrime32_1]

/-- `XXH3_hashLong_64b_internal`. -/
def xxh3HashLong (input : List Byte) (len : ℕ) (secret : List Byte) : Option U64 := do
  let acc ← xxh3HashLongInternalLoop input len secret xxh3InitAcc
  return xxh3MergeAccs acc secret 11 (BitVec.ofNat 64 len * xxhPrime64_1)

/-- `XXH3_64bits`: seed zero and the default secret. -/
def xxh3_64bits (input : List Byte) (len : ℕ) : Option U64 :=
  if len ≤ 16 then xxh3Len0to16 input len xxh3KSecret 0
  else if len ≤ 128 then xxh3Len17to128 input len xxh3KSecret 0
  else if len ≤ 240 then xxh3Len129to240 input len xxh3KSecret 0
  else xxh3HashLong input len xxh3KSecret

/-- The functor `hash_xxh64_s`. -/
def hashXxh64 (str : Str) : Option U64 := xxh3_64bits str.bytes str.size

end EntropyLearnedHashing
