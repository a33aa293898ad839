import EntropyLearnedHashing.Hash.Wyhash
import EntropyLearnedHashing.Hash.Crc32
import EntropyLearnedHashing.Hash.Xxh3

/-! `wyhash_customs.hh`, `crc_wyhash_customs.hh` and `xxhash_customs.hh`: the
partial-key hashes over one to four 8-byte locations. A fixed variant reads its
words without looking at the length. A variable variant first compares the
length with the cached endpoint of the last word and falls back to the full-key
hash of its family. `locations` is an array of byte offsets; `none` is a read
past the end of the key or of that array. -/

namespace EntropyLearnedHashing

open LittleEndian

/-! ### `wyhash_customs.hh` -/

def wyhash1locFixed (key : List Byte) (len : ℕ) (locations : List U32) (seed : U64)
    (secret : Fin 4 → U64) : Option U64 := do
  let a ← wyr4 key (← locations[0]?).toNat
  let b ← wyr4 key ((← locations[0]?).toNat + 4)
  return wymix (secret 1 ^^^ BitVec.ofNat 64 len) (wymix (a ^^^ secret 1) (b ^^^ seed))

/-- The fixed hash is called with the default seed and secret. -/
def wyhash1loc (key : List Byte) (len : ℕ) (locations : List U32) (seed : U64)
    (secret : Fin 4 → U64) : Option U64 := do
  if (← locations[1]?).toNat ≤ len then wyhash1locFixed key len locations 0 wyp
  else wyhash key len seed secret

def wyhash2locFixed (key : List Byte) (len : ℕ) (locations : List U32) (seed : U64)
    (secret : Fin 4 → U64) : Option U64 := do
  let seed := seed ^^^ secret 0
  let a ← wyr8 key (← locations[0]?).toNat
  let b ← wyr8 key (← locations[1]?).toNat
  return wymix (secret 1 ^^^ BitVec.ofNat 64 len) (wymix (a ^^^ secret 1) (b ^^^ seed))

def wyhash2loc (key : List Byte) (len : ℕ) (locations : List U32) (seed : U64)
    (secret : Fin 4 → U64) : Option U64 := do
  if (← locations[2]?).toNat ≤ len then wyhash2locFixed key len locations 0 wyp
  else wyhash key len seed secret

def wyhash3locFixed (key : List Byte) (len : ℕ) (locations : List U32) (seed : U64)
    (secret : Fin 4 → U64) : Option U64 := do
  let seed := seed ^^^ secret 0
  let a ← wyr8 key (← locations[0]?).toNat
  let b ← wyr8 key (← locations[1]?).toNat
  let c ← wyr8 key (← locations[2]?).toNat
  return wymix (wymix (secret 1 ^^^ BitVec.ofNat 64 len) c) (wymix (a ^^^ secret 1) (b ^^^ seed))

def wyhash3loc (key : List Byte) (len : ℕ) (locations : List U32) (seed : U64)
    (secret : Fin 4 → U64) : Option U64 := do
  if (← locations[3]?).toNat ≤ len then wyhash3locFixed key len locations 0 wyp
  else wyhash key len seed secret

/-- The first two words are multiplied without a secret. -/
def wyhash4locFixed (key : List Byte) (len : ℕ) (locations : List U32) (seed : U64)
    (secret : Fin 4 → U64) : Option U64 := do
  let see1 := seed ^^^ secret 0
  let seed := wymix (← wyr8 key (← locations[0]?).toNat) (← wyr8 key (← locations[1]?).toNat)
  let see1 := wymix ((← wyr8 key (← locations[2]?).toNat) ^^^ secret 2)
    ((← wyr8 key (← locations[3]?).toNat) ^^^ see1)
  return wymix (secret 1 ^^^ BitVec.ofNat 64 len) (seed ^^^ see1)

def wyhash4loc (key : List Byte) (len : ℕ) (locations : List U32) (seed : U64)
    (secret : Fin 4 → U64) : Option U64 := do
  if (← locations[4]?).toNat ≤ len then wyhash4locFixed key len locations 0 wyp
  else wyhash key len seed secret

/-! ### `crc_wyhash_customs.hh` -/

def crc32Wyhash1locFixed (key : List Byte) (len : ℕ) (locations : List U32) (seed : U64) :
    Option U64 := do
  let res := seed + BitVec.ofNat 64 len
  return mmCrc32U64 res (← wyr8 key (← locations[0]?).toNat)

/-- The one-location variant alone hands its seed on. -/
def crc32Wyhash1loc (key : List Byte) (len : ℕ) (locations : List U32) (seed : U64) :
    Option U64 := do
  if (← locations[1]?).toNat ≤ len then crc32Wyhash1locFixed key len locations seed
  else crcHash key len

def crc32Wyhash2locFixed (key : List Byte) (len : ℕ) (locations : List U32) (seed : U64) :
    Option U64 := do
  let res := seed + BitVec.ofNat 64 len
  let res := mmCrc32U64 res (← wyr8 key (← locations[0]?).toNat)
  return mmCrc32U64 res (← wyr8 key (← locations[1]?).toNat)

def crc32Wyhash2loc (key : List Byte) (len : ℕ) (locations : List U32) (_seed : U64) :
    Option U64 := do
  if (← locations[2]?).toNat ≤ len then crc32Wyhash2locFixed key len locations 0
  else crcHash key len

def crc32Wyhash3locFixed (key : List Byte) (len : ℕ) (locations : List U32) (seed : U64) :
    Option U64 := do
  let term1 := mmCrc32U64 (seed + BitVec.ofNat 64 len) (← wyr8 key (← locations[0]?).toNat)
  return mmCrc32U64 (← wyr8 key (← locations[1]?).toNat)
    ((← wyr8 key (← locations[2]?).toNat) + term1)

def crc32Wyhash3loc (key : List Byte) (len : ℕ) (locations : List U32) (_seed : U64) :
    Option U64 := do
  if (← locations[3]?).toNat ≤ len then crc32Wyhash3locFixed key len locations 0
  else crcHash key len

def crc32Wyhash4locFixed (key : List Byte) (len : ℕ) (locations : List U32) (seed : U64) :
    Option U64 := do
  let res := mmCrc32U64 (← wyr8 key (← locations[1]?).toNat) (← wyr8 key (← locations[0]?).toNat)
  let res1 := mmCrc32U64 (seed + BitVec.ofNat 64 len) (← wyr8 key (← locations[2]?).toNat)
  return mmCrc32U64 (← wyr8 key (← locations[3]?).toNat) (res ^^^ res1)

def crc32Wyhash4loc (key : List Byte) (len : ℕ) (locations : List U32) (_seed : U64) :
    Option U64 := do
  if (← locations[4]?).toNat ≤ len then crc32Wyhash4locFixed key len locations 0
  else crcHash key len

/-! ### `xxhash_customs.hh` -/

def xxh3_1locFixed (input : List Byte) (len : ℕ) (locations : List U32) (secret : List Byte) :
    Option U64 := do
  let bitflip := secret64 secret 8 ^^^ secret64 secret 16
  let input64 ← load64 input (← locations[0]?).toNat
  return xxh3Avalanche ((input64 ^^^ bitflip) + BitVec.ofNat 64 len)

/-- The XXH3 variants compare strictly. -/
def xxh3_1loc (input : List Byte) (len : ℕ) (locations : List U32) : Option U64 := do
  if (← locations[1]?).toNat < len then xxh3_1locFixed input len locations xxh3KSecret
  else xxh3_64bits input len

def xxh3_2locFixed (input : List Byte) (len : ℕ) (locations : List U32) (secret : List Byte) :
    Option U64 := do
  let bitflip1 := secret64 secret 24 ^^^ secret64 secret 32
  let bitflip2 := secret64 secret 40 ^^^ secret64 secret 48
  let inputLo := (← load64 input (← locations[0]?).toNat) ^^^ bitflip1
  let inputHi := (← load64 input (← locations[1]?).toNat) ^^^ bitflip2
  return xxh3Avalanche
    (BitVec.ofNat 64 len + xxhSwap64 inputLo + inputHi + xxh3Mul128Fold64 inputLo inputHi)

def xxh3_2loc (input : List Byte) (len : ℕ) (locations : List U32) : Option U64 := do
  if (← locations[2]?).toNat < len then xxh3_2locFixed input len locations xxh3KSecret
  else xxh3_64bits input len

/-- Two 16-byte reads, at the first and at the second location. -/
def xxh3_3locFixed (input : List Byte) (len : ℕ) (locations : List U32) (secret : List Byte) :
    Option U64 := do
  let acc := BitVec.ofNat 64 len * xxhPrime64_1
  let acc := acc + (← xxh3Mix16B input (← locations[0]?).toNat secret 0 0)
  return acc + (← xxh3Mix16B input (← locations[1]?).toNat secret 16 0)

def xxh3_3loc (input : List Byte) (len : ℕ) (locations : List U32) : Option U64 := do
  if (← locations[3]?).toNat < len then xxh3_3locFixed input len locations xxh3KSecret
  else xxh3_64bits input len

/-- Two 16-byte reads, at the first and at the third location. -/
def xxh3_4locFixed (input : List Byte) (len : ℕ) (locations : List U32) (secret : List Byte) :
    Option U64 := do
  let acc := BitVec.ofNat 64 len * xxhPrime64_1
  let acc := acc + (← xxh3Mix16B input (← locations[0]?).toNat secret 0 0)
  return acc + (← xxh3Mix16B input (← locations[2]?).toNat secret 16 0)

def xxh3_4loc (input : List Byte) (len : ℕ) (locations : List U32) : Option U64 := do
  if (← locations[4]?).toNat < len then xxh3_4locFixed input len locations xxh3KSecret
  else xxh3_64bits input len

/-! ### The functors -/

/-- `(unsigned int)8 * loc`. -/
def byteOffset (loc : ℤ) : U32 := 8 * BitVec.ofInt 32 loc

/-- `(unsigned int)(loc * 8) + 8`, the cached endpoint. The `int` product overflows from location
`2 ^ 28` on, which C++ leaves undefined; here it wraps. -/
def endpoint (loc : ℤ) : U32 := BitVec.ofInt 32 loc * 8 + 8

/-- The array of an `n`-location functor of fixed length, from the `int*` it is built with. -/
def fixedLocations (n : ℕ) (locs : List ℤ) : Option (List U32) :=
  if n ≤ locs.length then some ((locs.take n).map byteOffset) else none

/-- The array of an `n`-location functor of variable length: the endpoint comes last. -/
def cachedLocations (n : ℕ) (locs : List ℤ) : Option (List U32) := do
  return (← fixedLocations n locs) ++ [endpoint (← locs[n - 1]?)]

/-- What a functor object computes. -/
abbrev HashFunctor := Str → Option U64

def hashWyhash1locFixedS (locs : List ℤ) : Option HashFunctor :=
  (fixedLocations 1 locs).map fun locations str => wyhash1locFixed str.bytes str.size locations 0 wyp

def hashWyhash1locS (locs : List ℤ) : Option HashFunctor :=
  (cachedLocations 1 locs).map fun locations str => wyhash1loc str.bytes str.size locations 0 wyp

def hashWyhash2locFixedS (locs : List ℤ) : Option HashFunctor :=
  (fixedLocations 2 locs).map fun locations str => wyhash2locFixed str.bytes str.size locations 0 wyp

def hashWyhash2locS (locs : List ℤ) : Option HashFunctor :=
  (cachedLocations 2 locs).map fun locations str => wyhash2loc str.bytes str.size locations 0 wyp

def hashWyhash3locFixedS (locs : List ℤ) : Option HashFunctor :=
  (fixedLocations 3 locs).map fun locations str => wyhash3locFixed str.bytes str.size locations 0 wyp

def hashWyhash3locS (locs : List ℤ) : Option HashFunctor :=
  (cachedLocations 3 locs).map fun locations str => wyhash3loc str.bytes str.size locations 0 wyp

def hashWyhash4locFixedS (locs : List ℤ) : Option HashFunctor :=
  (fixedLocations 4 locs).map fun locations str => wyhash4locFixed str.bytes str.size locations 0 wyp

def hashWyhash4locS (locs : List ℤ) : Option HashFunctor :=
  (cachedLocations 4 locs).map fun locations str => wyhash4loc str.bytes str.size locations 0 wyp

def hashCrc32wyhash1locFixedS (locs : List ℤ) : Option HashFunctor :=
  (fixedLocations 1 locs).map fun locations str => crc32Wyhash1locFixed str.bytes str.size locations 0

def hashCrc32wyhash1locS (locs : List ℤ) : Option HashFunctor :=
  (cachedLocations 1 locs).map fun locations str => crc32Wyhash1loc str.bytes str.size locations 0

def hashCrc32wyhash2locFixedS (locs : List ℤ) : Option HashFunctor :=
  (fixedLocations 2 locs).map fun locations str => crc32Wyhash2locFixed str.bytes str.size locations 0

def hashCrc32wyhash2locS (locs : List ℤ) : Option HashFunctor :=
  (cachedLocations 2 locs).map fun locations str => crc32Wyhash2loc str.bytes str.size locations 0

def hashCrc32wyhash3locFixedS (locs : List ℤ) : Option HashFunctor :=
  (fixedLocations 3 locs).map fun locations str => crc32Wyhash3locFixed str.bytes str.size locations 0

def hashCrc32wyhash3locS (locs : List ℤ) : Option HashFunctor :=
  (cachedLocations 3 locs).map fun locations str => crc32Wyhash3loc str.bytes str.size locations 0

def hashCrc32wyhash4locFixedS (locs : List ℤ) : Option HashFunctor :=
  (fixedLocations 4 locs).map fun locations str => crc32Wyhash4locFixed str.bytes str.size locations 0

def hashCrc32wyhash4locS (locs : List ℤ) : Option HashFunctor :=
  (cachedLocations 4 locs).map fun locations str => crc32Wyhash4loc str.bytes str.size locations 0

def hashXxh3_1locFixedS (locs : List ℤ) : Option HashFunctor :=
  (fixedLocations 1 locs).map fun locations str => xxh3_1locFixed str.bytes str.size locations xxh3KSecret

def hashXxh3_1locS (locs : List ℤ) : Option HashFunctor :=
  (cachedLocations 1 locs).map fun locations str => xxh3_1loc str.bytes str.size locations

def hashXxh3_2locFixedS (locs : List ℤ) : Option HashFunctor :=
  (fixedLocations 2 locs).map fun locations str => xxh3_2locFixed str.bytes str.size locations xxh3KSecret

def hashXxh3_2locS (locs : List ℤ) : Option HashFunctor :=
  (cachedLocations 2 locs).map fun locations str => xxh3_2loc str.bytes str.size locations

def hashXxh3_3locFixedS (locs : List ℤ) : Option HashFunctor :=
  (fixedLocations 3 locs).map fun locations str => xxh3_3locFixed str.bytes str.size locations xxh3KSecret

def hashXxh3_3locS (locs : List ℤ) : Option HashFunctor :=
  (cachedLocations 3 locs).map fun locations str => xxh3_3loc str.bytes str.size locations

def hashXxh3_4locFixedS (locs : List ℤ) : Option HashFunctor :=
  (fixedLocations 4 locs).map fun locations str => xxh3_4locFixed str.bytes str.size locations xxh3KSecret

def hashXxh3_4locS (locs : List ℤ) : Option HashFunctor :=
  (cachedLocations 4 locs).map fun locations str => xxh3_4loc str.bytes str.size locations

/-- The families of 8-byte partial-key hashes. -/
inductive Family where
  | xxh3 | wyhash | crc32wyhash
  deriving DecidableEq

namespace Family

/-- The `n`-location functor of variable length; there is none beyond four locations. -/
def nlocS : Family → ℕ → List ℤ → Option HashFunctor
  | .xxh3, 1, locs => hashXxh3_1locS locs
  | .xxh3, 2, locs => hashXxh3_2locS locs
  | .xxh3, 3, locs => hashXxh3_3locS locs
  | .xxh3, 4, locs => hashXxh3_4locS locs
  | .wyhash, 1, locs => hashWyhash1locS locs
  | .wyhash, 2, locs => hashWyhash2locS locs
  | .wyhash, 3, locs => hashWyhash3locS locs
  | .wyhash, 4, locs => hashWyhash4locS locs
  | .crc32wyhash, 1, locs => hashCrc32wyhash1locS locs
  | .crc32wyhash, 2, locs => hashCrc32wyhash2locS locs
  | .crc32wyhash, 3, locs => hashCrc32wyhash3locS locs
  | .crc32wyhash, 4, locs => hashCrc32wyhash4locS locs
  | _, _, _ => none

/-- The `n`-location functor of fixed length. -/
def nlocFixedS : Family → ℕ → List ℤ → Option HashFunctor
  | .xxh3, 1, locs => hashXxh3_1locFixedS locs
  | .xxh3, 2, locs => hashXxh3_2locFixedS locs
  | .xxh3, 3, locs => hashXxh3_3locFixedS locs
  | .xxh3, 4, locs => hashXxh3_4locFixedS locs
  | .wyhash, 1, locs => hashWyhash1locFixedS locs
  | .wyhash, 2, locs => hashWyhash2locFixedS locs
  | .wyhash, 3, locs => hashWyhash3locFixedS locs
  | .wyhash, 4, locs => hashWyhash4locFixedS locs
  | .crc32wyhash, 1, locs => hashCrc32wyhash1locFixedS locs
  | .crc32wyhash, 2, locs => hashCrc32wyhash2locFixedS locs
  | .crc32wyhash, 3, locs => hashCrc32wyhash3locFixedS locs
  | .crc32wyhash, 4, locs => hashCrc32wyhash4locFixedS locs
  | _, _, _ => none

/-- The full-key hash a variable functor falls back to. -/
def fullKey : Family → HashFunctor
  | .xxh3 => fun str => xxh3_64bits str.bytes str.size
  | .wyhash => fun str => EntropyLearnedHashing.wyhash str.bytes str.size 0 wyp
  | .crc32wyhash => fun str => crcHash str.bytes str.size

/-- The guard of the partial-key path against the cached endpoint. -/
def Guard (fam : Family) (e : U32) (len : ℕ) : Prop :=
  match fam with
  | .xxh3 => e.toNat < len
  | _ => e.toNat ≤ len

instance (fam : Family) (e : U32) (len : ℕ) : Decidable (fam.Guard e len) :=
  match fam with
  | .xxh3 => inferInstanceAs (Decidable (_ < _))
  | .wyhash => inferInstanceAs (Decidable (_ ≤ _))
  | .crc32wyhash => inferInstanceAs (Decidable (_ ≤ _))

end Family

end EntropyLearnedHashing
