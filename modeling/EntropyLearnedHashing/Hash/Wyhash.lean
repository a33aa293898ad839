import EntropyLearnedHashing.Str
import EntropyLearnedHashing.Library.WordMix
import Mathlib.Data.Fin.VecNotation

/-! `wyhash.hh`: the full-key hash. Every byte of the key is read through a
checked load, so `none` means a read past the end of the key. -/

namespace EntropyLearnedHashing

open LittleEndian WordMix

/-- `_wymix`: both halves of the 128-bit product, folded. -/
def wymix (A B : U64) : U64 := fold64 A B

def wyr8 (key : List Byte) (p : ℕ) : Option U64 := load64 key p

def wyr4 (key : List Byte) (p : ℕ) : Option U64 := (load32 key p).map (·.setWidth 64)

def wyr3 (key : List Byte) (p k : ℕ) : Option U64 := do
  let a ← key[p]?
  let b ← key[p + (k >>> 1)]?
  let c ← key[p + k - 1]?
  return (a.setWidth 64 <<< 16) ||| (b.setWidth 64 <<< 8) ||| c.setWidth 64

/-- The entries of a secret are `secret 0` to `secret 3`. -/
instance neZero_four : NeZero (4 : ℕ) := ⟨by decide⟩

/-- `_wyp`, the default secret. -/
def wyp : Fin 4 → U64 :=
  ![0xa0761d6478bd642f, 0xe7037ed1a0b428db, 0x8ebc6af09c88c6e3, 0x589965cc75374cc3]

/-- The `do … while (i > 48)` loop; returns the pointer, the rest and the merged seed. -/
def wyhashRounds48 (key : List Byte) (secret : Fin 4 → U64) (p i : ℕ) (seed see1 see2 : U64) :
    Option (ℕ × ℕ × U64) := do
  let seed := wymix ((← wyr8 key p) ^^^ secret 1) ((← wyr8 key (p + 8)) ^^^ seed)
  let see1 := wymix ((← wyr8 key (p + 16)) ^^^ secret 2) ((← wyr8 key (p + 24)) ^^^ see1)
  let see2 := wymix ((← wyr8 key (p + 32)) ^^^ secret 3) ((← wyr8 key (p + 40)) ^^^ see2)
  if _h : 48 < i - 48 then wyhashRounds48 key secret (p + 48) (i - 48) seed see1 see2
  else return (p + 48, i - 48, seed ^^^ (see1 ^^^ see2))
termination_by i

/-- The `while (i > 16)` loop; returns the pointer, the rest and the seed. -/
def wyhashRounds16 (key : List Byte) (secret : Fin 4 → U64) (p i : ℕ) (seed : U64) :
    Option (ℕ × ℕ × U64) := do
  if _h : 16 < i then
    let seed := wymix ((← wyr8 key p) ^^^ secret 1) ((← wyr8 key (p + 8)) ^^^ seed)
    wyhashRounds16 key secret (p + 16) (i - 16) seed
  else return (p, i, seed)
termination_by i

/-- The two words `a`, `b` and the seed that enter the final mix. -/
def wyhashTail (key : List Byte) (len : ℕ) (seed : U64) (secret : Fin 4 → U64) :
    Option (U64 × U64 × U64) := do
  if len ≤ 16 then
    if len ≤ 8 then
      if 4 ≤ len then return (← wyr4 key 0, ← wyr4 key (len - 4), seed)
      else if len ≠ 0 then return (← wyr3 key 0 len, 0, seed)
      else return (0, 0, seed)
    else return (← wyr8 key 0, ← wyr8 key (len - 8), seed)
  else
    let (p, i, seed) ← if 48 < len then wyhashRounds48 key secret 0 len seed seed seed
      else some (0, len, seed)
    let (p, i, seed) ← wyhashRounds16 key secret p i seed
    return (← wyr8 key (p + i - 16), ← wyr8 key (p + i - 8), seed)

/-- `wyhash`. -/
def wyhash (key : List Byte) (len : ℕ) (seed : U64) (secret : Fin 4 → U64) : Option U64 := do
  let (a, b, seed) ← wyhashTail key len (seed ^^^ secret 0) secret
  return wymix (secret 1 ^^^ BitVec.ofNat 64 len) (wymix (a ^^^ secret 1) (b ^^^ seed))

/-- `wyhash_default` and the functor `hash_wyhash_s`. -/
def wyhashDefault (str : Str) : Option U64 := wyhash str.bytes str.size 0 wyp

end EntropyLearnedHashing
