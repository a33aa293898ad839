import EntropyLearnedHashing.Library.LittleEndian
import Mathlib.Data.List.Basic
import Mathlib.Data.List.TakeWhile

/-! Numbers in decimal text. Natural numbers and integers are printed without padding; the
reader skips blanks, takes a sign and the longest run of digits, and ignores the rest.
Reading undoes printing. Text is a list of ASCII bytes. -/

namespace EntropyLearnedHashing.Decimal

open LittleEndian

/-- ASCII text. -/
def chars (cs : List Char) : List Byte := cs.map fun c => BitVec.ofNat 8 c.toNat

/-- `isspace`. -/
def isSpace (b : Byte) : Bool := b == 32 || (9 ≤ b.toNat && b.toNat ≤ 13)

/-- `isdigit`. -/
def isDigit (b : Byte) : Bool := 48 ≤ b.toNat && b.toNat ≤ 57

/-! ### Natural numbers -/

/-- The digits of a number, most significant first. -/
def decimal (n : ℕ) : List Byte := chars (Nat.toDigits 10 n)

def digitsValue (ds : List Byte) : ℕ := ds.foldl (fun v d => 10 * v + (d.toNat - 48)) 0

theorem decimal_ne_nil (n : ℕ) : decimal n ≠ [] := by
  simp [decimal, chars, Nat.toDigits_ne_nil]

theorem toNat_digit {n : ℕ} {c : Char} (hc : c ∈ Nat.toDigits 10 n) :
    48 ≤ c.toNat ∧ c.toNat ≤ 57 ∧ (BitVec.ofNat 8 c.toNat : Byte).toNat = c.toNat := by
  have hdigit := Nat.isDigit_of_mem_toDigits (by decide) (by decide) hc
  rw [Char.isDigit, Bool.and_eq_true, decide_eq_true_eq, decide_eq_true_eq] at hdigit
  have hlow : 48 ≤ c.toNat := hdigit.1
  have hhigh : c.toNat ≤ 57 := hdigit.2
  refine ⟨hlow, hhigh, ?_⟩
  rw [BitVec.toNat_ofNat, Nat.mod_eq_of_lt (by omega)]

theorem isDigit_of_mem_decimal {n : ℕ} {d : Byte} (hd : d ∈ decimal n) : isDigit d = true := by
  obtain ⟨c, hc, rfl⟩ := List.mem_map.mp hd
  obtain ⟨hlow, hhigh, htoNat⟩ := toNat_digit hc
  simp [isDigit, htoNat, hlow, hhigh]

/-- A number is read back from its digits. -/
theorem digitsValue_decimal (n : ℕ) : digitsValue (decimal n) = n := by
  have hfold : digitsValue (decimal n) = Nat.ofDigitChars 10 (Nat.toDigits 10 n) 0 := by
    rw [Nat.ofDigitChars_eq_foldl, digitsValue, decimal, chars, List.foldl_map]
    refine List.foldl_ext _ _ _ fun v c hc => ?_
    rw [(toNat_digit hc).2.2]
    rfl
  rw [hfold, Nat.ofDigitChars_ten_toDigits]

theorem takeWhile_isDigit_decimal (n : ℕ) : (decimal n).takeWhile isDigit = decimal n :=
  List.takeWhile_eq_self_iff.mpr fun _ => isDigit_of_mem_decimal

/-! ### Integers -/

def printInt : ℤ → List Byte
  | .ofNat n => decimal n
  | .negSucc n => 45 :: decimal (n + 1)

/-- The leading sign and what follows it. -/
def takeSign : List Byte → Bool × List Byte
  | [] => (false, [])
  | b :: bs => if b = 45 then (true, bs) else if b = 43 then (false, bs) else (false, b :: bs)

/-- Blanks, a sign, digits; `none` without a digit. -/
def parseInt (bs : List Byte) : Option ℤ :=
  let (negative, rest) := takeSign (bs.dropWhile isSpace)
  let ds := rest.takeWhile isDigit
  if ds = [] then none else some (if negative then -(digitsValue ds) else digitsValue ds)

theorem not_isSpace_of_isDigit {d : Byte} (h : isDigit d = true) : isSpace d = false := by
  have hd : 48 ≤ d.toNat ∧ d.toNat ≤ 57 := by simpa [isDigit] using h
  have hne : d ≠ 32 := by
    rintro rfl
    exact absurd hd.1 (by decide)
  simp only [isSpace, Bool.or_eq_false_iff, Bool.and_eq_false_iff, beq_eq_false_iff_ne,
    decide_eq_false_iff_not]
  exact ⟨hne, .inr (by omega)⟩

/-- Digits are not preceded by blanks or a sign. -/
theorem takeSign_decimal (n : ℕ) :
    takeSign ((decimal n).dropWhile isSpace) = (false, decimal n) := by
  cases hds : decimal n with
  | nil => exact absurd hds (decimal_ne_nil n)
  | cons d ds =>
    have hd : isDigit d = true := isDigit_of_mem_decimal (hds ▸ List.mem_cons_self)
    have hminus : d ≠ 45 := by
      rintro rfl
      exact absurd hd (by decide)
    have hplus : d ≠ 43 := by
      rintro rfl
      exact absurd hd (by decide)
    rw [List.dropWhile_cons_of_neg (by simp [not_isSpace_of_isDigit hd]), takeSign, if_neg hminus,
      if_neg hplus]

/-- Reading undoes printing. -/
theorem parseInt_printInt (z : ℤ) : parseInt (printInt z) = some z := by
  cases z with
  | ofNat n =>
    simp only [printInt, parseInt, takeSign_decimal, takeWhile_isDigit_decimal, digitsValue_decimal,
      decimal_ne_nil, if_false]
    rfl
  | negSucc n =>
    have hsign : takeSign ((45 :: decimal (n + 1)).dropWhile isSpace) = (true, decimal (n + 1)) := by
      rw [List.dropWhile_cons_of_neg (by decide), takeSign, if_pos rfl]
    simp only [printInt, parseInt, hsign, takeWhile_isDigit_decimal, digitsValue_decimal,
      decimal_ne_nil, if_false, if_true]
    rfl

/-- The text of an integer is made of digits and a minus. -/
theorem isDigit_or_minus_of_mem_printInt {z : ℤ} {b : Byte} (hb : b ∈ printInt z) :
    isDigit b = true ∨ b = 45 := by
  cases z with
  | ofNat n => exact .inl (isDigit_of_mem_decimal hb)
  | negSucc n =>
    rcases List.mem_cons.mp hb with rfl | hb
    · exact .inr rfl
    · exact .inl (isDigit_of_mem_decimal hb)

end EntropyLearnedHashing.Decimal
