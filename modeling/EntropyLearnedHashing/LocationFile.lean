import EntropyLearnedHashing.Library.Decimal
import EntropyLearnedHashing.Storage
import Mathlib.Data.List.Forall2

/-! The location files of `storage.cpp`. `write_entropies` prints the flag and then a line
with a location and an entropy for each choice; `read_entropies` splits the lines at
their commas. Printing a `double` and reading its text without leading blanks are
parameters. The reader goes through `read_lines`, which stops at 210,000,000 lines, the
line of the flag included. -/

namespace EntropyLearnedHashing

open LittleEndian Decimal

/-! ### Lines -/

/-- The lines that `read_lines` keeps. -/
def keptLines (file : List Byte) : List (List Byte) := (getLines file).take 210000000

theorem getLines_append {line : List Byte} (h : 10 ∉ line) (rest : List Byte) :
    getLines (line ++ 10 :: rest) = line :: getLines rest := by
  induction line with
  | nil => simp [getLines]
  | cons c line ih =>
    have hc : c ≠ 10 := fun heq => h (heq ▸ List.mem_cons_self)
    rw [List.cons_append, getLines, if_neg hc, ih fun hmem => h (List.mem_cons_of_mem c hmem)]

/-- Lines that were written one after another are read back. -/
theorem getLines_flatMap {lines : List (List Byte)} (h : ∀ line ∈ lines, 10 ∉ line) :
    getLines (lines.flatMap (· ++ [10])) = lines := by
  induction lines with
  | nil => rfl
  | cons line lines ih =>
    rw [List.flatMap_cons, List.append_assoc, List.singleton_append,
      getLines_append (h line List.mem_cons_self), ih fun l hl => h l (List.mem_cons_of_mem line hl)]

/-! ### Writing -/

/-- `std::boolalpha`. -/
def boolalpha (b : Bool) : List Byte :=
  if b then chars ['t', 'r', 'u', 'e'] else chars ['f', 'a', 'l', 's', 'e']

section

variable {δ : Type} (print : δ → List Byte) (strtod : List Byte → Option δ)

def entropyLine (loc : ℤ) (entropy : δ) : List Byte :=
  printInt loc ++ chars [',', ' '] ++ print entropy

/-- The contents of the file; `none` when the assertion fails or when the `unsigned` counter
never reaches the size. -/
def writeEntropies (entropies : List δ) (locs : List ℤ) (fixed : Bool) : Option (List Byte) :=
  if locs.length = entropies.length ∧ entropies.length < 2 ^ 32 then
    some ((boolalpha fixed :: List.zipWith (entropyLine print) locs entropies).flatMap (· ++ [10]))
  else none

/-! ### Reading -/

/-- `::tolower`. -/
def toLower (b : Byte) : Byte := if 65 ≤ b.toNat ∧ b.toNat ≤ 90 then b + 32 else b

/-- `to_bool`: anything but a leading `true` reads as false; a blank line leaves the variable
without a value. -/
def toBool (str : List Byte) : Option Bool :=
  let text := (str.map toLower).dropWhile isSpace
  if text = [] then none else some ((boolalpha true).isPrefixOf text)

/-- `std::stoi`; `none` for its exceptions. -/
def stoi (str : List Byte) : Option ℤ :=
  (parseInt str).filter fun z => -2 ^ 31 ≤ z ∧ z < 2 ^ 31

/-- `std::stod` skips blanks. -/
def stod (str : List Byte) : Option δ := strtod (str.dropWhile isSpace)

/-- What the two `getline(line_stream, segment, ',')` leave in `segment`. Without a comma the
second one finds the stream at its end and does not touch it. -/
def segments (line : List Byte) : List Byte × List Byte :=
  match line.dropWhile (· ≠ 44) with
  | [] => (line, line)
  | _ :: rest => (line.takeWhile (· ≠ 44), rest.takeWhile (· ≠ 44))

def readLine (line : List Byte) : Option (ℤ × δ) := do
  let i ← stoi (segments line).1
  let d ← stod strtod (segments line).2
  some (i, d)

/-- `read_entropies`; `none` when the file is empty or an exception is thrown. -/
def readEntropies (file : List Byte) : Option (List ℤ × List δ × Bool) :=
  match keptLines file with
  | [] => none
  | first :: lines => do
    let fixedLengthData ← toBool first
    let entries ← lines.mapM (readLine strtod)
    some (entries.map Prod.fst, entries.map Prod.snd, fixedLengthData)

/-! ### Round trip -/

/-- An entropy whose text has no comma and no newline and is read as `value`. -/
structure Printed (entropy value : δ) : Prop where
  no_comma : 44 ∉ print entropy
  no_newline : 10 ∉ print entropy
  accepted : stod strtod (print entropy) = some value

variable {print strtod}

theorem toBool_boolalpha (b : Bool) : toBool (boolalpha b) = some b := by
  cases b <;> decide

theorem newline_notMem_boolalpha (b : Bool) : 10 ∉ boolalpha b := by
  cases b <;> decide

theorem notMem_printInt (z : ℤ) {b : Byte} (hdigit : isDigit b = false) (hminus : b ≠ 45) :
    b ∉ printInt z := by
  intro hb
  rcases isDigit_or_minus_of_mem_printInt hb with h | h
  · rw [hdigit] at h
    cases h
  · exact hminus h

theorem stoi_printInt {z : ℤ} (h : -2 ^ 31 ≤ z ∧ z < 2 ^ 31) : stoi (printInt z) = some z := by
  rw [stoi, parseInt_printInt, Option.filter_some, if_pos (by simpa using h)]

theorem stod_blank (str : List Byte) : stod strtod (32 :: str) = stod strtod str := by
  rw [stod, List.dropWhile_cons_of_pos (by decide)]
  rfl

theorem segments_entropyLine (loc : ℤ) {entropy : δ} (h : 44 ∉ print entropy) :
    segments (entropyLine print loc entropy) = (printInt loc, 32 :: print entropy) := by
  have hline : entropyLine print loc entropy = printInt loc ++ 44 :: 32 :: print entropy := by
    simp [entropyLine, chars]
  have hloc : ∀ b ∈ printInt loc, decide (b ≠ 44) = true := by
    intro b hb
    rw [decide_eq_true_eq]
    rintro rfl
    exact notMem_printInt loc (by decide) (by decide) hb
  have htoken : (32 :: print entropy).takeWhile (· ≠ 44) = 32 :: print entropy := by
    refine List.takeWhile_eq_self_iff.mpr fun b hb => ?_
    rw [decide_eq_true_eq]
    rintro rfl
    rcases List.mem_cons.mp hb with hb | hb
    · exact absurd hb (by decide)
    · exact h hb
  unfold segments
  rw [hline, List.dropWhile_append_of_pos hloc, List.takeWhile_append_of_pos hloc,
    List.dropWhile_cons_of_neg (by decide), List.takeWhile_cons_of_neg (by decide), List.append_nil]
  simp only [htoken]

theorem readLine_entropyLine {loc : ℤ} (hloc : -2 ^ 31 ≤ loc ∧ loc < 2 ^ 31) {entropy value : δ}
    (h : Printed print strtod entropy value) :
    readLine strtod (entropyLine print loc entropy) = some (loc, value) := by
  simp only [readLine, segments_entropyLine loc h.no_comma, stoi_printInt hloc, stod_blank,
    h.accepted, Option.bind_eq_bind, Option.bind_some]

theorem newline_notMem_entropyLine (loc : ℤ) {entropy : δ} (h : 10 ∉ print entropy) :
    10 ∉ entropyLine print loc entropy := by
  simp only [entropyLine, List.mem_append, not_or]
  exact ⟨⟨notMem_printInt loc (by decide) (by decide), by decide⟩, h⟩

/-- Every written line is read back, in order. -/
theorem mapM_readLine {locs : List ℤ} (hlocs : ∀ l ∈ locs, -2 ^ 31 ≤ l ∧ l < 2 ^ 31)
    {entropies values : List δ} (h : List.Forall₂ (Printed print strtod) entropies values) :
    (List.zipWith (entropyLine print) locs entropies).mapM (readLine strtod) =
      some (locs.zip values) := by
  induction h generalizing locs with
  | nil => simp
  | cons hhead _ ih =>
    cases locs with
    | nil => rfl
    | cons l locs =>
      have htail := ih fun x hx => hlocs x (List.mem_cons_of_mem l hx)
      rw [List.zipWith_cons_cons, List.mapM_cons,
        readLine_entropyLine (hlocs l List.mem_cons_self) hhead, htail]
      rfl

theorem newline_notMem_lines {locs : List ℤ} {entropies values : List δ}
    (h : List.Forall₂ (Printed print strtod) entropies values) {line : List Byte}
    (hline : line ∈ List.zipWith (entropyLine print) locs entropies) : 10 ∉ line := by
  induction h generalizing locs with
  | nil => simp at hline
  | cons hhead _ ih =>
    cases locs with
    | nil => cases hline
    | cons l locs =>
      rw [List.zipWith_cons_cons] at hline
      rcases List.mem_cons.mp hline with rfl | hline
      · exact newline_notMem_entropyLine l hhead.no_newline
      · exact ih hline

/-- A written file is read back up to the 209,999,999 locations that fit behind the flag. -/
theorem readEntropies_kept {locs : List ℤ} (hlocs : ∀ l ∈ locs, -2 ^ 31 ≤ l ∧ l < 2 ^ 31)
    {entropies values : List δ} (hlength : locs.length = entropies.length)
    (hcount : entropies.length < 2 ^ 32)
    (h : List.Forall₂ (Printed print strtod) entropies values) (fixed : Bool) :
    ∃ file, writeEntropies print entropies locs fixed = some file ∧
      readEntropies strtod file =
        some (locs.take 209999999, values.take 209999999, fixed) := by
  have hlines : ∀ line ∈ boolalpha fixed :: List.zipWith (entropyLine print) locs entropies,
      10 ∉ line := by
    intro line hline
    rcases List.mem_cons.mp hline with rfl | hline
    · exact newline_notMem_boolalpha fixed
    · exact newline_notMem_lines h hline
  have hvalues : locs.length = values.length := hlength.trans h.length_eq
  refine ⟨_, if_pos ⟨hlength, hcount⟩, ?_⟩
  have hkept : keptLines ((boolalpha fixed ::
      List.zipWith (entropyLine print) locs entropies).flatMap (· ++ [10])) =
      boolalpha fixed ::
        List.zipWith (entropyLine print) (locs.take 209999999) (entropies.take 209999999) := by
    rw [keptLines, getLines_flatMap hlines, List.take_succ_cons, List.take_zipWith]
  have hlocs' : ∀ l ∈ locs.take 209999999, -2 ^ 31 ≤ l ∧ l < 2 ^ 31 :=
    fun l hl => hlocs l (List.mem_of_mem_take hl)
  have hread := mapM_readLine hlocs' (List.forall₂_take 209999999 h)
  have hfirst : ((locs.take 209999999).zip (values.take 209999999)).map Prod.fst =
      locs.take 209999999 := List.map_fst_zip (by simp [hvalues])
  have hsecond : ((locs.take 209999999).zip (values.take 209999999)).map Prod.snd =
      values.take 209999999 := List.map_snd_zip (by simp [hvalues])
  simp only [readEntropies, hkept, toBool_boolalpha, hread, hfirst, hsecond, Option.bind_eq_bind,
    Option.bind_some]

/-- Files of fewer than 210,000,000 locations round-trip. -/
theorem readEntropies_writeEntropies {locs : List ℤ} (hlocs : ∀ l ∈ locs, -2 ^ 31 ≤ l ∧ l < 2 ^ 31)
    {entropies values : List δ} (hlength : locs.length = entropies.length)
    (hshort : locs.length < 210000000)
    (h : List.Forall₂ (Printed print strtod) entropies values) (fixed : Bool) :
    ∃ file, writeEntropies print entropies locs fixed = some file ∧
      readEntropies strtod file = some (locs, values, fixed) := by
  have hvalues : locs.length = values.length := hlength.trans h.length_eq
  obtain ⟨file, hfile, hread⟩ := readEntropies_kept hlocs hlength (by omega) h fixed
  rw [List.take_of_length_le (by omega), List.take_of_length_le (by omega)] at hread
  exact ⟨file, hfile, hread⟩

end

/-! ### One entropy for all -/

/-- Printing and reading for lists that only hold the entropy `5/2`. -/
def printHalves (_ : ℚ) : List Byte := chars ['2', '.', '5']

def strtodHalves (str : List Byte) : Option ℚ :=
  if str = chars ['2', '.', '5'] then some (5 / 2) else none

theorem printed_halves : Printed printHalves strtodHalves (5 / 2) (5 / 2) :=
  ⟨by decide, by decide, rfl⟩

theorem readEntropies_two_locations :
    ∃ file, writeEntropies printHalves [5 / 2, 5 / 2] [-3, 7] true = some file ∧
      readEntropies strtodHalves file = some ([-3, 7], [5 / 2, 5 / 2], true) :=
  @readEntropies_writeEntropies ℚ printHalves strtodHalves [-3, 7] (by norm_num)
    [5 / 2, 5 / 2] [5 / 2, 5 / 2] rfl (by norm_num)
    (.cons printed_halves (.cons printed_halves .nil)) true

/-- With 210,000,000 locations the last one is not read. -/
theorem readEntropies_drops_last :
    ¬∀ (locs : List ℤ) (entropies values : List ℚ) (fixed : Bool),
      (∀ l ∈ locs, -2 ^ 31 ≤ l ∧ l < 2 ^ 31) → locs.length = entropies.length →
      List.Forall₂ (Printed printHalves strtodHalves) entropies values →
        ∃ file, writeEntropies printHalves entropies locs fixed = some file ∧
          readEntropies strtodHalves file = some (locs, values, fixed) := by
  intro hall
  have hlocs : ∀ l ∈ List.replicate 210000000 (0 : ℤ), -2 ^ 31 ≤ l ∧ l < 2 ^ 31 := by
    intro l hl
    rw [List.eq_of_mem_replicate hl]
    norm_num
  have hlength : (List.replicate 210000000 (0 : ℤ)).length =
      (List.replicate 210000000 (5 / 2 : ℚ)).length := by
    rw [List.length_replicate, List.length_replicate]
  have hprinted : List.Forall₂ (Printed printHalves strtodHalves)
      (List.replicate 210000000 (5 / 2)) (List.replicate 210000000 (5 / 2)) := by
    rw [List.forall₂_same]
    intro x hx
    rw [List.eq_of_mem_replicate hx]
    exact printed_halves
  obtain ⟨file, hfile, hread⟩ := hall _ _ _ true hlocs hlength hprinted
  obtain ⟨file', hfile', hread'⟩ := readEntropies_kept hlocs hlength
    (by rw [List.length_replicate]; norm_num) hprinted true
  obtain rfl := Option.some.inj (hfile.symm.trans hfile')
  have hlocs := congrArg Prod.fst (Option.some.inj (hread.symm.trans hread'))
  have hshort := congrArg List.length hlocs
  rw [List.length_take, List.length_replicate] at hshort
  norm_num at hshort

end EntropyLearnedHashing
