import EntropyLearnedHashing.Entropy.LocationData
import EntropyLearnedHashing.LocationFile
import Mathlib.Data.BitVec

/-! From the dataset to the locations that the benchmarks use. `generateLocationData` selects
positions for each chunk size that has a file and writes them, in the order 1, 4, 8;
`setLocationData` then reads all files. Nothing keeps two chunk sizes from naming the same
file, in which case both get what was written last. -/

namespace EntropyLearnedHashing

open LittleEndian Decimal

/-- The chunk sizes that can have a location file. -/
inductive ChunkSize where
  | one
  | four
  | eight
  deriving DecidableEq, Repr

namespace ChunkSize

def bytes : ChunkSize → ℕ
  | one => 1
  | four => 4
  | eight => 8

/-- `numPositions` of the call of the selector. -/
def numPositions : ChunkSize → BitVec 32
  | one => 16
  | four => 16
  | eight => 12

/-- The order in which files are written and read. -/
def order : List ChunkSize := [one, four, eight]

theorem mem_order (c : ChunkSize) : c ∈ order := by
  cases c <;> decide

end ChunkSize

/-- The globals `locations`, `entropies` and `dataIsFixedLength`. -/
structure LocationTable where
  locations : ChunkSize → List ℤ
  entropies : ChunkSize → List Entropy
  dataIsFixedLength : Bool

/-- `write_locations`. -/
def writeLocations (locs : List ℤ) : List Byte := locs.flatMap fun l => printInt l ++ [10]

section Run

variable {Name : Type} [DecidableEq Name] (print : Entropy → List Byte)
  (strtod : List Byte → Option Entropy) (out : ∀ w, Str → ℤ → Vector Byte w)
  (byteLocations : ChunkSize → Option Name)

/-- The selector for a chunk size, on a sample of the data. -/
def selectFor (maxLength : U32) (sample : List Str × List Str) (c : ChunkSize) :
    Option (Selection × Bool) :=
  greedyRenyiSelectorStopK c.bytes (out c.bytes) maxLength sample.1 sample.2 [] [] c.numPositions

/-- A stage of `generateLocationData`. For the two small chunk sizes the file is written twice. -/
def generateStage (maxLength : U32) (sample : List Str × List Str)
    (files : Name → Option (List Byte)) (c : ChunkSize) : Option (Name → Option (List Byte)) :=
  match byteLocations c with
  | none => some files
  | some name => do
    let (s, fixed) ← selectFor out maxLength sample c
    let files := if c = .eight then files
      else Function.update files name (some (writeLocations s.returnPositions))
    let text ← writeEntropies print s.entropies s.returnPositions fixed
    return Function.update files name (some text)

/-- `generateLocationData`; the dataset is shuffled in place. -/
def generateLocationData (rng : Storage.Shuffle Str) (data : List Str)
    (files : Name → Option (List Byte)) : Option (Name → Option (List Byte)) := do
  let sample ← Storage.getSubset rng data .half
  ChunkSize.order.foldlM
    (generateStage print out byteLocations (maxStrSize (rng.apply data)) sample) files

/-- A stage of `setLocationData`; a file that cannot be opened has no first line. -/
def setStage (files : Name → Option (List Byte)) (t : LocationTable) (c : ChunkSize) :
    Option LocationTable :=
  match byteLocations c with
  | none => some t
  | some name => do
    let file ← files name
    let (locations, entropies, fixed) ← readEntropies strtod file
    return ⟨Function.update t.locations c locations, Function.update t.entropies c entropies, fixed⟩

/-- `setLocationData`. -/
def setLocationData (files : Name → Option (List Byte)) (t : LocationTable) : Option LocationTable :=
  ChunkSize.order.foldlM (setStage strtod byteLocations files) t

end Run

/-! ### What the selector returns -/

section Selector

variable {w : ℕ} {out : Str → ℤ → Vector Byte w} {maxLengthString : U32}
  {inputVec validationVec : List Str}

/-- An entropy for each position, and positions that are `int`s. -/
structure Writable (s : Selection) : Prop where
  length : s.returnPositions.length = s.entropies.length
  range : ∀ p ∈ s.returnPositions, -2 ^ 31 ≤ p ∧ p < 2 ^ 31

theorem intOf_range (i : ℕ) : -2 ^ 31 ≤ intOf i ∧ intOf i < 2 ^ 31 := by
  have hlt := BitVec.toInt_lt (x := BitVec.ofNat 32 i)
  have hge := BitVec.le_toInt (x := BitVec.ofNat 32 i)
  exact ⟨hge, hlt⟩

theorem selectLoop_writable {n : ℕ} {s s' : Selection} (hs : Writable s)
    (h : selectLoop w out maxLengthString inputVec validationVec n s = some s') : Writable s' := by
  refine selectLoop_invariant (P := Writable) (fun t next entropy ht hnext => ?_) hs h
  have hint : -2 ^ 31 ≤ next.1 ∧ next.1 < 2 ^ 31 := by
    rcases @chooseBestPositionRenyi_cases w out maxLengthString inputVec _
      (length_ne_of_chooseBestPositionRenyi hnext) with ⟨heq, -⟩ | ⟨i, -, -, -, heq⟩
    · obtain rfl := Option.some.inj (heq.symm.trans hnext)
      norm_num
    · obtain rfl := Option.some.inj (heq.symm.trans hnext)
      exact intOf_range i
  refine ⟨?_, fun p hp => ?_⟩
  · simp only [Selection.push, List.length_append, ht.length, List.length_singleton]
  · rcases List.mem_append.mp hp with hp | hp
    · exact ht.range p hp
    · rw [List.mem_singleton.mp hp]
      exact hint

theorem selectLoop_length_le {n : ℕ} {s s' : Selection}
    (h : selectLoop w out maxLengthString inputVec validationVec n s = some s') :
    s'.returnPositions.length ≤ s.returnPositions.length + n := by
  induction n generalizing s with
  | zero =>
    obtain rfl := Option.some.inj h
    exact le_rfl
  | succ n ih =>
    rw [selectLoop] at h
    by_cases hfull : s.returnPositions.length = maxLengthString.toNat / w
    · rw [if_pos hfull] at h
      obtain rfl := Option.some.inj h
      exact Nat.le_add_right _ _
    · rw [if_neg hfull] at h
      obtain ⟨next, -, hrun⟩ := Option.bind_eq_some_iff.mp h
      have hle := ih hrun
      simp only [Selection.push, List.length_append, List.length_singleton] at hle
      omega

/-- The assertion of a round never fails. -/
theorem selectLoop_isSome {n : ℕ} {s : Selection}
    (hle : s.returnPositions.length ≤ maxLengthString.toNat / w) :
    (selectLoop w out maxLengthString inputVec validationVec n s).isSome := by
  induction n generalizing s with
  | zero => rfl
  | succ n ih =>
    rw [selectLoop]
    by_cases hfull : s.returnPositions.length = maxLengthString.toNat / w
    · rw [if_pos hfull]
      rfl
    · have hmax : s.returnPositions.length ≠ maxLengthString.toNat := by
        have := Nat.div_le_self maxLengthString.toNat w
        omega
      obtain ⟨next, hnext⟩ : ∃ next,
          chooseBestPositionRenyi w out maxLengthString inputVec s.returnPositions = some next := by
        rcases @chooseBestPositionRenyi_cases w out maxLengthString inputVec _ hmax with
          ⟨heq, -⟩ | ⟨i, -, -, -, heq⟩
        · exact ⟨_, heq⟩
        · exact ⟨_, heq⟩
      rw [if_neg hfull, hnext]
      refine ih ?_
      simp only [Selection.push, List.length_append, List.length_singleton]
      omega

end Selector

/-! ### Files -/

section Files

variable {Name : Type} [DecidableEq Name] {print : Entropy → List Byte}
  {strtod : List Byte → Option Entropy} {out : ∀ w, Str → ℤ → Vector Byte w}
  {byteLocations : ChunkSize → Option Name} {maxLength : U32} {sample : List Str × List Str}
  {files files' : Name → Option (List Byte)}

theorem selectFor_inv {c : ChunkSize} {s : Selection} {fixed : Bool}
    (h : selectFor out maxLength sample c = some (s, fixed)) :
    Writable s ∧ s.returnPositions.length < 210000000 ∧
      fixed = evaluateDatasetFixedLength sample.1 := by
  obtain ⟨hloop, hfixed⟩ := greedyRenyiSelectorStopK_inv h
  have hlength := selectLoop_length_le hloop
  have hrounds : c.numPositions.toInt.toNat ≤ 16 := by cases c <;> decide
  rw [List.length_nil] at hlength
  exact ⟨selectLoop_writable ⟨rfl, by simp⟩ hloop, by omega, hfixed⟩

variable (print out maxLength sample) in
/-- The file holds the selection for the chunk size. -/
def HoldsSelection (files : Name → Option (List Byte)) (name : Name) (c : ChunkSize) : Prop :=
  ∃ s fixed text, selectFor out maxLength sample c = some (s, fixed) ∧
    writeEntropies print s.entropies s.returnPositions fixed = some text ∧ files name = some text

theorem exists_selectFor (hne : sample.1 ≠ []) {c : ChunkSize}
    (hassert : c.numPositions.toNat < maxLength.toNat) :
    ∃ s, selectFor out maxLength sample c = some (s, evaluateDatasetFixedLength sample.1) := by
  have hwide : (c.numPositions.signExtend 64).toNat = c.numPositions.toNat := by
    cases c <;> decide
  rw [← hwide] at hassert
  have hsome : (selectLoop c.bytes (out c.bytes) maxLength sample.1 sample.2
      c.numPositions.toInt.toNat ⟨[], [], .zero⟩).isSome := selectLoop_isSome (Nat.zero_le _)
  obtain ⟨s, hs⟩ := Option.isSome_iff_exists.mp hsome
  refine ⟨s, ?_⟩
  rw [selectFor, greedyRenyiSelectorStopK_eq hne hassert, hs]
  rfl

theorem generateStage_isSome (hne : sample.1 ≠ []) {c : ChunkSize}
    (hassert : byteLocations c ≠ none → c.numPositions.toNat < maxLength.toNat)
    (files : Name → Option (List Byte)) :
    (generateStage print out byteLocations maxLength sample files c).isSome := by
  unfold generateStage
  cases hname : byteLocations c with
  | none => rfl
  | some name =>
    have hexists : ∃ s, selectFor out maxLength sample c =
        some (s, evaluateDatasetFixedLength sample.1) :=
      exists_selectFor hne (hassert (by rw [hname]; simp))
    obtain ⟨s, hselect⟩ := hexists
    obtain ⟨hwritable, hshort, -⟩ := selectFor_inv hselect
    have hlength := hwritable.length
    simp only [hselect, Option.bind_eq_bind, Option.bind_some, writeEntropies]
    rw [if_pos ⟨hlength, by omega⟩]
    rfl

theorem generateStages_isSome (hne : sample.1 ≠ [])
    (hassert : ∀ c, byteLocations c ≠ none → c.numPositions.toNat < maxLength.toNat)
    (l : List ChunkSize) (files : Name → Option (List Byte)) :
    (l.foldlM (generateStage print out byteLocations maxLength sample) files).isSome := by
  induction l generalizing files with
  | nil => rfl
  | cons c l ih =>
    have hsome : (generateStage print out byteLocations maxLength sample files c).isSome :=
      generateStage_isSome hne (hassert c) files
    obtain ⟨files', hstage⟩ := Option.isSome_iff_exists.mp hsome
    rw [List.foldlM_cons, hstage]
    exact ih files'

/-- What a stage does: it writes its selection to its file, if it has one. -/
theorem generateStage_spec {c : ChunkSize}
    (h : generateStage print out byteLocations maxLength sample files c = some files') :
    (∀ name, byteLocations c = some name → HoldsSelection print out maxLength sample files' name c) ∧
      ∀ name, byteLocations c ≠ some name → files' name = files name := by
  unfold generateStage at h
  cases hname : byteLocations c with
  | none =>
    rw [hname] at h
    obtain rfl := Option.some.inj h
    exact ⟨fun name heq => (by cases heq), fun _ _ => rfl⟩
  | some own =>
    rw [hname] at h
    obtain ⟨⟨s, fixed⟩, hselect, h⟩ := Option.bind_eq_some_iff.mp h
    obtain ⟨text, htext, h⟩ := Option.bind_eq_some_iff.mp h
    obtain rfl := Option.some.inj h
    refine ⟨fun name heq => ?_, fun name hne => ?_⟩
    · obtain rfl := Option.some.inj heq
      exact ⟨s, fixed, text, hselect, htext, Function.update_self _ _ _⟩
    · have hne : name ≠ own := fun heq => hne (by rw [heq])
      rw [Function.update_of_ne hne]
      split_ifs
      · rfl
      · exact Function.update_of_ne hne _ _

variable (byteLocations) in
/-- The last of the chunk sizes that has this file. -/
def lastUser (name : Name) (l : List ChunkSize) : Option ChunkSize :=
  (l.filter (byteLocations · = some name)).getLast?

/-- After the stages every file holds the selection of its last user. -/
theorem generateStages_spec {l : List ChunkSize}
    (h : l.foldlM (generateStage print out byteLocations maxLength sample) files = some files')
    {name : Name} {c : ChunkSize} (hlast : lastUser byteLocations name l = some c) :
    HoldsSelection print out maxLength sample files' name c := by
  induction l using List.reverseRecOn generalizing files' with
  | nil => cases hlast
  | append_singleton l d ih =>
    rw [List.foldlM_append] at h
    obtain ⟨files₁, hinit, h⟩ := Option.bind_eq_some_iff.mp h
    rw [List.foldlM_cons] at h
    obtain ⟨files₂, hstage, h⟩ := Option.bind_eq_some_iff.mp h
    obtain rfl := Option.some.inj h
    obtain ⟨hown, hother⟩ := generateStage_spec hstage
    rw [lastUser, List.filter_append] at hlast
    by_cases hd : byteLocations d = some name
    · rw [List.filter_cons_of_pos (by simpa using hd), List.filter_nil, List.getLast?_concat] at hlast
      obtain rfl := Option.some.inj hlast
      exact hown name hd
    · rw [List.filter_cons_of_neg (by simpa using hd), List.filter_nil, List.append_nil] at hlast
      obtain ⟨s, fixed, text, hselect, htext, hfile⟩ := ih hinit hlast
      exact ⟨s, fixed, text, hselect, htext, (hother name hd).trans hfile⟩

omit [DecidableEq Name] in
/-- A file with a selection is read back. -/
theorem HoldsSelection.read {value : Entropy → Entropy} (hprint : ∀ e, Printed print strtod e (value e))
    {name : Name} {c : ChunkSize} (h : HoldsSelection print out maxLength sample files name c) :
    ∃ s file, selectFor out maxLength sample c = some (s, evaluateDatasetFixedLength sample.1) ∧
      files name = some file ∧ readEntropies strtod file =
        some (s.returnPositions, s.entropies.map value, evaluateDatasetFixedLength sample.1) := by
  obtain ⟨s, fixed, text, hselect, htext, hfile⟩ := h
  obtain ⟨hwritable, hshort, rfl⟩ := selectFor_inv hselect
  have hlength := hwritable.length
  have hvalues : List.Forall₂ (Printed print strtod) s.entropies (s.entropies.map value) := by
    rw [List.forall₂_map_right_iff, List.forall₂_same]
    exact fun e _ => hprint e
  obtain ⟨text', htext', hread⟩ := readEntropies_kept hwritable.range hwritable.length (by omega)
    hvalues (evaluateDatasetFixedLength sample.1)
  obtain rfl := Option.some.inj (htext.symm.trans htext')
  refine ⟨s, text, hselect, hfile, ?_⟩
  rw [hread, List.take_of_length_le (by omega), List.take_of_length_le (by rw [List.length_map]; omega)]

omit [DecidableEq Name] in
/-- What a stage of the reader does. -/
theorem setStage_spec {c : ChunkSize} {flag : Bool}
    (hfile : ∀ name, byteLocations c = some name → ∃ file locations entropies,
      files name = some file ∧ readEntropies strtod file = some (locations, entropies, flag))
    (t : LocationTable) :
    ∃ t', setStage strtod byteLocations files t c = some t' ∧
      (∀ d ≠ c, t'.locations d = t.locations d ∧ t'.entropies d = t.entropies d) ∧
      match byteLocations c with
      | none => t' = t
      | some name => t'.dataIsFixedLength = flag ∧ ∃ file, files name = some file ∧
          readEntropies strtod file = some (t'.locations c, t'.entropies c, flag) := by
  unfold setStage
  cases hname : byteLocations c with
  | none => exact ⟨t, rfl, fun _ _ => ⟨rfl, rfl⟩, rfl⟩
  | some name =>
    obtain ⟨file, locations, entropies, hopen, hread⟩ := hfile name hname
    refine ⟨⟨Function.update t.locations c locations, Function.update t.entropies c entropies, flag⟩,
      ?_, fun d hd => ⟨Function.update_of_ne hd _ _, Function.update_of_ne hd _ _⟩, rfl, file, hopen, ?_⟩
    · simp only [hopen, hread, Option.bind_eq_bind, Option.bind_some]
      rfl
    · dsimp only
      rw [Function.update_self, Function.update_self]
      exact hread

variable (strtod byteLocations files) in
/-- The table after the files of some chunk sizes have been read, all with the same flag. -/
structure HasRead (l : List ChunkSize) (flag : Bool) (t t' : LocationTable) : Prop where
  named : ∀ c ∈ l, ∀ name, byteLocations c = some name → ∃ file, files name = some file ∧
    readEntropies strtod file = some (t'.locations c, t'.entropies c, flag)
  others : ∀ c, c ∉ l ∨ byteLocations c = none →
    t'.locations c = t.locations c ∧ t'.entropies c = t.entropies c
  fixed : t'.dataIsFixedLength =
    if ∃ c ∈ l, byteLocations c ≠ none then flag else t.dataIsFixedLength

section HasRead

variable {l : List ChunkSize} {flag : Bool} {t t₁ t₂ : LocationTable} {d : ChunkSize}

omit [DecidableEq Name] in
/-- A chunk size without a file changes nothing. -/
theorem HasRead.skip (h : HasRead strtod byteLocations files l flag t t₁)
    (hd : byteLocations d = none) : HasRead strtod byteLocations files (l ++ [d]) flag t t₁ := by
  refine ⟨fun c hc name hname => ?_, fun c hc => h.others c ?_, ?_⟩
  · rcases List.mem_append.mp hc with hc | hc
    · exact h.named c hc name hname
    · rw [List.mem_singleton.mp hc, hd] at hname
      cases hname
  · exact hc.imp_left fun hnot hmem => hnot (List.mem_append_left _ hmem)
  · rw [h.fixed]
    simp [hd]

omit [DecidableEq Name] in
/-- The next file is read over what the table holds for its chunk size. -/
theorem HasRead.read (h : HasRead strtod byteLocations files l flag t t₁) {own : Name}
    (hd : byteLocations d = some own)
    (hother : ∀ c ≠ d, t₂.locations c = t₁.locations c ∧ t₂.entropies c = t₁.entropies c)
    (hflag : t₂.dataIsFixedLength = flag)
    (hread : ∃ file, files own = some file ∧
      readEntropies strtod file = some (t₂.locations d, t₂.entropies d, flag)) :
    HasRead strtod byteLocations files (l ++ [d]) flag t t₂ := by
  refine ⟨fun c hc name hname => ?_, fun c hc => ?_, ?_⟩
  · by_cases hcd : c = d
    · rw [hcd, hd] at hname
      obtain rfl := Option.some.inj hname
      rw [hcd]
      exact hread
    · rw [(hother c hcd).1, (hother c hcd).2]
      refine h.named c ?_ name hname
      exact (List.mem_append.mp hc).resolve_right fun hmem => hcd (List.mem_singleton.mp hmem)
  · have hcd : c ≠ d := by
      rintro rfl
      rcases hc with hc | hc
      · exact hc (List.mem_append_right _ (List.mem_singleton_self _))
      · rw [hd] at hc
        cases hc
    obtain ⟨hlocations, hentropies⟩ := hother c hcd
    rw [hlocations, hentropies]
    exact h.others c (hc.imp_left fun hnot hmem => hnot (List.mem_append_left _ hmem))
  · rw [hflag, if_pos ⟨d, List.mem_append_right _ (List.mem_singleton_self _), by rw [hd]; simp⟩]

end HasRead

omit [DecidableEq Name] in
theorem setStages_spec {l : List ChunkSize} {flag : Bool}
    (hfile : ∀ c name, byteLocations c = some name → ∃ file locations entropies,
      files name = some file ∧ readEntropies strtod file = some (locations, entropies, flag))
    (t : LocationTable) :
    ∃ t', l.foldlM (setStage strtod byteLocations files) t = some t' ∧
      HasRead strtod byteLocations files l flag t t' := by
  induction l using List.reverseRecOn with
  | nil => exact ⟨t, rfl, ⟨by simp, fun _ _ => ⟨rfl, rfl⟩, by simp⟩⟩
  | append_singleton l d ih =>
    obtain ⟨t₁, hinit, h₁⟩ := ih
    obtain ⟨t₂, hstage, hother, hown⟩ := setStage_spec (hfile d) t₁
    refine ⟨t₂, ?_, ?_⟩
    · rw [List.foldlM_append, hinit, Option.bind_eq_bind, Option.bind_some, List.foldlM_cons, hstage]
      rfl
    · cases hd : byteLocations d with
      | none =>
        rw [hd] at hown
        obtain rfl : t₂ = t₁ := hown
        exact h₁.skip hd
      | some own =>
        rw [hd] at hown
        exact h₁.read hd hother hown.1 hown.2

/-! ### The whole way -/

theorem exists_lastUser {c : ChunkSize} {name : Name} (h : byteLocations c = some name) :
    ∃ d, lastUser byteLocations name ChunkSize.order = some d := by
  have hmem : c ∈ ChunkSize.order.filter (byteLocations · = some name) :=
    List.mem_filter.mpr ⟨c.mem_order, by simpa using h⟩
  exact ⟨_, List.getLast?_eq_some_getLast (List.ne_nil_of_mem hmem)⟩

variable (out byteLocations) in
/-- A chunk size with a file has the positions and the entropies that were selected for the last
chunk size with that file, and the flag is that of the sample. The others are as before. -/
structure Loaded (value : Entropy → Entropy) (maxLength : U32) (sample : List Str × List Str)
    (t t' : LocationTable) : Prop where
  named : ∀ c name, byteLocations c = some name → ∃ d s,
    lastUser byteLocations name ChunkSize.order = some d ∧
    selectFor out maxLength sample d = some (s, evaluateDatasetFixedLength sample.1) ∧
    t'.locations c = s.returnPositions ∧ t'.entropies c = s.entropies.map value
  others : ∀ c, byteLocations c = none →
    t'.locations c = t.locations c ∧ t'.entropies c = t.entropies c
  fixed : t'.dataIsFixedLength = if ∃ c ∈ ChunkSize.order, byteLocations c ≠ none then
    evaluateDatasetFixedLength sample.1 else t.dataIsFixedLength

/-- Whatever `generateLocationData` has written, `setLocationData` loads. -/
theorem Loaded.of_generated {value : Entropy → Entropy}
    (hprint : ∀ e, Printed print strtod e (value e))
    (hstages : ChunkSize.order.foldlM (generateStage print out byteLocations maxLength sample) files =
      some files') (t : LocationTable) :
    ∃ t', setLocationData strtod byteLocations files' t = some t' ∧
      Loaded out byteLocations value maxLength sample t t' := by
  have hholds : ∀ c name, byteLocations c = some name → ∃ d s file,
      lastUser byteLocations name ChunkSize.order = some d ∧
      selectFor out maxLength sample d = some (s, evaluateDatasetFixedLength sample.1) ∧
      files' name = some file ∧ readEntropies strtod file =
        some (s.returnPositions, s.entropies.map value, evaluateDatasetFixedLength sample.1) := by
    intro c name hname
    obtain ⟨d, hd⟩ := exists_lastUser hname
    obtain ⟨s, file, hselect, hopen, hread⟩ := (generateStages_spec hstages hd).read hprint
    exact ⟨d, s, file, hd, hselect, hopen, hread⟩
  obtain ⟨t', hset, hread⟩ := setStages_spec (l := ChunkSize.order)
    (fun c name hname => by
      obtain ⟨d, s, file, -, -, hopen, hfile⟩ := hholds c name hname
      exact ⟨file, _, _, hopen, hfile⟩) t
  refine ⟨t', hset, fun c name hname => ?_, fun c hc => hread.others c (Or.inr hc), hread.fixed⟩
  obtain ⟨d, s, file, hd, hselect, hopen, hfile⟩ := hholds c name hname
  obtain ⟨file', hopen', hfile'⟩ := hread.named c c.mem_order name hname
  obtain rfl := Option.some.inj (hopen.symm.trans hopen')
  obtain ⟨hlocations, hrest⟩ := Prod.mk.inj (Option.some.inj (hfile.symm.trans hfile'))
  exact ⟨d, s, hd, hselect, hlocations.symm, (Prod.mk.inj hrest).1.symm⟩

end Files

/-- With a sample that is not empty and a longest key that passes the assertions, the locations are
generated, and what was written is loaded. -/
theorem locations_reach_benchmarks {Name : Type} [DecidableEq Name] {print : Entropy → List Byte}
    {strtod : List Byte → Option Entropy} {value : Entropy → Entropy}
    (hprint : ∀ e, Printed print strtod e (value e)) (out : ∀ w, Str → ℤ → Vector Byte w)
    (byteLocations : ChunkSize → Option Name) (rng : Storage.Shuffle Str) (data : List Str)
    {sample : List Str × List Str} (hsample : Storage.getSubset rng data .half = some sample)
    (hne : sample.1 ≠ []) (hassert : ∀ c, byteLocations c ≠ none →
      c.numPositions.toNat < (maxStrSize (rng.apply data)).toNat)
    (files : Name → Option (List Byte)) (t : LocationTable) :
    ∃ files' t', generateLocationData print out byteLocations rng data files = some files' ∧
      setLocationData strtod byteLocations files' t = some t' ∧
      Loaded out byteLocations value (maxStrSize (rng.apply data)) sample t t' := by
  have hsome : (ChunkSize.order.foldlM (generateStage print out byteLocations
      (maxStrSize (rng.apply data)) sample) files).isSome := generateStages_isSome hne hassert _ _
  obtain ⟨files', hstages⟩ := Option.isSome_iff_exists.mp hsome
  obtain ⟨t', hset, hloaded⟩ := Loaded.of_generated hprint hstages t
  refine ⟨files', t', ?_, hset, hloaded⟩
  rw [generateLocationData, hsample]
  exact hstages

/-- An infinite entropy as it is printed; all others are cut to zero. -/
def printInf (e : Entropy) : List Byte :=
  if e = .negLog2 0 then chars ['i', 'n', 'f'] else chars ['0']

def strtodInf (str : List Byte) : Option Entropy :=
  if str = chars ['i', 'n', 'f'] then some (.negLog2 0)
  else if str = chars ['0'] then some .zero else none

def cutInf (e : Entropy) : Entropy := if e = .negLog2 0 then .negLog2 0 else .zero

theorem printed_inf (e : Entropy) : Printed printInf strtodInf e (cutInf e) := by
  by_cases he : e = .negLog2 0
  · have hprint : printInf e = chars ['i', 'n', 'f'] := if_pos he
    refine ⟨?_, ?_, ?_⟩ <;> rw [hprint]
    · decide
    · decide
    · rw [cutInf, if_pos he]
      rfl
  · have hprint : printInf e = chars ['0'] := if_neg he
    refine ⟨?_, ?_, ?_⟩ <;> rw [hprint]
    · decide
    · decide
    · rw [cutInf, if_neg he]
      rfl

/-- A byte twenty-four times. -/
def keyOfByte (b : Byte) : Str := ⟨List.replicate 24 b, by rw [List.length_replicate]; decide⟩

def fourKeys : List Str := [keyOfByte 0, keyOfByte 1, keyOfByte 2, keyOfByte 3]

theorem getSubset_fourKeys : Storage.getSubset ⟨id, List.Perm.refl⟩ fourKeys .half =
    some ([keyOfByte 0, keyOfByte 1], [keyOfByte 2, keyOfByte 3]) := by
  have hshare : Fraction.half.share fourKeys.length = some 2 := by
    have hfour : toFloat ((fourKeys.length : ℕ) : ℚ) = 2 ^ 2 := toFloat_two_pow 2
    have htwo : toFloat ((2 ^ 1 : ℕ) : ℚ) = 2 ^ 1 := toFloat_two_pow 1
    have hproduct : Fraction.half.product fourKeys.length = 2 := by
      rw [Fraction.product, hfour]
      norm_num [Fraction.half] at htwo ⊢
      exact htwo
    rw [Fraction.share, hproduct, if_pos (by norm_num), Nat.floor_ofNat]
    rfl
  unfold Storage.getSubset
  rw [hshare]
  rfl

/-- The 4-byte and the 8-byte locations share a file. -/
theorem fourKeys_reach_benchmarks :
    ∃ files' t', generateLocationData printInf (fun w => zeroFill w)
        (fun c => if c = .one then none else some ()) ⟨id, List.Perm.refl⟩ fourKeys (fun _ => none) =
        some files' ∧
      setLocationData strtodInf (fun c => if c = .one then none else some ()) files'
        ⟨fun _ => [], fun _ => [], false⟩ = some t' ∧
      Loaded (fun w => zeroFill w) (fun c => if c = .one then none else some ()) cutInf
        (maxStrSize fourKeys)
        ([keyOfByte 0, keyOfByte 1], [keyOfByte 2, keyOfByte 3])
        ⟨fun _ => [], fun _ => [], false⟩ t' := by
  refine locations_reach_benchmarks printed_inf (fun w => zeroFill w)
    (fun c => if c = .one then none else some ()) ⟨id, List.Perm.refl⟩ fourKeys getSubset_fourKeys
    (by decide) (fun c _ => ?_) (fun _ => none) _
  cases c <;> decide

end EntropyLearnedHashing
