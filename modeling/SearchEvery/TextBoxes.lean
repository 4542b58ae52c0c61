import SearchEvery.ConfigForm
import SearchEvery.Highlight
import Mathlib.Tactic

/-!
# The text boxes, unit by unit

The roots, the exclude patterns and the extension filters are lists which the
page keeps as one text, joined by a comma and a blank.  The front end splits
and trims code units, and a text may hold a surrogate which stands alone, so
`parseCSV` is given here over all its strings.  On the strings which encode
characters it is the function of the same name over characters.
-/

namespace SearchEvery

open JsText

def trimUnits (text : JsString) : JsString :=
  ((text.dropWhile isSpaceUnit).reverse.dropWhile isSpaceUnit).reverse

/-- `input.split(',').map(s => s.trim()).filter(Boolean)`. -/
def parseCSVUnits (input : JsString) : List JsString :=
  ((input.splitOnP (· == unit ',')).map trimUnits).filter
    fun part => !part.isEmpty

/-- `parts.join(', ')`. -/
def joinUnits (parts : List JsString) : JsString :=
  (ofAscii ", ").intercalate parts

/-- What the folder dialog gives back. -/
inductive Selection
  | many (paths : List JsString)
  | one (path : JsString)
  | none

/-- The roots box after `pickRoots`. -/
def pickRoots (roots : JsString) : Selection → JsString
  | .many paths => joinUnits paths
  | .one path => path
  | .none => roots

/-! ## Joining and reading back -/

theorem parseCSVUnits_eq_fields
    (input : JsString) :
    parseCSVUnits input =
      Delimited.fields (· == unit ',') isSpaceUnit input := rfl

theorem parseCSVUnits_joinUnits
    (parts : List JsString) :
    parseCSVUnits (joinUnits parts) = parts.flatMap parseCSVUnits := by
  rw [parseCSVUnits_eq_fields]
  exact Delimited.fields_intercalate (by decide) (by decide) (by decide) parts

theorem isField_iff
    (part : JsString) :
    Delimited.IsField (· == unit ',') isSpaceUnit part ↔
      part ≠ [] ∧ unit ',' ∉ part ∧ trimUnits part = part := by
  constructor
  · rintro ⟨hne, hdelim, htrim⟩
    refine ⟨hne, ?_, htrim⟩
    intro hcomma
    simpa using hdelim _ hcomma
  · rintro ⟨hne, hcomma, htrim⟩
    refine ⟨hne, ?_, htrim⟩
    intro u hu
    have hother : u ≠ unit ',' := by
      rintro rfl
      exact hcomma hu
    simpa using hother

theorem parseCSVUnits_joinUnits_eq_self_iff
    (parts : List JsString) :
    parseCSVUnits (joinUnits parts) = parts ↔
      ∀ part ∈ parts,
        part ≠ [] ∧ unit ',' ∉ part ∧ trimUnits part = part := by
  simp only [← isField_iff]
  rw [parseCSVUnits_joinUnits]
  exact Delimited.flatMap_fields_eq_self_iff parts

theorem parseCSVUnits_fields
    {input part : JsString} (hmem : part ∈ parseCSVUnits input) :
    part ≠ [] ∧ unit ',' ∉ part ∧ trimUnits part = part :=
  (isField_iff part).mp (Delimited.isField_of_mem_fields hmem)

/-- Reading a box and joining what was read keeps what a box holds, and the
lists which a box can hold are those of trimmed nonempty parts without a
comma. -/
theorem parseCSV_join_retraction :
    (∀ input,
      parseCSVUnits (joinUnits (parseCSVUnits input)) = parseCSVUnits input) ∧
    ∀ parts : List JsString,
      parseCSVUnits (joinUnits parts) = parts ↔
        ∀ part ∈ parts,
          part ≠ [] ∧ unit ',' ∉ part ∧ trimUnits part = part := by
  refine ⟨?_, parseCSVUnits_joinUnits_eq_self_iff⟩
  intro input
  rw [parseCSVUnits_joinUnits_eq_self_iff]
  intro part hmem
  exact parseCSVUnits_fields hmem

def Selection.paths : Selection → Option (List JsString)
  | .many paths => some paths
  | .one path => some [path]
  | .none => Option.none

/-- The folders chosen in the dialog are the roots of the next scan exactly
when none of them has a comma or white space at an end. -/
theorem parseCSVUnits_pickRoots_iff
    {selection : Selection} {paths : List JsString}
    (hpaths : selection.paths = some paths) (roots : JsString) :
    parseCSVUnits (pickRoots roots selection) = paths ↔
      ∀ path ∈ paths,
        path ≠ [] ∧ unit ',' ∉ path ∧ trimUnits path = path := by
  have hbox : pickRoots roots selection = joinUnits paths := by
    cases selection with
    | many chosen =>
        cases hpaths
        rfl
    | one path =>
        cases hpaths
        simp [pickRoots, joinUnits]
    | none => simp [Selection.paths] at hpaths
  rw [hbox]
  exact parseCSVUnits_joinUnits_eq_self_iff paths

/-! ## Strings which encode characters -/

/-- The one or two code units of a character. -/
def charUnits (c : Char) : JsString :=
  if c.toNat < 0x10000 then [UInt16.ofNat c.toNat]
  else
    [UInt16.ofNat (0xd800 + (c.toNat - 0x10000) / 0x400),
      UInt16.ofNat (0xdc00 + (c.toNat - 0x10000) % 0x400)]

def toUnits (text : String) : JsString := text.toList.flatMap charUnits

theorem charUnits_ne_nil (c : Char) : charUnits c ≠ [] := by
  unfold charUnits
  split <;> simp

/-- A unit of a character is the character itself or a surrogate. -/
theorem mem_charUnits
    {c : Char} {u : UInt16} (hu : u ∈ charUnits c) :
    u.toNat = c.toNat ∨
      0x10000 ≤ c.toNat ∧ 0xd800 ≤ u.toNat ∧ u.toNat < 0xe000 := by
  have hvalid : c.toNat < 0xd800 ∨ 0xdfff < c.toNat ∧ c.toNat < 0x110000 :=
    c.valid
  unfold charUnits at hu
  split at hu
  next hsmall =>
    left
    rw [List.mem_singleton.mp hu, UInt16.toNat_ofNat']
    omega
  next hlarge =>
    right
    simp only [List.mem_cons, List.not_mem_nil, or_false] at hu
    rcases hu with rfl | rfl
    · rw [UInt16.toNat_ofNat']
      omega
    · rw [UInt16.toNat_ofNat']
      omega

theorem charUnits_comma
    {c : Char} (hc : (c == ',') = true) :
    ∃ u, charUnits c = [u] ∧ (u == unit ',') = true := by
  rw [beq_iff_eq] at hc
  subst hc
  exact ⟨unit ',', by decide, by decide⟩

theorem charUnits_ne_comma
    {c : Char} (hc : (c == ',') = false) :
    ∀ u ∈ charUnits c, (u == unit ',') = false := by
  intro u hu
  rw [beq_eq_false_iff_ne] at hc ⊢
  rintro rfl
  have hcomma : (unit ',').toNat = 44 := by decide
  rcases mem_charUnits hu with hsame | ⟨_, hlow, _⟩
  · exact hc (Char.toNat_inj.mp (by rw [← hsame, hcomma]; rfl))
  · omega

theorem jsWhitespace_small
    {c : Char} (hc : jsWhitespace c = true) : c.toNat < 0x10000 := by
  have hall : ∀ d ∈ ['\t', '\n', '\x0b', '\x0c', '\r', ' ', '\u00a0',
      '\u1680', '\u2000', '\u2001', '\u2002', '\u2003', '\u2004', '\u2005',
      '\u2006', '\u2007', '\u2008', '\u2009', '\u200a', '\u2028', '\u2029',
      '\u202f', '\u205f', '\u3000', '\ufeff'], d.toNat < 0x10000 := by
    simp
  exact hall c (by simpa [jsWhitespace] using hc)

theorem isSpaceUnit_of_mem_charUnits
    (c : Char) : ∀ u ∈ charUnits c, isSpaceUnit u = jsWhitespace c := by
  intro u hu
  unfold isSpaceUnit
  rcases mem_charUnits hu with hsame | ⟨hlarge, hlow, hhigh⟩
  · rw [hsame, Char.ofNat_toNat]
  · have hnot : jsWhitespace c = false := by
      rw [Bool.eq_false_iff]
      intro hspace
      have := jsWhitespace_small hspace
      omega
    have hzero : Char.ofNat u.toNat = '\x00' := by
      unfold Char.ofNat
      rw [dif_neg (by unfold Nat.isValidChar; omega)]
      rfl
    rw [hnot, hzero]
    decide

/-- On a string which encodes characters, reading the box unit by unit gives
the encodings of what reading it character by character gives. -/
theorem parseCSVUnits_toUnits
    (input : String) :
    parseCSVUnits (toUnits input) = (parseCSV input).map toUnits := by
  rw [parseCSVUnits_eq_fields, parseCSV_eq_fields, List.map_map]
  have hfields := Delimited.fields_flatMap charUnits_ne_nil
    (fun c hc => charUnits_comma hc) (fun c hc => charUnits_ne_comma hc)
    isSpaceUnit_of_mem_charUnits input.toList
  rw [toUnits, hfields]
  congr 1
  funext part
  simp [toUnits]

theorem toUnits_join
    (parts : List String) :
    toUnits (", ".intercalate parts) = joinUnits (parts.map toUnits) := by
  have hsep : ", ".toList.flatMap charUnits = ofAscii ", " := by
    decide
  rw [toUnits, String.toList_intercalate, Delimited.flatMap_intercalate, hsep,
    List.map_map]
  rfl

end SearchEvery
