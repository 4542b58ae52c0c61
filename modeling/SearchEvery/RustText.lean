import SearchEvery.Delimited
import Mathlib.Tactic

/-!
# Text and paths of the back end

Rust strings are sequences of Unicode scalar values, which is what a Lean
`String` is.  The Unicode tables behind `char::is_alphanumeric` and the two
`to_lowercase` functions are a parameter with the facts the program relies
on.  The second half gives the functions of `std::path::Path` which the
scanners and the duplicate detector call on a path text.
-/

namespace SearchEvery

/-- The Unicode tables of the standard library. -/
structure CharTables where
  isAlphanumeric : Char → Bool
  toLowercase : Char → List Char
  strToLowercase : String → String
  isAlphanumeric_ascii :
    ∀ c, c.toNat < 128 → isAlphanumeric c = c.isAlphanum
  toLowercase_ascii :
    ∀ c, c.toNat < 128 → toLowercase c = [c.toLower]
  strToLowercase_ascii :
    ∀ s : String, (∀ c ∈ s.toList, c.toNat < 128) →
      strToLowercase s = String.ofList (s.toList.map Char.toLower)
  lowercase_not_separator :
    ∀ c d, isAlphanumeric c = true → d ∈ toLowercase c → d ≠ '/' ∧ d ≠ '\\'

theorem toLower_not_separator
    {c : Char} (halnum : c.isAlphanum = true) :
    c.toLower ≠ '/' ∧ c.toLower ≠ '\\' := by
  delta Char.isAlphanum Char.isAlpha Char.isUpper Char.isLower
    Char.isDigit at halnum
  simp only [Bool.or_eq_true, Bool.and_eq_true, decide_eq_true_eq,
    ge_iff_le, UInt32.le_iff_toNat_le] at halnum
  have hvalue : c.toLower.val.toNat ≠ 47 ∧ c.toLower.val.toNat ≠ 92 := by
    unfold Char.toLower
    split
    next hupper =>
      simp only [ge_iff_le, UInt32.le_iff_toNat_le] at hupper
      simp at halnum hupper ⊢
      omega
    next =>
      simp only [Char.toNat_val, ne_eq] at halnum ⊢
      simp at halnum
      omega
  constructor
  · intro heq
    exact hvalue.1 (congrArg (fun d => d.val.toNat) heq)
  · intro heq
    exact hvalue.2 (congrArg (fun d => d.val.toNat) heq)

def asciiTables : CharTables where
  isAlphanumeric := Char.isAlphanum
  toLowercase c := [c.toLower]
  strToLowercase s := String.ofList (s.toList.map Char.toLower)
  isAlphanumeric_ascii _ _ := rfl
  toLowercase_ascii _ _ := rfl
  strToLowercase_ascii _ _ := rfl
  lowercase_not_separator c d halnum hd := by
    rw [List.mem_singleton] at hd
    subst hd
    exact toLower_not_separator halnum

/-! ## The default tokenizer -/

/-- The `default` analyzer of the index: maximal alphanumeric runs, runs of 40
or more bytes dropped, the rest lower-cased. -/
def CharTables.defaultTokens (tables : CharTables) (text : String) :
    List String :=
  ((MaximalRuns.runs tables.isAlphanumeric text.toList).filter
      fun run => (String.ofList run).utf8ByteSize < 40).map
    fun run => String.ofList (run.flatMap tables.toLowercase)

def HasSeparator (text : String) : Prop :=
  '/' ∈ text.toList ∨ '\\' ∈ text.toList

instance (text : String) : Decidable (HasSeparator text) :=
  inferInstanceAs (Decidable ('/' ∈ text.toList ∨ '\\' ∈ text.toList))

theorem CharTables.token_not_hasSeparator
    {tables : CharTables} {text token : String}
    (htoken : token ∈ tables.defaultTokens text) :
    ¬ HasSeparator token := by
  unfold CharTables.defaultTokens at htoken
  obtain ⟨run, hrun, heq⟩ := List.mem_map.mp htoken
  have hruns := (List.mem_filter.mp hrun).1
  have hclean : ∀ d ∈ token.toList, d ≠ '/' ∧ d ≠ '\\' := by
    intro d hd
    rw [← heq, String.toList_ofList, List.mem_flatMap] at hd
    obtain ⟨c, hc, hdc⟩ := hd
    exact tables.lowercase_not_separator c d
      (MaximalRuns.forall_of_mem_runs hruns c hc) hdc
  rintro (hslash | hback)
  · exact (hclean _ hslash).1 rfl
  · exact (hclean _ hback).2 rfl

theorem CharTables.not_mem_defaultTokens
    {tables : CharTables} {path : String} (hsep : HasSeparator path)
    (text : String) :
    path ∉ tables.defaultTokens text :=
  fun hmem => tables.token_not_hasSeparator hmem hsep

/-! ## Substring and case tests -/

def strContains (text pattern : String) : Bool :=
  decide (pattern.toList <:+: text.toList)

def eqIgnoreAsciiCase (a b : String) : Bool :=
  a.toList.map Char.toLower == b.toList.map Char.toLower

/-- `char::is_whitespace`. -/
def isWhitespace (c : Char) : Bool :=
  c ∈ ['\t', '\n', '\x0b', '\x0c', '\r', ' ', '\u0085', '\u00a0', '\u1680',
    '\u2000', '\u2001', '\u2002', '\u2003', '\u2004', '\u2005', '\u2006',
    '\u2007', '\u2008', '\u2009', '\u200a', '\u2028', '\u2029', '\u202f',
    '\u205f', '\u3000']

def strTrim (text : String) : String :=
  String.ofList (Delimited.trim isWhitespace text.toList)

def isBlank (text : String) : Bool := (strTrim text).isEmpty

theorem isBlank_iff
    (text : String) :
    isBlank text = true ↔ ∀ c ∈ text.toList, isWhitespace c = true := by
  rw [isBlank, String.isEmpty_iff, strTrim, ← Delimited.trim_eq_nil_iff]
  constructor
  · intro hempty
    simpa using congrArg String.toList hempty
  · intro hnil
    simp [hnil]

/-! ## Paths -/

inductive Platform
  | unix
  | windows
  deriving DecidableEq, Repr

def Platform.isSeparator : Platform → Char → Bool
  | .unix, c => c == '/'
  | .windows, c => c == '/' || c == '\\'

/-- `std::path::Prefix`, with the texts a path may have at its front. -/
inductive Prefix
  | verbatim (name : List Char)
  | verbatimUNC (server share : List Char)
  | verbatimDisk
  | deviceNS (device : List Char)
  | unc (server share : List Char)
  | disk
  deriving DecidableEq, Repr

def Prefix.isVerbatim : Prefix → Bool
  | .verbatim _ | .verbatimUNC _ _ | .verbatimDisk => true
  | .deviceNS _ | .unc _ _ | .disk => false

/-- A share without a name takes its separator to the rest of the path. -/
def Prefix.len : Prefix → ℕ
  | .verbatim name => 4 + name.length
  | .verbatimUNC server share =>
      8 + server.length + if share = [] then 0 else 1 + share.length
  | .verbatimDisk => 6
  | .deviceNS device => 4 + device.length
  | .unc server share =>
      2 + server.length + if share = [] then 0 else 1 + share.length
  | .disk => 2

/-- The text before the next separator and the text after it; a verbatim path
is separated by backslashes only. -/
def parseNextComponent (isVerbatim : Bool) (path : List Char) :
    List Char × List Char :=
  let inside := fun c => c != '\\' && (isVerbatim || c != '/')
  (path.takeWhile inside, (path.dropWhile inside).drop 1)

/-- `PrefixParserSlice::strip_prefix`, where a slash stands for a backslash. -/
def stripFront (front : List Char) (path : List Char) : Option (List Char) :=
  if (path.take front.length).map (fun c => if c = '/' then '\\' else c) =
      front then
    some (path.drop front.length)
  else none

def parseDrive : List Char → Option Prefix
  | letter :: ':' :: _ => if letter.isAlpha then some .disk else none
  | _ => none

/-- In a verbatim path the drive must be a whole component. -/
def parseDriveExact (path : List Char) : Bool :=
  (parseDrive path).isSome && (path[2]?.all fun c => c == '/' || c == '\\')

def parseVerbatim (path : List Char) : Prefix :=
  match stripFront ['U', 'N', 'C', '\\'] path with
  | some rest =>
      let (server, afterServer) := parseNextComponent true rest
      .verbatimUNC server (parseNextComponent true afterServer).1
  | none =>
      if parseDriveExact path then .verbatimDisk
      else .verbatim (parseNextComponent true path).1

/-- `parse_prefix` of the Windows paths. -/
def parsePrefix (path : List Char) : Option Prefix :=
  match stripFront ['\\', '\\'] path with
  | none => parseDrive path
  | some rest =>
      if path.take 4 = ['\\', '\\', '?', '\\'] then
        some (parseVerbatim (path.drop 4))
      else
        match stripFront ['.', '\\'] rest with
        | some device => some (.deviceNS (parseNextComponent false device).1)
        | none =>
            let (server, afterServer) := parseNextComponent false rest
            let share := (parseNextComponent false afterServer).1
            if server = [] || share = [] then none
            else some (.unc server share)

def Platform.parsePrefix : Platform → List Char → Option Prefix
  | .unix, _ => none
  | .windows, path => SearchEvery.parsePrefix path

/-- The components after the prefix; a verbatim path keeps its dots. -/
def Platform.components (platform : Platform) (path : String) :
    List (List Char) :=
  let found := platform.parsePrefix path.toList
  let isVerbatim := found.any Prefix.isVerbatim
  let body := path.toList.drop (found.elim 0 Prefix.len)
  (body.splitOnP fun c =>
    if isVerbatim then c == '\\' else platform.isSeparator c).filter
      fun component => !component.isEmpty && (isVerbatim || component != ['.'])

/-- `Path::file_name`: the last component, unless it is `.` or `..`. -/
def Platform.fileName (platform : Platform) (path : String) : Option String :=
  match (platform.components path).getLast? with
  | none => none
  | some component =>
      if component = ['.'] || component = ['.', '.'] then none
      else some (String.ofList component)

example : Platform.windows.fileName "C:a.txt" = some "a.txt" ∧
    Platform.windows.fileName "\\\\server\\share" = none ∧
    Platform.windows.fileName "\\\\server\\share\\d/a.txt" = some "a.txt" ∧
    Platform.windows.fileName "\\\\?\\C:\\d/a.txt" = some "d/a.txt" := by
  decide

/-- `Path::extension`: what follows the last dot of the file name, unless the
name has no dot or nothing before it. -/
def Platform.extension (platform : Platform) (path : String) :
    Option String :=
  match platform.fileName path with
  | none => none
  | some name =>
      match name.toList.reverse.span (fun c => c != '.') with
      | (after, _ :: _ :: _) => some (String.ofList after.reverse)
      | (_, _) => none

def Platform.mainSeparator : Platform → String
  | .unix => "/"
  | .windows => "\\"

def Platform.withoutDrive : Platform → List Char → List Char
  | .windows, letter :: ':' :: rest =>
      if letter.isAlpha then rest else letter :: ':' :: rest
  | _, text => text

/-- `Path::join` of a base which is not verbatim with a relative path: no
separator after an empty path, a path which ends in one, or a bare drive. -/
def Platform.join (platform : Platform) (base part : String) : String :=
  if (platform.withoutDrive base.toList).getLast?.all platform.isSeparator then
    base ++ part
  else base ++ platform.mainSeparator ++ part

example : Platform.unix.fileName "/d/notes.tar.gz" = some "notes.tar.gz" ∧
    Platform.unix.extension "/d/notes.tar.gz" = some "gz" ∧
    Platform.unix.extension "/d/.bashrc" = none := by decide

end SearchEvery
