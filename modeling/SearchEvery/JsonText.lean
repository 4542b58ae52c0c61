import Mathlib.Data.List.Basic
import Mathlib.Tactic

/-!
# Indented JSON text

The indented notation of JSON texts, as lists of characters, and a scanner
which follows the brackets outside string literals.  A text is closed when the
scanner is back at the outside; an object is closed, and none of its proper
prefixes is.
-/

namespace JsonText

/-! ## The notation -/

def escapeChar (c : Char) : List Char :=
  if c = '"' then ['\\', '"']
  else if c = '\\' then ['\\', '\\']
  else if c = '\x08' then ['\\', 'b']
  else if c = '\t' then ['\\', 't']
  else if c = '\n' then ['\\', 'n']
  else if c = '\x0c' then ['\\', 'f']
  else if c = '\r' then ['\\', 'r']
  else if c.toNat < 32 then
    ['\\', 'u', '0', '0', Nat.digitChar (c.toNat / 16),
      Nat.digitChar (c.toNat % 16)]
  else [c]

def literal (text : String) : List Char :=
  '"' :: text.toList.flatMap escapeChar ++ ['"']

/-- A new line with two spaces for every level. -/
def newline (level : ℕ) : List Char := '\n' :: List.replicate (2 * level) ' '

/-- Items between brackets, each on a line of its own; brackets around nothing
stand together. -/
def bracketed (opening closing : Char) (level : ℕ)
    (items : List (List Char)) : List Char :=
  if items = [] then [opening, closing]
  else opening :: ([','].intercalate (items.map (newline (level + 1) ++ ·)) ++
    newline level) ++ [closing]

def array (level : ℕ) (items : List (List Char)) : List Char :=
  bracketed '[' ']' level items

def object (level : ℕ) (entries : List (String × List Char)) : List Char :=
  bracketed '{' '}' level
    (entries.map fun entry => literal entry.1 ++ [':', ' '] ++ entry.2)

def number (n : ℕ) : List Char := (toString n).toList

def bool (b : Bool) : List Char := (toString b).toList

/-! ## The scanner -/

inductive Mode
  | outside
  | inString
  | escaped
  deriving DecidableEq

structure Scan where
  depth : ℕ
  mode : Mode
  deriving DecidableEq

def Scan.next (s : Scan) (c : Char) : Scan :=
  match s.mode with
  | .outside =>
      if c = '"' then ⟨s.depth, .inString⟩
      else if c = '{' ∨ c = '[' then ⟨s.depth + 1, .outside⟩
      else if c = '}' ∨ c = ']' then ⟨s.depth - 1, .outside⟩
      else s
  | .inString =>
      if c = '\\' then ⟨s.depth, .escaped⟩
      else if c = '"' then ⟨s.depth, .outside⟩
      else s
  | .escaped => ⟨s.depth, .inString⟩

def scan (s : Scan) (chars : List Char) : Scan := chars.foldl Scan.next s

/-- The text is not empty, every string literal has ended and every bracket
has been closed. -/
def Closed (chars : List Char) : Prop :=
  chars ≠ [] ∧ scan ⟨0, .outside⟩ chars = ⟨0, .outside⟩

@[simp] theorem scan_nil (s : Scan) : scan s [] = s := rfl

@[simp] theorem scan_cons (s : Scan) (c : Char) (chars : List Char) :
    scan s (c :: chars) = scan (s.next c) chars := rfl

theorem scan_append (s : Scan) (front back : List Char) :
    scan s (front ++ back) = scan (scan s front) back := by
  simp [scan]

/-- The characters lead the scanner back to where it was, and never below. -/
def Stays (mode : Mode) (chars : List Char) : Prop :=
  ∀ depth, scan ⟨depth, mode⟩ chars = ⟨depth, mode⟩ ∧
    ∀ n, depth ≤ (scan ⟨depth, mode⟩ (chars.take n)).depth

variable {mode : Mode}

theorem stays_nil : Stays mode [] :=
  fun _ => ⟨rfl, by simp⟩

theorem Stays.append
    {front back : List Char} (hfront : Stays mode front)
    (hback : Stays mode back) : Stays mode (front ++ back) := by
  intro depth
  obtain ⟨hend, hlow⟩ := hfront depth
  refine ⟨by rw [scan_append, hend, (hback depth).1], ?_⟩
  intro n
  rw [List.take_append, scan_append]
  rcases le_or_gt n front.length with hle | hgt
  · rw [Nat.sub_eq_zero_of_le hle, List.take_zero, scan_nil]
    exact hlow n
  · rw [List.take_of_length_le hgt.le, hend]
    exact (hback depth).2 _

theorem stays_of_next
    {chars : List Char}
    (hnext : ∀ c ∈ chars, ∀ depth, Scan.next ⟨depth, mode⟩ c = ⟨depth, mode⟩) :
    Stays mode chars := by
  have hscan (front : List Char) (hall : ∀ c ∈ front, c ∈ chars) (depth : ℕ) :
      scan ⟨depth, mode⟩ front = ⟨depth, mode⟩ := by
    induction front with
    | nil => rfl
    | cons c front ih =>
        rw [scan_cons, hnext c (hall c (by simp))]
        exact ih fun d hd => hall d (by simp [hd])
  intro depth
  refine ⟨hscan chars (fun _ => id) depth, ?_⟩
  intro n
  rw [hscan (chars.take n) (fun _ => List.mem_of_mem_take) depth]

theorem Stays.flatMap
    {α : Type*} {f : α → List Char} {items : List α}
    (hitems : ∀ item ∈ items, Stays mode (f item)) :
    Stays mode (items.flatMap f) := by
  induction items with
  | nil => exact stays_nil
  | cons item items ih =>
      rw [List.flatMap_cons]
      exact (hitems item (by simp)).append
        (ih fun other hmem => hitems other (by simp [hmem]))

/-- The first character opens a level and the last one closes it: up to the
last character the scanner is inside. -/
theorem inside_of_wrap
    {inner : Mode} {opening closing : Char} {body : List Char}
    (hbody : Stays inner body) {depth level : ℕ}
    (hopen : Scan.next ⟨depth, mode⟩ opening = ⟨level, inner⟩)
    {n : ℕ} (hn : n ≤ body.length) :
    level ≤ (scan ⟨depth, mode⟩
      ((opening :: body ++ [closing]).take (n + 1))).depth := by
  rw [List.cons_append, List.take_succ_cons, scan_cons, hopen,
    List.take_append_of_le_length hn]
  exact (hbody level).2 n

theorem scan_wrap
    {inner : Mode} {opening closing : Char} {body : List Char}
    (hbody : Stays inner body) {depth level : ℕ}
    (hopen : Scan.next ⟨depth, mode⟩ opening = ⟨level, inner⟩)
    (hclose : Scan.next ⟨level, inner⟩ closing = ⟨depth, mode⟩) :
    scan ⟨depth, mode⟩ (opening :: body ++ [closing]) = ⟨depth, mode⟩ := by
  rw [List.cons_append, scan_cons, hopen, scan_append, (hbody level).1,
    scan_cons, hclose, scan_nil]

theorem stays_wrap
    {inner : Mode} {opening closing : Char} {body : List Char}
    (hbody : Stays inner body) {rise : ℕ}
    (hopen : ∀ depth,
      Scan.next ⟨depth, mode⟩ opening = ⟨depth + rise, inner⟩)
    (hclose : ∀ depth,
      Scan.next ⟨depth + rise, inner⟩ closing = ⟨depth, mode⟩) :
    Stays mode (opening :: body ++ [closing]) := by
  intro depth
  have hend := scan_wrap hbody (hopen depth) (hclose depth)
  refine ⟨hend, ?_⟩
  intro n
  cases n with
  | zero => simp
  | succ n =>
      rcases le_or_gt n body.length with hle | hgt
      · exact le_trans (Nat.le_add_right depth rise)
          (inside_of_wrap hbody (hopen depth) hle)
      · rw [List.take_of_length_le (by simp; omega), hend]

/-! ## The notation stays -/

theorem digitChar_plain {n : ℕ} (hn : n < 16) :
    Nat.digitChar n ≠ '\\' ∧ Nat.digitChar n ≠ '"' := by
  have hall : ∀ m < 16, Nat.digitChar m ≠ '\\' ∧ Nat.digitChar m ≠ '"' := by
    decide
  exact hall n hn

/-- A backslash takes the next character with it. -/
theorem stays_escape (c : Char) : Stays .inString ['\\', c] := by
  intro depth
  refine ⟨rfl, ?_⟩
  intro n
  match n with
  | 0 => exact Nat.le_refl depth
  | 1 => exact Nat.le_refl depth
  | m + 2 =>
      rw [List.take_of_length_le (by simp)]
      exact Nat.le_refl depth

theorem stays_escapeChar (c : Char) : Stays .inString (escapeChar c) := by
  unfold escapeChar
  split
  next => exact stays_escape '"'
  next hquote =>
  split
  next => exact stays_escape '\\'
  next hback =>
  split
  next => exact stays_escape 'b'
  next =>
  split
  next => exact stays_escape 't'
  next =>
  split
  next => exact stays_escape 'n'
  next =>
  split
  next => exact stays_escape 'f'
  next =>
  split
  next => exact stays_escape 'r'
  next =>
  split
  next hcontrol =>
    refine (stays_escape 'u').append (@stays_of_next _
      ['0', '0', Nat.digitChar (c.toNat / 16), Nat.digitChar (c.toNat % 16)] ?_)
    intro d hd depth
    have hplain : d ≠ '\\' ∧ d ≠ '"' := by
      simp only [List.mem_cons, List.not_mem_nil, or_false] at hd
      rcases hd with rfl | rfl | rfl | rfl
      · decide
      · decide
      · exact digitChar_plain (by omega)
      · exact digitChar_plain (by omega)
    simp [Scan.next, hplain]
  next =>
    apply stays_of_next
    intro d hd depth
    rw [List.mem_singleton.mp hd]
    simp [Scan.next, hquote, hback]

theorem stays_literal (text : String) : Stays .outside (literal text) :=
  @stays_wrap .outside .inString '"' '"' _
    (Stays.flatMap fun c _ => stays_escapeChar c) 0
    (fun _ => rfl) (fun _ => rfl)

/-- Neither a quotation mark nor a bracket. -/
def Plain (c : Char) : Prop :=
  c ≠ '"' ∧ c ≠ '{' ∧ c ≠ '[' ∧ c ≠ '}' ∧ c ≠ ']'

instance (c : Char) : Decidable (Plain c) :=
  inferInstanceAs (Decidable (_ ∧ _))

instance (chars : List Char) : Decidable (∀ c ∈ chars, Plain c) :=
  List.decidableBAll Plain chars

theorem stays_of_plain
    {chars : List Char} (hplain : ∀ c ∈ chars, Plain c) :
    Stays .outside chars := by
  apply stays_of_next
  intro c hc depth
  obtain ⟨hquote, hbrace, hbracket, hend, hstop⟩ := hplain c hc
  simp [Scan.next, hquote, hbrace, hbracket, hend, hstop]

theorem stays_newline (level : ℕ) : Stays .outside (newline level) := by
  apply stays_of_plain
  intro c hc
  rcases List.mem_cons.mp hc with rfl | hspace
  · decide
  · rw [List.eq_of_mem_replicate hspace]
    decide

theorem stays_number (n : ℕ) : Stays .outside (number n) := by
  apply stays_of_plain
  intro c hc
  have hdigit : c.isDigit = true :=
    Nat.isDigit_of_mem_toDigits (by decide) le_rfl (by simpa [number] using hc)
  refine ⟨?_, ?_, ?_, ?_, ?_⟩ <;> rintro rfl <;> simp at hdigit

theorem stays_bool (b : Bool) : Stays .outside (bool b) := by
  apply stays_of_plain
  cases b <;> decide

theorem Stays.intercalate
    {separator : List Char} {items : List (List Char)}
    (hseparator : Stays mode separator)
    (hitems : ∀ item ∈ items, Stays mode item) :
    Stays mode (separator.intercalate items) := by
  induction items with
  | nil => exact stays_nil
  | cons item items ih =>
      have hitem := hitems item (by simp)
      have hrest := ih fun other hmem => hitems other (by simp [hmem])
      cases items with
      | nil => simpa using hitem
      | cons other items =>
          rw [List.intercalate_cons_cons]
          exact (hitem.append hseparator).append hrest

theorem stays_items
    {items : List (List Char)} (hitems : ∀ item ∈ items, Stays .outside item)
    (level : ℕ) :
    Stays .outside ([','].intercalate (items.map (newline (level + 1) ++ ·)) ++
      newline level) := by
  refine Stays.append (Stays.intercalate (stays_of_plain (by decide)) ?_)
    (stays_newline level)
  intro line hline
  obtain ⟨item, hitem, rfl⟩ := List.mem_map.mp hline
  exact (stays_newline (level + 1)).append (hitems item hitem)

/-- Whatever stands between the brackets, they are the outermost ones. -/
theorem exists_bracketed
    {items : List (List Char)} (hitems : ∀ item ∈ items, Stays .outside item)
    (opening closing : Char) (level : ℕ) :
    ∃ body, bracketed opening closing level items =
        opening :: body ++ [closing] ∧ Stays .outside body := by
  unfold bracketed
  split
  next => exact ⟨[], rfl, stays_nil⟩
  next => exact ⟨_, rfl, stays_items hitems level⟩

theorem stays_array
    {items : List (List Char)} (hitems : ∀ item ∈ items, Stays .outside item)
    (level : ℕ) : Stays .outside (array level items) := by
  obtain ⟨body, hbody, hstays⟩ := exists_bracketed hitems '[' ']' level
  rw [array, hbody]
  exact @stays_wrap .outside .outside '[' ']' _ hstays 1
    (fun _ => rfl) (fun _ => rfl)

/-! ## Objects -/

/-- A text in braces, whose brackets and string literals end before the last
brace. -/
def IsObject (chars : List Char) : Prop :=
  ∃ body, chars = '{' :: body ++ ['}'] ∧ Stays .outside body

/-- A whole object is closed, and no proper prefix of it is. -/
theorem IsObject.closed_take_iff
    {chars : List Char} (hobject : IsObject chars) {n : ℕ} :
    Closed (chars.take n) ↔ chars.length ≤ n := by
  obtain ⟨body, rfl, hstays⟩ := hobject
  constructor
  · rintro ⟨hne, hclosed⟩
    by_contra hshort
    simp only [List.cons_append, List.length_cons, List.length_append,
      List.length_nil, Nat.not_le] at hshort
    cases n with
    | zero => simp at hne
    | succ n =>
        have hinside := @inside_of_wrap .outside .outside '{' '}' body hstays
          0 1 rfl n (by omega)
        rw [hclosed] at hinside
        simp at hinside
  · intro hlong
    rw [List.take_of_length_le hlong]
    exact ⟨by simp, scan_wrap hstays rfl rfl⟩

theorem isObject_object
    {entries : List (String × List Char)}
    (hentries : ∀ entry ∈ entries, Stays .outside entry.2) (level : ℕ) :
    IsObject (object level entries) := by
  apply exists_bracketed
  intro item hitem
  obtain ⟨entry, hentry, rfl⟩ := List.mem_map.mp hitem
  exact ((stays_literal entry.1).append (stays_of_plain (by decide))).append
    (hentries entry hentry)

end JsonText
