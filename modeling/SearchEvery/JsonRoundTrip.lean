import SearchEvery.JsonParse
import Mathlib.Tactic

/-!
# Printed JSON is read back

The reader of JSON texts on what the indented notation prints.  A printed text
is read as its value with any blanks before it, and with anything behind it
which cannot continue a number; objects and arrays inherit this from their
items.
-/

namespace JsonParse

open JsonText

/-- The next character does not belong to a number. -/
def Boundary (rest : List Char) : Prop :=
  ∀ c ∈ rest.head?, c.isDigit = false ∧ c ≠ '.' ∧ c ≠ 'e' ∧ c ≠ 'E'

theorem boundary_nil : Boundary [] := by simp [Boundary]

theorem boundary_cons
    {c : Char} (hc : c.isDigit = false ∧ c ≠ '.' ∧ c ≠ 'e' ∧ c ≠ 'E')
    (rest : List Char) : Boundary (c :: rest) := by
  simpa [Boundary] using hc

/-- The text is read as the value, with blanks before it and whatever
follows. -/
structure Reads {α : Type} (reader : Reader α) (chars : List Char) (a : α) :
    Prop where
  head : ∃ c back, chars = c :: back ∧ isSpace c = false ∧ c ≠ ']' ∧ c ≠ '}'
  read : ∀ space rest, (∀ c ∈ space, isSpace c) → Boundary rest →
    reader (space ++ (chars ++ rest)) = some (a, rest)

theorem skipSpace_append
    {space : List Char} (hspace : ∀ c ∈ space, isSpace c) (chars : List Char) :
    skipSpace (space ++ chars) = skipSpace chars :=
  List.dropWhile_append_of_pos hspace

theorem skipSpace_cons
    {c : Char} (hc : isSpace c = false) (rest : List Char) :
    skipSpace (c :: rest) = c :: rest := by
  simp [skipSpace, hc]

theorem stringBody_cons
    {mode after : StringMode} {c : Char} {rest : List Char}
    (hnext : mode.next c = some after) (hgo : ¬(mode = .plain ∧ c = '"')) :
    stringBody mode (c :: rest) =
      (stringBody after rest).map (Prod.map (c :: ·) id) := by
  rw [stringBody, if_neg hgo, hnext, Option.bind_some]

theorem map_map_cons
    (result : Option (List Char × List Char)) (front back : List Char) :
    (result.map (Prod.map (back ++ ·) id)).map (Prod.map (front ++ ·) id) =
      result.map (Prod.map (front ++ back ++ ·) id) := by
  cases result with
  | none => rfl
  | some pair =>
      obtain ⟨raw, rest⟩ := pair
      simp

theorem stringBody_escape
    {c : Char} (hc : (escapeTarget c).isSome) (hu : c ≠ 'u')
    (rest : List Char) :
    stringBody .plain ('\\' :: c :: rest) =
      (stringBody .plain rest).map (Prod.map (['\\', c] ++ ·) id) := by
  rw [stringBody_cons (by rfl : StringMode.plain.next '\\' = some .escape)
      (by decide),
    stringBody_cons (by simp [StringMode.next, hu, hc] :
      StringMode.escape.next c = some .plain) (by simp)]
  exact map_map_cons _ ['\\'] [c]

theorem stringBody_hex
    {a b c d : Char} (ha : isHex a) (hb : isHex b) (hc : isHex c)
    (hd : isHex d) (rest : List Char) :
    stringBody .plain ('\\' :: 'u' :: a :: b :: c :: d :: rest) =
      (stringBody .plain rest).map
        (Prod.map (['\\', 'u', a, b, c, d] ++ ·) id) := by
  have hnext {left : ℕ} {x : Char} (hx : isHex x) :
      (StringMode.hex (left + 1)).next x = some (.hex left) := by
    simp [StringMode.next, hx]
  have hlast : (StringMode.hex 0).next d = some .plain := by
    simp [StringMode.next, hd]
  rw [stringBody_cons (by rfl : StringMode.plain.next '\\' = some .escape)
      (by decide),
    stringBody_cons (by rfl : StringMode.escape.next 'u' = some (.hex 3))
      (by simp),
    stringBody_cons (hnext ha) (by simp), stringBody_cons (hnext hb) (by simp),
    stringBody_cons (hnext hc) (by simp), stringBody_cons hlast (by simp)]
  cases stringBody .plain rest <;> rfl

theorem hexDigit_facts {n : ℕ} (hn : n < 16) :
    isHex (Nat.digitChar n) ∧ hexValue (Nat.digitChar n) = n := by
  have hall : ∀ m < 16,
      isHex (Nat.digitChar m) ∧ hexValue (Nat.digitChar m) = m := by decide
  exact hall n hn

/-- What an escaped character is: itself, an escape of one letter, or the four
hexadecimal digits of a control character. -/
theorem escapeChar_cases
    (c : Char) :
    (escapeChar c = [c] ∧ c ≠ '"' ∧ c ≠ '\\' ∧ ¬c.toNat < 32) ∨
      (∃ d, escapeChar c = ['\\', d] ∧ escapeTarget d = some c ∧ d ≠ 'u') ∨
      (escapeChar c = ['\\', 'u', '0', '0', Nat.digitChar (c.toNat / 16),
        Nat.digitChar (c.toNat % 16)] ∧ c.toNat < 32) := by
  unfold escapeChar
  split
  next hc => exact Or.inr (Or.inl ⟨_, rfl, by rw [hc]; rfl, by decide⟩)
  next hquote =>
  split
  next hc => exact Or.inr (Or.inl ⟨_, rfl, by rw [hc]; rfl, by decide⟩)
  next hback =>
  split
  next hc => exact Or.inr (Or.inl ⟨_, rfl, by rw [hc]; rfl, by decide⟩)
  next =>
  split
  next hc => exact Or.inr (Or.inl ⟨_, rfl, by rw [hc]; rfl, by decide⟩)
  next =>
  split
  next hc => exact Or.inr (Or.inl ⟨_, rfl, by rw [hc]; rfl, by decide⟩)
  next =>
  split
  next hc => exact Or.inr (Or.inl ⟨_, rfl, by rw [hc]; rfl, by decide⟩)
  next =>
  split
  next hc => exact Or.inr (Or.inl ⟨_, rfl, by rw [hc]; rfl, by decide⟩)
  next =>
  split
  next hc => exact Or.inr (Or.inr ⟨rfl, hc⟩)
  next hc => exact Or.inl ⟨rfl, hquote, hback, hc⟩

theorem stringBody_escapeChar
    (c : Char) (rest : List Char) :
    stringBody .plain (escapeChar c ++ rest) =
      (stringBody .plain rest).map (Prod.map (escapeChar c ++ ·) id) := by
  rcases escapeChar_cases c with ⟨hc, hquote, hback, hcontrol⟩ | hescape | hhex
  · rw [hc]
    exact stringBody_cons (by simp [StringMode.next, hback, hcontrol])
      (by simp [hquote])
  · obtain ⟨d, hd, htarget, hu⟩ := hescape
    rw [hd]
    exact stringBody_escape (by simp [htarget]) hu rest
  · rw [hhex.1]
    have hlow := hhex.2
    exact stringBody_hex (by rfl) (by rfl) (hexDigit_facts (by omega)).1
      (hexDigit_facts (by omega)).1 rest

theorem stringBody_flatMap
    (text rest : List Char) :
    stringBody .plain (text.flatMap escapeChar ++ '"' :: rest) =
      some (text.flatMap escapeChar, rest) := by
  induction text with
  | nil => rfl
  | cons c text ih =>
      rw [List.flatMap_cons, List.append_assoc, stringBody_escapeChar, ih]
      rfl

theorem unescapeFrom_escapeChar
    (c : Char) (rest : List Char) :
    unescapeFrom .plain none 0 (escapeChar c ++ rest) =
      (unescapeFrom .plain none 0 rest).map (c :: ·) := by
  rcases escapeChar_cases c with ⟨hc, _, hback, _⟩ | hescape | hhex
  · rw [hc, List.singleton_append, unescapeFrom, if_neg hback, if_pos rfl]
  · obtain ⟨d, hd, htarget, hu⟩ := hescape
    rw [hd]
    simp [unescapeFrom, hu, htarget]
  · obtain ⟨hescaped, hlow⟩ := hhex
    have hhigh := (hexDigit_facts (by omega : c.toNat / 16 < 16)).2
    have hrest := (hexDigit_facts (by omega : c.toNat % 16 < 16)).2
    have hzero : hexValue '0' = 0 := by decide
    have hjoin : joinUnit none c.toNat = some (none, [c]) := by
      rw [joinUnit, if_neg (by omega), if_neg (by omega), Char.ofNat_toNat]
    have hunit : 16 * (c.toNat / 16) + c.toNat % 16 = c.toNat :=
      Nat.div_add_mod c.toNat 16
    rw [hescaped]
    simp [unescapeFrom, hhigh, hrest, hzero, hunit, hjoin]

/-- The text of a printed string. -/
theorem unescape_flatMap
    (text : List Char) :
    unescape (text.flatMap escapeChar) = some text := by
  unfold unescape
  induction text with
  | nil => rfl
  | cons c text ih =>
      rw [List.flatMap_cons, unescapeFrom_escapeChar, ih, Option.map_some]

theorem reads_of_scalar
    {chars back : List Char} {c : Char} {v : Json} (hchars : chars = c :: back)
    (hspace : isSpace c = false)
    (hopen : c ≠ '[' ∧ c ≠ '{') (hclose : c ≠ ']' ∧ c ≠ '}')
    (hscalar : ∀ rest, Boundary rest →
      scalar (c :: (back ++ rest)) = some (v, rest)) :
    Reads readValue chars v where
  head := ⟨c, back, hchars, hspace, hclose⟩
  read space rest hblank hrest := by
    have hskip : skipSpace (space ++ (chars ++ rest)) = c :: (back ++ rest) := by
      rw [skipSpace_append hblank, hchars]
      exact skipSpace_cons hspace _
    rw [readValue, value_eq_scalar hskip hopen, hscalar rest hrest]

theorem reads_literal
    (text : String) :
    Reads readValue (literal text)
      (.string (text.toList.flatMap escapeChar)) := by
  apply @reads_of_scalar _ (text.toList.flatMap escapeChar ++ ['"']) '"' _ rfl
    (by decide) (by decide) (by decide)
  intro rest _
  rw [scalar, if_pos rfl, List.append_assoc, List.singleton_append,
    stringBody_flatMap]
  rfl

theorem keyword_append
    (word : String) (v : Json) (rest : List Char) :
    keyword word v (word.toList ++ rest) = some (v, rest) := by
  rw [keyword, if_pos (List.prefix_append ..), List.drop_left]

theorem reads_bool (b : Bool) : Reads readValue (bool b) (.bool b) := by
  cases b with
  | true =>
      exact @reads_of_scalar _ "rue".toList 't' _ rfl (by decide) (by decide)
        (by decide) fun rest _ => keyword_append "true" _ rest
  | false =>
      exact @reads_of_scalar _ "alse".toList 'f' _ rfl (by decide) (by decide)
        (by decide) fun rest _ => keyword_append "false" _ rest

theorem reads_null : Reads readValue "null".toList .null :=
  @reads_of_scalar _ "ull".toList 'n' _ rfl (by decide) (by decide) (by decide)
    fun rest _ => keyword_append "null" _ rest

theorem toDigits_head_eq_zero
    {n : ℕ} (hhead : (Nat.toDigits 10 n).head? = some '0') : n = 0 := by
  induction n using Nat.strong_induction_on with
  | _ n ih =>
      rcases lt_or_ge n 10 with hlt | hge
      · rw [Nat.toDigits_of_lt_base hlt] at hhead
        have hall : ∀ m < 10, [Nat.digitChar m].head? = some '0' → m = 0 := by
          decide
        exact hall n hlt hhead
      · rw [Nat.toDigits_of_base_le (by decide) hge, List.head?_append] at hhead
        cases hlead : (Nat.toDigits 10 (n / 10)).head? with
        | none => exact (Nat.toDigits_ne_nil (List.head?_eq_none_iff.mp hlead)).elim
        | some c =>
            rw [hlead, Option.some_or] at hhead
            have hzero := ih (n / 10) (by omega) (hlead.trans hhead)
            omega

theorem number_eq (n : ℕ) : number n = Nat.toDigits 10 n := by
  simp [number]

theorem isDigit_of_mem_number
    {n : ℕ} {c : Char} (hc : c ∈ number n) : c.isDigit :=
  Nat.isDigit_of_mem_toDigits (by decide) le_rfl (number_eq n ▸ hc)

theorem digits_append
    {run rest : List Char} (hne : run ≠ []) (hrun : ∀ c ∈ run, c.isDigit)
    (hrest : Boundary rest) : digits (run ++ rest) = some (run, rest) := by
  have hstop : rest.takeWhile Char.isDigit = [] ∧
      rest.dropWhile Char.isDigit = rest := by
    cases rest with
    | nil => simp
    | cons c rest =>
        have hc := (hrest c rfl).1
        simp [hc]
  unfold digits
  rw [List.takeWhile_append_of_pos hrun, List.dropWhile_append_of_pos hrun,
    hstop.1, hstop.2, List.append_nil, if_neg hne]

theorem optionally_of_boundary
    {starts : Char → Bool} {part : Reader (List Char)} {rest : List Char}
    (hrest : ∀ c ∈ rest.head?, starts c = false) :
    optionally starts part rest = some ([], rest) := by
  cases rest with
  | nil => rfl
  | cons c rest => simp [optionally, hrest c rfl]

theorem numberText_number
    (n : ℕ) {rest : List Char} (hrest : Boundary rest) :
    numberText (number n ++ rest) = some (number n, rest) := by
  have hne : number n ≠ [] := number_eq n ▸ Nat.toDigits_ne_nil
  have hsign : optionally (· == '-') nothing (number n ++ rest) =
      some ([], number n ++ rest) := by
    apply optionally_of_boundary
    intro c hc
    rw [List.head?_append_of_ne_nil _ hne] at hc
    have hdigit := isDigit_of_mem_number (List.mem_of_mem_head? hc)
    rw [beq_eq_false_iff_ne]
    rintro rfl
    simp at hdigit
  have hinteger : integerPart (number n ++ rest) = some (number n, rest) := by
    rw [integerPart, digits_append hne (fun c hc => isDigit_of_mem_number hc)
      hrest, Option.filter_some, if_pos]
    by_cases hhead : (number n).head? = some '0'
    · have hzero := toDigits_head_eq_zero (number_eq n ▸ hhead)
      simp [hzero, number_eq]
    · simp [hhead]
  have hfraction : fractionPart rest = some ([], rest) :=
    optionally_of_boundary fun c hc => by simp [(hrest c hc).2.1]
  have hexponent : exponentPart rest = some ([], rest) :=
    optionally_of_boundary fun c hc => by
      simp [(hrest c hc).2.2.1, (hrest c hc).2.2.2]
  simp [numberText, andThen, hsign, hinteger, hfraction, hexponent]

theorem reads_number
    (n : ℕ) : Reads readValue (number n) (.number (number n)) := by
  cases hchars : number n with
  | nil => exact (Nat.toDigits_ne_nil (number_eq n ▸ hchars)).elim
  | cons c back =>
      have hdigit : c.isDigit := isDigit_of_mem_number (hchars ▸ List.mem_cons_self)
      have hother {d : Char} (hd : d.isDigit = false) : c ≠ d := by
        rintro rfl
        simp [hdigit] at hd
      apply reads_of_scalar rfl
      · simp [isSpace, hother (by decide : ' '.isDigit = false),
          hother (by decide : '\n'.isDigit = false),
          hother (by decide : '\t'.isDigit = false),
          hother (by decide : '\r'.isDigit = false)]
      · exact ⟨hother (by decide), hother (by decide)⟩
      · exact ⟨hother (by decide), hother (by decide)⟩
      · intro rest hrest
        rw [scalar, if_neg (hother (by decide)), if_neg (hother (by decide)),
          if_neg (hother (by decide)), if_neg (hother (by decide)),
          ← List.cons_append, ← hchars, numberText_number n hrest]
        rfl

theorem blank_of_mem_newline
    {level : ℕ} {c : Char} (hc : c ∈ newline level) : isSpace c := by
  rcases List.mem_cons.mp hc with rfl | hspace
  · decide
  · rw [List.eq_of_mem_replicate hspace]
    decide

theorem boundary_newline (level : ℕ) (rest : List Char) :
    Boundary (newline level ++ rest) :=
  boundary_cons (by decide) _

theorem intercalate_eq_flatMap
    (line : List Char) (lines : List (List Char)) :
    [','].intercalate (line :: lines) =
      line ++ lines.flatMap fun other => ',' :: other := by
  induction lines generalizing line with
  | nil => simp
  | cons other lines ih =>
      rw [List.intercalate_cons_cons, ih, List.flatMap_cons]
      simp

section Items

variable {α : Type} {item : Reader α} {closing : Char}

theorem sepItems_lines
    (hclosing : closing = ']' ∨ closing = '}') {text : List Char} {a : α}
    (hfirst : Reads item text a) {texts : List (List Char)} {items : List α}
    (hreads : List.Forall₂ (Reads item) texts items) (level : ℕ)
    {space : List Char} (hspace : ∀ c ∈ space, isSpace c) (rest : List Char) :
    sepItems item closing (texts.length + 1) (space ++ (text ++
        (texts.flatMap (fun other => ',' :: (newline (level + 1) ++ other)) ++
          (newline level ++ closing :: rest)))) = some (a :: items, rest) := by
  have hblank : isSpace closing = false := by
    rcases hclosing with rfl | rfl <;> rfl
  have hcomma : ',' ≠ closing := by
    rcases hclosing with rfl | rfl <;> decide
  induction hreads generalizing text a space with
  | nil =>
      have hskip : skipSpace (newline level ++ closing :: rest) =
          closing :: rest := by
        rw [skipSpace_append fun c => blank_of_mem_newline, skipSpace_cons hblank]
      rw [sepItems, List.flatMap_nil, List.nil_append,
        hfirst.read space _ hspace (boundary_newline level _)]
      simp [hskip]
  | @cons next b texts items hnext _ ih =>
      have hrest := ih hnext fun c hc => @blank_of_mem_newline (level + 1) c hc
      rw [sepItems, List.flatMap_cons, List.cons_append, List.append_assoc,
        List.cons_append, List.append_assoc,
        hfirst.read space _ hspace (boundary_cons (by decide) _)]
      simp only [Option.bind_some, skipSpace_cons (by decide : isSpace ',' = false),
        if_neg hcomma, if_pos, List.length_cons, List.append_assoc, hrest,
        Option.map_some]
      rfl

theorem bracketedItems_bracketed
    (hitem : Sound item) (hclosing : closing = ']' ∨ closing = '}')
    {texts : List (List Char)} {items : List α}
    (hreads : List.Forall₂ (Reads item) texts items)
    (opening : Char) (level : ℕ) (rest : List Char) :
    ∃ inside, bracketed opening closing level texts ++ rest =
        opening :: inside ∧
      bracketedItems item closing inside = some (items, rest) := by
  have hblank : isSpace closing = false := by
    rcases hclosing with rfl | rfl <;> rfl
  cases hreads with
  | nil =>
      refine ⟨closing :: rest, rfl, ?_⟩
      simp [bracketedItems, skipSpace_cons hblank]
  | @cons text a texts items hfirst hothers =>
      obtain ⟨c, back, hchars, hspace, hbracket, hbrace⟩ := hfirst.head
      have hc : c ≠ closing := by
        rcases hclosing with rfl | rfl
        · exact hbracket
        · exact hbrace
      refine ⟨newline (level + 1) ++ (text ++
        (texts.flatMap (fun other => ',' :: (newline (level + 1) ++ other)) ++
          (newline level ++ closing :: rest))), ?_, ?_⟩
      · rw [bracketed, if_neg (List.cons_ne_nil _ _), List.map_cons,
          intercalate_eq_flatMap, List.flatMap_map]
        simp
      · have hlines := sepItems_lines hclosing hfirst hothers level
          (by simp : ∀ c ∈ ([] : List Char), isSpace c) rest
        unfold bracketedItems
        rw [skipSpace_append fun c => blank_of_mem_newline]
        rw [List.nil_append, hchars, List.cons_append] at hlines
        rw [hchars, List.cons_append, skipSpace_cons hspace]
        simp only [if_neg hc]
        refine sepItems_enough hitem (fun _ _ _ => id) le_rfl ?_ hlines
        rw [List.length_append]
        exact Nat.le_add_left _ _

end Items

theorem reads_array
    {texts : List (List Char)} {items : List Json}
    (hreads : List.Forall₂ (Reads readValue) texts items) (level : ℕ) :
    Reads readValue (array level texts) (.array items) where
  head := by
    obtain ⟨inside, hinside, _⟩ := bracketedItems_bracketed readValue_sound
      (Or.inl rfl) hreads '[' level []
    rw [List.append_nil] at hinside
    exact ⟨'[', inside, hinside, by decide, by decide, by decide⟩
  read space rest hspace _ := by
    obtain ⟨inside, hinside, hitems⟩ := bracketedItems_bracketed
      readValue_sound (Or.inl rfl) hreads '[' level rest
    have hskip : skipSpace (space ++ (array level texts ++ rest)) =
        '[' :: inside := by
      rw [skipSpace_append hspace, array, hinside]
      exact skipSpace_cons (by decide) _
    apply @readValue_of_value (inside.length + 1)
    rw [value]
    simp only [hskip, if_pos]
    rw [bracketedItems_enough readValue_sound (fun chars r hsize hread =>
      value_enough (le_trans (min_le_left _ _) hsize) hread) le_rfl hitems]
    rfl

/-- The members of an object, keys and values. -/
def ReadsMember (entry : String × List Char) (m : List Char × Json) : Prop :=
  m.1 = entry.1.toList.flatMap escapeChar ∧ Reads readValue entry.2 m.2

theorem reads_member
    {entry : String × List Char} {m : List Char × Json}
    (hentry : ReadsMember entry m) :
    Reads (member readValue) (literal entry.1 ++ [':', ' '] ++ entry.2) m where
  head := ⟨'"', _, rfl, by decide, by decide, by decide⟩
  read space rest hspace hrest := by
    obtain ⟨key, v⟩ := m
    obtain ⟨hkey, hvalue⟩ := hentry
    dsimp only at hkey
    have hskip : skipSpace (space ++
        (literal entry.1 ++ [':', ' '] ++ entry.2 ++ rest)) =
        '"' :: (key ++ '"' :: ':' :: ([' '] ++ (entry.2 ++ rest))) := by
      rw [skipSpace_append hspace, literal, hkey]
      simp [skipSpace_cons (by decide : isSpace '"' = false)]
    unfold member
    simp only [hskip, if_pos]
    rw [hkey, stringBody_flatMap, Option.bind_some]
    simp only [skipSpace_cons (by decide : isSpace ':' = false), if_pos]
    rw [hvalue.read [' '] rest (List.forall_mem_singleton.mpr rfl) hrest]
    rfl

theorem reads_object
    {entries : List (String × List Char)} {members : List (List Char × Json)}
    (hentries : List.Forall₂ ReadsMember entries members) (level : ℕ) :
    Reads readValue (object level entries) (.object members) where
  head := by
    obtain ⟨inside, hinside, _⟩ := bracketedItems_bracketed
      (member_sound readValue_sound) (Or.inr rfl)
      (List.forall₂_map_left_iff.mpr (hentries.imp fun _ _ => reads_member))
      '{' level []
    rw [List.append_nil] at hinside
    exact ⟨'{', inside, hinside, by decide, by decide, by decide⟩
  read space rest hspace _ := by
    obtain ⟨inside, hinside, hitems⟩ := bracketedItems_bracketed
      (member_sound readValue_sound) (Or.inr rfl)
      (List.forall₂_map_left_iff.mpr (hentries.imp fun _ _ => reads_member))
      '{' level rest
    have hskip : skipSpace (space ++ (object level entries ++ rest)) =
        '{' :: inside := by
      rw [skipSpace_append hspace, object, hinside]
      exact skipSpace_cons (by decide) _
    apply @readValue_of_value (inside.length + 1)
    rw [value]
    simp only [hskip, if_neg (by decide : ('{' : Char) ≠ '['), if_pos]
    rw [bracketedItems_enough (member_sound readValue_sound)
      (fun chars r hsize => member_enough (fun inner s hinner hread =>
        value_enough (le_trans (min_le_left _ _) hinner) hread) hsize)
      le_rfl hitems]
    rfl

theorem parse_of_reads
    {chars : List Char} {v : Json} (hreads : Reads readValue chars v) :
    parse chars = some v := by
  have hread := hreads.read [] [] (by simp) boundary_nil
  rw [List.nil_append, List.append_nil] at hread
  rw [parse, hread, Option.bind_some]
  rfl

end JsonParse
