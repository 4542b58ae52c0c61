import SearchEvery.MaximalRuns
import Mathlib.Data.List.DropRight
import Mathlib.Tactic

/-!
# Texts with delimiters

Two ways in which a list is made of parts with a delimiter between them.  The
fields of a delimited text are its trimmed nonempty parts; joining parts with
a delimiter and a blank and taking the fields again takes the fields of every
part, and writing out every letter in units gives the fields in units.  A path
is a list of names with a separator before each, and a word which starts with
the separator occurs in it exactly where a name starts with the rest of the
word.
-/

namespace Delimited

variable {α : Type*}

/-! ## Trimming -/

def trim (blank : α → Bool) (text : List α) : List α :=
  ((text.dropWhile blank).reverse.dropWhile blank).reverse

theorem trim_eq_rdropWhile
    (blank : α → Bool) (text : List α) :
    trim blank text = (text.dropWhile blank).rdropWhile blank := rfl

theorem trim_eq_nil_iff
    {blank : α → Bool} {text : List α} :
    trim blank text = [] ↔ ∀ a ∈ text, blank a = true := by
  rw [trim_eq_rdropWhile, List.rdropWhile_eq_nil_iff]
  constructor
  · intro hall a ha
    rw [← List.takeWhile_append_dropWhile (p := blank) (l := text),
      List.mem_append] at ha
    rcases ha with hfront | hback
    · exact List.mem_takeWhile_imp hfront
    · exact hall a hback
  · intro hall a ha
    exact hall a ((List.dropWhile_sublist blank).mem ha)

theorem trim_cons_of_blank
    {blank : α → Bool} {a : α} (ha : blank a = true) (text : List α) :
    trim blank (a :: text) = trim blank text := by
  simp [trim, ha]

theorem trim_sublist
    (blank : α → Bool) (text : List α) :
    (trim blank text).Sublist text := by
  rw [trim_eq_rdropWhile]
  exact (List.rdropWhile_prefix blank _).sublist.trans
    (List.dropWhile_sublist blank)

theorem dropWhile_eq_self_of_front
    {p : α → Bool} {front text : List α} (hstarts : front <+: text)
    (htext : text.dropWhile p = text) :
    front.dropWhile p = front := by
  cases front with
  | nil => rfl
  | cons a front =>
      obtain ⟨rest, rfl⟩ := hstarts
      rw [List.cons_append, List.dropWhile_eq_self_iff] at htext
      have hhead : p a = false := by
        simpa using htext
      simp [hhead]

theorem trim_trim
    (blank : α → Bool) (text : List α) :
    trim blank (trim blank text) = trim blank text := by
  have hfront :
      (trim blank text).dropWhile blank = trim blank text :=
    dropWhile_eq_self_of_front (List.rdropWhile_prefix blank _)
      (List.dropWhile_idempotent blank text)
  rw [trim_eq_rdropWhile blank (trim blank text), hfront, trim_eq_rdropWhile,
    List.rdropWhile_idempotent]

/-! ## Fields -/

/-- The trimmed nonempty parts between the delimiters. -/
def fields (isDelim blank : α → Bool) (text : List α) : List (List α) :=
  ((text.splitOnP isDelim).map (trim blank)).filter fun part => !part.isEmpty

/-- A part which is a field of itself. -/
structure IsField (isDelim blank : α → Bool) (part : List α) : Prop where
  ne_nil : part ≠ []
  no_delim : ∀ a ∈ part, isDelim a = false
  trimmed : trim blank part = part

variable {isDelim blank : α → Bool}

theorem fields_append_cons
    {delim : α} (hdelim : isDelim delim = true) (front back : List α) :
    fields isDelim blank (front ++ delim :: back) =
      fields isDelim blank front ++ fields isDelim blank back := by
  simp [fields, List.splitOnP_append_cons front back hdelim]

theorem fields_cons_of_blank
    {a : α} (ha : isDelim a = false) (hblank : blank a = true)
    (text : List α) :
    fields isDelim blank (a :: text) = fields isDelim blank text := by
  unfold fields
  rw [List.splitOnP_cons_eq_if_modifyHead, if_neg (by simp [ha])]
  cases hsplit : text.splitOnP isDelim with
  | nil => exact (List.splitOnP_ne_nil isDelim text hsplit).elim
  | cons first rest =>
      rw [List.modifyHead_cons, List.map_cons, List.map_cons,
        trim_cons_of_blank hblank]

theorem isField_of_mem_fields
    {text part : List α} (hmem : part ∈ fields isDelim blank text) :
    IsField isDelim blank part := by
  obtain ⟨htrim, hne⟩ := List.mem_filter.mp hmem
  obtain ⟨piece, hpiece, rfl⟩ := List.mem_map.mp htrim
  refine ⟨by simpa using hne, ?_, trim_trim blank piece⟩
  intro a ha
  exact MaximalRuns.forall_of_mem_splitOnP hpiece a
    ((trim_sublist blank piece).mem ha)

theorem sublist_of_mem_splitOnP
    {text part : List α} (hpart : part ∈ text.splitOnP isDelim) :
    part.Sublist text := by
  induction text generalizing part with
  | nil =>
      simp only [List.splitOnP_nil, List.mem_singleton] at hpart
      rw [hpart]
  | cons a text ih =>
      rw [List.splitOnP_cons_eq_if_modifyHead] at hpart
      split at hpart
      next =>
        rcases List.mem_cons.mp hpart with rfl | hlater
        · exact List.nil_sublist _
        · exact (ih hlater).cons a
      next =>
        cases hsplit : text.splitOnP isDelim with
        | nil => exact (List.splitOnP_ne_nil isDelim text hsplit).elim
        | cons first rest =>
            rw [hsplit, List.modifyHead_cons] at hpart
            rcases List.mem_cons.mp hpart with rfl | hlater
            · exact (ih (by simp [hsplit])).cons_cons a
            · exact (ih (by simp [hsplit, hlater])).cons a

theorem sublist_of_mem_fields
    {text part : List α} (hmem : part ∈ fields isDelim blank text) :
    part.Sublist text := by
  obtain ⟨piece, hpiece, rfl⟩ := List.mem_map.mp (List.mem_filter.mp hmem).1
  exact (trim_sublist blank piece).trans (sublist_of_mem_splitOnP hpiece)

theorem IsField.fields_eq
    {part : List α} (hfield : IsField isDelim blank part) :
    fields isDelim blank part = [part] := by
  unfold fields
  rw [List.splitOnP_eq_singleton hfield.no_delim]
  simp [hfield.trimmed, hfield.ne_nil]

/-- Joining with a delimiter and a blank and taking the fields again takes the
fields of every part. -/
theorem fields_intercalate
    {delim space : α} (hdelim : isDelim delim = true)
    (hspace : isDelim space = false) (hblank : blank space = true)
    (parts : List (List α)) :
    fields isDelim blank ([delim, space].intercalate parts) =
      parts.flatMap (fields isDelim blank) := by
  induction parts with
  | nil => simp [fields, List.intercalate, trim]
  | cons part rest ih =>
      cases rest with
      | nil => simp [List.intercalate]
      | cons next rest =>
          rw [List.flatMap_cons, ← ih]
          have hjoin :
              [delim, space].intercalate (part :: next :: rest) =
                part ++ delim ::
                  (space :: [delim, space].intercalate (next :: rest)) := by
            simp [List.intercalate]
          rw [hjoin, fields_append_cons hdelim,
            fields_cons_of_blank hspace hblank]

theorem flatMap_fields_eq_self_iff
    (parts : List (List α)) :
    parts.flatMap (fields isDelim blank) = parts ↔
      ∀ part ∈ parts, IsField isDelim blank part := by
  constructor
  · intro hsame part hmem
    rw [← hsame, List.mem_flatMap] at hmem
    obtain ⟨origin, _, hfield⟩ := hmem
    exact isField_of_mem_fields hfield
  · intro hall
    induction parts with
    | nil => rfl
    | cons part rest ih =>
        rw [List.forall_mem_cons] at hall
        rw [List.flatMap_cons, hall.1.fields_eq, ih hall.2]
        rfl

/-! ## The same text in another spelling -/

section Spelling

variable {β : Type*} {spell : α → List β}

theorem dropWhile_flatMap
    {unitBlank : β → Bool} (hne : ∀ a, spell a ≠ [])
    (hblank : ∀ a, ∀ b ∈ spell a, unitBlank b = blank a) (text : List α) :
    (text.flatMap spell).dropWhile unitBlank =
      (text.dropWhile blank).flatMap spell := by
  induction text with
  | nil => rfl
  | cons a text ih =>
      rw [List.flatMap_cons]
      by_cases ha : blank a = true
      · have hall : ∀ b ∈ spell a, unitBlank b = true := by
          intro b hb
          rw [hblank a b hb, ha]
        rw [List.dropWhile_append_of_pos hall, ih, List.dropWhile_cons_of_pos ha]
      · obtain ⟨b, rest, hspell⟩ := List.exists_cons_of_ne_nil (hne a)
        have hb : ¬ unitBlank b = true := by
          rw [hblank a b (by simp [hspell])]
          exact ha
        rw [List.dropWhile_cons_of_neg ha, List.flatMap_cons, hspell,
          List.cons_append, List.dropWhile_cons_of_neg hb]

theorem trim_flatMap
    {unitBlank : β → Bool} (hne : ∀ a, spell a ≠ [])
    (hblank : ∀ a, ∀ b ∈ spell a, unitBlank b = blank a) (text : List α) :
    trim unitBlank (text.flatMap spell) =
      (trim blank text).flatMap spell := by
  have hback :
      ((text.dropWhile blank).reverse.flatMap
          (List.reverse ∘ spell)).dropWhile unitBlank =
        ((text.dropWhile blank).reverse.dropWhile blank).flatMap
          (List.reverse ∘ spell) := by
    apply dropWhile_flatMap
    · intro a
      simpa using hne a
    · intro a b hb
      exact hblank a b (by simpa using hb)
  unfold trim
  rw [dropWhile_flatMap hne hblank, List.reverse_flatMap, hback,
    List.reverse_flatMap]
  congr 1
  funext a
  simp

theorem splitOnP_append_of_no_delim
    {front : List α} (hfront : ∀ a ∈ front, isDelim a = false)
    (rest : List α) :
    (front ++ rest).splitOnP isDelim =
      (rest.splitOnP isDelim).modifyHead (front ++ ·) := by
  obtain ⟨first, later, hsplit⟩ :=
    List.exists_cons_of_ne_nil (List.splitOnP_ne_nil isDelim rest)
  induction front with
  | nil => simp [hsplit]
  | cons a front ih =>
      rw [List.forall_mem_cons] at hfront
      rw [List.cons_append, List.splitOnP_cons_eq_if_modifyHead,
        if_neg (by simp [hfront.1]), ih hfront.2, hsplit]
      rfl

theorem splitOnP_flatMap
    {unitDelim : β → Bool}
    (hdelim : ∀ a, isDelim a = true →
      ∃ b, spell a = [b] ∧ unitDelim b = true)
    (hletter : ∀ a, isDelim a = false → ∀ b ∈ spell a, unitDelim b = false)
    (text : List α) :
    (text.flatMap spell).splitOnP unitDelim =
      (text.splitOnP isDelim).map (List.flatMap spell) := by
  induction text with
  | nil => simp
  | cons a text ih =>
      rw [List.flatMap_cons, List.splitOnP_cons_eq_if_modifyHead]
      by_cases ha : isDelim a = true
      · obtain ⟨b, hspell, hb⟩ := hdelim a ha
        rw [if_pos ha, hspell, List.singleton_append,
          List.splitOnP_cons_eq_if_modifyHead, if_pos hb, ih]
        rfl
      · obtain ⟨first, later, hsplit⟩ :=
          List.exists_cons_of_ne_nil (List.splitOnP_ne_nil isDelim text)
        rw [if_neg ha,
          splitOnP_append_of_no_delim (hletter a (by simpa using ha)), ih,
          hsplit]
        simp

/-- The fields of a text stay the same when every letter is written out in
units, the delimiters as single delimiting units. -/
theorem fields_flatMap
    {unitDelim unitBlank : β → Bool} (hne : ∀ a, spell a ≠ [])
    (hdelim : ∀ a, isDelim a = true →
      ∃ b, spell a = [b] ∧ unitDelim b = true)
    (hletter : ∀ a, isDelim a = false → ∀ b ∈ spell a, unitDelim b = false)
    (hblank : ∀ a, ∀ b ∈ spell a, unitBlank b = blank a) (text : List α) :
    fields unitDelim unitBlank (text.flatMap spell) =
      (fields isDelim blank text).map (List.flatMap spell) := by
  have htrim :
      trim unitBlank ∘ List.flatMap spell =
        List.flatMap spell ∘ trim blank := by
    funext part
    exact trim_flatMap hne hblank part
  have hempty :
      (fun part => !part.isEmpty) ∘ List.flatMap spell =
        fun part => !part.isEmpty := by
    funext part
    cases part with
    | nil => rfl
    | cons a part => simp [hne a]
  unfold fields
  rw [splitOnP_flatMap hdelim hletter, List.map_map, htrim, ← List.map_map,
    List.filter_map, hempty]

theorem flatMap_intercalate
    (sep : List α) (parts : List (List α)) :
    (sep.intercalate parts).flatMap spell =
      (sep.flatMap spell).intercalate (parts.map (List.flatMap spell)) := by
  induction parts with
  | nil => rfl
  | cons part rest ih =>
      cases rest with
      | nil => simp
      | cons next rest =>
          rw [List.intercalate_cons_cons, List.flatMap_append,
            List.flatMap_append, ih, List.map_cons, List.map_cons,
            List.map_cons, List.intercalate_cons_cons]

end Spelling

/-! ## Names after separators -/

theorem prefix_append_cons_iff
    {sep : α} {word name rest : List α} (hword : sep ∉ word) :
    word <+: name ++ sep :: rest ↔ word <+: name := by
  constructor
  · rintro ⟨tail, htail⟩
    rw [List.append_eq_append_iff] at htail
    rcases htail with ⟨more, hname, _⟩ | ⟨more, hmore, hrest⟩
    · exact ⟨more, hname.symm⟩
    · cases more with
      | nil =>
          rw [List.append_nil] at hmore
          rw [hmore]
      | cons a more =>
          rw [List.cons_append, List.cons.injEq] at hrest
          exact (hword (by rw [hmore, hrest.1]; simp)).elim
  · exact fun hstarts => hstarts.trans (List.prefix_append _ _)

theorem cons_infix_append_iff
    {sep : α} {word base : List α} (hbase : sep ∉ base) (rest : List α) :
    sep :: word <:+: base ++ rest ↔ sep :: word <:+: rest := by
  induction base with
  | nil => rfl
  | cons a base ih =>
      rw [List.mem_cons, not_or] at hbase
      rw [List.cons_append, List.infix_cons_iff, ih hbase.2,
        List.cons_prefix_cons]
      simp [hbase.1]

theorem prefix_append_flatMap_iff
    {sep : α} {word : List α} (hword : sep ∉ word) (name : List α)
    (names : List (List α)) :
    word <+: name ++ names.flatMap (sep :: ·) ↔ word <+: name := by
  cases names with
  | nil => simp
  | cons next names =>
      rw [List.flatMap_cons, List.cons_append]
      exact prefix_append_cons_iff hword

/-- A word behind a separator occurs exactly where a name starts with it. -/
theorem cons_infix_path_iff
    {sep : α} {word base : List α} {names : List (List α)}
    (hword : sep ∉ word) (hbase : sep ∉ base)
    (hnames : ∀ name ∈ names, sep ∉ name) :
    sep :: word <:+: base ++ names.flatMap (sep :: ·) ↔
      ∃ name ∈ names, word <+: name := by
  rw [cons_infix_append_iff hbase]
  induction names with
  | nil => simp
  | cons name names ih =>
      rw [List.forall_mem_cons] at hnames
      rw [List.flatMap_cons, List.cons_append, List.infix_cons_iff,
        List.cons_prefix_cons, prefix_append_flatMap_iff hword,
        cons_infix_append_iff hnames.1, ih hnames.2]
      simp

end Delimited
