import SearchEvery.JsonRoundTrip
import SearchEvery.SerdeJson
import Mathlib.Tactic

/-!
# Typed fields of JSON objects

Values read as texts, lists, numbers and truth values, and a visitor which
takes the members of an object one after the other.  A field which has been
read is not read again.  A printer of objects and a reader of what they hold
meet the laws of values in files as soon as the reader takes the printed members
for the value.
-/

namespace JsonParse

open JsonText

variable {α β : Type}

def asText : Json → Option String
  | .string raw => (unescape raw).map String.ofList
  | _ => none

def asList (read : Json → Option α) : Json → Option (List α)
  | .array items => items.mapM read
  | _ => none

/-- An unsigned number of 32 bits, written without a sign, a fraction or an
exponent. -/
def asWord : Json → Option UInt32
  | .number written =>
      if written.all Char.isDigit ∧
          Nat.ofDigitChars 10 written 0 < UInt32.size then
        some (UInt32.ofNat (Nat.ofDigitChars 10 written 0))
      else none
  | _ => none

def asBool : Json → Option Bool
  | .bool b => some b
  | _ => none

def asOptional (read : Json → Option α) : Json → Option (Option α)
  | .null => some none
  | v => (read v).map some

/-- A field which has a value already is refused. -/
def once (seen : Option α) (read : Json → Option α) (v : Json) :
    Option (Option α) :=
  if seen.isSome then none else (read v).map some

def visitMember (visit : α → String → Json → Option α) (s : α)
    (m : List Char × Json) : Option α :=
  (unescape m.1).bind fun key => visit s (String.ofList key) m.2

def visitMembers (visit : α → String → Json → Option α) (s : α)
    (members : List (List Char × Json)) : Option α :=
  members.foldlM (visitMember visit) s

/-! ## Printed values -/

theorem Reads.eq
    {reader : Reader α} {chars : List Char} {a b : α}
    (ha : Reads reader chars a) (hb : Reads reader chars b) : a = b := by
  have hread := ha.read [] [] (by simp) boundary_nil
  rw [hb.read [] [] (by simp) boundary_nil] at hread
  exact (Prod.mk.inj (Option.some.inj hread)).1.symm

theorem asText_of_reads
    {text : String} {v : Json} (hreads : Reads readValue (literal text) v) :
    asText v = some text := by
  rw [hreads.eq (reads_literal text), asText, unescape_flatMap, Option.map_some,
    String.ofList_toList]

theorem asBool_of_reads
    {b : Bool} {v : Json} (hreads : Reads readValue (bool b) v) :
    asBool v = some b := by
  rw [hreads.eq (reads_bool b), asBool]

theorem asWord_of_reads
    {n : UInt32} {v : Json} (hreads : Reads readValue (number n.toNat) v) :
    asWord v = some n := by
  have hvalue : Nat.ofDigitChars 10 (number n.toNat) 0 = n.toNat := by
    rw [number_eq, Nat.ofDigitChars_ten_toDigits]
  have hdigits : (number n.toNat).all Char.isDigit :=
    List.all_eq_true.mpr fun c hc => isDigit_of_mem_number hc
  rw [hreads.eq (reads_number n.toNat), asWord, hvalue,
    if_pos ⟨hdigits, n.toNat_lt_size⟩, UInt32.ofNat_toNat]

theorem exists_reads_literals
    (texts : List String) :
    ∃ items, List.Forall₂ (Reads readValue) (texts.map literal) items ∧
      items.mapM asText = some texts := by
  induction texts with
  | nil => exact ⟨[], .nil, rfl⟩
  | cons text texts ih =>
      obtain ⟨items, hreads, hitems⟩ := ih
      have htext := asText_of_reads (reads_literal text)
      exact ⟨_, .cons (reads_literal text) hreads, by simp [htext, hitems]⟩

theorem exists_reads_texts
    (level : ℕ) (texts : List String) :
    ∃ v, Reads readValue (array level (texts.map literal)) v ∧
      asList asText v = some texts := by
  obtain ⟨items, hreads, hitems⟩ := exists_reads_literals texts
  exact ⟨_, reads_array hreads level, hitems⟩

theorem asList_of_reads
    {level : ℕ} {texts : List String} {v : Json}
    (hreads : Reads readValue (array level (texts.map literal)) v) :
    asList asText v = some texts := by
  obtain ⟨other, hother, hlist⟩ := exists_reads_texts level texts
  rw [hreads.eq hother, hlist]

theorem exists_readsMembers
    {entries : List (String × List Char)}
    (hentries : ∀ entry ∈ entries, ∃ v, Reads readValue entry.2 v) :
    ∃ members, List.Forall₂ ReadsMember entries members := by
  induction entries with
  | nil => exact ⟨[], .nil⟩
  | cons entry entries ih =>
      rw [List.forall_mem_cons] at hentries
      obtain ⟨v, hv⟩ := hentries.1
      obtain ⟨members, hmembers⟩ := ih hentries.2
      exact ⟨(_, v) :: members, .cons ⟨rfl, hv⟩ hmembers⟩

/-! ## Visits -/

theorem visitMember_of_reads
    (visit : α → String → Json → Option α) (s : α)
    {entry : String × List Char} {m : List Char × Json}
    (hreads : ReadsMember entry m) :
    visitMember visit s m = visit s entry.1 m.2 := by
  rw [visitMember, hreads.1, unescape_flatMap, Option.bind_some,
    String.ofList_toList]

/-! ## The laws -/

theorem lawful_of_entries
    {serde : SerdeJson α} {entries : α → List (String × List Char)}
    {fromJson : Json → Option α}
    (hprint : ∀ a, serde.toStringPretty a = String.ofList (object 0 (entries a)))
    (hfrom : ∀ text, serde.fromStr text = (parse text.toList).bind fromJson)
    (hstays : ∀ a, ∀ entry ∈ entries a, Stays .outside entry.2)
    (hreads : ∀ a, ∀ entry ∈ entries a, ∃ v, Reads readValue entry.2 v)
    (hback : ∀ a members, List.Forall₂ ReadsMember (entries a) members →
      fromJson (.object members) = some a) : serde.Lawful where
  prints a := by
    rw [hprint, String.toList_ofList]
    exact isObject_object (hstays a) 0
  reads_back a := by
    obtain ⟨members, hmembers⟩ := exists_readsMembers (hreads a)
    have hparse := parse_of_reads (reads_object hmembers 0)
    rw [hfrom, hprint, String.toList_ofList, hparse, Option.bind_some]
    exact hback a members hmembers
  closed text a hread := by
    rw [hfrom] at hread
    obtain ⟨v, hparse, _⟩ := Option.bind_eq_some_iff.mp hread
    exact parse_closed hparse

end JsonParse
