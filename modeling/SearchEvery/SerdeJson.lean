import SearchEvery.JsonText
import SearchEvery.Utf8
import Mathlib.Tactic

/-!
# Values in JSON files

A printer and a reader of JSON texts at one type, and what those who store
values in files rely on: a value is printed as an object, a printed value is
read back, and only closed texts are read.  Then the bytes of a value are read
back, and no proper prefix of them is read as any value.
-/

open Utf8

/-- `to_string_pretty` and `from_str` at the type of the value. -/
structure SerdeJson (α : Type) where
  toStringPretty : α → String
  fromStr : String → Option α

namespace SerdeJson

variable {α : Type}

structure Lawful (serde : SerdeJson α) : Prop where
  prints : ∀ a, JsonText.IsObject (serde.toStringPretty a).toList
  reads_back : ∀ a, serde.fromStr (serde.toStringPretty a) = some a
  closed : ∀ text a, serde.fromStr text = some a → JsonText.Closed text.toList

/-- What `fs::write` puts into the file. -/
def bytes (serde : SerdeJson α) (a : α) : List UInt8 :=
  encode (serde.toStringPretty a).toList

/-- `fs::read_to_string` and `from_str` on the bytes of a file. -/
def load (serde : SerdeJson α) (bytes : List UInt8) : Option α :=
  (String.fromUTF8? ⟨bytes.toArray⟩).bind serde.fromStr

variable {serde : SerdeJson α}

theorem Lawful.load_bytes
    (hserde : serde.Lawful) (a : α) : serde.load (serde.bytes a) = some a := by
  have hdecode : String.fromUTF8? ⟨(serde.bytes a).toArray⟩ =
      some (serde.toStringPretty a) :=
    fromUTF8?_eq_some_iff.mpr rfl
  rw [load, hdecode, Option.bind_some, hserde.reads_back]

/-- A cut may fall within a character as well as between two. -/
theorem Lawful.load_cut
    (hserde : serde.Lawful) {a : α} {n : ℕ} (hcut : n < (serde.bytes a).length) :
    serde.load ((serde.bytes a).take n) = none := by
  rw [load, Option.bind_eq_none_iff]
  intro text hdecode
  obtain ⟨hfront, hlength⟩ := fromUTF8?_take_encode_iff.mp hdecode
  by_contra hread
  obtain ⟨other, hother⟩ := Option.ne_none_iff_exists'.mp hread
  have hclosed := hserde.closed text other hother
  rw [List.prefix_iff_eq_take.mp hfront, (hserde.prints a).closed_take_iff]
    at hclosed
  have hwhole := hfront.eq_of_length (le_antisymm hfront.length_le hclosed)
  rw [hwhole] at hlength
  unfold bytes at hcut
  omega

/-- Of the bytes of a value, no proper prefix is read, and the whole is the
value. -/
theorem Lawful.load_take
    (hserde : serde.Lawful) (a : α) (n : ℕ) :
    serde.load ((serde.bytes a).take n) =
      if n < (serde.bytes a).length then none else some a := by
  split
  next hcut => exact hserde.load_cut hcut
  next hwhole =>
    rw [List.take_of_length_le (Nat.le_of_not_lt hwhole), hserde.load_bytes]

end SerdeJson
