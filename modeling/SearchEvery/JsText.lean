import SearchEvery.MaximalRuns
import Mathlib.Tactic

/-!
# Strings of the front end

A string of the front end is a list of UTF-16 code units, and its length counts
them.  The file gives the two functions whose corner cases matter: `slice` with
an index which may be negative or beyond the end, and `split` at single units.
-/

namespace JsText

abbrev JsString := List UInt16

def unit (c : Char) : UInt16 := UInt16.ofNat c.toNat

/-- The code units of an ASCII text. -/
def ofAscii (text : String) : JsString := text.toList.map unit

/-- A property of all units of a string is checked one unit after the other,
not over all sixteen-bit numbers. -/
instance {p : UInt16 → Prop} [DecidablePred p] (text : JsString) :
    Decidable (∀ u ∈ text, p u) :=
  List.decidableBAll p text

section Slice

variable {α : Type*}

/-- An index counts from the end when it is negative, and stays within the
string. -/
def clampIndex (length : ℕ) (index : ℤ) : ℕ :=
  if index < 0 then (length + index).toNat else min index.toNat length

/-- `text.slice(start, stop)`. -/
def slice (text : List α) (start stop : ℤ) : List α :=
  (text.take (clampIndex text.length stop)).drop
    (clampIndex text.length start)

/-- `text.slice(start)`. -/
def sliceFrom (text : List α) (start : ℤ) : List α :=
  text.drop (clampIndex text.length start)

theorem clampIndex_zero (length : ℕ) : clampIndex length 0 = 0 := by
  simp [clampIndex]

theorem slice_zero_isPrefix
    (text : List α) (stop : ℤ) : slice text 0 stop <+: text := by
  rw [slice, clampIndex_zero, List.drop_zero]
  exact List.take_prefix _ _

theorem length_slice_zero
    {text : List α} {stop : ℤ} (hpos : 0 ≤ stop) (hle : stop ≤ text.length) :
    ((slice text 0 stop).length : ℤ) = stop := by
  rw [slice, clampIndex_zero, List.drop_zero, List.length_take, clampIndex,
    if_neg (by omega)]
  omega

theorem sliceFrom_isSuffix
    (text : List α) (start : ℤ) : sliceFrom text start <:+ text :=
  List.drop_suffix _ _

theorem length_sliceFrom
    {text : List α} {start : ℤ} (hpos : 0 ≤ start)
    (hle : start ≤ text.length) :
    ((sliceFrom text start).length : ℤ) = text.length - start := by
  rw [sliceFrom, List.length_drop, clampIndex, if_neg (by omega)]
  omega

end Slice

section Split

variable {α : Type*}

/-- The parts of a split, joined by one delimiter, are the text with every
delimiter replaced by that one. -/
theorem intercalate_splitOnP
    (isDelim : α → Bool) (delim : α) (text : List α) :
    [delim].intercalate (text.splitOnP isDelim) =
      text.map fun a => if isDelim a then delim else a := by
  induction text with
  | nil => simp [List.intercalate]
  | cons a text ih =>
      rw [List.splitOnP_cons_eq_if_modifyHead, List.map_cons]
      cases hsplit : text.splitOnP isDelim with
      | nil => exact (List.splitOnP_ne_nil isDelim text hsplit).elim
      | cons part rest =>
          rw [hsplit] at ih
          by_cases ha : isDelim a = true
          · rw [if_pos ha, if_pos ha, ← ih]
            simp [List.intercalate]
          · rw [if_neg ha, if_neg ha, ← ih, List.modifyHead_cons]
            cases rest <;> simp [List.intercalate]

theorem intercalate_append
    (delim : List α) {front back : List (List α)} (hfront : front ≠ [])
    (hback : back ≠ []) :
    delim.intercalate (front ++ back) =
      delim.intercalate front ++ delim ++ delim.intercalate back := by
  induction front with
  | nil => exact (hfront rfl).elim
  | cons part rest ih =>
      cases rest with
      | nil =>
          rw [List.singleton_append, List.intercalate_cons_of_ne_nil hback,
            List.intercalate_singleton]
      | cons next rest =>
          rw [List.cons_append, List.cons_append, List.intercalate_cons_cons,
            ← List.cons_append, ih (by simp), List.intercalate_cons_cons]
          simp

end Split

end JsText
