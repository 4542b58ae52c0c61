import Mathlib.Data.List.TakeWhile
import Mathlib.Data.Rat.Floor
import Mathlib.Tactic

/-!
# Numbers of the front end, printed

The decimal texts which `toFixed` prints, for numbers on which the arithmetic
of the front end is exact.  A number is rounded to the nearest multiple of the
last place, the larger of two, and the text is read back as a rational number.
-/

namespace JsNumber

inductive JsError
  | rangeError
  deriving DecidableEq

/-- `Math.round`. -/
def mathRound (x : ℚ) : ℤ := ⌊x + 1 / 2⌋

/-! ## Fixed notation -/

/-- The nearest multiple of the last place, counted in last places. -/
def lastPlaces (digits : ℕ) (x : ℚ) : ℤ := ⌊x * 10 ^ digits + 1 / 2⌋

/-- The digits of a number, with zeros in front so that one of them stands
before the point. -/
def paddedDigits (digits n : ℕ) : List Char :=
  List.replicate (digits + 1 - (Nat.toDigits 10 n).length) '0' ++
    Nat.toDigits 10 n

/-- So many last places in decimal notation. -/
def fixedText (digits n : ℕ) : List Char :=
  if digits = 0 then Nat.toDigits 10 n
  else
    let k := (paddedDigits digits n).length - digits
    (paddedDigits digits n).take k ++ '.' :: (paddedDigits digits n).drop k

/-- `x.toFixed(digits)` for a number below `1e21`. -/
def toFixed (x : ℚ) (digits : ℤ) : Except JsError String :=
  if digits < 0 ∨ 100 < digits then .error .rangeError
  else if x < 0 then
    .ok ("-" ++ String.ofList
      (fixedText digits.toNat (lastPlaces digits.toNat (-x)).toNat))
  else
    .ok (String.ofList
      (fixedText digits.toNat (lastPlaces digits.toNat x).toNat))

example : toFixed (3 / 2) 0 = .ok "2" ∧ toFixed (1 / 8) 2 = .ok "0.13" ∧
    toFixed (-1 / 200) 1 = .ok "-0.0" ∧ toFixed 1 101 = .error .rangeError := by
  decide +kernel

/-! ## Reading a text -/

/-- The text before the first occurrence of a character, and the text after
it. -/
def cutAt (c : Char) (chars : List Char) : List Char × List Char :=
  (chars.takeWhile (· != c), (chars.dropWhile (· != c)).tail)

/-- The number which a decimal text denotes. -/
def readDecimal (chars : List Char) : ℚ :=
  let parts := cutAt '.' chars
  Nat.ofDigitChars 10 (parts.1 ++ parts.2) 0 / 10 ^ parts.2.length

theorem forall_bne
    {c : Char} {chars : List Char} (hchars : c ∉ chars) :
    ∀ a ∈ chars, (a != c) = true := by
  intro a ha
  rw [bne_iff_ne]
  rintro rfl
  exact hchars ha

theorem cutAt_append
    {c : Char} {front : List Char} (hfront : c ∉ front) (back : List Char) :
    cutAt c (front ++ c :: back) = (front, back) := by
  rw [cutAt, List.takeWhile_append_of_pos (forall_bne hfront),
    List.dropWhile_append_of_pos (forall_bne hfront)]
  simp

theorem cutAt_of_not_mem
    {c : Char} {chars : List Char} (hchars : c ∉ chars) :
    cutAt c chars = (chars, []) := by
  rw [cutAt, List.takeWhile_eq_self_iff.mpr (forall_bne hchars),
    List.dropWhile_eq_nil_iff.mpr (forall_bne hchars)]
  rfl

theorem not_mem_toDigits
    {c : Char} (hc : c.isDigit = false) (n : ℕ) : c ∉ Nat.toDigits 10 n := by
  intro hmem
  have hdigit : c.isDigit = true :=
    Nat.isDigit_of_mem_toDigits (by decide) le_rfl hmem
  rw [hc] at hdigit
  contradiction

theorem not_mem_paddedDigits
    {c : Char} (hc : c.isDigit = false) (digits n : ℕ) :
    c ∉ paddedDigits digits n := by
  rw [paddedDigits, List.mem_append, List.mem_replicate, not_or]
  refine ⟨?_, not_mem_toDigits hc n⟩
  rintro ⟨_, rfl⟩
  contradiction

theorem not_mem_fixedText
    {c : Char} (hc : c.isDigit = false) (hpoint : c ≠ '.') (digits n : ℕ) :
    c ∉ fixedText digits n := by
  have hpadded := not_mem_paddedDigits hc digits n
  unfold fixedText
  split
  next => exact not_mem_toDigits hc n
  next =>
    rw [List.mem_append, List.mem_cons, not_or, not_or]
    exact ⟨fun hmem => hpadded (List.mem_of_mem_take hmem), hpoint,
      fun hmem => hpadded (List.mem_of_mem_drop hmem)⟩

theorem readDecimal_toDigits (n : ℕ) :
    readDecimal (Nat.toDigits 10 n) = n := by
  rw [readDecimal, cutAt_of_not_mem (not_mem_toDigits (by decide) n)]
  simp

/-- A text in fixed notation denotes the last places it was made of. -/
theorem readDecimal_fixedText (digits n : ℕ) :
    readDecimal (fixedText digits n) = n / 10 ^ digits := by
  unfold fixedText
  split
  next hzero =>
    rw [readDecimal_toDigits, hzero]
    simp
  next =>
    have hlong : digits + 1 ≤ (paddedDigits digits n).length := by
      rw [paddedDigits, List.length_append, List.length_replicate]
      omega
    have hvalue : Nat.ofDigitChars 10 (paddedDigits digits n) 0 = n := by
      rw [paddedDigits, Nat.ofDigitChars_append,
        Nat.ofDigitChars_replicate_zero, Nat.mul_zero,
        Nat.ofDigitChars_ten_toDigits]
    have hpoint := not_mem_paddedDigits (show '.'.isDigit = false by decide)
      digits n
    rw [readDecimal, cutAt_append fun hmem =>
      hpoint (List.mem_of_mem_take hmem), List.take_append_drop, hvalue,
      List.length_drop, Nat.sub_sub_self (by omega)]

/-! ## Rounding -/

/-- The number which `toFixed` shows. -/
def rounded (digits : ℕ) (x : ℚ) : ℚ := lastPlaces digits x / 10 ^ digits

theorem lastPlaces_nonneg
    (digits : ℕ) {x : ℚ} (hx : 0 ≤ x) : 0 ≤ lastPlaces digits x := by
  apply Int.floor_nonneg.mpr
  positivity

theorem rounded_mono (digits : ℕ) {x y : ℚ} (hxy : x ≤ y) :
    rounded digits x ≤ rounded digits y := by
  unfold rounded lastPlaces
  gcongr

/-- A whole number is shown as it is. -/
theorem rounded_natCast (digits n : ℕ) : rounded digits n = n := by
  have hplaces : lastPlaces digits n = ((n * 10 ^ digits : ℕ) : ℤ) := by
    rw [lastPlaces, Int.floor_eq_iff]
    push_cast
    constructor
    · linarith
    · linarith
  rw [rounded, hplaces]
  push_cast
  field_simp

theorem one_le_rounded (digits : ℕ) {x : ℚ} (hx : 1 ≤ x) :
    1 ≤ rounded digits x := by
  have hmono := rounded_mono digits hx
  rwa [show (1 : ℚ) = (1 : ℕ) by norm_num, rounded_natCast] at hmono

theorem rounded_lt_iff
    (digits n : ℕ) (x : ℚ) :
    rounded digits x < n ↔ x * 10 ^ digits + 1 / 2 < n * 10 ^ digits := by
  have hpos : (0 : ℚ) < 10 ^ digits := by positivity
  rw [rounded, div_lt_iff₀ hpos]
  have hcast : (n : ℚ) * 10 ^ digits = ((n * 10 ^ digits : ℕ) : ℤ) := by
    push_cast
    rfl
  rw [hcast, Int.cast_lt, lastPlaces, Int.floor_lt]

/-- What `toFixed` prints is the rounded number. -/
theorem toFixed_eq
    {x : ℚ} (hx : 0 ≤ x) {digits : ℤ} (hlow : 0 ≤ digits)
    (hhigh : digits ≤ 100) :
    ∃ text, toFixed x digits = .ok text ∧ ' ' ∉ text.toList ∧
      readDecimal text.toList = rounded digits.toNat x := by
  have hplaces := lastPlaces_nonneg digits.toNat hx
  refine ⟨String.ofList
    (fixedText digits.toNat (lastPlaces digits.toNat x).toNat), ?_, ?_, ?_⟩
  · rw [toFixed, if_neg (by omega), if_neg (not_lt.mpr hx)]
  · rw [String.toList_ofList]
    exact not_mem_fixedText (by decide) (by decide) _ _
  · rw [String.toList_ofList, readDecimal_fixedText, rounded]
    have hcast : ((lastPlaces digits.toNat x).toNat : ℚ) =
        lastPlaces digits.toNat x := by
      exact_mod_cast Int.toNat_of_nonneg hplaces
    rw [hcast]

end JsNumber
