import SearchEvery.JsNumber
import Mathlib.Tactic

/-!
# Sizes of files, printed

`formatBytes` divides a size by 1024 until it is below 1024 or the unit is TB,
and rounds the quotient to the digits of its unit.  The unit is chosen before
the rounding.  The file reads the printed text back and says when the number in
it is normalised, and that the printed sizes are in the order of the sizes.
-/

namespace SearchEvery

open JsNumber

/-- An integer which the numbers of the front end hold exactly, together with
its quotients by powers of 1024. -/
structure SafeInteger where
  value : ℤ
  safe : |value| < 2 ^ 53

inductive SizeUnit
  | B
  | KB
  | MB
  | GB
  | TB
  deriving DecidableEq

def SizeUnit.all : List SizeUnit := [.B, .KB, .MB, .GB, .TB]

def SizeUnit.name : SizeUnit → String
  | .B => "B"
  | .KB => "KB"
  | .MB => "MB"
  | .GB => "GB"
  | .TB => "TB"

structure FormatOptions where
  digitsB : Option ℤ := none
  digitsKB : Option ℤ := none
  digitsMB : Option ℤ := none
  digitsGB : Option ℤ := none
  digitsTB : Option ℤ := none
  deriving DecidableEq

structure FormatConfig where
  digitsB : ℤ
  digitsKB : ℤ
  digitsMB : ℤ
  digitsGB : ℤ
  digitsTB : ℤ
  deriving DecidableEq

def FormatOptions.cfg (opts : FormatOptions) : FormatConfig where
  digitsB := opts.digitsB.getD 0
  digitsKB := opts.digitsKB.getD 0
  digitsMB := opts.digitsMB.getD 2
  digitsGB := opts.digitsGB.getD 2
  digitsTB := opts.digitsTB.getD 2

/-- The digits of a unit; those of B are asked for nowhere. -/
def FormatConfig.digits (cfg : FormatConfig) : SizeUnit → ℤ
  | .KB => cfg.digitsKB
  | .MB => cfg.digitsMB
  | .GB => cfg.digitsGB
  | _ => cfg.digitsTB

/-- The loop over the units, with those which are left. -/
def unitLoop : ℚ → SizeUnit → List SizeUnit → ℚ × SizeUnit
  | val, unit, [] => (val, unit)
  | val, unit, next :: rest =>
      if 1024 ≤ val then unitLoop (val / 1024) next rest else (val, unit)

/-- `formatBytes`; a number which is not finite is `none`. -/
def formatBytes (bytes : Option SafeInteger) (opts : FormatOptions) :
    Except JsError String :=
  match bytes with
  | none => .ok "-"
  | some bytes =>
      let abs : ℚ := |bytes.value|
      if abs < 1024 then .ok (toString (mathRound bytes.value) ++ " B")
      else
        let chosen := unitLoop (abs / 1024) .KB [.MB, .GB, .TB]
        let sign := if bytes.value < 0 then "-" else ""
        (toFixed chosen.1 (opts.cfg.digits chosen.2)).map fun number =>
          sign ++ number ++ " " ++ chosen.2.name

/-! ## Reading a printed size -/

def SizeUnit.power : SizeUnit → ℕ
  | .B => 0
  | .KB => 1
  | .MB => 2
  | .GB => 3
  | .TB => 4

/-- How many bytes a unit stands for. -/
def SizeUnit.bytes (unit : SizeUnit) : ℕ := 1024 ^ unit.power

/-- The number and the unit of a printed size. -/
def readSize (text : String) : Option (ℚ × SizeUnit) :=
  let parts := cutAt ' ' text.toList
  (SizeUnit.all.find? fun unit => unit.name.toList == parts.2).map fun unit =>
    (readDecimal parts.1, unit)

/-- The quantity which `formatBytes` displays. -/
def displayedBytes (bytes : SafeInteger) (opts : FormatOptions) : Option ℚ :=
  (formatBytes (some bytes) opts).toOption.bind fun text =>
    (readSize text).map fun size => size.1 * size.2.bytes

/-- Every given number of digits is one which `toFixed` admits. -/
def FormatOptions.InRange (opts : FormatOptions) : Prop :=
  ∀ given ∈ [opts.digitsB, opts.digitsKB, opts.digitsMB, opts.digitsGB,
    opts.digitsTB], ∀ digits ∈ given, 0 ≤ digits ∧ digits ≤ 100

theorem readSize_append
    {number : String} (hnumber : ' ' ∉ number.toList) (unit : SizeUnit) :
    readSize (number ++ " " ++ unit.name) =
      some (readDecimal number.toList, unit) := by
  have hparts : cutAt ' ' (number ++ " " ++ unit.name).toList =
      (number.toList, unit.name.toList) := by
    rw [String.toList_append, String.toList_append, List.append_assoc]
    exact cutAt_append hnumber _
  simp only [readSize, hparts]
  cases unit <;> rfl

theorem getD_inRange
    {given : Option ℤ} (hgiven : ∀ digits ∈ given, 0 ≤ digits ∧ digits ≤ 100)
    {default : ℤ} (hlow : 0 ≤ default) (hhigh : default ≤ 100) :
    0 ≤ given.getD default ∧ given.getD default ≤ 100 := by
  cases given with
  | none => exact ⟨hlow, hhigh⟩
  | some digits => exact hgiven digits rfl

theorem FormatOptions.InRange.digits
    {opts : FormatOptions} (hopts : opts.InRange) (unit : SizeUnit) :
    0 ≤ opts.cfg.digits unit ∧ opts.cfg.digits unit ≤ 100 := by
  cases unit <;>
    exact getD_inRange (hopts _ (by simp)) (by decide) (by decide)

/-! ## The chosen unit -/

/-- The size divided by the unit is at least one, and below 1024 unless the
unit is the last one. -/
structure SizeUnit.Holds (unit : SizeUnit) (size : ℚ) : Prop where
  lower : unit ≠ .B → 1 ≤ size / unit.bytes
  upper : unit ≠ .TB → size / unit.bytes < 1024

theorem SizeUnit.bytes_pos (unit : SizeUnit) : (0 : ℚ) < unit.bytes := by
  unfold SizeUnit.bytes
  positivity

/-- Each unit is 1024 of the one before, up to the last one. -/
def Ladder : SizeUnit → List SizeUnit → Prop
  | unit, [] => unit = .TB
  | unit, next :: rest => next.power = unit.power + 1 ∧ Ladder next rest

theorem div_bytes_of_power
    {unit next : SizeUnit} (hnext : next.power = unit.power + 1) (size : ℚ) :
    size / unit.bytes / 1024 = size / next.bytes := by
  rw [div_div, SizeUnit.bytes, SizeUnit.bytes, hnext, pow_succ]
  push_cast
  rfl

/-- The loop divides as long as the next unit still holds the size, by
induction on the units which are left. -/
theorem unitLoop_holds
    {size : ℚ} {unit : SizeUnit} {rest : List SizeUnit}
    (hladder : Ladder unit rest) (hlower : 1 ≤ size / unit.bytes) :
    ∃ chosen : SizeUnit, chosen.Holds size ∧
      unitLoop (size / unit.bytes) unit rest =
        (size / chosen.bytes, chosen) := by
  induction rest generalizing unit with
  | nil =>
      have hlast : unit = .TB := hladder
      exact ⟨unit, ⟨fun _ => hlower, fun hne => (hne hlast).elim⟩, rfl⟩
  | cons next rest ih =>
      obtain ⟨hnext, hladder⟩ := hladder
      unfold unitLoop
      by_cases hlarge : 1024 ≤ size / unit.bytes
      · rw [if_pos hlarge, div_bytes_of_power hnext]
        apply ih hladder
        rw [← div_bytes_of_power hnext, le_div_iff₀ (by norm_num), one_mul]
        exact hlarge
      · rw [if_neg hlarge]
        exact ⟨unit, ⟨fun _ => hlower, fun _ => not_le.mp hlarge⟩, rfl⟩

/-! ## What is printed -/

theorem toString_natCast (n : ℕ) :
    (toString (n : ℤ)).toList = Nat.toDigits 10 n := by
  have htext : toString (n : ℤ) = toString n := rfl
  rw [htext, Nat.toString_eq_repr, Nat.toList_repr]

theorem mathRound_natCast (n : ℕ) : mathRound n = n := by
  rw [mathRound, Int.floor_eq_iff]
  push_cast
  constructor
  · linarith
  · linarith

/-- The text prints the size as its rounded quotient by a unit which holds
it. -/
def PrintsSize (opts : FormatOptions) (size : ℚ) (text : String)
    (unit : SizeUnit) : Prop :=
  unit.Holds size ∧
    readSize text = some (rounded (opts.cfg.digits unit).toNat
      (size / unit.bytes), unit)

theorem printsSize_small
    {n : ℕ} (hsmall : (n : ℚ) < 1024) (opts : FormatOptions) :
    PrintsSize opts n (toString (n : ℤ) ++ " B") .B := by
  have hone : (n : ℚ) / SizeUnit.B.bytes = n := by
    simp [SizeUnit.bytes, SizeUnit.power]
  have hspace : ' ' ∉ (toString (n : ℤ)).toList := by
    rw [toString_natCast]
    exact not_mem_toDigits (by decide) n
  have htext : toString (n : ℤ) ++ " B" =
      toString (n : ℤ) ++ " " ++ SizeUnit.B.name := by
    rw [String.append_assoc]
    rfl
  refine ⟨⟨fun hne => (hne rfl).elim, fun _ => by rwa [hone]⟩, ?_⟩
  rw [htext, readSize_append hspace, toString_natCast, hone, rounded_natCast,
    readDecimal_toDigits]

theorem printsSize_large
    {n : ℕ} (hlarge : ¬ (n : ℚ) < 1024) {opts : FormatOptions}
    (hopts : opts.InRange) :
    ∃ number, ∃ unit : SizeUnit,
      unitLoop ((n : ℚ) / 1024) .KB [.MB, .GB, .TB] =
        ((n : ℚ) / unit.bytes, unit) ∧
      toFixed ((n : ℚ) / unit.bytes) (opts.cfg.digits unit) = .ok number ∧
      PrintsSize opts n (number ++ " " ++ unit.name) unit := by
  have hladder : Ladder .KB [.MB, .GB, .TB] := by
    simp [Ladder, SizeUnit.power]
  have hkb : (n : ℚ) / 1024 = n / SizeUnit.KB.bytes := by
    simp [SizeUnit.bytes, SizeUnit.power]
  have hlower : 1 ≤ (n : ℚ) / SizeUnit.KB.bytes := by
    rw [← hkb, le_div_iff₀ (by norm_num), one_mul]
    exact not_lt.mp hlarge
  obtain ⟨unit, hholds, hloop⟩ := unitLoop_holds hladder hlower
  obtain ⟨hlow, hhigh⟩ := hopts.digits unit
  have hquotient : 0 ≤ (n : ℚ) / unit.bytes := by positivity
  obtain ⟨number, hfixed, hspace, hread⟩ := toFixed_eq hquotient hlow hhigh
  refine ⟨number, unit, ?_, hfixed, hholds, ?_⟩
  · rw [hkb, hloop]
  · rw [readSize_append hspace, hread]

/-- A size which is not negative is printed as its rounded quotient by a unit
which holds it. -/
theorem formatBytes_spec
    {bytes : SafeInteger} (hpos : 0 ≤ bytes.value) {opts : FormatOptions}
    (hopts : opts.InRange) :
    ∃ text, ∃ unit : SizeUnit, formatBytes (some bytes) opts = .ok text ∧
      PrintsSize opts bytes.value text unit := by
  obtain ⟨n, hn⟩ := Int.eq_ofNat_of_zero_le hpos
  have hvalue : (bytes.value : ℚ) = n := by
    rw [hn]
    rfl
  have habs : |(bytes.value : ℚ)| = n := by
    rw [hvalue, Nat.abs_cast]
  simp only [formatBytes, habs]
  rw [hvalue]
  by_cases hsmall : (n : ℚ) < 1024
  · refine ⟨_, .B, ?_, printsSize_small hsmall opts⟩
    rw [if_pos hsmall, mathRound_natCast]
  · obtain ⟨number, unit, hloop, hfixed, hprints⟩ :=
      printsSize_large hsmall hopts
    refine ⟨_, unit, ?_, hprints⟩
    rw [if_neg hsmall, hloop, hfixed, if_neg (not_lt.mpr hpos)]
    simp [Except.map]

/-! ## Order -/

variable {small large : SizeUnit} {x y : ℚ}

theorem SizeUnit.Holds.bytes_le (hlarge : large.Holds y) (hne : large ≠ .B) :
    (large.bytes : ℚ) ≤ y := by
  have hlower := hlarge.lower hne
  rwa [le_div_iff₀ large.bytes_pos, one_mul] at hlower

theorem SizeUnit.power_inj (hpower : small.power = large.power) :
    small = large := by
  cases small <;> cases large <;> first | rfl | simp [SizeUnit.power] at hpower

theorem bytes_le_of_power_lt (hpower : small.power < large.power) :
    (1024 * small.bytes : ℚ) ≤ large.bytes := by
  have hpow : 1024 ^ (small.power + 1) ≤ 1024 ^ large.power :=
    Nat.pow_le_pow_right (by decide) hpower
  rw [pow_succ'] at hpow
  exact_mod_cast hpow

theorem ne_TB_of_power_lt (hpower : small.power < large.power) :
    small ≠ .TB := by
  rintro rfl
  cases large <;> simp [SizeUnit.power] at hpower

theorem ne_B_of_power_lt (hpower : small.power < large.power) :
    large ≠ .B := by
  rintro rfl
  simp [SizeUnit.power] at hpower

/-- The units of two sizes are in the order of the sizes. -/
theorem SizeUnit.Holds.power_le
    (hsmall : small.Holds x) (hlarge : large.Holds y) (hxy : x ≤ y) :
    small.power ≤ large.power := by
  by_contra hless
  have hpower : large.power < small.power := by omega
  have hbelow := hlarge.upper (ne_TB_of_power_lt hpower)
  have habove := hsmall.bytes_le (ne_B_of_power_lt hpower)
  have hgap := bytes_le_of_power_lt hpower
  rw [div_lt_iff₀ large.bytes_pos] at hbelow
  linarith

/-- Rounding does not reach beyond the next unit, nor below the own one. -/
theorem SizeUnit.Holds.rounded_mul_le
    (hsmall : small.Holds x) (hlarge : large.Holds y) (hxy : x ≤ y)
    (digits : SizeUnit → ℕ) :
    rounded (digits small) (x / small.bytes) * small.bytes ≤
      rounded (digits large) (y / large.bytes) * large.bytes := by
  rcases Nat.eq_or_lt_of_le (hsmall.power_le hlarge hxy) with heq | hpower
  · rw [SizeUnit.power_inj heq]
    have hquotient : x / large.bytes ≤ y / large.bytes :=
      div_le_div_of_nonneg_right hxy large.bytes_pos.le
    exact mul_le_mul_of_nonneg_right (rounded_mono _ hquotient)
      large.bytes_pos.le
  · have hbelow : rounded (digits small) (x / small.bytes) ≤ 1024 := by
      have hmono := rounded_mono (digits small)
        (hsmall.upper (ne_TB_of_power_lt hpower)).le
      rwa [show (1024 : ℚ) = (1024 : ℕ) by norm_num, rounded_natCast] at hmono
    have habove : 1 ≤ rounded (digits large) (y / large.bytes) :=
      one_le_rounded _ (hlarge.lower (ne_B_of_power_lt hpower))
    calc rounded (digits small) (x / small.bytes) * small.bytes
        ≤ 1024 * small.bytes :=
          mul_le_mul_of_nonneg_right hbelow small.bytes_pos.le
      _ ≤ large.bytes := bytes_le_of_power_lt hpower
      _ = 1 * large.bytes := (one_mul _).symm
      _ ≤ rounded (digits large) (y / large.bytes) * large.bytes :=
          mul_le_mul_of_nonneg_right habove large.bytes_pos.le

/-- Sizes are displayed in their order, whatever the digits. -/
theorem formatBytes_monotone
    {a b : SafeInteger} {opts : FormatOptions} (hpos : 0 ≤ a.value)
    (hab : a.value ≤ b.value) (hopts : opts.InRange) :
    ∃ shownA shownB, displayedBytes a opts = some shownA ∧
      displayedBytes b opts = some shownB ∧ shownA ≤ shownB := by
  obtain ⟨textA, unitA, hformatA, hholdsA, hreadA⟩ :=
    formatBytes_spec hpos hopts
  obtain ⟨textB, unitB, hformatB, hholdsB, hreadB⟩ :=
    formatBytes_spec (hpos.trans hab) hopts
  refine ⟨_, _, ?_, ?_, hholdsA.rounded_mul_le hholdsB (by exact_mod_cast hab)
    fun unit => (opts.cfg.digits unit).toNat⟩
  · rw [displayedBytes, hformatA, Except.toOption, Option.bind_some, hreadA,
      Option.map_some]
  · rw [displayedBytes, hformatB, Except.toOption, Option.bind_some, hreadB,
      Option.map_some]

def belowMib : SafeInteger := ⟨2 ^ 20 - 1, by norm_num⟩

def oneMib : SafeInteger := ⟨2 ^ 20, by norm_num⟩

theorem formatBytes_monotone_boundary :
    ∃ shownA shownB, displayedBytes belowMib ⟨none, some 1, some 0, none, none⟩ =
        some shownA ∧
      displayedBytes oneMib ⟨none, some 1, some 0, none, none⟩ = some shownB ∧
      shownA ≤ shownB :=
  formatBytes_monotone (by decide) (by decide)
    (by simp [FormatOptions.InRange])

/-! ## Normalised numbers -/

/-- The number in the text is below 1024 unless the unit is TB, and at least
one unless the size is zero. -/
def NormalisedText (bytes : SafeInteger) (text : String) : Prop :=
  ∃ number unit, readSize text = some (number, unit) ∧
    (unit ≠ .TB → number < 1024) ∧ (bytes.value ≠ 0 → 1 ≤ number)

/-- The sizes less than half a last place below 1024 of their unit. -/
def RoundsToNextUnit (size : ℤ) : Prop :=
  (1048064 ≤ size ∧ size < 2 ^ 20) ∨ (1073736582 ≤ size ∧ size < 2 ^ 30) ∨
    (1099506259067 ≤ size ∧ size < 2 ^ 40)

instance (size : ℤ) : Decidable (RoundsToNextUnit size) :=
  inferInstanceAs (Decidable (_ ∨ _))

theorem default_inRange : FormatOptions.InRange {} := by
  simp [FormatOptions.InRange]

theorem rounded_div_lt_iff
    (digits : ℕ) (size : ℤ) (unit : SizeUnit) :
    rounded digits (size / unit.bytes) < 1024 ↔
      2 * size * 10 ^ digits + unit.bytes < 2048 * 10 ^ digits * unit.bytes := by
  have hpos := unit.bytes_pos
  have hscaled : ((size : ℚ) / unit.bytes * 10 ^ digits + 1 / 2) *
      (2 * unit.bytes) = 2 * size * 10 ^ digits + unit.bytes := by
    field_simp
  rw [show (1024 : ℚ) = (1024 : ℕ) by norm_num, rounded_lt_iff,
    ← mul_lt_mul_iff_left₀ (show (0 : ℚ) < 2 * unit.bytes by positivity),
    hscaled]
  have hright : ((1024 : ℕ) : ℚ) * 10 ^ digits * (2 * unit.bytes) =
      2048 * 10 ^ digits * unit.bytes := by
    push_cast
    ring
  rw [hright]
  exact_mod_cast Iff.rfl

theorem SizeUnit.Holds.bounds
    {unit : SizeUnit} {size : ℤ} (hholds : unit.Holds size) :
    (unit ≠ .B → (unit.bytes : ℤ) ≤ size) ∧
      (unit ≠ .TB → size < 1024 * unit.bytes) := by
  constructor
  · intro hne
    exact_mod_cast hholds.bytes_le hne
  · intro hne
    have hupper := hholds.upper hne
    rw [div_lt_iff₀ unit.bytes_pos] at hupper
    exact_mod_cast hupper

theorem SizeUnit.Holds.one_le_div
    {unit : SizeUnit} {size : ℤ} (hholds : unit.Holds size) (hsize : 1 ≤ size) :
    (1 : ℚ) ≤ size / unit.bytes := by
  by_cases hB : unit = .B
  · rw [hB, SizeUnit.bytes, SizeUnit.power, pow_zero, Nat.cast_one, div_one]
    exact_mod_cast hsize
  · exact hholds.lower hB

/-- The number of a size is rounded up to 1024 only just below the next
unit. -/
theorem SizeUnit.Holds.rounded_lt_iff
    {unit : SizeUnit} {size : ℤ} (hholds : unit.Holds size) :
    (unit ≠ .TB → rounded ((FormatOptions.cfg {}).digits unit).toNat
        (size / unit.bytes) < 1024) ↔
      ¬ RoundsToNextUnit size := by
  obtain ⟨hlower, hupper⟩ := hholds.bounds
  rw [rounded_div_lt_iff, RoundsToNextUnit]
  cases unit <;>
    simp [SizeUnit.bytes, SizeUnit.power, FormatOptions.cfg,
      FormatConfig.digits] at hlower hupper ⊢ <;>
    omega

/-- The printed number is normalised except just below the next unit, where
the rounding gives 1024 of the smaller one. -/
theorem formatBytes_normalised_iff
    {bytes : SafeInteger} (hpos : 0 ≤ bytes.value) :
    (∃ text, formatBytes (some bytes) {} = .ok text ∧
      NormalisedText bytes text) ↔
      ¬ RoundsToNextUnit bytes.value := by
  obtain ⟨text, unit, hformat, hholds, hread⟩ :=
    formatBytes_spec hpos default_inRange
  have hone : bytes.value ≠ 0 → 1 ≤ rounded
      ((FormatOptions.cfg {}).digits unit).toNat
        (bytes.value / unit.bytes) :=
    fun hne => one_le_rounded _ (hholds.one_le_div (by omega))
  rw [← hholds.rounded_lt_iff]
  constructor
  · rintro ⟨other, hother, number, shown, hsize, hbelow, _⟩
    rw [hformat, Except.ok.injEq] at hother
    rw [← hother, hread, Option.some.injEq, Prod.mk.injEq] at hsize
    rw [hsize.1, hsize.2]
    exact hbelow
  · intro hbelow
    exact ⟨text, hformat, _, _, hread, hbelow, hone⟩

theorem formatBytes_normalised_oneMib :
    ∃ text, formatBytes (some oneMib) {} = .ok text ∧
      NormalisedText oneMib text :=
  (formatBytes_normalised_iff (by decide)).mpr (by decide)

/-- One byte below a megabyte is printed as 1024 kilobytes. -/
theorem formatBytes_prints_1024_KB :
    formatBytes (some belowMib) {} = .ok "1024 KB" ∧
      readSize "1024 KB" = some (1024, .KB) ∧
      ¬ NormalisedText belowMib "1024 KB" := by
  have hread : readSize "1024 KB" = some (1024, .KB) := by decide +kernel
  refine ⟨by decide +kernel, hread, ?_⟩
  rintro ⟨number, unit, hsize, hbelow, _⟩
  rw [hread, Option.some.injEq, Prod.mk.injEq] at hsize
  have hnumber := hbelow (by rw [← hsize.2]; decide)
  rw [← hsize.1] at hnumber
  exact absurd hnumber (lt_irrefl 1024)

end SearchEvery
