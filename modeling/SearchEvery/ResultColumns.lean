import SearchEvery.FormatBytes
import SearchEvery.SearchPage
import Mathlib.Tactic

/-!
# The columns of the result table

The table prints the score, the size and the age of a row, each in a text that
is rounded in its own way.  A table which is sorted by one of the columns shows
the texts of this column in that order: rounding and the change from one unit
to the next never turn two rows around.
-/

namespace SearchEvery

open JsNumber

/-! ## Ages -/

inductive AgeUnit
  | second
  | minute
  | hour
  | day
  deriving DecidableEq

def AgeUnit.all : List AgeUnit := [.second, .minute, .hour, .day]

def AgeUnit.seconds : AgeUnit → ℕ
  | .second => 1
  | .minute => 60
  | .hour => 3600
  | .day => 86400

def AgeUnit.suffix : AgeUnit → String
  | .second => "秒前"
  | .minute => "分钟前"
  | .hour => "小时前"
  | .day => "天前"

/-- `formatRelativeTs` at a time in milliseconds; `formatTs` prints the
absolute time. -/
def formatRelativeTs (formatTs : ℤ → String) (now : ℤ) : Option ℤ → String
  | none => "-"
  | some ts =>
      let diffMs := now - ts * 1000
      if diffMs < 0 then formatTs ts
      else
        let sec := diffMs / 1000
        if sec < 5 then "刚刚"
        else if sec < 60 then toString sec ++ " 秒前"
        else
          let min := sec / 60
          if min < 60 then toString min ++ " 分钟前"
          else
            let hr := min / 60
            if hr < 24 then toString hr ++ " 小时前"
            else
              let day := hr / 24
              if day < 30 then toString day ++ " 天前"
              else formatTs ts

/-- The age in seconds which a text shows. -/
def readAge (text : String) : Option ℚ :=
  if text = "刚刚" then some 0
  else
    let parts := cutAt ' ' text.toList
    (AgeUnit.all.find? fun unit => unit.suffix.toList == parts.2).map
      fun unit => readDecimal parts.1 * unit.seconds

/-- The age rounded down to the unit in which it is shown. -/
def shownSeconds (sec : ℕ) : ℕ :=
  if sec < 5 then 0
  else if sec < 60 then sec
  else if sec < 3600 then sec / 60 * 60
  else if sec < 86400 then sec / 3600 * 3600
  else sec / 86400 * 86400

theorem shownSeconds_mono {sec later : ℕ} (hle : sec ≤ later) :
    shownSeconds sec ≤ shownSeconds later := by
  unfold shownSeconds
  split_ifs <;> omega

theorem shownSeconds_le (sec : ℕ) : shownSeconds sec ≤ sec := by
  unfold shownSeconds
  split_ifs <;> omega

theorem lt_two_mul_shownSeconds {sec : ℕ} (hsec : 5 ≤ sec) :
    sec < 2 * shownSeconds sec := by
  unfold shownSeconds
  split_ifs <;> omega

theorem readAge_append
    (n : ℕ) (unit : AgeUnit) :
    readAge (toString (n : ℤ) ++ " " ++ unit.suffix) =
      some (n * unit.seconds : ℚ) := by
  have hspace : ' ' ∉ (toString (n : ℤ)).toList := by
    rw [toString_natCast]
    exact not_mem_toDigits (by decide) n
  have hchars : (toString (n : ℤ) ++ " " ++ unit.suffix).toList =
      (toString (n : ℤ)).toList ++ ' ' :: unit.suffix.toList := by
    rw [String.toList_append, String.toList_append, List.append_assoc]
    rfl
  have hnow : toString (n : ℤ) ++ " " ++ unit.suffix ≠ "刚刚" := by
    intro heq
    have hmem : ' ' ∈ (toString (n : ℤ) ++ " " ++ unit.suffix).toList := by
      rw [hchars]
      simp
    rw [heq] at hmem
    exact absurd hmem (by decide)
  have hnumber : readDecimal (toString (n : ℤ)).toList = n := by
    rw [toString_natCast, readDecimal_toDigits]
  simp only [readAge, if_neg hnow, hchars, cutAt_append hspace, hnumber]
  cases unit <;> rfl

/-- A time of the last thirty days. -/
def Recent (now ts : ℤ) : Prop :=
  0 ≤ now - ts * 1000 ∧ now - ts * 1000 < 30 * 86400 * 1000

def ageSeconds (now ts : ℤ) : ℕ := ((now - ts * 1000) / 1000).toNat

/-- The text of a recent time shows its age, rounded down. -/
theorem readAge_formatRelativeTs
    (formatTs : ℤ → String) {now ts : ℤ} (hrecent : Recent now ts) :
    readAge (formatRelativeTs formatTs now (some ts)) =
      some (shownSeconds (ageSeconds now ts) : ℚ) := by
  obtain ⟨hpast, hmonth⟩ := hrecent
  obtain ⟨sec, hsec⟩ := Int.eq_ofNat_of_zero_le
    (show 0 ≤ (now - ts * 1000) / 1000 by omega)
  have hmin : (sec : ℤ) / 60 = (sec / 60 : ℕ) := by omega
  have hhr : ((sec / 60 : ℕ) : ℤ) / 60 = (sec / 3600 : ℕ) := by omega
  have hday : ((sec / 3600 : ℕ) : ℤ) / 24 = (sec / 86400 : ℕ) := by omega
  have hread (n : ℕ) (unit : AgeUnit) {text : String}
      (htext : text = " " ++ unit.suffix) :
      readAge (toString (n : ℤ) ++ text) =
        some ((n * unit.seconds : ℕ) : ℚ) := by
    rw [htext, ← String.append_assoc, readAge_append, Nat.cast_mul]
  rw [formatRelativeTs, if_neg (not_lt.mpr hpast), ageSeconds, hsec,
    Int.toNat_natCast]
  dsimp only
  rw [hmin, hhr, hday]
  unfold shownSeconds
  by_cases hnow : sec < 5
  · rw [if_pos (by omega), if_pos hnow]
    rfl
  rw [if_neg (by omega), if_neg hnow]
  by_cases hsecond : sec < 60
  · rw [if_pos (by omega), if_pos hsecond,
      @hread sec .second " 秒前" rfl, AgeUnit.seconds, Nat.mul_one]
  rw [if_neg (by omega), if_neg hsecond]
  by_cases hminute : sec < 3600
  · rw [if_pos (by omega), if_pos hminute]
    exact hread (sec / 60) .minute rfl
  rw [if_neg (by omega), if_neg hminute]
  by_cases hhour : sec < 86400
  · rw [if_pos (by omega), if_pos hhour]
    exact hread (sec / 3600) .hour rfl
  rw [if_neg (by omega), if_neg hhour, if_pos (by omega)]
  exact hread (sec / 86400) .day rfl

theorem ageSeconds_le
    {now ts later earlier : ℤ} (hage : now - ts * 1000 ≤ later - earlier * 1000) :
    ageSeconds now ts ≤ ageSeconds later earlier :=
  Int.toNat_le_toNat (Int.ediv_le_ediv (by decide) hage)

/-! ## Scores and sizes -/

/-- The cell of the score; `toFixed` changes to another notation from `1e21`
on. -/
def scoreCell (row : SearchResult ℚ) : Option String :=
  if |row.score| < 10 ^ 21 then (toFixed row.score 4).toOption else none

/-- The number in the cell of the score. -/
def readScore (text : String) : ℚ :=
  match text.toList with
  | '-' :: rest => -readDecimal rest
  | chars => readDecimal chars

def shownScore (row : SearchResult ℚ) : Option ℚ :=
  (scoreCell row).map readScore

/-- `formatBytes` on the size of a row; a number from `2 ^ 53` on is not held
exactly. -/
def sizeCell (row : SearchResult ℚ) : Option String :=
  match row.size with
  | none => some "-"
  | some size =>
      if h : |(size : ℤ)| < 2 ^ 53 then
        (formatBytes (some ⟨size, h⟩) {}).toOption
      else none

def shownSize (row : SearchResult ℚ) : Option ℚ :=
  (sizeCell row).bind fun text =>
    (readSize text).map fun size => size.1 * size.2.bytes

/-- The cell of the time while relative times are shown. -/
def timeCell (formatTs : ℤ → String) (now : ℤ) (row : SearchResult ℚ) :
    String :=
  formatRelativeTs formatTs now row.modifiedTs

/-- The number which `toFixed` shows, also of a negative one. -/
def roundedScore (x : ℚ) : ℚ :=
  if x < 0 then -rounded 4 (-x) else rounded 4 x

theorem rounded_nonneg
    (digits : ℕ) {x : ℚ} (hx : 0 ≤ x) : 0 ≤ rounded digits x := by
  have hmono := rounded_mono digits hx
  rwa [show (0 : ℚ) = (0 : ℕ) by norm_num, rounded_natCast] at hmono

theorem roundedScore_mono {x y : ℚ} (hxy : x ≤ y) :
    roundedScore x ≤ roundedScore y := by
  unfold roundedScore
  by_cases hx : x < 0
  · rw [if_pos hx]
    have hleft := rounded_nonneg 4 (show 0 ≤ -x by linarith)
    by_cases hy : y < 0
    · rw [if_pos hy]
      exact neg_le_neg (rounded_mono 4 (neg_le_neg hxy))
    · rw [if_neg hy]
      have hright := rounded_nonneg 4 (not_lt.mp hy)
      linarith
  · have hy : ¬ y < 0 := fun hy => hx (hxy.trans_lt hy)
    rw [if_neg hx, if_neg hy]
    exact rounded_mono 4 hxy

theorem readDecimal_lastPlaces {x : ℚ} (hx : 0 ≤ x) :
    readDecimal (fixedText 4 (lastPlaces 4 x).toNat) = rounded 4 x := by
  have hcast : ((lastPlaces 4 x).toNat : ℚ) = lastPlaces 4 x := by
    exact_mod_cast Int.toNat_of_nonneg (lastPlaces_nonneg 4 hx)
  rw [readDecimal_fixedText, hcast, rounded]

theorem readScore_of_not_mem
    {chars : List Char} (hminus : '-' ∉ chars) :
    readScore (String.ofList chars) = readDecimal chars := by
  unfold readScore
  rw [String.toList_ofList]
  split
  · simp at hminus
  · rfl

theorem readScore_toFixed (x : ℚ) :
    ∃ text, toFixed x 4 = .ok text ∧ readScore text = roundedScore x := by
  unfold toFixed roundedScore
  rw [if_neg (by decide)]
  by_cases hx : x < 0
  · rw [if_pos hx, if_pos hx]
    refine ⟨_, rfl, ?_⟩
    have hchars (chars : List Char) :
        readScore ("-" ++ String.ofList chars) = -readDecimal chars := by
      simp [readScore, String.toList_append]
    rw [hchars]
    exact congrArg Neg.neg (readDecimal_lastPlaces (by linarith))
  · rw [if_neg hx, if_neg hx]
    refine ⟨_, rfl, ?_⟩
    rw [readScore_of_not_mem (not_mem_fixedText (by decide) (by decide) _ _)]
    exact readDecimal_lastPlaces (not_lt.mp hx)

theorem shownScore_eq
    {row : SearchResult ℚ} (hplain : |row.score| < 10 ^ 21) :
    shownScore row = some (roundedScore row.score) := by
  obtain ⟨text, hfixed, hread⟩ := readScore_toFixed row.score
  rw [shownScore, scoreCell, if_pos hplain, hfixed, Except.toOption,
    Option.map_some, hread]

/-- A size which is held exactly is shown as its rounded quotient by a unit
which holds it. -/
theorem shownSize_eq
    {row : SearchResult ℚ} {size : ℕ} (hrow : row.size = some size)
    (hsafe : size < 2 ^ 53) :
    ∃ unit : SizeUnit, unit.Holds (size : ℤ) ∧ shownSize row =
      some (rounded (FormatConfig.digits (FormatOptions.cfg {}) unit).toNat
        (((size : ℤ) : ℚ) / unit.bytes) * unit.bytes) := by
  have habs : |(size : ℤ)| < 2 ^ 53 := by
    rw [Nat.abs_cast]
    exact_mod_cast hsafe
  obtain ⟨text, unit, hformat, hholds, hread⟩ :=
    @formatBytes_spec ⟨size, habs⟩ (by exact Int.natCast_nonneg size) {}
      default_inRange
  refine ⟨unit, hholds, ?_⟩
  rw [shownSize, sizeCell, hrow]
  dsimp only
  rw [dif_pos habs, hformat, Except.toOption, Option.bind_some, hread,
    Option.map_some]

theorem shownScore_cases (row : SearchResult ℚ) :
    shownScore row = none ∨ shownScore row = some (roundedScore row.score) := by
  by_cases hplain : |row.score| < 10 ^ 21
  · exact Or.inr (shownScore_eq hplain)
  · exact Or.inl (by rw [shownScore, scoreCell, if_neg hplain]; rfl)

theorem exists_size_of_shownSize
    {row : SearchResult ℚ} {shown : ℚ} (hshown : shown ∈ shownSize row) :
    ∃ size : ℕ, row.size = some size ∧ size < 2 ^ 53 := by
  rw [Option.mem_def, shownSize] at hshown
  obtain ⟨text, hcell, hread⟩ := Option.bind_eq_some_iff.mp hshown
  unfold sizeCell at hcell
  cases hsize : row.size with
  | none =>
      simp only [hsize, Option.some.injEq] at hcell
      rw [← hcell, show readSize "-" = none by decide] at hread
      contradiction
  | some size =>
      simp only [hsize] at hcell
      split at hcell
      next habs =>
        rw [Nat.abs_cast] at habs
        exact ⟨size, rfl, by exact_mod_cast habs⟩
      next => contradiction

/-! ## The sorted table -/

def SortDir.InOrder : SortDir → ℚ → ℚ → Prop
  | .asc, x, y => x ≤ y
  | .desc, x, y => y ≤ x

theorem SortDir.InOrder.map
    {dir : SortDir} {x y : ℚ} (hxy : dir.InOrder x y) {X Y : ℚ}
    (hup : x ≤ y → X ≤ Y) (hdown : y ≤ x → Y ≤ X) : dir.InOrder X Y := by
  cases dir with
  | asc => exact hup hxy
  | desc => exact hdown hxy

theorem SearchView.rows_inOrder (view : SearchView) :
    view.rows.Pairwise fun a b =>
      view.sortDir.InOrder (view.sortBy.key a) (view.sortBy.key b) := by
  refine (sortedResults_pairwise view.sortBy view.sortDir
    view.app.results).imp fun {a b} hle => ?_
  have hkeys := (compareRows_nonpos_iff view.sortBy view.sortDir a b).mp hle
  cases hdir : view.sortDir with
  | asc => exact (hdir ▸ hkeys :)
  | desc => exact (hdir ▸ hkeys :)

theorem inOrder_shownScore
    {dir : SortDir} {a b : SearchResult ℚ}
    (hkeys : dir.InOrder (SortBy.score.key a) (SortBy.score.key b)) :
    ∀ x ∈ shownScore a, ∀ y ∈ shownScore b, dir.InOrder x y := by
  intro x hx y hy
  rw [Option.mem_def] at hx hy
  have hshown {row : SearchResult ℚ} {shown : ℚ}
      (hrow : shownScore row = some shown) : shown = roundedScore row.score := by
    rcases shownScore_cases row with hnone | hsome
    · rw [hnone] at hrow
      contradiction
    · exact Option.some.inj (hrow.symm.trans hsome)
  rw [hshown hx, hshown hy]
  exact hkeys.map roundedScore_mono roundedScore_mono

theorem inOrder_shownSize
    {dir : SortDir} {a b : SearchResult ℚ}
    (hkeys : dir.InOrder (SortBy.size.key a) (SortBy.size.key b)) :
    ∀ x ∈ shownSize a, ∀ y ∈ shownSize b, dir.InOrder x y := by
  intro x hx y hy
  obtain ⟨sizeA, hsizeA, hsafeA⟩ := exists_size_of_shownSize hx
  obtain ⟨sizeB, hsizeB, hsafeB⟩ := exists_size_of_shownSize hy
  obtain ⟨unitA, hholdsA, hshownA⟩ := shownSize_eq hsizeA hsafeA
  obtain ⟨unitB, hholdsB, hshownB⟩ := shownSize_eq hsizeB hsafeB
  rw [Option.mem_def, hshownA, Option.some.injEq] at hx
  rw [Option.mem_def, hshownB, Option.some.injEq] at hy
  rw [← hx, ← hy]
  simp only [SortBy.key, hsizeA, hsizeB, Option.getD_some] at hkeys
  refine hkeys.map (fun hle => ?_) (fun hle => ?_)
  · exact hholdsA.rounded_mul_le hholdsB (by exact_mod_cast hle)
      fun unit => (FormatConfig.digits (FormatOptions.cfg {}) unit).toNat
  · exact hholdsB.rounded_mul_le hholdsA (by exact_mod_cast hle)
      fun unit => (FormatConfig.digits (FormatOptions.cfg {}) unit).toNat

/-- In a table sorted by score or size the shown numbers are in the order of
the sort, and in one sorted by time, the latest first, so are the shown ages of
the last thirty days, although the clock goes on from row to row.  A shown age
is never more than the age, and from five seconds on more than half of it. -/
theorem searchView_columns
    (view : SearchView) (formatTs : ℤ → String) :
    (view.sortBy = .score → view.rows.Pairwise fun a b =>
      ∀ x ∈ shownScore a, ∀ y ∈ shownScore b, view.sortDir.InOrder x y) ∧
    (view.sortBy = .size → view.rows.Pairwise fun a b =>
      ∀ x ∈ shownSize a, ∀ y ∈ shownSize b, view.sortDir.InOrder x y) ∧
    (view.sortBy = .time → view.sortDir = .desc →
      view.rows.Pairwise fun a b =>
        ∀ ts ∈ a.modifiedTs, ∀ earlier ∈ b.modifiedTs, ∀ now later,
          now ≤ later → Recent now ts → Recent later earlier →
          ∃ x y, readAge (timeCell formatTs now a) = some x ∧
            readAge (timeCell formatTs later b) = some y ∧ x ≤ y) ∧
    ∀ row ∈ view.rows,
      (|row.score| < 10 ^ 21 → (shownScore row).isSome = true) ∧
      (∀ size ∈ row.size, size < 2 ^ 53 → (shownSize row).isSome = true) ∧
      ∀ ts ∈ row.modifiedTs, ∀ now, Recent now ts →
        ∃ x, readAge (timeCell formatTs now row) = some x ∧
          x ≤ ageSeconds now ts ∧
          (5 ≤ ageSeconds now ts → ageSeconds now ts < 2 * x) := by
  have hrows := view.rows_inOrder
  have hcell {row : SearchResult ℚ} {ts : ℤ} (hts : ts ∈ row.modifiedTs)
      {now : ℤ} (hrecent : Recent now ts) :
      readAge (timeCell formatTs now row) =
        some (shownSeconds (ageSeconds now ts) : ℚ) := by
    rw [timeCell, hts, readAge_formatRelativeTs formatTs hrecent]
  refine ⟨?_, ?_, ?_, ?_⟩
  · intro hscore
    rw [hscore] at hrows
    exact hrows.imp fun hkeys => inOrder_shownScore hkeys
  · intro hsize
    rw [hsize] at hrows
    exact hrows.imp fun hkeys => inOrder_shownSize hkeys
  · intro htime hdesc
    rw [htime, hdesc] at hrows
    refine hrows.imp fun {a b} hkeys => ?_
    intro ts hts earlier hearlier now later hclock hrecent hlater
    refine ⟨_, _, hcell hts hrecent, hcell hearlier hlater, ?_⟩
    rw [Option.mem_def] at hts hearlier
    simp only [SortDir.InOrder, SortBy.key, hts, hearlier, Option.getD_some,
      Int.cast_le] at hkeys
    exact_mod_cast shownSeconds_mono (ageSeconds_le (by omega))
  · intro row _
    refine ⟨?_, ?_, ?_⟩
    · intro hplain
      rw [shownScore_eq hplain]
      rfl
    · intro size hsize hsafe
      obtain ⟨_, _, hshown⟩ := shownSize_eq hsize hsafe
      rw [hshown]
      rfl
    · intro ts hts now hrecent
      refine ⟨_, hcell hts hrecent, ?_, fun hfive => ?_⟩
      · exact_mod_cast shownSeconds_le _
      · exact_mod_cast lt_two_mul_shownSeconds hfive

end SearchEvery
