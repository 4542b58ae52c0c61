import SearchEvery.ConfigStore
import SearchEvery.JsText
import Mathlib.Tactic

/-!
# Shortened paths

`shortenPath` cuts a path down to a number of code units, with an ellipsis for
what it leaves out.  Three of its four results are built from slices whose
arguments depend on the budget; a head of at least ten units and the three dots
make thirteen the least budget which is always met.
-/

namespace SearchEvery

open JsText

def slash : UInt16 := unit '/'

def backslash : UInt16 := unit '\\'

def ellipsis : JsString := ofAscii "..."

def isPathSeparator (u : UInt16) : Bool := u == backslash || u == slash

def shortenPath (p : JsString) (maxLen : ℤ) : JsString :=
  if p.isEmpty then []
  else if (p.length : ℤ) ≤ maxLen then p
  else
    let useBackslash := p.contains backslash
    let sep := if useBackslash then backslash else slash
    let parts := p.splitOnP isPathSeparator
    if parts.length ≤ 2 then slice p 0 (maxLen - 3) ++ ellipsis
    else
      let first := parts.getD 0 []
      let last := parts.getD (parts.length - 1) []
      let beforeLast := parts.getD (parts.length - 2) []
      let candidate :=
        first ++ [sep] ++ ellipsis ++ [sep] ++ beforeLast ++ [sep] ++ last
      if (candidate.length : ℤ) ≤ maxLen then candidate
      else
        let keep := maxLen - 3
        let head := max 10 (keep / 2)
        let tail := keep - head
        slice p 0 head ++ ellipsis ++ sliceFrom p (p.length - tail)

/-- `PATH_MAX_LEN`, from the variable when that is a finite number. -/
def PATH_MAX_LEN (envLen : Option ℤ) : ℤ :=
  match envLen with
  | some n => if 10 < n then n else 80
  | none => 80

/-- The text with both separators written alike. -/
def unifySeparators (p : JsString) : JsString :=
  p.map fun u => if isPathSeparator u then slash else u

/-- The text is a front and a back of the path with an ellipsis for at least
one unit between them. -/
def CutFrom (p short : JsString) : Prop :=
  ∃ x y, short = x ++ ellipsis ++ y ∧ x <+: p ∧ y <:+ p ∧
    x.length + y.length < p.length

theorem length_unifySeparators (p : JsString) :
    (unifySeparators p).length = p.length := by
  simp [unifySeparators]

theorem unifySeparators_append (p q : JsString) :
    unifySeparators (p ++ q) = unifySeparators p ++ unifySeparators q := by
  simp [unifySeparators]

theorem unifySeparators_ellipsis :
    unifySeparators ellipsis = ellipsis := by decide

theorem CutFrom.unifySeparators
    {p short : JsString} (hcut : CutFrom p short) :
    CutFrom (unifySeparators p) (unifySeparators short) := by
  obtain ⟨x, y, rfl, hx, hy, hlt⟩ := hcut
  refine ⟨SearchEvery.unifySeparators x, SearchEvery.unifySeparators y, ?_,
    hx.map _, hy.map _, ?_⟩
  · rw [unifySeparators_append, unifySeparators_append,
      unifySeparators_ellipsis]
  · rw [length_unifySeparators, length_unifySeparators, length_unifySeparators]
    exact hlt

/-! ## The three ways to cut -/

theorem cutFrom_head
    {p : JsString} {maxLen : ℤ} (hbudget : 13 ≤ maxLen)
    (hlong : maxLen < p.length) :
    CutFrom p (slice p 0 (maxLen - 3) ++ ellipsis) ∧
      ((slice p 0 (maxLen - 3) ++ ellipsis).length : ℤ) = maxLen := by
  have hhead := @length_slice_zero _ p (maxLen - 3) (by omega) (by omega)
  constructor
  · refine ⟨slice p 0 (maxLen - 3), [], by simp, slice_zero_isPrefix _ _,
      List.nil_suffix, ?_⟩
    rw [List.length_nil]
    omega
  · rw [List.length_append, Nat.cast_add, hhead]
    have hdots : (ellipsis.length : ℤ) = 3 := rfl
    omega

theorem cutFrom_middle
    {p : JsString} {keep head : ℤ} (hhead : 0 ≤ head) (hle : head ≤ keep)
    (hlong : keep + 3 < p.length) :
    CutFrom p (slice p 0 head ++ ellipsis ++
        sliceFrom p (p.length - (keep - head))) ∧
      ((slice p 0 head ++ ellipsis ++
        sliceFrom p (p.length - (keep - head))).length : ℤ) = keep + 3 := by
  have hfront := @length_slice_zero _ p head hhead (by omega)
  have hback := @length_sliceFrom _ p (p.length - (keep - head)) (by omega)
    (by omega)
  constructor
  · refine ⟨_, _, rfl, slice_zero_isPrefix _ _, sliceFrom_isSuffix _ _, ?_⟩
    omega
  · have hdots : (ellipsis.length : ℤ) = 3 := rfl
    rw [List.length_append, List.length_append, Nat.cast_add, Nat.cast_add,
      hfront, hback]
    omega

theorem unifySeparators_eq_intercalate (p : JsString) :
    unifySeparators p = [slash].intercalate (p.splitOnP isPathSeparator) :=
  (intercalate_splitOnP isPathSeparator slash p).symm

theorem unifySeparators_part
    {p part : JsString} (hpart : part ∈ p.splitOnP isPathSeparator) :
    unifySeparators part = part := by
  have hsame : ∀ u ∈ part,
      (if isPathSeparator u then slash else u) = id u := by
    intro u hu
    rw [MaximalRuns.forall_of_mem_splitOnP hpart u hu]
    rfl
  exact (List.map_congr_left hsame).trans (List.map_id part)

theorem exists_outer_parts
    {parts : List JsString} (hlength : 2 < parts.length) :
    ∃ first mid beforeLast last,
      parts = first :: mid ++ [beforeLast, last] ∧
      parts.getD 0 [] = first ∧ parts.getD (parts.length - 1) [] = last ∧
      parts.getD (parts.length - 2) [] = beforeLast := by
  cases parts with
  | nil => simp at hlength
  | cons first rest =>
      rcases List.eq_nil_or_concat' rest with rfl | ⟨most, last, rfl⟩
      · simp at hlength
      rcases List.eq_nil_or_concat' most with rfl | ⟨mid, beforeLast, rfl⟩
      · simp at hlength
      refine ⟨first, mid, beforeLast, last, by simp, rfl, ?_, ?_⟩
      · simp [List.getD_eq_getElem?_getD]
      · simp [List.getD_eq_getElem?_getD]

/-- The outer parts of a path, when they are shorter than the path. -/
theorem cutFrom_outer
    {p : JsString} {sep : UInt16} {first beforeLast last : JsString}
    {mid : List JsString} (hsep : isPathSeparator sep = true)
    (hparts : p.splitOnP isPathSeparator = first :: mid ++ [beforeLast, last])
    (hshort : (first ++ [sep] ++ ellipsis ++ [sep] ++ beforeLast ++ [sep] ++
      last).length < p.length) :
    CutFrom (unifySeparators p) (unifySeparators
      (first ++ [sep] ++ ellipsis ++ [sep] ++ beforeLast ++ [sep] ++ last)) := by
  have hjoin := unifySeparators_eq_intercalate p
  have hpart : ∀ part ∈ first :: mid ++ [beforeLast, last],
      unifySeparators part = part := by
    rw [← hparts]
    exact fun part hmem => unifySeparators_part hmem
  have hslash : unifySeparators [sep] = [slash] := by
    simp [unifySeparators, hsep]
  rw [hparts] at hjoin
  refine ⟨first ++ [slash], [slash] ++ beforeLast ++ [slash] ++ last, ?_, ?_,
    ?_, ?_⟩
  · simp only [unifySeparators_append, hslash, unifySeparators_ellipsis,
      hpart first (by simp), hpart beforeLast (by simp),
      hpart last (by simp)]
    simp
  · rw [hjoin, List.cons_append, List.intercalate_cons_of_ne_nil (by simp)]
    exact List.prefix_append _ _
  · rw [hjoin, intercalate_append [slash] (by simp) (by simp)]
    refine ⟨[slash].intercalate (first :: mid), ?_⟩
    simp [List.intercalate]
  · rw [length_unifySeparators]
    simp only [List.length_append, List.length_singleton] at hshort ⊢
    have hdots : ellipsis.length = 3 := rfl
    omega

/-! ## The budget -/

theorem shortenPath_of_long
    {p : JsString} {maxLen : ℤ} (hbudget : 13 ≤ maxLen)
    (hlong : maxLen < p.length) :
    CutFrom (unifySeparators p) (unifySeparators (shortenPath p maxLen)) ∧
      ((shortenPath p maxLen).length : ℤ) ≤ maxLen := by
  have hne : p.isEmpty = false := by
    cases p with
    | nil =>
        rw [List.length_nil] at hlong
        omega
    | cons u p => rfl
  unfold shortenPath
  rw [hne, if_neg (by simp), if_neg (by omega)]
  simp only
  split
  next =>
    have hcut := cutFrom_head hbudget hlong
    exact ⟨hcut.1.unifySeparators, hcut.2.le⟩
  next hmany =>
    obtain ⟨first, mid, beforeLast, last, hparts, hfirst, hlast, hbefore⟩ :=
      exists_outer_parts (Nat.lt_of_not_le hmany)
    have hsep : isPathSeparator
        (if p.contains backslash then backslash else slash) = true := by
      split <;> rfl
    rw [hfirst, hlast, hbefore]
    generalize (if p.contains backslash then backslash else slash) = sep
      at hsep ⊢
    split
    next hfits =>
      refine ⟨cutFrom_outer hsep hparts ?_, hfits⟩
      exact_mod_cast hfits.trans_lt hlong
    next =>
      have hcut := @cutFrom_middle p (maxLen - 3) (max 10 ((maxLen - 3) / 2))
        (by omega) (by omega) (by omega)
      refine ⟨hcut.1.unifySeparators, ?_⟩
      rw [hcut.2]
      omega

/-- A path whose shortening takes thirteen units under every smaller budget. -/
def stubbornPath : JsString := ofAscii "aaaaaaaaaa/b/c"

theorem shortenPath_stubbornPath
    {maxLen : ℤ} (hbudget : maxLen < 13) :
    (shortenPath stubbornPath maxLen).length = 13 := by
  have hlength : stubbornPath.length = 14 := rfl
  have hparts : stubbornPath.splitOnP isPathSeparator =
      [ofAscii "aaaaaaaaaa", ofAscii "b", ofAscii "c"] := by decide
  have hsep : stubbornPath.contains backslash = false := by decide
  have hne : stubbornPath.isEmpty = false := rfl
  have hhead : max 10 ((maxLen - 3) / 2) = 10 := by omega
  unfold shortenPath
  rw [hne, if_neg (by simp), if_neg (by rw [hlength]; omega)]
  simp only [hparts, hsep]
  rw [if_neg (by simp), if_neg ?_, hhead]
  · have hback : sliceFrom stubbornPath
        ((stubbornPath.length : ℤ) - (maxLen - 3 - 10)) = [] := by
      rw [sliceFrom, hlength, clampIndex, if_neg (by omega)]
      apply List.drop_eq_nil_of_le
      rw [hlength]
      omega
    rw [hback]
    rfl
  · have hcandidate : ∀ s : UInt16,
        (ofAscii "aaaaaaaaaa" ++ [s] ++ ellipsis ++ [s] ++ ofAscii "b" ++
          [s] ++ ofAscii "c").length = 18 := fun _ => rfl
    simp only [List.getD_cons_zero, List.getD_cons_succ, List.length_cons,
      List.length_nil, Bool.false_eq_true, if_false]
    rw [hcandidate]
    omega

theorem shortenPath_of_short
    {p : JsString} {maxLen : ℤ} (hshort : (p.length : ℤ) ≤ maxLen) :
    shortenPath p maxLen = p := by
  unfold shortenPath
  cases p with
  | nil => rfl
  | cons u p => rw [List.isEmpty_cons, if_neg (by simp), if_pos hshort]

theorem length_shortenPath_le
    {maxLen : ℤ} (hbudget : 13 ≤ maxLen) (p : JsString) :
    ((shortenPath p maxLen).length : ℤ) ≤ maxLen := by
  by_cases hshort : (p.length : ℤ) ≤ maxLen
  · rw [shortenPath_of_short hshort]
    exact hshort
  · exact (shortenPath_of_long hbudget (by omega)).2

/-- The budget is met for every path exactly from thirteen on; from there on a
path is shown whole or with an ellipsis which stands for something.  The
constant of the page and the stored configuration admit smaller budgets. -/
theorem shortenPath_fits_from_thirteen :
    (∀ maxLen : ℤ,
      (∀ p, ((shortenPath p maxLen).length : ℤ) ≤ maxLen) ↔ 13 ≤ maxLen) ∧
    (∀ maxLen : ℤ, 13 ≤ maxLen → ∀ p, shortenPath p maxLen = p ∨
      CutFrom (unifySeparators p) (unifySeparators (shortenPath p maxLen))) ∧
    (∀ n : ℤ, 10 < n → PATH_MAX_LEN (some n) = n) ∧
    ∀ (env : HostEnv) (cfg : SavedConfig), cfg.pathMaxLen ≠ 0 →
      (env.repair cfg).pathMaxLen = cfg.pathMaxLen := by
  refine ⟨fun maxLen => ⟨?_, ?_⟩, ?_, ?_, ?_⟩
  · intro hfits
    by_contra hsmall
    have hlength := hfits stubbornPath
    rw [shortenPath_stubbornPath (by omega)] at hlength
    omega
  · exact fun hbudget p => length_shortenPath_le hbudget p
  · intro maxLen hbudget p
    by_cases hshort : (p.length : ℤ) ≤ maxLen
    · exact Or.inl (shortenPath_of_short hshort)
    · exact Or.inr (shortenPath_of_long hbudget (by omega)).1
  · intro n hn
    simp [PATH_MAX_LEN, hn]
  · intro env cfg hpositive
    rw [env.repair_eq_normalize, HostEnv.normalize, if_neg hpositive]

example : shortenPath (ofAscii "D:/very/long/path/file.txt") 24 =
    ofAscii "D:/.../path/file.txt" := by decide

end SearchEvery
