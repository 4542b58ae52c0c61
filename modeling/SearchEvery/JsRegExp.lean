import SearchEvery.JsText
import Mathlib.Tactic

/-!
# Regular expression objects of the front end

A compiled regular expression is a matcher which is asked for a match at one
index.  The file gives the algorithms over it: `split`, which asks at every
index and puts the captures between the parts, `test`, which keeps an index
from call to call under the flags `g` and `y`, and the successive matches in a
text.
-/

namespace JsRegExp

open JsText

/-- Where a match ends, and what its groups have captured. -/
structure MatchResult where
  endIndex : ℕ
  captures : List (Option JsString)
  deriving DecidableEq

def isLead (u : UInt16) : Bool := 0xD800 ≤ u.toNat && u.toNat ≤ 0xDBFF

def isTrail (u : UInt16) : Bool := 0xDC00 ≤ u.toNat && u.toNat ≤ 0xDFFF

/-- A surrogate pair starts at the index. -/
def pairAt (text : JsString) (i : ℕ) : Bool :=
  text[i]?.any isLead && text[i + 1]?.any isTrail

/-- `AdvanceStringIndex`: over a whole code point in Unicode mode. -/
def advanceStringIndex (unicode : Bool) (text : JsString) (i : ℕ) : ℕ :=
  if unicode && pairAt text i then i + 2 else i + 1

/-- In Unicode mode, the index does not stand within a pair. -/
def Boundary (unicode : Bool) (text : JsString) (i : ℕ) : Prop :=
  unicode = true → ∀ j, i = j + 1 → pairAt text j = false

/-- A regular expression object without its `lastIndex`. -/
structure RegExp where
  global : Bool
  sticky : Bool
  unicode : Bool
  run : JsString → ℕ → Option MatchResult
  run_bounds : ∀ {text i result}, i ≤ text.length →
    Boundary unicode text i → run text i = some result →
      i ≤ result.endIndex ∧ result.endIndex ≤ text.length ∧
        Boundary unicode text result.endIndex

def substring (text : JsString) (start stop : ℕ) : JsString :=
  (text.take stop).drop start

/-! ## Split -/

/-- A match at which the text is cut. -/
structure Cut where
  start : ℕ
  stop : ℕ
  captures : List (Option JsString)
  deriving DecidableEq

/-- The loop of `split`: `p` is the end of the last cut, `q` the index which is
tried next.  Every round moves `q` on, or `p` up to it. -/
def RegExp.cutsFrom (re : RegExp) (text : JsString) :
    ℕ → ℕ → ℕ → List Cut
  | 0, _, _ => []
  | fuel + 1, p, q =>
      if q < text.length then
        match re.run text q with
        | none =>
            re.cutsFrom text fuel p (advanceStringIndex re.unicode text q)
        | some result =>
            let e := min result.endIndex text.length
            if e = p then
              re.cutsFrom text fuel p (advanceStringIndex re.unicode text q)
            else ⟨q, e, result.captures⟩ :: re.cutsFrom text fuel e e
      else []

def RegExp.cuts (re : RegExp) (text : JsString) : List Cut :=
  re.cutsFrom text (2 * text.length + 1) 0 0

/-- An entry of the result of `split`.  The text between two cuts and the
first capture of a cut have a place in the text. -/
structure Piece where
  span : Option (ℕ × ℕ)
  content : Option JsString
  deriving DecidableEq

/-- The text of an entry; an undefined one has none. -/
def Piece.shown (piece : Piece) : JsString := piece.content.getD []

def Piece.between (text : JsString) (start stop : ℕ) : Piece :=
  ⟨some (start, stop), some (substring text start stop)⟩

def Cut.pieces (cut : Cut) : List Piece :=
  match cut.captures with
  | [] => []
  | first :: inner =>
      ⟨some (cut.start, cut.stop), first⟩ :: inner.map (Piece.mk none)

def piecesFrom (text : JsString) : ℕ → List Cut → List Piece
  | p, [] => [Piece.between text p text.length]
  | p, cut :: rest =>
      Piece.between text p cut.start ::
        (cut.pieces ++ piecesFrom text cut.stop rest)

/-- The entries of `text.split(re)`.  An empty text is not cut; it is dropped
when the expression matches it. -/
def RegExp.splitPieces (re : RegExp) (text : JsString) : List Piece :=
  if text = [] then
    if (re.run [] 0).isSome then [] else [Piece.between [] 0 0]
  else piecesFrom text 0 (re.cuts text)

def RegExp.split (re : RegExp) (text : JsString) : List (Option JsString) :=
  (re.splitPieces text).map Piece.content

/-! ## Test -/

/-- The first match at or after an index. -/
def RegExp.search (re : RegExp) (text : JsString) :
    ℕ → ℕ → Option (ℕ × MatchResult)
  | 0, _ => none
  | fuel + 1, i =>
      if i ≤ text.length then
        match re.run text i with
        | some result => some (i, result)
        | none => re.search text fuel (advanceStringIndex re.unicode text i)
      else none

/-- `re.test(text)` with the value of `lastIndex` before and after the call. -/
def RegExp.test (re : RegExp) (lastIndex : ℕ) (text : JsString) : Bool × ℕ :=
  if re.sticky then
    if text.length < lastIndex then (false, 0)
    else
      match re.run text lastIndex with
      | some result => (true, result.endIndex)
      | none => (false, 0)
  else if re.global then
    match re.search text (text.length + 1) lastIndex with
    | some (_, result) => (true, result.endIndex)
    | none => (false, 0)
  else ((re.search text (text.length + 1) 0).isSome, lastIndex)

/-! ## Successive matches -/

/-- The matches one after the other, each looked for where the one before has
ended, or one further on when that was empty. -/
def RegExp.matchesFrom (re : RegExp) (text : JsString) :
    ℕ → ℕ → List (ℕ × ℕ)
  | 0, _ => []
  | fuel + 1, i =>
      match re.search text (text.length + 1) i with
      | none => []
      | some (start, result) =>
          (start, result.endIndex) ::
            re.matchesFrom text fuel
              (if result.endIndex = start then
                advanceStringIndex re.unicode text start
              else result.endIndex)

def RegExp.nonEmptyMatches (re : RegExp) (text : JsString) :
    List (ℕ × ℕ) :=
  (re.matchesFrom text (text.length + 2) 0).filter fun m => m.1 < m.2

/-! ## Indices -/

theorem lt_advanceStringIndex (unicode : Bool) (text : JsString) (i : ℕ) :
    i < advanceStringIndex unicode text i := by
  unfold advanceStringIndex
  split <;> omega

theorem length_of_pairAt
    {text : JsString} {i : ℕ} (hpair : pairAt text i = true) :
    i + 2 ≤ text.length := by
  by_contra hlong
  have hnone : text[i + 1]? = none :=
    List.getElem?_eq_none (by omega)
  simp [pairAt, hnone] at hpair

theorem advanceStringIndex_le
    {unicode : Bool} {text : JsString} {i : ℕ} (hlt : i < text.length) :
    advanceStringIndex unicode text i ≤ text.length := by
  unfold advanceStringIndex
  split
  next hpair =>
    rw [Bool.and_eq_true] at hpair
    exact length_of_pairAt hpair.2
  next => exact hlt

theorem boundary_zero (unicode : Bool) (text : JsString) :
    Boundary unicode text 0 := by
  intro _ j hj
  omega

/-- No unit is both a trail and a lead. -/
theorem pairAt_succ
    {text : JsString} {i : ℕ} (hpair : pairAt text i = true) :
    pairAt text (i + 1) = false := by
  cases hunit : text[i + 1]? with
  | none => simp [pairAt, hunit]
  | some u =>
      simp only [pairAt, hunit, Option.any_some, Bool.and_eq_true] at hpair
      have hlead : isLead u = false := by
        have htrail := hpair.2
        simp only [isTrail, Bool.and_eq_true, decide_eq_true_eq] at htrail
        simp only [isLead, Bool.and_eq_false_iff, decide_eq_false_iff_not]
        omega
      simp [pairAt, hunit, hlead]

theorem boundary_advanceStringIndex
    (unicode : Bool) (text : JsString) (i : ℕ) :
    Boundary unicode text (advanceStringIndex unicode text i) := by
  intro hunicode j hj
  unfold advanceStringIndex at hj
  cases hpair : pairAt text i with
  | true =>
      rw [hunicode, hpair] at hj
      have hij : j = i + 1 := by simpa using hj.symm
      rw [hij]
      exact pairAt_succ hpair
  | false =>
      rw [hpair, Bool.and_false] at hj
      have hij : j = i := by simpa using hj.symm
      rw [hij]
      exact hpair

theorem length_substring
    {text : JsString} {start stop : ℕ} (hstop : stop ≤ text.length) :
    (substring text start stop).length = stop - start := by
  rw [substring, List.length_drop, List.length_take]
  omega

theorem getElem?_substring (text : JsString) (start stop i : ℕ) :
    (substring text start stop)[i]? =
      if start + i < stop then text[start + i]? else none := by
  rw [substring, List.getElem?_drop, List.getElem?_take]

theorem substring_append_drop
    {text : JsString} {start stop : ℕ} (hstart : start ≤ stop)
    (hstop : stop ≤ text.length) :
    substring text start stop ++ text.drop stop = text.drop start := by
  rw [substring, ← List.drop_append_of_le_length
    (by rw [List.length_take]; omega), List.take_append_drop]

theorem substring_length (text : JsString) (start : ℕ) :
    substring text start text.length = text.drop start := by
  rw [substring, List.take_length]

/-! ## What the loop of split finds -/

variable {re : RegExp} {text : JsString}

/-- The cuts follow each other from `p` on, within the text. -/
def CutsValid (text : JsString) : ℕ → List Cut → Prop
  | p, [] => p ≤ text.length
  | p, cut :: rest =>
      p ≤ cut.start ∧ cut.start ≤ cut.stop ∧ cut.stop ≤ text.length ∧
        CutsValid text cut.stop rest

theorem CutsValid.bounds
    {p : ℕ} {cuts : List Cut} (hvalid : CutsValid text p cuts) {cut : Cut}
    (hmem : cut ∈ cuts) : cut.start ≤ cut.stop ∧ cut.stop ≤ text.length := by
  induction cuts generalizing p with
  | nil => simp at hmem
  | cons first rest ih =>
      obtain ⟨_, hle, hstop, hrest⟩ := hvalid
      rcases List.mem_cons.mp hmem with rfl | hlater
      · exact ⟨hle, hstop⟩
      · exact ih hrest hlater

theorem CutsValid.le_start
    {p : ℕ} {cuts : List Cut} (hvalid : CutsValid text p cuts) {cut : Cut}
    (hmem : cut ∈ cuts) : p ≤ cut.start := by
  induction cuts generalizing p with
  | nil => simp at hmem
  | cons first rest ih =>
      obtain ⟨hstart, hle, _, hrest⟩ := hvalid
      rcases List.mem_cons.mp hmem with rfl | hlater
      · exact hstart
      · exact (hstart.trans hle).trans (ih hrest hlater)

/-- Every cut is a match of the expression. -/
def CutsMatch (re : RegExp) (text : JsString) (cuts : List Cut) : Prop :=
  ∀ cut ∈ cuts, Boundary re.unicode text cut.start ∧
    ∃ result, re.run text cut.start = some result ∧
      result.endIndex = cut.stop ∧ result.captures = cut.captures

theorem cutsFrom_valid
    {fuel p q : ℕ} (hpq : p ≤ q) (hq : q ≤ text.length)
    (hboundary : Boundary re.unicode text q) :
    CutsValid text p (re.cutsFrom text fuel p q) ∧
      CutsMatch re text (re.cutsFrom text fuel p q) := by
  induction fuel generalizing p q with
  | zero => exact ⟨hpq.trans hq, by simp [CutsMatch, RegExp.cutsFrom]⟩
  | succ fuel ih =>
      unfold RegExp.cutsFrom
      by_cases hlt : q < text.length
      · have hnext := ih
          (hpq.trans (lt_advanceStringIndex re.unicode text q).le)
          (advanceStringIndex_le hlt)
          (boundary_advanceStringIndex re.unicode text q)
        rw [if_pos hlt]
        cases hrun : re.run text q with
        | none => exact hnext
        | some result =>
            obtain ⟨hstart, hend, hafter⟩ := re.run_bounds hq hboundary hrun
            simp only [min_eq_left hend]
            split
            next => exact hnext
            next =>
              obtain ⟨hvalid, hmatch⟩ := ih le_rfl hend hafter
              refine ⟨⟨hpq, hstart, hend, hvalid⟩, ?_⟩
              intro cut hcut
              rcases List.mem_cons.mp hcut with rfl | hrest
              · exact ⟨hboundary, result, hrun, rfl, rfl⟩
              · exact hmatch cut hrest
      · rw [if_neg hlt]
        exact ⟨hpq.trans hq, by simp [CutsMatch]⟩

theorem cuts_valid (re : RegExp) (text : JsString) :
    CutsValid text 0 (re.cuts text) ∧ CutsMatch re text (re.cuts text) :=
  cutsFrom_valid le_rfl (Nat.zero_le _) (boundary_zero re.unicode text)

/-- Between two cuts, and after the last one, nothing matches. -/
def CutsLeftmost (re : RegExp) (text : JsString) : ℕ → List Cut → Prop
  | p, [] => ∀ j, p ≤ j → j < text.length → re.run text j = none
  | p, cut :: rest =>
      (∀ j, p ≤ j → j < cut.start → re.run text j = none) ∧
        CutsLeftmost re text cut.stop rest

/-- An expression which matches no empty text leaves out no match, and the
text is enough fuel. -/
theorem cutsFrom_leftmost
    (hunits : re.unicode = false)
    (hadvance : ∀ j result, re.run text j = some result → j < result.endIndex)
    {fuel p q : ℕ} (hpq : p ≤ q) (hfuel : text.length ≤ q + fuel)
    (hmissed : ∀ j, p ≤ j → j < q → re.run text j = none) :
    CutsLeftmost re text p (re.cutsFrom text fuel p q) := by
  induction fuel generalizing p q with
  | zero =>
      intro j hpj hj
      exact hmissed j hpj (by omega)
  | succ fuel ih =>
      unfold RegExp.cutsFrom
      by_cases hlt : q < text.length
      · rw [if_pos hlt]
        cases hrun : re.run text q with
        | none =>
            have hnext : advanceStringIndex re.unicode text q = q + 1 := by
              simp [advanceStringIndex, hunits]
            simp only [hnext]
            apply ih (by omega) (by omega)
            intro j hpj hj
            rcases Nat.lt_succ_iff_lt_or_eq.mp hj with hbefore | rfl
            · exact hmissed j hpj hbefore
            · exact hrun
        | some result =>
            have hpast := hadvance q result hrun
            simp only
            rw [if_neg (by omega)]
            exact ⟨hmissed, ih le_rfl (by omega)
              (fun j hpj hj => absurd hj (Nat.not_lt.mpr hpj))⟩
      · rw [if_neg hlt]
        intro j hpj hj
        exact hmissed j hpj (by omega)

theorem cuts_leftmost
    (hunits : re.unicode = false)
    (hadvance : ∀ j result, re.run text j = some result →
      j < result.endIndex) :
    CutsLeftmost re text 0 (re.cuts text) :=
  cutsFrom_leftmost hunits hadvance le_rfl (by omega)
    (fun j _ hj => absurd hj (Nat.not_lt_zero j))

/-- The empty text is no exception when the expression does not match it. -/
theorem splitPieces_eq
    (hempty : text = [] → re.run [] 0 = none) :
    re.splitPieces text = piecesFrom text 0 (re.cuts text) := by
  unfold RegExp.splitPieces
  split
  next htext =>
    subst htext
    rw [hempty rfl]
    rfl
  next => rfl

/-! ## The index kept from text to text -/

/-- The end of the match which is found in a text with an index kept from
before: under the flag `y` at the index itself, under `g` from it on, and
otherwise anywhere. -/
def RegExp.foundFrom (re : RegExp) (i : ℕ) (text : JsString) : Option ℕ :=
  if re.sticky then
    if i ≤ text.length then (re.run text i).map MatchResult.endIndex else none
  else
    (re.search text (text.length + 1) (if re.global then i else 0)).map
      fun found => found.2.endIndex

/-- Under `g` and `y` the next text is looked at from the end of the match, or
from its start when there was none. -/
def RegExp.indexAfter (re : RegExp) (i : ℕ) (text : JsString) : ℕ :=
  if re.sticky || re.global then (re.foundFrom i text).getD 0 else i

theorem test_eq (re : RegExp) (i : ℕ) (text : JsString) :
    re.test i text = ((re.foundFrom i text).isSome, re.indexAfter i text) := by
  unfold RegExp.test RegExp.indexAfter RegExp.foundFrom
  cases hsticky : re.sticky with
  | true =>
      by_cases hpast : text.length < i
      · simp [hpast, Nat.not_le.mpr hpast]
      · cases hrun : re.run text i <;> simp [hpast, Nat.not_lt.mp hpast]
  | false =>
      cases hglobal : re.global with
      | true =>
          cases hfound : re.search text (text.length + 1) i <;> simp [hfound]
      | false => simp

theorem indexAfter_of_stateless
    (hstateless : (re.sticky || re.global) = false) (i : ℕ) (text : JsString) :
    re.indexAfter i text = i := by
  rw [RegExp.indexAfter, hstateless, if_neg Bool.false_ne_true]

/-- Nothing is kept of a text without a match. -/
theorem indexAfter_of_none
    {i : ℕ} (hstateless : (re.sticky || re.global) = false → i = 0)
    (hnone : re.foundFrom i text = none) : re.indexAfter i text = 0 := by
  unfold RegExp.indexAfter
  split
  next => rw [hnone, Option.getD_none]
  next hflags => exact hstateless (Bool.eq_false_iff.mpr hflags)

theorem search_eq_none
    (hnone : ∀ j, j ≤ text.length → re.run text j = none) (fuel i : ℕ) :
    re.search text fuel i = none := by
  induction fuel generalizing i with
  | zero => rfl
  | succ fuel ih =>
      unfold RegExp.search
      split
      next hi =>
        rw [hnone i hi]
        exact ih _
      next => rfl

theorem foundFrom_eq_none
    (hnone : ∀ j, j ≤ text.length → re.run text j = none) (i : ℕ) :
    re.foundFrom i text = none := by
  unfold RegExp.foundFrom
  split
  next =>
    split
    next hi => rw [hnone i hi, Option.map_none]
    next => rfl
  next => rw [search_eq_none hnone, Option.map_none]

/-- A match at the start is found from there. -/
theorem foundFrom_zero
    {result : MatchResult} (hrun : re.run text 0 = some result) :
    re.foundFrom 0 text = some result.endIndex := by
  have hsearch : re.search text (text.length + 1) 0 = some (0, result) := by
    unfold RegExp.search
    rw [if_pos (Nat.zero_le _), hrun]
  unfold RegExp.foundFrom
  simp [hrun, hsearch]

theorem run_nil_endIndex
    {result : MatchResult} (hrun : re.run [] 0 = some result) :
    result.endIndex = 0 :=
  Nat.le_zero.mp
    (re.run_bounds le_rfl (boundary_zero re.unicode []) hrun).2.1

theorem search_nil_endIndex
    {i : ℕ} {found : ℕ × MatchResult}
    (hfound : re.search [] 1 i = some found) : found.2.endIndex = 0 := by
  cases i with
  | succ i => simp [RegExp.search] at hfound
  | zero =>
      unfold RegExp.search at hfound
      rw [if_pos (Nat.zero_le _)] at hfound
      cases hrun : re.run [] 0 with
      | none => simp [hrun, RegExp.search] at hfound
      | some result =>
          rw [hrun] at hfound
          obtain rfl := Option.some.inj hfound
          exact run_nil_endIndex hrun

theorem foundFrom_nil_eq_zero
    {i endIndex : ℕ} (hfound : re.foundFrom i [] = some endIndex) :
    endIndex = 0 := by
  unfold RegExp.foundFrom at hfound
  split at hfound
  next =>
    split at hfound
    next hi =>
      obtain ⟨result, hrun, rfl⟩ := Option.map_eq_some_iff.mp hfound
      rw [Nat.le_zero.mp hi] at hrun
      exact run_nil_endIndex hrun
    next => contradiction
  next =>
    obtain ⟨found, hsearch, rfl⟩ := Option.map_eq_some_iff.mp hfound
    exact search_nil_endIndex hsearch

/-- Nor is anything kept of an empty text. -/
theorem indexAfter_nil
    {i : ℕ} (hstateless : (re.sticky || re.global) = false → i = 0) :
    re.indexAfter i [] = 0 := by
  cases hfound : re.foundFrom i [] with
  | none => exact indexAfter_of_none hstateless hfound
  | some endIndex =>
      unfold RegExp.indexAfter
      split
      next => rw [hfound, Option.getD_some, foundFrom_nil_eq_zero hfound]
      next hflags => exact hstateless (Bool.eq_false_iff.mpr hflags)

/-! ## Cuts and successive matches -/

/-- Two expressions match at the same indices of the text, up to the same
ends. -/
structure SameMatches (one other : RegExp) (text : JsString) : Prop where
  unicode : one.unicode = other.unicode
  ends : ∀ i, (one.run text i).map MatchResult.endIndex =
    (other.run text i).map MatchResult.endIndex

theorem search_past
    {fuel i : ℕ} (hpast : text.length < i) : re.search text fuel i = none := by
  cases fuel with
  | zero => rfl
  | succ fuel =>
      unfold RegExp.search
      exact if_neg (Nat.not_le.mpr hpast)

/-- The text is enough fuel. -/
theorem search_fuel
    {fuel more i : ℕ} (hfuel : text.length < i + fuel)
    (hmore : text.length < i + more) :
    re.search text fuel i = re.search text more i := by
  induction fuel generalizing more i with
  | zero =>
      rw [Nat.add_zero] at hfuel
      rw [search_past hfuel, search_past hfuel]
  | succ fuel ih =>
      cases more with
      | zero =>
          rw [Nat.add_zero] at hmore
          rw [search_past hmore, search_past hmore]
      | succ more =>
          unfold RegExp.search
          have hnext := lt_advanceStringIndex re.unicode text i
          cases re.run text i with
          | some result => rfl
          | none =>
              simp only [@ih more (advanceStringIndex re.unicode text i)
                (by omega) (by omega)]

theorem search_of_run_eq_none
    {i : ℕ} (hi : i ≤ text.length) (hrun : re.run text i = none) :
    re.search text (text.length + 1) i =
      re.search text (text.length + 1)
        (advanceStringIndex re.unicode text i) := by
  have hnext := lt_advanceStringIndex re.unicode text i
  rw [RegExp.search, if_pos hi, hrun]
  exact search_fuel (by omega) (by omega)

theorem search_of_run_eq_some
    {i : ℕ} {result : MatchResult} (hi : i ≤ text.length)
    (hrun : re.run text i = some result) :
    re.search text (text.length + 1) i = some (i, result) := by
  rw [RegExp.search, if_pos hi, hrun]

theorem matchesFrom_past
    {fuel i : ℕ} (hpast : text.length < i) :
    re.matchesFrom text fuel i = [] := by
  cases fuel with
  | zero => rfl
  | succ fuel => rw [RegExp.matchesFrom, search_past hpast]

theorem matchesFrom_of_run_eq_none
    {fuel i : ℕ} (hi : i ≤ text.length) (hrun : re.run text i = none) :
    re.matchesFrom text fuel i =
      re.matchesFrom text fuel (advanceStringIndex re.unicode text i) := by
  cases fuel with
  | zero => rfl
  | succ fuel =>
      rw [RegExp.matchesFrom, search_of_run_eq_none hi hrun, RegExp.matchesFrom]

/-- The nonempty matches from an index on. -/
def RegExp.nonEmptyFrom (re : RegExp) (text : JsString) (fuel i : ℕ) :
    List (ℕ × ℕ) :=
  (re.matchesFrom text fuel i).filter fun m => m.1 < m.2

theorem nonEmptyFrom_of_empty
    {fuel i : ℕ} {result : MatchResult} (hi : i ≤ text.length)
    (hrun : re.run text i = some result) (hempty : result.endIndex = i) :
    re.nonEmptyFrom text (fuel + 1) i =
      re.nonEmptyFrom text fuel (advanceStringIndex re.unicode text i) := by
  simp [RegExp.nonEmptyFrom, RegExp.matchesFrom,
    search_of_run_eq_some hi hrun, hempty]

theorem nonEmptyFrom_of_longer
    {fuel i : ℕ} {result : MatchResult} (hi : i ≤ text.length)
    (hrun : re.run text i = some result) (hlonger : i < result.endIndex) :
    re.nonEmptyFrom text (fuel + 1) i =
      (i, result.endIndex) :: re.nonEmptyFrom text fuel result.endIndex := by
  have hne : result.endIndex ≠ i := by omega
  simp [RegExp.nonEmptyFrom, RegExp.matchesFrom,
    search_of_run_eq_some hi hrun, hne, hlonger]

/-- At the end of the text no match is longer than nothing. -/
theorem nonEmptyFrom_end
    (hboundary : Boundary re.unicode text text.length) (fuel : ℕ) :
    re.nonEmptyFrom text fuel text.length = [] := by
  have hnext := lt_advanceStringIndex re.unicode text text.length
  cases fuel with
  | zero => rfl
  | succ fuel =>
      cases hrun : re.run text text.length with
      | none =>
          rw [RegExp.nonEmptyFrom, matchesFrom_of_run_eq_none le_rfl hrun,
            matchesFrom_past hnext]
          rfl
      | some result =>
          obtain ⟨hle, hend, _⟩ := re.run_bounds le_rfl hboundary hrun
          rw [nonEmptyFrom_of_empty le_rfl hrun (by omega),
            RegExp.nonEmptyFrom, matchesFrom_past hnext]
          rfl

def Cut.span (cut : Cut) : ℕ × ℕ := (cut.start, cut.stop)

/-- The cuts which are not empty. -/
def cutSpans (cuts : List Cut) : List (ℕ × ℕ) :=
  (cuts.map Cut.span).filter fun m => m.1 < m.2

theorem mem_cutSpans_iff
    {cuts : List Cut} {span : ℕ × ℕ} :
    span ∈ cutSpans cuts ↔ span ∈ cuts.map Cut.span ∧ span.1 < span.2 := by
  rw [cutSpans, List.mem_filter, decide_eq_true_eq]

theorem cutSpans_cons_of_empty
    {cut : Cut} (hempty : cut.start = cut.stop) (rest : List Cut) :
    cutSpans (cut :: rest) = cutSpans rest := by
  simp [cutSpans, Cut.span, hempty]

theorem cutSpans_cons_of_longer
    {cut : Cut} (hlonger : cut.start < cut.stop) (rest : List Cut) :
    cutSpans (cut :: rest) = cut.span :: cutSpans rest := by
  simp [cutSpans, Cut.span, hlonger]

/-- The loop of `split` cuts out the successive matches.  It comes back to an
index which it has just cut at, so that it takes up to two rounds for each
index. -/
theorem cutSpans_cutsFrom
    {other : RegExp} (hsame : SameMatches re other text)
    {fuel fuel' p q : ℕ} (hpq : p ≤ q) (hq : q ≤ text.length)
    (hboundary : Boundary re.unicode text q)
    (hrounds : 2 * (text.length - q) + (if p = q then 0 else 1) < fuel)
    (hfuel : text.length < q + fuel') :
    cutSpans (re.cutsFrom text fuel p q) =
      other.nonEmptyFrom text fuel' q := by
  induction fuel generalizing fuel' p q with
  | zero => omega
  | succ fuel ih =>
      have hends := hsame.ends q
      have hnext := lt_advanceStringIndex re.unicode text q
      unfold RegExp.cutsFrom
      by_cases hlt : q < text.length
      · rw [if_pos hlt]
        have hafter := boundary_advanceStringIndex re.unicode text q
        have hwithin := @advanceStringIndex_le re.unicode text q hlt
        have hskip {more : ℕ} (hmore : text.length < q + 1 + more) :
            cutSpans (re.cutsFrom text fuel p
              (advanceStringIndex re.unicode text q)) =
                other.nonEmptyFrom text more
                  (advanceStringIndex other.unicode text q) := by
          rw [← hsame.unicode]
          refine ih (by omega) hwithin hafter ?_ (by omega)
          split at hrounds <;> split <;> omega
        cases hrun : re.run text q with
        | none =>
            rw [hrun, Option.map_none, eq_comm, Option.map_eq_none_iff] at hends
            rw [RegExp.nonEmptyFrom, matchesFrom_of_run_eq_none hq hends]
            exact hskip (by omega)
        | some result =>
            obtain ⟨hstart, hend, hstop⟩ := re.run_bounds hq hboundary hrun
            rw [hrun, Option.map_some, eq_comm, Option.map_eq_some_iff] at hends
            obtain ⟨found, hfound, hsameEnd⟩ := hends
            obtain ⟨more, rfl⟩ : ∃ more, fuel' = more + 1 :=
              ⟨fuel' - 1, by omega⟩
            simp only [min_eq_left hend]
            split
            next hback =>
              rw [nonEmptyFrom_of_empty hq hfound (by omega)]
              exact hskip (by omega)
            next hforward =>
              rcases Nat.eq_or_lt_of_le hstart with hempty | hlonger
              · rw [if_neg (by omega)] at hrounds
                rw [@cutSpans_cons_of_empty ⟨q, _, _⟩ hempty, ← hempty]
                exact ih le_rfl hq hboundary (by simp; omega) hfuel
              · rw [@cutSpans_cons_of_longer ⟨q, _, _⟩ hlonger,
                  nonEmptyFrom_of_longer hq hfound (by omega), hsameEnd,
                  @ih more _ _ le_rfl hend hstop (by simp; omega) (by omega)]
                rfl
      · have hlast : q = text.length := by omega
        subst hlast
        rw [if_neg hlt, nonEmptyFrom_end (hsame.unicode ▸ hboundary)]
        rfl

/-- The nonempty cuts of `split` are the nonempty successive matches. -/
theorem cutSpans_cuts
    {other : RegExp} (hsame : SameMatches re other text) :
    cutSpans (re.cuts text) = other.nonEmptyMatches text :=
  cutSpans_cutsFrom hsame le_rfl (Nat.zero_le _) (boundary_zero _ _)
    (by simp) (by omega)

end JsRegExp
