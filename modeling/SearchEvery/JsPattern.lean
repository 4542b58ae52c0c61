import SearchEvery.JsRegExp
import Mathlib.Tactic

/-!
# Patterns of regular expressions

The part of the pattern language without quantifiers, classes and assertions:
characters, escaped syntax characters, alternatives and groups.  A pattern
gives its matches at an index in the order in which a backtracking matcher
tries them.  An engine compiles every pattern text; on this part it is the
matcher given here, and parentheses around a pattern capture the whole match.
-/

namespace JsPattern

open JsText JsRegExp

/-! ## Case -/

def upperAscii (u : UInt16) : UInt16 :=
  if 97 ≤ u.toNat ∧ u.toNat ≤ 122 then UInt16.ofNat (u.toNat - 32) else u

def lowerAscii (u : UInt16) : UInt16 :=
  if 65 ≤ u.toNat ∧ u.toNat ≤ 90 then UInt16.ofNat (u.toNat + 32) else u

theorem toNat_upperAscii (u : UInt16) :
    (upperAscii u).toNat =
      if 97 ≤ u.toNat ∧ u.toNat ≤ 122 then u.toNat - 32 else u.toNat := by
  unfold upperAscii
  split
  next => rw [UInt16.toNat_ofNat', Nat.mod_eq_of_lt (by omega)]
  next => rfl

theorem toNat_lowerAscii (u : UInt16) :
    (lowerAscii u).toNat =
      if 65 ≤ u.toNat ∧ u.toNat ≤ 90 then u.toNat + 32 else u.toNat := by
  unfold lowerAscii
  split
  next => rw [UInt16.toNat_ofNat', Nat.mod_eq_of_lt (by omega)]
  next => rfl

/-- Two units which agree in upper case agree in lower case. -/
theorem upperAscii_eq_iff (u v : UInt16) :
    upperAscii u = upperAscii v ↔ lowerAscii u = lowerAscii v := by
  rw [← UInt16.toNat_inj, ← UInt16.toNat_inj, toNat_upperAscii,
    toNat_upperAscii, toNat_lowerAscii, toNat_lowerAscii]
  split <;> split <;> split <;> split <;> omega

/-! ## Patterns -/

inductive Pattern
  | empty
  | char (u : UInt16)
  | seq (first second : Pattern)
  | alt (first second : Pattern)
  | group (body : Pattern)
  deriving DecidableEq

def Pattern.groups : Pattern → ℕ
  | .empty => 0
  | .char _ => 0
  | .seq first second => first.groups + second.groups
  | .alt first second => first.groups + second.groups
  | .group body => body.groups + 1

/-- The matches at an index, the preferred one first.  A group of an
alternative which takes no part captures nothing. -/
def Pattern.results (canonicalize : UInt16 → UInt16) (text : JsString) :
    Pattern → ℕ → List MatchResult
  | .empty, i => [⟨i, []⟩]
  | .char u, i =>
      match text[i]? with
      | some v =>
          if canonicalize v = canonicalize u then [⟨i + 1, []⟩] else []
      | none => []
  | .seq first second, i =>
      (first.results canonicalize text i).flatMap fun front =>
        (second.results canonicalize text front.endIndex).map fun back =>
          ⟨back.endIndex, front.captures ++ back.captures⟩
  | .alt first second, i =>
      (first.results canonicalize text i).map (fun result =>
        ⟨result.endIndex,
          result.captures ++ List.replicate second.groups none⟩) ++
      (second.results canonicalize text i).map fun result =>
        ⟨result.endIndex,
          List.replicate first.groups none ++ result.captures⟩
  | .group body, i =>
      (body.results canonicalize text i).map fun result =>
        ⟨result.endIndex,
          some (substring text i result.endIndex) :: result.captures⟩

theorem Pattern.results_bounds
    {canonicalize : UInt16 → UInt16} {text : JsString} (pattern : Pattern)
    {i : ℕ} (hi : i ≤ text.length) :
    ∀ result ∈ pattern.results canonicalize text i,
      i ≤ result.endIndex ∧ result.endIndex ≤ text.length := by
  induction pattern generalizing i with
  | empty =>
      intro result hresult
      rw [List.mem_singleton.mp hresult]
      exact ⟨le_rfl, hi⟩
  | char u =>
      intro result hresult
      unfold Pattern.results at hresult
      split at hresult
      next v hunit =>
        have hlt := (List.getElem?_eq_some_iff.mp hunit).1
        split at hresult
        next =>
          rw [List.mem_singleton.mp hresult]
          exact ⟨Nat.le_succ i, hlt⟩
        next => simp at hresult
      next => simp at hresult
  | seq first second ihfirst ihsecond =>
      intro result hresult
      obtain ⟨front, hfront, hback⟩ := List.mem_flatMap.mp hresult
      obtain ⟨back, hmem, rfl⟩ := List.mem_map.mp hback
      obtain ⟨hle, hend⟩ := ihfirst hi front hfront
      obtain ⟨hafter, hlast⟩ := ihsecond hend back hmem
      exact ⟨hle.trans hafter, hlast⟩
  | alt first second ihfirst ihsecond =>
      intro result hresult
      rcases List.mem_append.mp hresult with hleft | hright
      · obtain ⟨taken, hmem, rfl⟩ := List.mem_map.mp hleft
        exact ihfirst hi taken hmem
      · obtain ⟨taken, hmem, rfl⟩ := List.mem_map.mp hright
        exact ihsecond hi taken hmem
  | group body ih =>
      intro result hresult
      obtain ⟨taken, hmem, rfl⟩ := List.mem_map.mp hresult
      exact ih hi taken hmem

/-! ## Pattern texts -/

def syntaxUnits : List UInt16 := ofAscii "^$\\.*+?()[]\x7b\x7d|"

def isSyntaxUnit (u : UInt16) : Bool := decide (u ∈ syntaxUnits)

/-- An open group: its finished alternatives and the current one. -/
structure Frame where
  alternatives : List Pattern
  current : Pattern
  deriving DecidableEq

def Frame.start : Frame := ⟨[], .empty⟩

def Frame.push (frame : Frame) (term : Pattern) : Frame :=
  { frame with current := .seq frame.current term }

def Frame.bar (frame : Frame) : Frame :=
  ⟨frame.alternatives ++ [frame.current], .empty⟩

def Frame.pattern (frame : Frame) : Pattern :=
  frame.alternatives.foldr .alt frame.current

/-- Read a pattern text with the open groups, the innermost first. -/
def parse : JsString → List Frame → Option Pattern
  | [], [frame] => some frame.pattern
  | [], _ => none
  | _ :: _, [] => none
  | u :: rest, frame :: outer =>
      if u = unit '\\' then
        match rest with
        | [] => none
        | v :: rest =>
            if isSyntaxUnit v then
              parse rest (frame.push (.char v) :: outer)
            else none
      else if u = unit '(' then parse rest (Frame.start :: frame :: outer)
      else if u = unit ')' then
        match outer with
        | [] => none
        | next :: outer =>
            parse rest (next.push (.group frame.pattern) :: outer)
      else if u = unit '|' then parse rest (frame.bar :: outer)
      else if isSyntaxUnit u then none
      else parse rest (frame.push (.char u) :: outer)

def parenthesize (source : JsString) : JsString :=
  unit '(' :: source ++ [unit ')']

example : parse (parenthesize (ofAscii "a|\\.")) [Frame.start] =
    some (.seq .empty (.group (.alt (.seq .empty (.char (unit 'a')))
      (.seq .empty (.char (unit '.')))))) := by decide

section Parse

variable (rest : JsString) (frame : Frame) (outer : List Frame)

theorem parse_escape
    {v : UInt16} (hspecial : isSyntaxUnit v = true) :
    parse (unit '\\' :: v :: rest) (frame :: outer) =
      parse rest (frame.push (.char v) :: outer) := by
  rw [parse.eq_def]
  exact (if_pos rfl).trans (if_pos hspecial)

theorem parse_open :
    parse (unit '(' :: rest) (frame :: outer) =
      parse rest (Frame.start :: frame :: outer) := by
  rw [parse.eq_def]
  exact (if_neg (by decide)).trans (if_pos rfl)

theorem parse_close (next : Frame) :
    parse (unit ')' :: rest) (frame :: next :: outer) =
      parse rest (next.push (.group frame.pattern) :: outer) := by
  rw [parse.eq_def]
  exact (if_neg (by decide)).trans
    ((if_neg (by decide)).trans (if_pos rfl))

theorem parse_bar :
    parse (unit '|' :: rest) (frame :: outer) =
      parse rest (frame.bar :: outer) := by
  rw [parse.eq_def]
  exact (if_neg (by decide)).trans ((if_neg (by decide)).trans
    ((if_neg (by decide)).trans (if_pos rfl)))

theorem parse_plain
    {u : UInt16} (hplain : isSyntaxUnit u = false) :
    parse (u :: rest) (frame :: outer) =
      parse rest (frame.push (.char u) :: outer) := by
  have hne {c : Char} (hc : isSyntaxUnit (unit c) = true) : u ≠ unit c := by
    rintro rfl
    rw [hc] at hplain
    contradiction
  rw [parse.eq_def]
  exact (if_neg (hne (by decide))).trans ((if_neg (hne (by decide))).trans
    ((if_neg (hne (by decide))).trans ((if_neg (hne (by decide))).trans
      (if_neg (by simp [hplain])))))

end Parse

/-- A text which is a pattern by itself is one group between parentheses. -/
theorem parse_append_close
    {source : JsString} {stack : List Frame} {pattern : Pattern}
    (hparse : parse source stack = some pattern) (outer : Frame) :
    parse (source ++ [unit ')']) (stack ++ [outer]) =
      some (outer.push (.group pattern)).pattern := by
  fun_induction parse source stack with
  | case1 frame =>
      rw [Option.some.injEq] at hparse
      rw [← hparse]
      exact (parse_close [] frame [] outer).trans rfl
  | case5 frame stack v rest hspecial ih =>
      exact (parse_escape _ frame _ hspecial).trans (ih hparse)
  | case7 rest frame stack _ ih =>
      exact (parse_open _ frame _).trans (ih hparse)
  | case9 rest frame next stack _ _ ih =>
      exact (parse_close _ frame _ next).trans (ih hparse)
  | case10 rest frame stack _ _ _ ih =>
      exact (parse_bar _ frame _).trans (ih hparse)
  | case12 u rest frame stack _ _ _ _ hplain ih =>
      exact (parse_plain _ frame _ (by simpa using hplain)).trans (ih hparse)
  | case2 | case3 | case4 | case6 | case8 | case11 => simp at hparse

theorem parse_parenthesize
    {source : JsString} {pattern : Pattern}
    (hparse : parse source [Frame.start] = some pattern) :
    parse (parenthesize source) [Frame.start] =
      some (.seq .empty (.group pattern)) := by
  rw [parenthesize, List.cons_append, parse_open]
  exact parse_append_close hparse Frame.start

/-! ## Escaped texts -/

/-- A backslash before every syntax character. -/
def escape (text : JsString) : JsString :=
  text.flatMap fun u => if isSyntaxUnit u then [unit '\\', u] else [u]

def literalFrom (front : Pattern) (text : JsString) : Pattern :=
  text.foldl (fun pattern u => .seq pattern (.char u)) front

theorem parse_escape_append
    (text rest : JsString) (frame : Frame) (outer : List Frame) :
    parse (escape text ++ rest) (frame :: outer) =
      parse rest
        ({ frame with current := literalFrom frame.current text } :: outer) := by
  induction text generalizing frame with
  | nil => rfl
  | cons u text ih =>
      have hcons : escape (u :: text) =
          (if isSyntaxUnit u then [unit '\\', u] else [u]) ++ escape text := by
        simp [escape]
      have hpush : literalFrom frame.current (u :: text) =
          literalFrom (frame.push (.char u)).current text := rfl
      have hnext : parse (escape (u :: text) ++ rest) (frame :: outer) =
          parse (escape text ++ rest) (frame.push (.char u) :: outer) := by
        rw [hcons]
        cases hspecial : isSyntaxUnit u with
        | true => exact parse_escape _ frame outer hspecial
        | false => exact parse_plain _ frame outer hspecial
      rw [hnext, ih, hpush]
      rfl

/-- The escaped texts with bars between them. -/
def joinEscaped (texts : List JsString) : JsString :=
  [unit '|'].intercalate (texts.map escape)

def alternation : List JsString → Pattern
  | [] => .empty
  | [text] => literalFrom .empty text
  | text :: next :: rest =>
      .alt (literalFrom .empty text) (alternation (next :: rest))

theorem parse_joinEscaped
    {texts : List JsString} (hne : texts ≠ []) (done : List Pattern) :
    parse (joinEscaped texts) [⟨done, .empty⟩] =
      some (done.foldr .alt (alternation texts)) := by
  induction texts generalizing done with
  | nil => exact (hne rfl).elim
  | cons text rest ih =>
      cases rest with
      | nil =>
          have hjoin : joinEscaped [text] = escape text ++ [] := by
            simp [joinEscaped]
          rw [hjoin, parse_escape_append]
          rfl
      | cons next rest =>
          have hjoin : joinEscaped (text :: next :: rest) =
              escape text ++ unit '|' :: joinEscaped (next :: rest) := by
            simp [joinEscaped]
          rw [hjoin, parse_escape_append, parse_bar, Frame.bar,
            ih (by simp), List.foldr_append]
          rfl

/-! ## Matches of escaped texts -/

/-- The units stand in the text at the index, up to the given folding. -/
def OccursAt (canonicalize : UInt16 → UInt16) (text : JsString) (i : ℕ)
    (needle : JsString) : Prop :=
  needle.map canonicalize <+: (text.map canonicalize).drop i

instance (canonicalize : UInt16 → UInt16) (text : JsString) (i : ℕ)
    (needle : JsString) :
    Decidable (OccursAt canonicalize text i needle) :=
  inferInstanceAs (Decidable (_ <+: _))

variable {canonicalize : UInt16 → UInt16} {text : JsString}

theorem isPrefix_concat_iff
    {α : Type*} {front values : List α} {a : α} :
    front ++ [a] <+: values ↔
      front <+: values ∧ values[front.length]? = some a := by
  constructor
  · rintro ⟨back, rfl⟩
    simp
  · rintro ⟨⟨back, rfl⟩, hnext⟩
    cases back with
    | nil => simp at hnext
    | cons b back =>
        have hb : b = a := by simpa using hnext
        exact ⟨back, by simp [hb]⟩

theorem results_char (u : UInt16) (i : ℕ) :
    (Pattern.char u).results canonicalize text i =
      if text[i]?.map canonicalize = some (canonicalize u) then [⟨i + 1, []⟩]
      else [] := by
  unfold Pattern.results
  cases text[i]? <;> simp

theorem results_literal (needle : JsString) (i : ℕ) :
    (literalFrom .empty needle).results canonicalize text i =
      if OccursAt canonicalize text i needle then [⟨i + needle.length, []⟩]
      else [] := by
  induction needle using List.reverseRecOn with
  | nil => simp [literalFrom, Pattern.results, OccursAt]
  | append_singleton needle u ih =>
      have hstep : literalFrom .empty (needle ++ [u]) =
          .seq (literalFrom .empty needle) (.char u) := by
        simp [literalFrom]
      have hiff : OccursAt canonicalize text i (needle ++ [u]) ↔
          OccursAt canonicalize text i needle ∧
            text[i + needle.length]?.map canonicalize =
              some (canonicalize u) := by
        unfold OccursAt
        rw [List.map_append, List.map_singleton, isPrefix_concat_iff,
          List.length_map, List.getElem?_drop, List.getElem?_map]
      rw [hstep, Pattern.results, ih]
      simp only [hiff, results_char]
      by_cases hfront : OccursAt canonicalize text i needle
      · by_cases hlast : text[i + needle.length]?.map canonicalize =
            some (canonicalize u)
        · simp only [hfront, hlast, if_true, and_self, List.flatMap_singleton]
          simp [Nat.add_assoc]
        · simp only [hfront, hlast, if_true, if_false, and_false,
            List.flatMap_singleton, List.map_nil]
      · simp only [hfront, if_false, false_and, List.flatMap_nil]

theorem groups_literalFrom (front : Pattern) (needle : JsString) :
    (literalFrom front needle).groups = front.groups := by
  induction needle generalizing front with
  | nil => rfl
  | cons u needle ih => exact ih (.seq front (.char u))

theorem groups_alternation (texts : List JsString) :
    (alternation texts).groups = 0 := by
  fun_induction alternation texts with
  | case1 => rfl
  | case2 needle => exact groups_literalFrom .empty needle
  | case3 needle next rest ih =>
      rw [Pattern.groups, groups_literalFrom, ih]
      rfl

/-- The alternatives are tried in their order. -/
theorem results_alternation
    {texts : List JsString} (hne : texts ≠ []) (i : ℕ) :
    (alternation texts).results canonicalize text i =
      (texts.filter fun needle => OccursAt canonicalize text i needle).map
        fun needle => ⟨i + needle.length, []⟩ := by
  fun_induction alternation texts with
  | case1 => exact (hne rfl).elim
  | case2 needle =>
      rw [results_literal]
      by_cases hoccurs : OccursAt canonicalize text i needle <;> simp [hoccurs]
  | case3 needle next rest ih =>
      rw [Pattern.results, results_literal, ih (by simp), groups_alternation,
        groups_literalFrom]
      by_cases hoccurs : OccursAt canonicalize text i needle <;>
        simp [hoccurs, Pattern.groups, Function.comp_def]

/-! ## Patterns without context -/

/-- A match from one index to another. -/
def Pattern.Ends (canonicalize : UInt16 → UInt16) (text : JsString)
    (pattern : Pattern) (i e : ℕ) : Prop :=
  ∃ result ∈ pattern.results canonicalize text i, result.endIndex = e

theorem ends_empty_iff {i e : ℕ} :
    Pattern.empty.Ends canonicalize text i e ↔ e = i := by
  simp [Pattern.Ends, Pattern.results, eq_comm]

theorem ends_char_iff {u : UInt16} {i e : ℕ} :
    (Pattern.char u).Ends canonicalize text i e ↔
      text[i]?.map canonicalize = some (canonicalize u) ∧ e = i + 1 := by
  rw [Pattern.Ends, results_char]
  split
  next hunit => simp [hunit, eq_comm]
  next hother => simp [hother]

theorem ends_seq_iff {first second : Pattern} {i e : ℕ} :
    (Pattern.seq first second).Ends canonicalize text i e ↔
      ∃ m, first.Ends canonicalize text i m ∧
        second.Ends canonicalize text m e := by
  constructor
  · rintro ⟨result, hresult, rfl⟩
    obtain ⟨front, hfront, hback⟩ := List.mem_flatMap.mp hresult
    obtain ⟨back, hmem, rfl⟩ := List.mem_map.mp hback
    exact ⟨_, ⟨front, hfront, rfl⟩, back, hmem, rfl⟩
  · rintro ⟨_, ⟨front, hfront, rfl⟩, back, hback, rfl⟩
    exact ⟨_, List.mem_flatMap.mpr ⟨front, hfront,
      List.mem_map_of_mem hback⟩, rfl⟩

theorem ends_alt_iff {first second : Pattern} {i e : ℕ} :
    (Pattern.alt first second).Ends canonicalize text i e ↔
      first.Ends canonicalize text i e ∨ second.Ends canonicalize text i e := by
  simp [Pattern.Ends, Pattern.results, or_and_right, exists_or]

theorem ends_group_iff {body : Pattern} {i e : ℕ} :
    (Pattern.group body).Ends canonicalize text i e ↔
      body.Ends canonicalize text i e := by
  simp [Pattern.Ends, Pattern.results]

theorem Pattern.Ends.bounds
    {pattern : Pattern} {i e : ℕ}
    (hends : pattern.Ends canonicalize text i e) (hi : i ≤ text.length) :
    i ≤ e ∧ e ≤ text.length := by
  obtain ⟨result, hresult, rfl⟩ := hends
  exact pattern.results_bounds hi result hresult

theorem Pattern.Ends.le
    {pattern : Pattern} {i e : ℕ}
    (hends : pattern.Ends canonicalize text i e) : i ≤ e := by
  induction pattern generalizing i e with
  | empty => rw [ends_empty_iff.mp hends]
  | char u =>
      rw [(ends_char_iff.mp hends).2]
      exact Nat.le_succ i
  | seq first second ihfirst ihsecond =>
      obtain ⟨m, hfirst, hsecond⟩ := ends_seq_iff.mp hends
      exact (ihfirst hfirst).trans (ihsecond hsecond)
  | alt first second ihfirst ihsecond =>
      rcases ends_alt_iff.mp hends with hone | hother
      · exact ihfirst hone
      · exact ihsecond hother
  | group body ih => exact ih (ends_group_iff.mp hends)

/-- A part of the text has the matches which lie within it, by induction on the
pattern. -/
theorem ends_substring_iff
    (pattern : Pattern) {start stop i e : ℕ} (hi : start + i ≤ stop)
    (hstop : stop ≤ text.length) :
    pattern.Ends canonicalize (substring text start stop) i e ↔
      pattern.Ends canonicalize text (start + i) (start + e) ∧
        start + e ≤ stop := by
  induction pattern generalizing i e with
  | empty =>
      rw [ends_empty_iff, ends_empty_iff]
      omega
  | char u =>
      rw [ends_char_iff, ends_char_iff, getElem?_substring]
      by_cases hlt : start + i < stop
      · rw [if_pos hlt, and_assoc]
        exact and_congr_right fun _ => by omega
      · rw [if_neg hlt]
        exact iff_of_false (by simp) (by omega)
  | seq first second ihfirst ihsecond =>
      rw [ends_seq_iff, ends_seq_iff]
      constructor
      · rintro ⟨m, hfirst, hsecond⟩
        obtain ⟨hfront, hm⟩ := (ihfirst hi).mp hfirst
        obtain ⟨hback, he⟩ := (ihsecond hm).mp hsecond
        exact ⟨⟨start + m, hfront, hback⟩, he⟩
      · rintro ⟨⟨place, hfront, hback⟩, he⟩
        have hplace := hfront.bounds (hi.trans hstop)
        have hafter := hback.bounds hplace.2
        obtain ⟨m, rfl⟩ := Nat.exists_eq_add_of_le
          ((Nat.le_add_right start i).trans hplace.1)
        have hm : start + m ≤ stop := hafter.1.trans he
        exact ⟨m, (ihfirst hi).mpr ⟨hfront, hm⟩,
          (ihsecond hm).mpr ⟨hback, he⟩⟩
  | alt first second ihfirst ihsecond =>
      rw [ends_alt_iff, ends_alt_iff, ihfirst hi, ihsecond hi, or_and_right]
  | group body ih => rw [ends_group_iff, ends_group_iff, ih hi]

/-- Every match takes at least one unit. -/
def Pattern.consumes : Pattern → Bool
  | .empty => false
  | .char _ => true
  | .seq first second => first.consumes || second.consumes
  | .alt first second => first.consumes && second.consumes
  | .group body => body.consumes

theorem Pattern.Ends.lt_of_consumes
    {pattern : Pattern} {i e : ℕ}
    (hends : pattern.Ends canonicalize text i e)
    (hconsumes : pattern.consumes = true) : i < e := by
  induction pattern generalizing i e with
  | empty => simp [Pattern.consumes] at hconsumes
  | char u =>
      rw [ends_char_iff] at hends
      omega
  | seq first second ihfirst ihsecond =>
      obtain ⟨m, hfirst, hsecond⟩ := ends_seq_iff.mp hends
      rw [Pattern.consumes, Bool.or_eq_true] at hconsumes
      rcases hconsumes with hone | hother
      · exact lt_of_lt_of_le (ihfirst hfirst hone) hsecond.le
      · exact lt_of_le_of_lt hfirst.le (ihsecond hsecond hother)
  | alt first second ihfirst ihsecond =>
      rw [Pattern.consumes, Bool.and_eq_true] at hconsumes
      rcases ends_alt_iff.mp hends with hone | hother
      · exact ihfirst hone hconsumes.1
      · exact ihsecond hother hconsumes.2
  | group body ih => exact ih (ends_group_iff.mp hends) hconsumes

theorem Pattern.length_captures
    {pattern : Pattern} {i : ℕ} {result : MatchResult}
    (hresult : result ∈ pattern.results canonicalize text i) :
    result.captures.length = pattern.groups := by
  induction pattern generalizing i result with
  | empty =>
      rw [List.mem_singleton.mp hresult]
      rfl
  | char u =>
      rw [results_char] at hresult
      split at hresult
      next =>
        rw [List.mem_singleton.mp hresult]
        rfl
      next => simp at hresult
  | seq first second ihfirst ihsecond =>
      obtain ⟨front, hfront, hback⟩ := List.mem_flatMap.mp hresult
      obtain ⟨back, hmem, rfl⟩ := List.mem_map.mp hback
      rw [List.length_append, ihfirst hfront, ihsecond hmem]
      rfl
  | alt first second ihfirst ihsecond =>
      rcases List.mem_append.mp hresult with hleft | hright
      · obtain ⟨taken, hmem, rfl⟩ := List.mem_map.mp hleft
        rw [List.length_append, ihfirst hmem, List.length_replicate]
        rfl
      · obtain ⟨taken, hmem, rfl⟩ := List.mem_map.mp hright
        rw [List.length_append, ihsecond hmem, List.length_replicate]
        rfl
  | group body ih =>
      obtain ⟨taken, hmem, rfl⟩ := List.mem_map.mp hresult
      rw [List.length_cons, ih hmem]
      rfl

/-! ## Compiling -/

def flagUnits : List UInt16 := ofAscii "dgimsuvy"

def hasFlag (flags : JsString) (c : Char) : Bool := decide (unit c ∈ flags)

def Pattern.toRegExp (canonicalize : UInt16 → UInt16) (flags : JsString)
    (pattern : Pattern) : RegExp where
  global := hasFlag flags 'g'
  sticky := hasFlag flags 'y'
  unicode := false
  run text i := (pattern.results
    (if hasFlag flags 'i' then canonicalize else id) text i).head?
  run_bounds := by
    intro text i result hi _ hrun
    obtain ⟨hle, hend⟩ := pattern.results_bounds hi result
      (List.mem_of_mem_head? hrun)
    exact ⟨hle, hend, fun hunicode => by simp at hunicode⟩

/-- The folding of an expression under its flags. -/
def foldingOf (canonicalize : UInt16 → UInt16) (flags : JsString) :
    UInt16 → UInt16 :=
  if hasFlag flags 'i' then canonicalize else id

theorem run_toRegExp
    (pattern : Pattern) (flags text : JsString) (i : ℕ) :
    (pattern.toRegExp canonicalize flags).run text i =
      (pattern.results (foldingOf canonicalize flags) text i).head? := rfl

theorem ends_of_run
    {pattern : Pattern} {flags : JsString} {i : ℕ} {result : MatchResult}
    (hrun : (pattern.toRegExp canonicalize flags).run text i = some result) :
    pattern.Ends (foldingOf canonicalize flags) text i result.endIndex :=
  ⟨result, List.mem_of_mem_head? hrun, rfl⟩

theorem isSome_run_iff
    {pattern : Pattern} {flags : JsString} {i : ℕ} :
    ((pattern.toRegExp canonicalize flags).run text i).isSome = true ↔
      ∃ e, pattern.Ends (foldingOf canonicalize flags) text i e := by
  rw [run_toRegExp, List.isSome_head?]
  constructor
  · intro hne
    obtain ⟨result, hresult⟩ := List.exists_mem_of_ne_nil _ hne
    exact ⟨result.endIndex, result, hresult, rfl⟩
  · rintro ⟨_, result, hresult, _⟩
    exact List.ne_nil_of_mem hresult

/-- Parentheses around a pattern add one capture to its matches. -/
theorem run_group
    (pattern : Pattern) (flags text : JsString) (i : ℕ) :
    (Pattern.toRegExp canonicalize flags
        (.seq .empty (.group pattern))).run text i =
      ((pattern.toRegExp canonicalize flags).run text i).map fun result =>
        ⟨result.endIndex,
          some (substring text i result.endIndex) :: result.captures⟩ := by
  simp only [run_toRegExp, Pattern.results, List.flatMap_singleton,
    List.map_map, List.head?_map, List.nil_append, Function.comp_def]

def FlagsOk (flags : JsString) : Prop :=
  (∀ u ∈ flags, u ∈ flagUnits) ∧ flags.Nodup ∧
    hasFlag flags 'u' = false ∧ hasFlag flags 'v' = false

instance (flags : JsString) : Decidable (FlagsOk flags) :=
  inferInstanceAs (Decidable (_ ∧ _))

/-- `new RegExp(source, flags)` on this part of the language, outside Unicode
mode. -/
def compileBasic (canonicalize : UInt16 → UInt16) (source flags : JsString) :
    Option RegExp :=
  if FlagsOk flags then
    (parse source [Frame.start]).map (Pattern.toRegExp canonicalize flags)
  else none

/-- What the program relies on of the engine behind `new RegExp`. -/
structure RegExpEngine where
  canonicalize : UInt16 → UInt16
  compile : JsString → JsString → Option RegExp
  canonicalize_ascii : ∀ u, u.toNat < 128 → canonicalize u = upperAscii u
  compile_basic : ∀ source flags re,
    compileBasic canonicalize source flags = some re →
      compile source flags = some re
  compile_parenthesize : ∀ source flags re,
    compile source flags = some re →
      ∃ wrapped, compile (parenthesize source) flags = some wrapped ∧
        ∀ text i result, i ≤ text.length → Boundary wrapped.unicode text i →
          wrapped.run text i = some result →
            ∃ inner, result.captures =
              some (substring text i result.endIndex) :: inner

theorem compile_of_parse
    (engine : RegExpEngine) {source flags : JsString} {pattern : Pattern}
    (hflags : FlagsOk flags)
    (hparse : parse source [Frame.start] = some pattern) :
    engine.compile source flags =
      some (pattern.toRegExp engine.canonicalize flags) := by
  apply engine.compile_basic
  rw [compileBasic, if_pos hflags, hparse]
  rfl

/-- The object for a list of escaped texts between parentheses, under the
flags `gi`: a match is the first of the texts which stands at the index, and
its one capture. -/
theorem compile_joinEscaped
    (engine : RegExpEngine) {texts : List JsString} (hne : texts ≠ []) :
    ∃ re, engine.compile (parenthesize (joinEscaped texts)) (ofAscii "gi") =
        some re ∧ re.unicode = false ∧
      ∀ text i, re.run text i =
        (texts.find? fun needle =>
            OccursAt engine.canonicalize text i needle).map fun needle =>
          ⟨i + needle.length,
            [some (substring text i (i + needle.length))]⟩ := by
  have hparse := parse_parenthesize (parse_joinEscaped hne [])
  have hflags : FlagsOk (ofAscii "gi") := by decide
  refine ⟨_, compile_of_parse engine hflags hparse, rfl, ?_⟩
  intro text i
  have hfold : foldingOf engine.canonicalize (ofAscii "gi") =
      engine.canonicalize := if_pos (by decide)
  rw [List.foldr_nil, run_group, run_toRegExp, hfold, results_alternation hne,
    List.head?_map, List.head?_filter, Option.map_map]
  rfl

/-- The engine which knows no other patterns. -/
def basicEngine : RegExpEngine where
  canonicalize := upperAscii
  compile := compileBasic upperAscii
  canonicalize_ascii _ _ := rfl
  compile_basic _ _ _ := id
  compile_parenthesize source flags re hcompile := by
    unfold compileBasic at hcompile ⊢
    split at hcompile
    next hflags =>
      obtain ⟨pattern, hparse, _⟩ := Option.map_eq_some_iff.mp hcompile
      rw [if_pos hflags, parse_parenthesize hparse]
      refine ⟨_, rfl, ?_⟩
      intro text i result _ _ hrun
      rw [run_group, Option.map_eq_some_iff] at hrun
      obtain ⟨taken, _, rfl⟩ := hrun
      exact ⟨taken.captures, rfl⟩
    next => simp at hcompile

end JsPattern
