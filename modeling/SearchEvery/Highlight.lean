import SearchEvery.JsPattern
import SearchEvery.Delimited
import SearchEvery.DupPage
import Mathlib.Tactic

/-!
# Highlighting

`highlight` splits a text at the matches of a query and marks parts of it.  A
query in quotation marks is one phrase, a query between slashes is a regular
expression, and any other query is a list of terms.  For phrases and terms the
expression is built from the escaped texts, and the parts are compared with
them once more; the file shows that the two decisions agree.
-/

namespace SearchEvery

open JsText JsRegExp JsPattern

/-- The engine behind the regular expressions, and `toLowerCase`. -/
structure HighlightEnv where
  engine : RegExpEngine
  toLowerCase : JsString → JsString
  toLowerCase_ascii : ∀ text, (∀ u ∈ text, u.toNat < 128) →
    toLowerCase text = text.map lowerAscii

/-- A `mark` or a `span` element. -/
structure RenderedPart where
  marked : Bool
  text : JsString
  deriving DecidableEq

def plainSpan (text : JsString) : List RenderedPart := [⟨false, text⟩]

/-! ## The form of the query -/

/-- The match of `/^"([\s\S]*)"$/`. -/
def quotedPhrase : JsString → Option JsString
  | [] => none
  | first :: rest =>
      if first = unit '"' ∧ rest.getLast? = some (unit '"') then
        some rest.dropLast
      else none

def lineTerminators : List UInt16 := [0x000A, 0x000D, 0x2028, 0x2029]

/-- The match of `/^\/(.*)\/(.*)$/`: the pattern reaches to the last slash, and nothing
after the first one is a line terminator. -/
def regexQuery : JsString → Option (JsString × JsString)
  | [] => none
  | first :: rest =>
      if first = unit '/' ∧ ∀ u ∈ rest, u ∉ lineTerminators then
        match rest.reverse.dropWhile (· != unit '/') with
        | [] => none
        | _ :: before =>
            some (before.reverse,
              (rest.reverse.takeWhile (· != unit '/')).reverse)
      else none

def safeFlags (flags : JsString) : JsString :=
  let flagsRaw := if flags = [] then ofAscii "i" else flags
  let kept := flagsRaw.filter fun u => u ∈ ofAscii "gimsuy"
  if kept = [] then ofAscii "i" else kept

def isSpaceUnit (u : UInt16) : Bool := jsWhitespace (Char.ofNat u.toNat)

/-- The terms of a query; the empty parts between two blanks are dropped with
the others. -/
def queryTerms (q : JsString) : List JsString :=
  Delimited.fields isSpaceUnit isSpaceUnit q

/-! ## The three modes -/

def escapedUnits : List UInt16 := ofAscii ".*+?^$\x7b\x7d()|[]\\"

def escapeTerm (term : JsString) : JsString :=
  term.flatMap fun u => if u ∈ escapedUnits then [unit '\\', u] else [u]

def renderText (env : HighlightEnv) (terms : List JsString)
    (text : JsString) : RenderedPart where
  marked := terms.any fun term =>
    env.toLowerCase text == env.toLowerCase term
  text := text

/-- The expression `(a|b|...)` under the flags `gi`, and the comparison of
each part with the terms.  An undefined part has no `toLowerCase`. -/
def literalMode (env : HighlightEnv) (text : JsString)
    (terms : List JsString) : Option (List RenderedPart) :=
  match env.engine.compile
      (parenthesize ([unit '|'].intercalate (terms.map escapeTerm)))
      (ofAscii "gi") with
  | none => none
  | some re =>
      (re.split text).mapM fun part => part.map (renderText env terms)

/-- The text which `test` makes of an undefined part. -/
def undefinedText : JsString := ofAscii "undefined"

/-- Every part is tested, with one `lastIndex` for all of them; an undefined
part renders as nothing. -/
def markParts (re : RegExp) : ℕ → List (Option JsString) → List RenderedPart
  | _, [] => []
  | lastIndex, part :: rest =>
      ⟨(re.test lastIndex (part.getD undefinedText)).1, part.getD []⟩ ::
        markParts re (re.test lastIndex (part.getD undefinedText)).2 rest

def regexMode (re : RegExp) (text : JsString) : List RenderedPart :=
  markParts re 0 (re.split text)

def defaultMode (env : HighlightEnv) (text q : JsString) :
    Option (List RenderedPart) :=
  if queryTerms q = [] then some (plainSpan text)
  else literalMode env text (queryTerms q)

/-- `highlight`; `none` when it throws. -/
def highlight (env : HighlightEnv) (text q : JsString) :
    Option (List RenderedPart) :=
  if q = [] then some (plainSpan text)
  else
    match quotedPhrase q with
    | some phrase =>
        if phrase = [] then some (plainSpan text)
        else literalMode env text [phrase]
    | none =>
        match regexQuery q with
        | some (pattern, flags) =>
            match env.engine.compile (parenthesize pattern)
                (safeFlags flags) with
            | some re => some (regexMode re text)
            | none => defaultMode env text q
        | none => defaultMode env text q

example : quotedPhrase (ofAscii "\"a \"b\"") = some (ofAscii "a \"b") ∧
    regexQuery (ofAscii "/a/b/gi") = some (ofAscii "a/b", ofAscii "gi") ∧
    queryTerms (ofAscii " a  b.c ") = [ofAscii "a", ofAscii "b.c"] := by decide

/-! ## Places -/

/-- The parts with the place at which each begins. -/
def placed : ℕ → List RenderedPart → List (ℕ × RenderedPart)
  | _, [] => []
  | place, part :: rest =>
      (place, part) :: placed (place + part.text.length) rest

def IsAscii (text : JsString) : Prop := ∀ u ∈ text, u.toNat < 128

instance (text : JsString) : Decidable (IsAscii text) :=
  inferInstanceAs (Decidable (∀ u ∈ text, u.toNat < 128))

/-- The phrase or the terms of a query which is no regular expression. -/
def literalTerms (q : JsString) : Option (List JsString) :=
  match quotedPhrase q with
  | some phrase => if phrase = [] then none else some [phrase]
  | none => if (regexQuery q).isSome then none else some (queryTerms q)

/-- The parts are the text; a marked part is one of the terms and an unmarked
part contains none, ignoring case; every occurrence of a term overlaps a
marked part. -/
structure LiteralExact (env : HighlightEnv) (text : JsString)
    (terms : List JsString) (parts : List RenderedPart) : Prop where
  whole : parts.flatMap RenderedPart.text = text
  marked : ∀ part ∈ parts, part.marked = true →
    ∃ term ∈ terms, env.toLowerCase part.text = env.toLowerCase term
  unmarked : ∀ part ∈ parts, part.marked = false →
    ∀ term ∈ terms, ¬ env.toLowerCase term <:+: env.toLowerCase part.text
  covered : ∀ term ∈ terms, ∀ i,
    env.toLowerCase term <+: (env.toLowerCase text).drop i →
      ∃ place ∈ placed 0 parts, place.2.marked = true ∧
        place.1 < i + term.length ∧ i < place.1 + place.2.text.length

/-! ## Occurrences -/

variable {env : HighlightEnv} {text : JsString} {terms : List JsString}

theorem escapeTerm_eq_escape : escapeTerm = escape := by
  have hunits : ∀ u, u ∈ escapedUnits ↔ isSyntaxUnit u = true := by
    intro u
    have hleft : ∀ v ∈ escapedUnits, v ∈ syntaxUnits := by decide
    have hright : ∀ v ∈ syntaxUnits, v ∈ escapedUnits := by decide
    rw [isSyntaxUnit, decide_eq_true_eq]
    exact ⟨hleft u, hright u⟩
  funext term
  simp only [escapeTerm, escape, hunits]

/-- Two foldings which identify the same units find the same prefixes. -/
theorem map_isPrefix_map_iff
    {f g : UInt16 → UInt16} (hsame : ∀ u v, f u = f v ↔ g u = g v)
    (needle values : JsString) :
    needle.map f <+: values.map f ↔ needle.map g <+: values.map g := by
  induction needle generalizing values with
  | nil => simp
  | cons u needle ih =>
      cases values with
      | nil => simp
      | cons v values =>
          simp only [List.map_cons, List.cons_prefix_cons, hsame, ih]

theorem IsAscii.map_canonicalize
    (engine : RegExpEngine) (hascii : IsAscii text) :
    text.map engine.canonicalize = text.map upperAscii :=
  List.map_congr_left fun u hu => engine.canonicalize_ascii u (hascii u hu)

/-- On ASCII texts the expression finds what a comparison in lower case
finds. -/
theorem occursAt_iff
    (engine : RegExpEngine) (htext : IsAscii text) {term : JsString}
    (hterm : IsAscii term) (i : ℕ) :
    OccursAt engine.canonicalize text i term ↔
      term.map lowerAscii <+: (text.map lowerAscii).drop i := by
  rw [OccursAt, htext.map_canonicalize, hterm.map_canonicalize,
    ← List.map_drop, ← List.map_drop,
    map_isPrefix_map_iff upperAscii_eq_iff]

theorem IsAscii.substring
    (htext : IsAscii text) (start stop : ℕ) :
    IsAscii (substring text start stop) :=
  fun u hu => htext u (List.mem_of_mem_take (List.mem_of_mem_drop hu))

/-- Where nothing matches between two places, the text between them contains
no term. -/
theorem not_infix_between
    (engine : RegExpEngine) (htext : IsAscii text) {term : JsString}
    (hterm : IsAscii term) (hne : term ≠ []) {start stop : ℕ}
    (hnone : ∀ j, start ≤ j → j < stop →
      ¬ OccursAt engine.canonicalize text j term) :
    ¬ term.map lowerAscii <:+: (substring text start stop).map lowerAscii := by
  rintro ⟨front, back, hsplit⟩
  have hpos := List.length_pos_of_ne_nil hne
  have hlength := congrArg List.length hsplit
  simp only [List.length_append, List.length_map, substring, List.length_drop,
    List.length_take] at hlength
  apply hnone (start + front.length) (by omega) (by omega)
  rw [occursAt_iff engine htext hterm]
  have htake : term.map lowerAscii <+:
      ((substring text start stop).map lowerAscii).drop front.length := by
    rw [← hsplit, List.append_assoc, List.drop_left]
    exact List.prefix_append _ _
  refine htake.trans ?_
  rw [substring, List.map_drop, List.drop_drop, List.map_take]
  exact (List.take_prefix stop _).drop _

/-- A part which stands where a term was found is that term in lower case. -/
theorem lower_substring_of_occursAt
    (engine : RegExpEngine) (htext : IsAscii text) {term : JsString}
    (hterm : IsAscii term) {start : ℕ}
    (hoccurs : OccursAt engine.canonicalize text start term) :
    (substring text start (start + term.length)).map lowerAscii =
      term.map lowerAscii := by
  have hstart := (occursAt_iff engine htext hterm start).mp hoccurs
  have htake := List.prefix_iff_eq_take.mp hstart
  rw [List.length_map] at htake
  rw [htake, substring, List.map_drop, List.map_take, List.take_drop,
    Nat.add_comm]

/-! ## The parts of the literal modes -/

/-- The parts as texts: what stands before a cut, the cut, and so on. -/
def literalTexts (text : JsString) : ℕ → List Cut → List JsString
  | p, [] => [substring text p text.length]
  | p, cut :: rest =>
      substring text p cut.start :: substring text cut.start cut.stop ::
        literalTexts text cut.stop rest

/-- The capture of every cut is the text which it cuts out. -/
def CutsWhole (text : JsString) (cuts : List Cut) : Prop :=
  ∀ cut ∈ cuts, cut.captures = [some (substring text cut.start cut.stop)]

theorem piecesFrom_content
    {cuts : List Cut} (hwhole : CutsWhole text cuts) (p : ℕ) :
    (piecesFrom text p cuts).map Piece.content =
      (literalTexts text p cuts).map some := by
  induction cuts generalizing p with
  | nil => rfl
  | cons cut rest ih =>
      have hcut := hwhole cut (by simp)
      have hrest : CutsWhole text rest :=
        fun other hmem => hwhole other (by simp [hmem])
      simp [piecesFrom, literalTexts, Cut.pieces, hcut, Piece.between,
        ih hrest]

theorem mapM_render (texts : List JsString) :
    (texts.map some).mapM (fun part => part.map (renderText env terms)) =
      some (texts.map (renderText env terms)) := by
  induction texts with
  | nil => rfl
  | cons part texts ih => simp [ih]

/-- What holds of the parts which begin at `p`. -/
structure ExactFrom (env : HighlightEnv) (text : JsString)
    (terms : List JsString) (p : ℕ) (parts : List RenderedPart) : Prop where
  whole : parts.flatMap RenderedPart.text = text.drop p
  marked : ∀ part ∈ parts, part.marked = true →
    ∃ term ∈ terms, env.toLowerCase part.text = env.toLowerCase term
  unmarked : ∀ part ∈ parts, part.marked = false →
    ∀ term ∈ terms, ¬ env.toLowerCase term <:+: env.toLowerCase part.text
  covered : ∀ term ∈ terms, ∀ i, p ≤ i →
    OccursAt env.engine.canonicalize text i term →
      ∃ place ∈ placed p parts, place.2.marked = true ∧
        place.1 ≤ i ∧ i < place.1 + place.2.text.length

/-- One more part in front, which is marked, or in which no term begins. -/
theorem ExactFrom.cons
    {p stop : ℕ} {parts : List RenderedPart} {part : RenderedPart}
    (hexact : ExactFrom env text terms stop parts) (hp : p ≤ stop)
    (hstop : stop ≤ text.length) (htext : part.text = substring text p stop)
    (hmarked : part.marked = true →
      ∃ term ∈ terms, env.toLowerCase part.text = env.toLowerCase term)
    (hunmarked : part.marked = false → ∀ term ∈ terms,
      ¬ env.toLowerCase term <:+: env.toLowerCase part.text ∧
        ∀ i, p ≤ i → i < stop →
          ¬ OccursAt env.engine.canonicalize text i term) :
    ExactFrom env text terms p (part :: parts) where
  whole := by
    rw [List.flatMap_cons, hexact.whole, htext, substring_append_drop hp hstop]
  marked := by
    intro other hmem hmark
    rcases List.mem_cons.mp hmem with rfl | hrest
    · exact hmarked hmark
    · exact hexact.marked other hrest hmark
  unmarked := by
    intro other hmem hmark term hterm
    rcases List.mem_cons.mp hmem with rfl | hrest
    · exact (hunmarked hmark term hterm).1
    · exact hexact.unmarked other hrest hmark term hterm
  covered := by
    intro term hterm i hi hoccurs
    have hlength : part.text.length = stop - p := by
      rw [htext, length_substring hstop]
    have hnext : p + part.text.length = stop := by omega
    rw [placed, hnext]
    by_cases hbefore : i < stop
    · cases hmark : part.marked with
      | true =>
          exact ⟨(p, part), by simp, hmark, hi,
            lt_of_lt_of_eq hbefore hnext.symm⟩
      | false =>
          exact ((hunmarked hmark term hterm).2 i hi hbefore hoccurs).elim
    · obtain ⟨place, hplace, hrest⟩ :=
        hexact.covered term hterm i (by omega) hoccurs
      exact ⟨place, by simp [hplace], hrest⟩

/-- What the expression of the terms finds. -/
def FindsTerms (env : HighlightEnv) (terms : List JsString) (re : RegExp) :
    Prop :=
  ∀ text i, re.run text i =
    (terms.find? fun term =>
        OccursAt env.engine.canonicalize text i term).map fun term =>
      ⟨i + term.length, [some (substring text i (i + term.length))]⟩

def TermsOk (terms : List JsString) : Prop :=
  ∀ term ∈ terms, IsAscii term ∧ term ≠ []

theorem FindsTerms.run_eq_none
    {re : RegExp} (hfinds : FindsTerms env terms re) {i : ℕ}
    (hrun : re.run text i = none) :
    ∀ term ∈ terms, ¬ OccursAt env.engine.canonicalize text i term := by
  rw [hfinds, Option.map_eq_none_iff, List.find?_eq_none] at hrun
  intro term hterm
  simpa using hrun term hterm

theorem FindsTerms.run_eq_some
    {re : RegExp} (hfinds : FindsTerms env terms re) {i : ℕ}
    {result : MatchResult} (hrun : re.run text i = some result) :
    ∃ term ∈ terms, OccursAt env.engine.canonicalize text i term ∧
      result = ⟨i + term.length,
        [some (substring text i (i + term.length))]⟩ := by
  rw [hfinds, Option.map_eq_some_iff] at hrun
  obtain ⟨term, hfound, rfl⟩ := hrun
  exact ⟨term, List.mem_of_find?_eq_some hfound,
    by simpa using List.find?_some hfound, rfl⟩

theorem render_gap
    {re : RegExp} (hfinds : FindsTerms env terms re) (hok : TermsOk terms)
    (htext : IsAscii text) {p stop : ℕ}
    (hmissed : ∀ j, p ≤ j → j < stop → re.run text j = none) :
    (renderText env terms (substring text p stop)).marked = false ∧
      ∀ term ∈ terms,
        ¬ env.toLowerCase term <:+:
            env.toLowerCase (substring text p stop) ∧
          ∀ i, p ≤ i → i < stop →
            ¬ OccursAt env.engine.canonicalize text i term := by
  have hnone : ∀ term ∈ terms,
      ¬ env.toLowerCase term <:+: env.toLowerCase (substring text p stop) := by
    intro term hterm
    rw [env.toLowerCase_ascii _ (hok term hterm).1,
      env.toLowerCase_ascii _ (htext.substring p stop)]
    exact not_infix_between env.engine htext (hok term hterm).1
      (hok term hterm).2
      fun j hj hlt => hfinds.run_eq_none (hmissed j hj hlt) term hterm
  refine ⟨?_, fun term hterm => ⟨hnone term hterm, fun i hi hlt =>
    hfinds.run_eq_none (hmissed i hi hlt) term hterm⟩⟩
  simp only [renderText, List.any_eq_false, beq_iff_eq]
  intro term hterm heq
  apply hnone term hterm
  rw [heq]

theorem render_cut
    {re : RegExp} (hfinds : FindsTerms env terms re) (hok : TermsOk terms)
    (htext : IsAscii text) {start : ℕ} {result : MatchResult}
    (hrun : re.run text start = some result) :
    ∃ term ∈ terms, env.toLowerCase
      (substring text start result.endIndex) = env.toLowerCase term := by
  obtain ⟨term, hterm, hoccurs, rfl⟩ := hfinds.run_eq_some hrun
  refine ⟨term, hterm, ?_⟩
  rw [env.toLowerCase_ascii _ (hok term hterm).1,
    env.toLowerCase_ascii _ (htext.substring _ _)]
  exact lower_substring_of_occursAt env.engine htext (hok term hterm).1 hoccurs

/-- The parts at the cuts of the expression are exact, by induction on the
cuts: before each of them nothing matches, and each of them is a term. -/
theorem exactFrom_literalTexts
    {re : RegExp} (hfinds : FindsTerms env terms re) (hok : TermsOk terms)
    (htext : IsAscii text) {cuts : List Cut} {p : ℕ}
    (hvalid : CutsValid text p cuts) (hmatch : CutsMatch re text cuts)
    (hleft : CutsLeftmost re text p cuts) :
    ExactFrom env text terms p
      ((literalTexts text p cuts).map (renderText env terms)) := by
  induction cuts generalizing p with
  | nil =>
      obtain ⟨hunmarked, hnone⟩ := render_gap hfinds hok htext hleft
      have hend : ExactFrom env text terms text.length [] := by
        refine ⟨by simp, by simp, by simp, ?_⟩
        intro term hterm i hi hoccurs
        have hlower := (occursAt_iff env.engine htext (hok term hterm).1 i).mp
          hoccurs
        rw [List.drop_eq_nil_of_le (by simpa using hi), List.prefix_nil,
          List.map_eq_nil_iff] at hlower
        exact ((hok term hterm).2 hlower).elim
      refine hend.cons hvalid le_rfl rfl ?_ (fun _ => hnone)
      intro hmark
      rw [hunmarked] at hmark
      contradiction
  | cons cut rest ih =>
      obtain ⟨hstart, hcut, hstop, hrest⟩ := hvalid
      obtain ⟨hbefore, hlater⟩ := hleft
      obtain ⟨_, result, hrun, hend, _⟩ := hmatch cut (by simp)
      have hterm := render_cut hfinds hok htext hrun
      rw [hend] at hterm
      obtain ⟨hunmarked, hnone⟩ := render_gap hfinds hok htext hbefore
      have hafter := ih hrest (fun other hmem => hmatch other (by simp [hmem]))
        hlater
      have hfound : (renderText env terms
          (substring text cut.start cut.stop)).marked = true := by
        obtain ⟨term, hmem, heq⟩ := hterm
        simp only [renderText, List.any_eq_true, beq_iff_eq]
        exact ⟨term, hmem, heq⟩
      have hcutPart := @ExactFrom.cons env text terms cut.start cut.stop _
        (renderText env terms (substring text cut.start cut.stop)) hafter hcut
        hstop rfl (fun _ => hterm) (fun hmark => by simp [hfound] at hmark)
      refine hcutPart.cons hstart (hcut.trans hstop) rfl ?_ (fun _ => hnone)
      intro hmark
      rw [hunmarked] at hmark
      contradiction

theorem literalMode_exact
    (env : HighlightEnv) (hok : TermsOk terms) (hne : terms ≠ [])
    (htext : IsAscii text) :
    ∃ parts, literalMode env text terms = some parts ∧
      LiteralExact env text terms parts := by
  obtain ⟨re, hcompile, hunits, hfinds⟩ :=
    compile_joinEscaped env.engine hne
  have hsource : [unit '|'].intercalate (terms.map escapeTerm) =
      joinEscaped terms := by
    rw [joinEscaped, escapeTerm_eq_escape]
  have hadvance : ∀ j result, re.run text j = some result →
      j < result.endIndex := by
    intro j result hrun
    obtain ⟨term, hterm, _, rfl⟩ := FindsTerms.run_eq_some hfinds hrun
    have hpos := List.length_pos_of_ne_nil (hok term hterm).2
    exact Nat.lt_add_of_pos_right hpos
  obtain ⟨hvalid, hmatch⟩ := cuts_valid re text
  have hleft := cuts_leftmost hunits hadvance
  have hwhole : CutsWhole text (re.cuts text) := by
    intro cut hcut
    obtain ⟨_, result, hrun, hend, hcaptures⟩ := hmatch cut hcut
    obtain ⟨term, _, _, rfl⟩ := FindsTerms.run_eq_some hfinds hrun
    rw [← hcaptures, ← hend]
  have hempty : text = [] → re.run [] 0 = none := by
    rintro rfl
    rw [Option.eq_none_iff_forall_ne_some]
    intro result hrun
    have hbounds := re.run_bounds le_rfl (boundary_zero _ _) hrun
    have hpast := hadvance 0 result hrun
    simp only [List.length_nil] at hbounds
    omega
  have hexact := exactFrom_literalTexts hfinds hok htext hvalid hmatch hleft
  refine ⟨(literalTexts text 0 (re.cuts text)).map (renderText env terms),
    ?_, ?_⟩
  · rw [literalMode, hsource, hcompile]
    simp only [RegExp.split]
    rw [splitPieces_eq hempty, piecesFrom_content hwhole, mapM_render]
  · refine ⟨hexact.whole, hexact.marked, hexact.unmarked, ?_⟩
    intro term hterm i hlower
    rw [env.toLowerCase_ascii _ (hok term hterm).1,
      env.toLowerCase_ascii _ htext,
      ← occursAt_iff env.engine htext (hok term hterm).1] at hlower
    obtain ⟨place, hplace, hmark, hle, hlt⟩ :=
      hexact.covered term hterm i (Nat.zero_le i) hlower
    have hpos := List.length_pos_of_ne_nil (hok term hterm).2
    exact ⟨place, hplace, hmark, by omega, hlt⟩

/-! ## Phrases and terms -/

theorem IsAscii.queryTerms
    {q : JsString} (hq : IsAscii q) : TermsOk (queryTerms q) := by
  intro term hterm
  exact ⟨fun u hu => hq u ((Delimited.sublist_of_mem_fields hterm).mem hu),
    (Delimited.isField_of_mem_fields hterm).ne_nil⟩

theorem IsAscii.quotedPhrase
    {q phrase : JsString} (hq : IsAscii q)
    (hquoted : quotedPhrase q = some phrase) : q ≠ [] ∧ IsAscii phrase := by
  cases q with
  | nil => simp [SearchEvery.quotedPhrase] at hquoted
  | cons first rest =>
      simp only [SearchEvery.quotedPhrase] at hquoted
      split at hquoted
      next =>
        rw [Option.some.injEq] at hquoted
        refine ⟨by simp, ?_⟩
        intro u hu
        rw [← hquoted] at hu
        exact hq u (List.mem_cons_of_mem first (List.mem_of_mem_dropLast hu))
      next => simp at hquoted

theorem plainSpan_exact (env : HighlightEnv) (text : JsString) :
    LiteralExact env text [] (plainSpan text) := by
  constructor <;> simp [plainSpan]

theorem defaultMode_exact
    (env : HighlightEnv) {q : JsString} (htext : IsAscii text)
    (hq : IsAscii q) :
    ∃ parts, defaultMode env text q = some parts ∧
      LiteralExact env text (queryTerms q) parts := by
  unfold defaultMode
  split
  next hnone =>
    rw [hnone]
    exact ⟨plainSpan text, rfl, plainSpan_exact env text⟩
  next hsome => exact literalMode_exact env hq.queryTerms hsome htext

/-- Phrases and terms are highlighted exactly. -/
theorem literal_highlight_exact
    (env : HighlightEnv) {text q : JsString} {terms : List JsString}
    (htext : IsAscii text) (hq : IsAscii q)
    (hterms : literalTerms q = some terms) :
    ∃ parts, highlight env text q = some parts ∧
      LiteralExact env text terms parts := by
  unfold literalTerms at hterms
  cases hquoted : quotedPhrase q with
  | some phrase =>
      obtain ⟨hne, hphrase⟩ := hq.quotedPhrase hquoted
      simp only [hquoted] at hterms
      split at hterms
      next => simp at hterms
      next hsome =>
        rw [Option.some.injEq] at hterms
        subst hterms
        simp only [highlight, hne, if_false, hquoted, hsome]
        exact literalMode_exact env
          (fun term hterm => by
            rw [List.mem_singleton.mp hterm]
            exact ⟨hphrase, hsome⟩)
          (by simp) htext
  | none =>
      simp only [hquoted] at hterms
      split at hterms
      next => simp at hterms
      next hform =>
        have hplain : regexQuery q = none := by simpa using hform
        rw [Option.some.injEq] at hterms
        subst hterms
        by_cases hempty : q = []
        · subst hempty
          exact ⟨plainSpan text, by simp [highlight], plainSpan_exact env text⟩
        · simp only [highlight, hempty, if_false, hquoted, hplain]
          exact defaultMode_exact env htext hq

/-- The basic engine with the lower case of ASCII texts. -/
def basicEnv : HighlightEnv :=
  ⟨basicEngine, fun text => text.map lowerAscii, fun _ _ => rfl⟩

example : highlight basicEnv (ofAscii "xA.B aXb") (ofAscii "a.b  x") =
    some [⟨false, []⟩, ⟨true, ofAscii "x"⟩, ⟨false, []⟩,
      ⟨true, ofAscii "A.B"⟩, ⟨false, ofAscii " a"⟩, ⟨true, ofAscii "X"⟩,
      ⟨false, ofAscii "b"⟩] := by decide +kernel

theorem literal_highlight_exact_terms :
    ∃ parts, highlight basicEnv (ofAscii "xA.B aXb") (ofAscii "a.b  x") =
        some parts ∧
      LiteralExact basicEnv (ofAscii "xA.B aXb") [ofAscii "a.b", ofAscii "x"]
        parts :=
  literal_highlight_exact basicEnv (by decide) (by decide) (by decide)

end SearchEvery
