import SearchEvery.Highlight
import Mathlib.Tactic

/-!
# Highlighting with a regular expression

The regular expression mode splits the text with the pattern in parentheses
and tests every part by itself.  The groups of the pattern put further parts
between the others, and a part taken out of the text may match where it did not
match before, or the other way round.  The file says exactly when the parts are
the text and the marked ones are the matches of the pattern, and that patterns
of characters and alternatives meet the condition.
-/

namespace SearchEvery

open JsText JsRegExp JsPattern

/-- The places of the marked parts which are not empty. -/
def markedSpans (place : ℕ) (parts : List RenderedPart) : List (ℕ × ℕ) :=
  ((placed place parts).filter fun part =>
      part.2.marked && decide (part.2.text ≠ [])).map
    fun part => (part.1, part.1 + part.2.text.length)

/-- The nonempty parts are the text, and the marked ones stand where the
pattern matches. -/
structure RegexExact (pattern : RegExp) (text : JsString)
    (parts : List RenderedPart) : Prop where
  whole : (parts.filter fun part => decide (part.text ≠ [])).flatMap
    RenderedPart.text = text
  marks : ∀ span,
    span ∈ markedSpans 0 parts ↔ span ∈ pattern.nonEmptyMatches text

/-- What the cuts leave: the stretch before each of them, and the last one. -/
def gapSpans (length : ℕ) : ℕ → List Cut → List (ℕ × ℕ)
  | p, [] => [(p, length)]
  | p, cut :: rest => (p, cut.start) :: gapSpans length cut.stop rest

/-- The index which is kept after a list of captures. -/
def indexPast (re : RegExp) (i : ℕ) (captures : List (Option JsString)) : ℕ :=
  captures.foldl (fun kept group => re.indexAfter kept (group.getD undefinedText))
    i

/-- The stretches and the cuts in turn, each with the index from which it is
looked at: the texts before it have left it, the groups of the cuts included. -/
def looksFrom (re : RegExp) (text : JsString) :
    ℕ → ℕ → List Cut → List (ℕ × (ℕ × ℕ))
  | i, p, [] => [(i, (p, text.length))]
  | i, p, cut :: rest =>
      let between := re.indexAfter i (substring text p cut.start)
      (i, (p, cut.start)) :: (between, cut.span) ::
        looksFrom re text (indexPast re between cut.captures) cut.stop rest

/-- The groups of the pattern capture nothing, or an empty text.  Each of the
matches is a stretch or a cut; and a stretch or a cut, as a text of its own,
has a match exactly when it is one of them. -/
structure MatchesAlone (re : RegExp) (text : JsString)
    (found : List (ℕ × ℕ)) : Prop where
  groups : ∀ cut ∈ re.cuts text, ∀ group ∈ cut.captures.tail,
    group.getD [] = []
  places : ∀ span ∈ found,
    span ∈ gapSpans text.length 0 (re.cuts text) ∨
      span ∈ (re.cuts text).map Cut.span
  alone : ∀ look ∈ looksFrom re text 0 0 (re.cuts text),
    look.2.1 < look.2.2 →
      ((re.foundFrom look.1 (substring text look.2.1 look.2.2)).isSome = true ↔
        look.2 ∈ found)

/-! ## Rendered pieces -/

/-- Every piece with the answer of its test, which starts from the index left
by the tests before it. -/
def testedPieces (re : RegExp) : ℕ → List Piece → List (Piece × Bool)
  | _, [] => []
  | lastIndex, piece :: rest =>
      (piece, (re.test lastIndex (piece.content.getD undefinedText)).1) ::
        testedPieces re
          (re.test lastIndex (piece.content.getD undefinedText)).2 rest

def renderTested (tested : Piece × Bool) : RenderedPart :=
  ⟨tested.2, tested.1.shown⟩

theorem markParts_eq (re : RegExp) (lastIndex : ℕ) (pieces : List Piece) :
    markParts re lastIndex (pieces.map Piece.content) =
      (testedPieces re lastIndex pieces).map renderTested := by
  induction pieces generalizing lastIndex with
  | nil => rfl
  | cons piece rest ih =>
      rw [List.map_cons, markParts, testedPieces, List.map_cons, ih]
      rfl

theorem testedPieces_fst (re : RegExp) (lastIndex : ℕ) (pieces : List Piece) :
    (testedPieces re lastIndex pieces).map Prod.fst = pieces := by
  induction pieces generalizing lastIndex with
  | nil => rfl
  | cons piece rest ih => rw [testedPieces, List.map_cons, ih]

theorem flatMap_filter_ne_nil (parts : List RenderedPart) :
    (parts.filter fun part => decide (part.text ≠ [])).flatMap
        RenderedPart.text = parts.flatMap RenderedPart.text := by
  induction parts with
  | nil => rfl
  | cons part rest ih =>
      by_cases hempty : part.text = []
      · simp only [List.filter_cons, hempty, ne_eq, not_true_eq_false,
          decide_false, Bool.false_eq_true, if_false, List.flatMap_cons,
          List.nil_append]
        exact ih
      · simp only [List.filter_cons, hempty, ne_eq, not_false_eq_true,
          decide_true, if_true, List.flatMap_cons]
        rw [← ih]

theorem flatMap_renderTested (tested : List (Piece × Bool)) :
    (tested.map renderTested).flatMap RenderedPart.text =
      (tested.map Prod.fst).flatMap Piece.shown := by
  rw [List.flatMap_map, List.flatMap_map]
  rfl

/-! ## Pieces in their places -/

/-- The pieces follow each other from a place on, as they are rendered; those
without a place of their own show nothing. -/
def Laid : ℕ → List Piece → Prop
  | _, [] => True
  | place, piece :: rest =>
      (∀ span ∈ piece.span,
        span = (place, place + piece.shown.length)) ∧
      (piece.span = none → piece.shown = []) ∧
      Laid (place + piece.shown.length) rest

theorem Laid.append
    {place : ℕ} {front back : List Piece} (hfront : Laid place front)
    (hback : Laid (place + (front.flatMap Piece.shown).length) back) :
    Laid place (front ++ back) := by
  induction front generalizing place with
  | nil => simpa using hback
  | cons piece front ih =>
      refine ⟨hfront.1, hfront.2.1, ih hfront.2.2 ?_⟩
      rw [List.flatMap_cons, List.length_append, ← Nat.add_assoc] at hback
      exact hback

theorem Laid.le_of_mem
    {place : ℕ} {pieces : List Piece} (hlaid : Laid place pieces)
    {piece : Piece} (hmem : piece ∈ pieces) {span : ℕ × ℕ}
    (hspan : piece.span = some span) : place ≤ span.1 := by
  induction pieces generalizing place with
  | nil => simp at hmem
  | cons first rest ih =>
      rcases List.mem_cons.mp hmem with rfl | hrest
      · rw [hlaid.1 span hspan]
      · exact le_trans (Nat.le_add_right _ _) (ih hlaid.2.2 hrest)

/-- A place which is not empty belongs to one piece. -/
theorem Laid.tested_unique
    {place : ℕ} {tested : List (Piece × Bool)}
    (hlaid : Laid place (tested.map Prod.fst)) {one other : Piece × Bool}
    (hone : one ∈ tested) (hother : other ∈ tested) {span : ℕ × ℕ}
    (hspan : span.1 < span.2) (honeSpan : one.1.span = some span)
    (hotherSpan : other.1.span = some span) : one = other := by
  induction tested generalizing place with
  | nil => simp at hone
  | cons first rest ih =>
      have hlater {late : Piece × Bool} (hlate : late ∈ rest)
          (hfirst : first.1.span = some span)
          (hlateSpan : late.1.span = some span) : False := by
        have hle := hlaid.2.2.le_of_mem (List.mem_map_of_mem hlate) hlateSpan
        rw [hlaid.1 span hfirst] at hspan hle
        simp only at hspan hle
        omega
      rcases List.mem_cons.mp hone with rfl | honeRest
      · rcases List.mem_cons.mp hother with rfl | hotherRest
        · rfl
        · exact (hlater hotherRest honeSpan hotherSpan).elim
      · rcases List.mem_cons.mp hother with rfl | hotherRest
        · exact (hlater honeRest hotherSpan honeSpan).elim
        · exact ih hlaid.2.2 honeRest hotherRest

theorem mem_markedSpans_cons
    {place : ℕ} {part : RenderedPart} {parts : List RenderedPart}
    {span : ℕ × ℕ} :
    span ∈ markedSpans place (part :: parts) ↔
      (part.marked = true ∧ part.text ≠ [] ∧
        span = (place, place + part.text.length)) ∨
      span ∈ markedSpans (place + part.text.length) parts := by
  simp only [markedSpans, placed, List.mem_map, List.mem_filter,
    List.mem_cons, Bool.and_eq_true, decide_eq_true_eq]
  constructor
  · rintro ⟨one, ⟨rfl | hrest, hmarked, hne⟩, rfl⟩
    · exact Or.inl ⟨hmarked, hne, rfl⟩
    · exact Or.inr ⟨one, ⟨hrest, hmarked, hne⟩, rfl⟩
  · rintro (⟨hmarked, hne, rfl⟩ | ⟨one, ⟨hrest, hmarked, hne⟩, rfl⟩)
    · exact ⟨(place, part), ⟨Or.inl rfl, hmarked, hne⟩, rfl⟩
    · exact ⟨one, ⟨Or.inr hrest, hmarked, hne⟩, rfl⟩

/-- The marked places are those of the pieces whose test succeeds. -/
theorem Laid.mem_markedSpans_iff
    {place : ℕ} {tested : List (Piece × Bool)}
    (hlaid : Laid place (tested.map Prod.fst)) (span : ℕ × ℕ) :
    span ∈ markedSpans place (tested.map renderTested) ↔
      span.1 < span.2 ∧ ∃ one ∈ tested, one.1.span = some span ∧
        one.2 = true := by
  induction tested generalizing place with
  | nil => simp [markedSpans, placed]
  | cons first rest ih =>
      have hown : ((renderTested first).marked = true ∧
          (renderTested first).text ≠ [] ∧
          span = (place, place + (renderTested first).text.length)) ↔
            span.1 < span.2 ∧ first.1.span = some span ∧ first.2 = true := by
        constructor
        · rintro ⟨hmarked, hne, rfl⟩
          have hpos : 0 < first.1.shown.length :=
            List.length_pos_of_ne_nil hne
          cases hspan : first.1.span with
          | none => exact (hne (hlaid.2.1 hspan)).elim
          | some own =>
              rw [hlaid.1 own hspan]
              exact ⟨Nat.lt_add_of_pos_right hpos, rfl, hmarked⟩
        · rintro ⟨hlt, hspan, hmarked⟩
          have hplace := hlaid.1 span hspan
          refine ⟨hmarked, ?_, hplace⟩
          intro hnil
          have hshown : first.1.shown = [] := hnil
          rw [hplace, hshown] at hlt
          simp at hlt
      have hlater : span ∈ markedSpans
          (place + (renderTested first).text.length)
            (rest.map renderTested) ↔ _ := ih hlaid.2.2
      rw [List.map_cons, mem_markedSpans_cons, hown, hlater]
      simp only [List.mem_cons, exists_eq_or_imp, ← and_or_left]

/-- The marked places are the given ones exactly when each of these is the
place of a piece, and the pieces at them are those whose test succeeds. -/
theorem Laid.marks_iff
    {place : ℕ} {tested : List (Piece × Bool)}
    (hlaid : Laid place (tested.map Prod.fst)) {found : List (ℕ × ℕ)}
    (hfound : ∀ span ∈ found, span.1 < span.2) :
    (∀ span, span ∈ markedSpans place (tested.map renderTested) ↔
      span ∈ found) ↔
      (∀ span ∈ found, ∃ piece ∈ tested.map Prod.fst,
        piece.span = some span) ∧
      ∀ one ∈ tested, ∀ span ∈ one.1.span, span.1 < span.2 →
        (one.2 = true ↔ span ∈ found) := by
  simp only [hlaid.mem_markedSpans_iff]
  constructor
  · intro hmarks
    constructor
    · intro span hspan
      obtain ⟨_, one, hone, hplace, _⟩ := (hmarks span).mpr hspan
      exact ⟨one.1, List.mem_map_of_mem hone, hplace⟩
    · intro one hone span hplace hlt
      rw [← hmarks]
      constructor
      · exact fun hmarked => ⟨hlt, one, hone, hplace, hmarked⟩
      · rintro ⟨_, other, hother, hsame, hmarked⟩
        rwa [hlaid.tested_unique hone hother hlt hplace hsame]
  · rintro ⟨hpieces, halone⟩ span
    constructor
    · rintro ⟨hlt, one, hone, hplace, hmarked⟩
      exact (halone one hone span hplace hlt).mp hmarked
    · intro hspan
      obtain ⟨piece, hpiece, hplace⟩ := hpieces span hspan
      obtain ⟨one, hone, rfl⟩ := List.mem_map.mp hpiece
      have hlt := hfound span hspan
      exact ⟨hlt, one, hone, hplace,
        (halone one hone span hplace hlt).mpr hspan⟩

/-! ## The groups of the pattern -/

variable {text : JsString}

/-- The first capture of every cut is the text which it cuts out. -/
def CutsCapture (text : JsString) (cuts : List Cut) : Prop :=
  ∀ cut ∈ cuts, ∃ inner,
    cut.captures = some (substring text cut.start cut.stop) :: inner

/-- How much the groups of the pattern add to the parts. -/
def innerLength (cut : Cut) : ℕ :=
  (cut.captures.tail.map fun group => (group.getD []).length).sum

theorem innerLength_eq_zero_iff (cut : Cut) :
    innerLength cut = 0 ↔
      ∀ group ∈ cut.captures.tail, group.getD [] = [] := by
  rw [innerLength, List.sum_eq_zero_iff, List.forall_mem_map]
  simp only [List.length_eq_zero_iff]

theorem pieces_of_captures
    {cut : Cut} {inner : List (Option JsString)}
    (hcaptures : cut.captures =
      some (substring text cut.start cut.stop) :: inner) :
    cut.pieces = Piece.between text cut.start cut.stop ::
      inner.map (Piece.mk none) := by
  simp only [Cut.pieces, hcaptures, Piece.between]

theorem shown_pieces
    {cut : Cut} {inner : List (Option JsString)}
    (hcaptures : cut.captures =
      some (substring text cut.start cut.stop) :: inner) :
    cut.pieces.flatMap Piece.shown =
      substring text cut.start cut.stop ++
        inner.flatMap fun group => group.getD [] := by
  simp [pieces_of_captures hcaptures, List.flatMap_map, Piece.shown,
    Piece.between]

theorem length_shown_pieces
    {cut : Cut} {inner : List (Option JsString)}
    (hcaptures : cut.captures =
      some (substring text cut.start cut.stop) :: inner)
    (hstop : cut.stop ≤ text.length) :
    (cut.pieces.flatMap Piece.shown).length =
      (cut.stop - cut.start) + innerLength cut := by
  rw [shown_pieces hcaptures, List.length_append, length_substring hstop,
    List.length_flatMap, innerLength, hcaptures, List.tail_cons]

theorem length_shown_between
    {start stop : ℕ} (hstop : stop ≤ text.length) :
    (Piece.between text start stop).shown.length = stop - start :=
  length_substring hstop

theorem length_shown_piecesFrom
    {cuts : List Cut} {p : ℕ} (hvalid : CutsValid text p cuts)
    (hcapture : CutsCapture text cuts) :
    ((piecesFrom text p cuts).flatMap Piece.shown).length =
      (text.length - p) + (cuts.map innerLength).sum := by
  induction cuts generalizing p with
  | nil =>
      simp [piecesFrom, length_shown_between le_rfl]
  | cons cut rest ih =>
      obtain ⟨hstart, hcut, hstop, hrest⟩ := hvalid
      obtain ⟨inner, hcaptures⟩ := hcapture cut (by simp)
      have hlater := ih hrest fun other hmem => hcapture other (by simp [hmem])
      rw [piecesFrom, List.flatMap_cons, List.flatMap_append,
        List.length_append, List.length_append,
        length_shown_between (hcut.trans hstop),
        length_shown_pieces hcaptures hstop, hlater, List.map_cons,
        List.sum_cons]
      omega

theorem Laid.between
    {start stop : ℕ} (hle : start ≤ stop) (hstop : stop ≤ text.length)
    {rest : List Piece} (hrest : Laid stop rest) :
    Laid start (Piece.between text start stop :: rest) := by
  have hend : start + (Piece.between text start stop).shown.length = stop := by
    rw [length_shown_between hstop, Nat.add_sub_cancel' hle]
  refine ⟨?_, by simp [Piece.between], ?_⟩
  · intro span hspan
    rw [hend]
    simpa [Piece.between] using hspan.symm
  · rwa [hend]

theorem laid_inner
    {inner : List (Option JsString)}
    (hempty : ∀ group ∈ inner, group.getD [] = []) (place : ℕ) :
    Laid place (inner.map (Piece.mk none)) := by
  induction inner with
  | nil => trivial
  | cons group inner ih =>
      have hgroup : (Piece.mk none group).shown = [] := hempty group (by simp)
      refine ⟨by simp, fun _ => hgroup, ?_⟩
      rw [hgroup, List.length_nil, Nat.add_zero]
      exact ih fun other hmem => hempty other (by simp [hmem])

/-- A cut whose further groups have captured nothing. -/
theorem laid_pieces
    {cut : Cut} {inner : List (Option JsString)}
    (hcaptures : cut.captures =
      some (substring text cut.start cut.stop) :: inner)
    (hempty : ∀ group ∈ inner, group.getD [] = [])
    (hle : cut.start ≤ cut.stop) (hstop : cut.stop ≤ text.length) :
    cut.pieces.flatMap Piece.shown = substring text cut.start cut.stop ∧
      Laid cut.start cut.pieces := by
  have hnone : (inner.flatMap fun group => group.getD []) = [] := by
    simpa [List.flatMap_eq_nil_iff] using hempty
  constructor
  · rw [shown_pieces hcaptures, hnone, List.append_nil]
  · rw [pieces_of_captures hcaptures]
    exact Laid.between hle hstop (laid_inner hempty _)

/-- With nothing in the groups of the pattern, the pieces are the text, each
in its place. -/
theorem laid_piecesFrom
    {cuts : List Cut} {p : ℕ} (hvalid : CutsValid text p cuts)
    (hcapture : CutsCapture text cuts)
    (hgroups : ∀ cut ∈ cuts, ∀ group ∈ cut.captures.tail,
      group.getD [] = []) :
    (piecesFrom text p cuts).flatMap Piece.shown = text.drop p ∧
      Laid p (piecesFrom text p cuts) := by
  induction cuts generalizing p with
  | nil =>
      have hshown : (Piece.between text p text.length).shown = text.drop p :=
        substring_length text p
      exact ⟨by simp [piecesFrom, hshown], Laid.between hvalid le_rfl trivial⟩
  | cons cut rest ih =>
      obtain ⟨hstart, hcut, hstop, hrest⟩ := hvalid
      obtain ⟨inner, hcaptures⟩ := hcapture cut (by simp)
      have hinner : ∀ group ∈ inner, group.getD [] = [] := by
        have hown := hgroups cut (by simp)
        rwa [hcaptures, List.tail_cons] at hown
      obtain ⟨hconcat, hlater⟩ := ih hrest
        (fun other hmem => hcapture other (by simp [hmem]))
        (fun other hmem => hgroups other (by simp [hmem]))
      obtain ⟨hshown, hpieces⟩ := laid_pieces hcaptures hinner hcut hstop
      have hnext : cut.start + (cut.pieces.flatMap Piece.shown).length =
          cut.stop := by
        rw [hshown, length_substring hstop, Nat.add_sub_cancel' hcut]
      constructor
      · rw [piecesFrom, List.flatMap_cons, List.flatMap_append, hshown, hconcat,
          substring_append_drop hcut hstop]
        exact substring_append_drop hstart (hcut.trans hstop)
      · apply Laid.between hstart (hcut.trans hstop)
        apply hpieces.append
        rwa [hnext]

/-! ## When the mode is exact -/

theorem lt_of_mem_nonEmptyMatches
    {pattern : RegExp} {span : ℕ × ℕ}
    (hmem : span ∈ pattern.nonEmptyMatches text) : span.1 < span.2 := by
  simpa using (List.mem_filter.mp hmem).2

/-- An expression whose first group is the whole of it. -/
def CapturesWhole (re : RegExp) : Prop :=
  ∀ text i result, i ≤ text.length → Boundary re.unicode text i →
    re.run text i = some result →
      ∃ inner, result.captures =
        some (substring text i result.endIndex) :: inner

theorem CapturesWhole.cuts
    {re : RegExp} (hwhole : CapturesWhole re) (text : JsString) :
    CutsCapture text (re.cuts text) := by
  obtain ⟨hvalid, hmatch⟩ := cuts_valid re text
  intro cut hcut
  obtain ⟨hboundary, result, hrun, hend, hcaptures⟩ := hmatch cut hcut
  obtain ⟨hle, hstop⟩ := hvalid.bounds hcut
  have hstart : cut.start ≤ text.length := hle.trans hstop
  obtain ⟨inner, hinner⟩ := hwhole text cut.start result hstart hboundary hrun
  exact ⟨inner, by rw [← hcaptures, hinner, hend]⟩

/-- The pieces show the text exactly when the groups of the pattern add
nothing, and then each of them is in its place. -/
theorem shown_splitPieces_iff
    {re : RegExp} (hwhole : CapturesWhole re) (text : JsString) :
    ((re.splitPieces text).flatMap Piece.shown = text ↔
      ∀ cut ∈ re.cuts text, ∀ group ∈ cut.captures.tail,
        group.getD [] = []) ∧
    ((∀ cut ∈ re.cuts text, ∀ group ∈ cut.captures.tail,
      group.getD [] = []) → Laid 0 (re.splitPieces text)) := by
  have hvalid := (cuts_valid re text).1
  have hcapture := hwhole.cuts text
  have hlaid := laid_piecesFrom hvalid hcapture
  by_cases hempty : text = []
  · subst hempty
    have hcuts : re.cuts [] = [] := rfl
    have hnone := hlaid (by simp [hcuts])
    rw [hcuts] at hnone ⊢
    unfold RegExp.splitPieces
    rw [if_pos rfl]
    split
    next => simp [Laid]
    next => exact ⟨by simp [Piece.between, Piece.shown, substring],
      fun _ => hnone.2⟩
  · have hpieces : re.splitPieces text = piecesFrom text 0 (re.cuts text) :=
      if_neg hempty
    rw [hpieces]
    refine ⟨⟨?_, fun hgroups => (hlaid hgroups).1⟩,
      fun hgroups => (hlaid hgroups).2⟩
    intro hshown cut hcut
    have hlength := length_shown_piecesFrom hvalid hcapture
    rw [hshown, Nat.sub_zero] at hlength
    have hsum : ((re.cuts text).map innerLength).sum = 0 := by omega
    rw [List.sum_eq_zero_iff, List.forall_mem_map] at hsum
    exact (innerLength_eq_zero_iff cut).mp (hsum cut hcut)

/-! ## The stretches and the cuts -/

theorem eq_between_iff
    {piece : Piece} {start stop : ℕ} {span : ℕ × ℕ} :
    (piece = Piece.between text start stop ∧ piece.span = some span) ↔
      piece = Piece.between text span.1 span.2 ∧ span = (start, stop) := by
  constructor
  · rintro ⟨rfl, hspan⟩
    rw [Piece.between, Option.some.injEq] at hspan
    rw [← hspan]
    exact ⟨rfl, rfl⟩
  · rintro ⟨rfl, rfl⟩
    exact ⟨rfl, rfl⟩

/-- The pieces with a place are the stretches and the cuts. -/
theorem mem_piecesFrom_iff
    {cuts : List Cut} {p : ℕ} (hcapture : CutsCapture text cuts)
    {piece : Piece} {span : ℕ × ℕ} :
    (piece ∈ piecesFrom text p cuts ∧ piece.span = some span) ↔
      piece = Piece.between text span.1 span.2 ∧
        (span ∈ gapSpans text.length p cuts ∨ span ∈ cuts.map Cut.span) := by
  induction cuts generalizing p with
  | nil =>
      simp only [piecesFrom, gapSpans, List.mem_singleton, List.map_nil,
        List.not_mem_nil, or_false]
      exact eq_between_iff
  | cons cut rest ih =>
      obtain ⟨inner, hcaptures⟩ := hcapture cut (by simp)
      have hlater := @ih cut.stop fun other hmem => hcapture other (by simp [hmem])
      have hinner : ¬ (piece ∈ inner.map (Piece.mk none) ∧
          piece.span = some span) := by
        rintro ⟨hmem, hspan⟩
        obtain ⟨group, _, rfl⟩ := List.mem_map.mp hmem
        contradiction
      rw [piecesFrom, pieces_of_captures hcaptures, gapSpans, List.map_cons]
      simp only [List.mem_cons, List.mem_append, or_and_right, eq_between_iff,
        hinner, hlater, or_false, ← and_or_left]
      rw [← or_assoc, or_or_or_comm]
      rfl

/-- The place of a piece which is not empty is a stretch or a cut. -/
theorem mem_splitPieces_iff
    {re : RegExp} (hwhole : CapturesWhole re) {piece : Piece} {span : ℕ × ℕ}
    (hlt : span.1 < span.2) :
    (piece ∈ re.splitPieces text ∧ piece.span = some span) ↔
      piece = Piece.between text span.1 span.2 ∧
        (span ∈ gapSpans text.length 0 (re.cuts text) ∨
          span ∈ (re.cuts text).map Cut.span) := by
  by_cases hempty : text = []
  · subst hempty
    have hnone : span ≠ (0, 0) := by
      rintro rfl
      exact absurd hlt (Nat.lt_irrefl 0)
    have hcuts : re.cuts [] = [] := rfl
    refine iff_of_false ?_ ?_
    · rintro ⟨hmem, hspan⟩
      unfold RegExp.splitPieces at hmem
      rw [if_pos rfl] at hmem
      split at hmem
      next => simp at hmem
      next =>
        rw [List.mem_singleton.mp hmem, Piece.between, Option.some.injEq] at hspan
        exact hnone hspan.symm
    · rintro ⟨_, hgap | hcut⟩
      · rw [hcuts] at hgap
        exact hnone (List.mem_singleton.mp hgap)
      · simp [hcuts] at hcut
  · have hpieces : re.splitPieces text = piecesFrom text 0 (re.cuts text) :=
      if_neg hempty
    rw [hpieces]
    exact mem_piecesFrom_iff (hwhole.cuts text)

/-- The places of the tested pieces, with the answers. -/
def answersOf (tested : List (Piece × Bool)) : List ((ℕ × ℕ) × Bool) :=
  tested.filterMap fun one => one.1.span.map fun span => (span, one.2)

/-- The answer at a stretch or a cut. -/
def answerAt (re : RegExp) (text : JsString) (look : ℕ × (ℕ × ℕ)) :
    (ℕ × ℕ) × Bool :=
  (look.2, (re.foundFrom look.1 (substring text look.2.1 look.2.2)).isSome)

theorem testedPieces_append
    (re : RegExp) (i : ℕ) (front back : List Piece) :
    testedPieces re i (front ++ back) =
      testedPieces re i front ++
        testedPieces re (indexPast re i (front.map Piece.content)) back := by
  induction front generalizing i with
  | nil => rfl
  | cons piece front ih =>
      rw [List.cons_append, testedPieces, testedPieces, ih, test_eq,
        List.cons_append]
      rfl

theorem answersOf_inner
    (re : RegExp) (i : ℕ) (inner : List (Option JsString)) :
    answersOf (testedPieces re i (inner.map (Piece.mk none))) = [] := by
  induction inner generalizing i with
  | nil => rfl
  | cons group inner ih => exact ih _

theorem answersOf_between
    (re : RegExp) (i start stop : ℕ) (rest : List Piece) :
    answersOf (testedPieces re i (Piece.between text start stop :: rest)) =
      answerAt re text (i, (start, stop)) ::
        answersOf (testedPieces re
          (re.indexAfter i (substring text start stop)) rest) := by
  rw [testedPieces, test_eq]
  rfl

/-- The tests look at the stretches and the cuts in turn. -/
theorem answersOf_piecesFrom
    (re : RegExp) {cuts : List Cut} (hcapture : CutsCapture text cuts)
    (i p : ℕ) :
    answersOf (testedPieces re i (piecesFrom text p cuts)) =
      (looksFrom re text i p cuts).map (answerAt re text) := by
  induction cuts generalizing i p with
  | nil => exact answersOf_between re i p text.length []
  | cons cut rest ih =>
      obtain ⟨inner, hcaptures⟩ := hcapture cut (by simp)
      have hcontents : (inner.map (Piece.mk none)).map Piece.content = inner := by
        rw [List.map_map]
        exact List.map_id inner
      rw [piecesFrom, answersOf_between, pieces_of_captures hcaptures,
        List.cons_append, answersOf_between, testedPieces_append, hcontents]
      rw [answersOf, List.filterMap_append, ← answersOf, ← answersOf,
        answersOf_inner, List.nil_append,
        ih (fun other hmem => hcapture other (by simp [hmem])), looksFrom,
        List.map_cons, List.map_cons, hcaptures]
      rfl

theorem forall_tested_iff
    {re : RegExp} (hwhole : CapturesWhole re) {found : List (ℕ × ℕ)} :
    (∀ one ∈ testedPieces re 0 (re.splitPieces text),
      ∀ span ∈ one.1.span, span.1 < span.2 →
        (one.2 = true ↔ span ∈ found)) ↔
      ∀ look ∈ looksFrom re text 0 0 (re.cuts text), look.2.1 < look.2.2 →
        ((re.foundFrom look.1
          (substring text look.2.1 look.2.2)).isSome = true ↔
            look.2 ∈ found) := by
  by_cases hempty : text = []
  · subst hempty
    have hcuts : re.cuts [] = [] := rfl
    have hlooks : looksFrom re [] 0 0 (re.cuts []) = [(0, (0, 0))] := rfl
    refine iff_of_true ?_ ?_
    · intro one hone span hspan hlt
      obtain ⟨_, hgap | hcut⟩ := (mem_splitPieces_iff hwhole hlt).mp
        ⟨testedPieces_fst re 0 _ ▸ List.mem_map_of_mem hone, hspan⟩
      · rw [hcuts] at hgap
        rw [List.mem_singleton.mp hgap] at hlt
        exact absurd hlt (Nat.lt_irrefl 0)
      · simp [hcuts] at hcut
    · intro look hlook hlt
      rw [hlooks] at hlook
      rw [List.mem_singleton.mp hlook] at hlt
      exact absurd hlt (Nat.lt_irrefl 0)
  · have hpieces : re.splitPieces text = piecesFrom text 0 (re.cuts text) :=
      if_neg hempty
    have hanswers := answersOf_piecesFrom re (hwhole.cuts text) 0 0
    rw [← hpieces] at hanswers
    constructor
    · intro htested look hlook hlt
      have hanswer : answerAt re text look ∈
          answersOf (testedPieces re 0 (re.splitPieces text)) := by
        rw [hanswers]
        exact List.mem_map_of_mem hlook
      obtain ⟨one, hone, hsame⟩ := List.mem_filterMap.mp hanswer
      obtain ⟨span, hspan, hboth⟩ := Option.map_eq_some_iff.mp hsame
      obtain ⟨rfl, hfound⟩ := Prod.mk.inj hboth
      rw [← hfound]
      exact htested one hone _ hspan hlt
    · intro hlooks one hone span hspan hlt
      have hanswer : (span, one.2) ∈
          answersOf (testedPieces re 0 (re.splitPieces text)) :=
        List.mem_filterMap.mpr ⟨one, hone, by rw [hspan]; rfl⟩
      rw [hanswers] at hanswer
      obtain ⟨look, hlook, hboth⟩ := List.mem_map.mp hanswer
      obtain ⟨rfl, hfound⟩ := Prod.mk.inj hboth
      rw [← hfound]
      exact hlooks look hlook hlt

theorem regexExact_iff
    {re pattern : RegExp} (hwhole : CapturesWhole re) (text : JsString) :
    RegexExact pattern text (regexMode re text) ↔
      MatchesAlone re text (pattern.nonEmptyMatches text) := by
  have hparts : regexMode re text =
      (testedPieces re 0 (re.splitPieces text)).map renderTested :=
    markParts_eq re 0 (re.splitPieces text)
  have hfst := testedPieces_fst re 0 (re.splitPieces text)
  obtain ⟨hshown, hplaces⟩ := shown_splitPieces_iff hwhole text
  have hconcat : ((regexMode re text).filter
      fun part => decide (part.text ≠ [])).flatMap RenderedPart.text =
        (re.splitPieces text).flatMap Piece.shown := by
    rw [flatMap_filter_ne_nil, hparts, flatMap_renderTested, hfst]
  have hlt : ∀ span ∈ pattern.nonEmptyMatches text, span.1 < span.2 :=
    fun span hspan => lt_of_mem_nonEmptyMatches hspan
  constructor
  · intro hexact
    have hgroups := hshown.mp (hconcat.symm.trans hexact.whole)
    have hlaid := hplaces hgroups
    have hmarks := hexact.marks
    rw [← hfst] at hlaid
    rw [hparts] at hmarks
    obtain ⟨hpieces, halone⟩ := (hlaid.marks_iff hlt).mp hmarks
    rw [hfst] at hpieces
    refine ⟨hgroups, ?_, (forall_tested_iff hwhole).mp halone⟩
    intro span hspan
    obtain ⟨piece, hpiece⟩ := hpieces span hspan
    exact ((mem_splitPieces_iff hwhole (hlt span hspan)).mp hpiece).2
  · intro halone
    have hlaid := hplaces halone.groups
    have hpieces : ∀ span ∈ pattern.nonEmptyMatches text,
        ∃ piece ∈ re.splitPieces text, piece.span = some span := by
      intro span hspan
      exact ⟨_, (mem_splitPieces_iff hwhole (hlt span hspan)).mpr
        ⟨rfl, halone.places span hspan⟩⟩
    rw [← hfst] at hlaid hpieces
    refine ⟨hconcat.trans (hshown.mpr halone.groups), ?_⟩
    rw [hparts]
    exact (hlaid.marks_iff hlt).mpr
      ⟨hpieces, (forall_tested_iff hwhole).mpr halone.alone⟩

/-! ## The matches as the cuts -/

/-- The stretches with the index from which each is looked at: the groups of
the cut before it have left it. -/
def gapLooks (re : RegExp) (length : ℕ) :
    ℕ → ℕ → List Cut → List (ℕ × (ℕ × ℕ))
  | i, p, [] => [(i, (p, length))]
  | i, p, cut :: rest =>
      (i, (p, cut.start)) ::
        gapLooks re length (indexPast re 0 cut.captures) cut.stop rest

/-- When the parentheses change no match: the groups of the pattern add
nothing, every matched text has a match from its start on, and no text between
two matches has one from the index which the groups have left. -/
structure MatchesLocally (re : RegExp) (text : JsString) : Prop where
  groups : ∀ cut ∈ re.cuts text, ∀ group ∈ cut.captures.tail,
    group.getD [] = []
  cuts : ∀ cut ∈ re.cuts text, cut.start < cut.stop →
    (re.foundFrom 0 (substring text cut.start cut.stop)).isSome = true
  gaps : ∀ look ∈ gapLooks re text.length 0 0 (re.cuts text),
    look.2.1 < look.2.2 →
      re.foundFrom look.1 (substring text look.2.1 look.2.2) = none

theorem le_of_mem_gapSpans
    {cuts : List Cut} {p : ℕ} (hvalid : CutsValid text p cuts)
    {gap : ℕ × ℕ} (hgap : gap ∈ gapSpans text.length p cuts) : p ≤ gap.1 := by
  induction cuts generalizing p with
  | nil => rw [List.mem_singleton.mp hgap]
  | cons cut rest ih =>
      obtain ⟨hstart, hcut, _, hrest⟩ := hvalid
      rcases List.mem_cons.mp hgap with rfl | hlater
      · rfl
      · exact (hstart.trans hcut).trans (ih hrest hlater)

/-- A stretch which is not empty is none of the cuts. -/
theorem gap_not_cut
    {cuts : List Cut} {p : ℕ} (hvalid : CutsValid text p cuts)
    {gap : ℕ × ℕ} (hgap : gap ∈ gapSpans text.length p cuts)
    (hlt : gap.1 < gap.2) : gap ∉ cuts.map Cut.span := by
  induction cuts generalizing p with
  | nil => simp
  | cons cut rest ih =>
      obtain ⟨hstart, hcut, _, hrest⟩ := hvalid
      intro hmem
      rw [List.map_cons, List.mem_cons] at hmem
      rcases List.mem_cons.mp hgap with rfl | hlater
      · rcases hmem with hown | hother
        · rw [Cut.span, Prod.mk.injEq] at hown
          omega
        · obtain ⟨other, hother, hsame⟩ := List.mem_map.mp hother
          have hafter := hrest.le_start hother
          rw [Cut.span, Prod.mk.injEq] at hsame
          omega
      · rcases hmem with rfl | hother
        · have hafter := le_of_mem_gapSpans hrest hlater
          exact absurd hlt (Nat.not_lt.mpr hafter)
        · exact ih hrest hlater hother

theorem gapSpans_of_gapLooks
    {re : RegExp} {length i p : ℕ} {cuts : List Cut} {look : ℕ × (ℕ × ℕ)}
    (hlook : look ∈ gapLooks re length i p cuts) :
    look.2 ∈ gapSpans length p cuts := by
  induction cuts generalizing i p with
  | nil =>
      rw [List.mem_singleton.mp hlook]
      exact List.mem_singleton_self _
  | cons cut rest ih =>
      rcases List.mem_cons.mp hlook with rfl | hlater
      · exact List.mem_cons_self
      · exact List.mem_cons_of_mem _ (ih hlater)

theorem indexPast_of_stateless
    {re : RegExp} (hstateless : (re.sticky || re.global) = false) (i : ℕ)
    (captures : List (Option JsString)) : indexPast re i captures = i := by
  induction captures generalizing i with
  | nil => rfl
  | cons group rest ih =>
      rw [indexPast, List.foldl_cons, indexAfter_of_stateless hstateless]
      exact ih i

/-- A cut is looked at from its start when the stretch before it has no match
of its own. -/
theorem indexAfter_gap
    {re : RegExp} {i start stop : ℕ} (hle : start ≤ stop)
    (hstateless : (re.sticky || re.global) = false → i = 0)
    (hgap : start < stop → re.foundFrom i (substring text start stop) = none) :
    re.indexAfter i (substring text start stop) = 0 := by
  rcases Nat.eq_or_lt_of_le hle with rfl | hlt
  · have hempty : substring text start start = [] := by
      rw [substring, List.drop_eq_nil_iff, List.length_take]
      omega
    rw [hempty, indexAfter_nil hstateless]
  · exact indexAfter_of_none hstateless (hgap hlt)

/-- With the cuts for the matches, the tests answer as they should exactly when
those of the stretches fail and those of the cuts succeed from their start. -/
theorem looksFrom_iff
    {re : RegExp} {found : List (ℕ × ℕ)} {cuts : List Cut} {i p : ℕ}
    (hvalid : CutsValid text p cuts)
    (hstateless : (re.sticky || re.global) = false → i = 0)
    (hgaps : ∀ gap ∈ gapSpans text.length p cuts, gap.1 < gap.2 → gap ∉ found)
    (hcuts : ∀ cut ∈ cuts, cut.start < cut.stop → cut.span ∈ found) :
    (∀ look ∈ looksFrom re text i p cuts, look.2.1 < look.2.2 →
      ((re.foundFrom look.1 (substring text look.2.1 look.2.2)).isSome = true ↔
        look.2 ∈ found)) ↔
      (∀ cut ∈ cuts, cut.start < cut.stop →
        (re.foundFrom 0 (substring text cut.start cut.stop)).isSome = true) ∧
      ∀ look ∈ gapLooks re text.length i p cuts, look.2.1 < look.2.2 →
        re.foundFrom look.1 (substring text look.2.1 look.2.2) = none := by
  have hfails {i start stop : ℕ} (hout : (start, stop) ∉ found) :
      ((re.foundFrom i (substring text start stop)).isSome = true ↔
        (start, stop) ∈ found) ↔
          re.foundFrom i (substring text start stop) = none := by
    simp [hout]
  induction cuts generalizing i p with
  | nil =>
      simp only [looksFrom, gapLooks, List.forall_mem_singleton,
        List.not_mem_nil, false_implies, implies_true, true_and]
      exact forall_congr' fun hlt => hfails (hgaps _ (by simp [gapSpans]) hlt)
  | cons cut rest ih =>
      obtain ⟨hstart, hle, hstop, hrest⟩ := hvalid
      have hpast : (re.sticky || re.global) = false →
          indexPast re 0 cut.captures = 0 :=
        fun hnone => indexPast_of_stateless hnone 0 cut.captures
      have hlater := ih hrest hpast
        (fun gap hgap => hgaps gap (List.mem_cons_of_mem _ hgap))
        (fun other hother => hcuts other (List.mem_cons_of_mem _ hother))
      have hown := hcuts cut (by simp)
      have hbefore : (p < cut.start →
          ((re.foundFrom i (substring text p cut.start)).isSome = true ↔
            (p, cut.start) ∈ found)) ↔
              (p < cut.start →
                re.foundFrom i (substring text p cut.start) = none) :=
        forall_congr' fun hlt => hfails (hgaps _ (by simp [gapSpans]) hlt)
      simp only [looksFrom, gapLooks, List.forall_mem_cons]
      rw [hbefore]
      by_cases hgap : p < cut.start →
          re.foundFrom i (substring text p cut.start) = none
      · rw [indexAfter_gap hstart hstateless hgap]
        have hcut : (cut.span.1 < cut.span.2 →
            ((re.foundFrom 0
              (substring text cut.span.1 cut.span.2)).isSome = true ↔
                cut.span ∈ found)) ↔
                  (cut.start < cut.stop →
                    (re.foundFrom 0
                      (substring text cut.start cut.stop)).isSome = true) :=
          forall_congr' fun hlt => iff_true_right (hown hlt)
        rw [hcut]
        constructor
        · rintro ⟨hbetween, hlook, hrestLooks⟩
          obtain ⟨hrestCuts, hrestGaps⟩ := hlater.mp hrestLooks
          exact ⟨⟨hlook, hrestCuts⟩, hbetween, hrestGaps⟩
        · rintro ⟨⟨hlook, hrestCuts⟩, hbetween, hrestGaps⟩
          exact ⟨hbetween, hlook, hlater.mpr ⟨hrestCuts, hrestGaps⟩⟩
      · simp only [hgap, false_and, and_false]

theorem matchesAlone_iff_locally
    {re pattern : RegExp} (hsame : SameMatches re pattern text) :
    MatchesAlone re text (pattern.nonEmptyMatches text) ↔
      MatchesLocally re text := by
  have hvalid := (cuts_valid re text).1
  rw [← cutSpans_cuts hsame]
  have hcuts : ∀ cut ∈ re.cuts text, cut.start < cut.stop →
      cut.span ∈ cutSpans (re.cuts text) := fun cut hcut hlt =>
    mem_cutSpans_iff.mpr ⟨List.mem_map_of_mem hcut, hlt⟩
  have hgaps : ∀ gap ∈ gapSpans text.length 0 (re.cuts text),
      gap.1 < gap.2 → gap ∉ cutSpans (re.cuts text) := by
    intro gap hgap hlt
    rw [mem_cutSpans_iff]
    exact fun hcut => gap_not_cut hvalid hgap hlt hcut.1
  have hlooks := @looksFrom_iff text re _ _ 0 0 hvalid (fun _ => rfl) hgaps hcuts
  constructor
  · intro halone
    obtain ⟨hown, hbetween⟩ := hlooks.mp halone.alone
    exact ⟨halone.groups, hown, hbetween⟩
  · intro hlocal
    refine ⟨hlocal.groups, ?_, hlooks.mpr ⟨hlocal.cuts, hlocal.gaps⟩⟩
    exact fun span hspan => Or.inr (mem_cutSpans_iff.mp hspan).1

/-! ## The query -/

theorem regexQuery_starts
    {q pattern flags : JsString}
    (hform : regexQuery q = some (pattern, flags)) :
    q ≠ [] ∧ quotedPhrase q = none := by
  cases q with
  | nil => simp [regexQuery] at hform
  | cons first rest =>
      refine ⟨by simp, ?_⟩
      rw [regexQuery] at hform
      split at hform
      next hstart =>
        have hquote : ¬ (first = unit '"' ∧
            rest.getLast? = some (unit '"')) := by
          rw [hstart.1]
          exact fun hboth => absurd hboth.1 (by decide)
        exact if_neg hquote
      next => simp at hform

theorem highlight_of_regexQuery
    {env : HighlightEnv} (text : JsString) {q pattern flags : JsString}
    {re : RegExp} (hform : regexQuery q = some (pattern, flags))
    (hcompile : env.engine.compile (parenthesize pattern) (safeFlags flags) =
      some re) :
    highlight env text q = some (regexMode re text) := by
  obtain ⟨hne, hquoted⟩ := regexQuery_starts hform
  simp only [highlight, hne, if_false, hquoted, hform, hcompile]

/-- The regular expression mode is exact just when the matches of the pattern
are those of the stretches and the cuts by themselves.  When the parentheses
change no match, the cuts succeed from their start and the stretches fail. -/
theorem regex_highlight_exact_iff
    (env : HighlightEnv) (text : JsString) {q pattern flags : JsString}
    {matcher : RegExp} (hform : regexQuery q = some (pattern, flags))
    (hpattern : env.engine.compile pattern (safeFlags flags) =
      some matcher) :
    ∃ re parts,
      env.engine.compile (parenthesize pattern) (safeFlags flags) = some re ∧
      highlight env text q = some parts ∧
      (RegexExact matcher text parts ↔
        MatchesAlone re text (matcher.nonEmptyMatches text)) ∧
      (SameMatches re matcher text →
        (RegexExact matcher text parts ↔ MatchesLocally re text)) := by
  obtain ⟨re, hcompile, hwhole⟩ :=
    env.engine.compile_parenthesize pattern (safeFlags flags) matcher hpattern
  have hexact := @regexExact_iff re matcher hwhole text
  refine ⟨re, regexMode re text, hcompile,
    highlight_of_regexQuery text hform hcompile, hexact, ?_⟩
  intro hsame
  rw [hexact]
  exact matchesAlone_iff_locally hsame

theorem regex_highlight_exact_iff_literal :
    ∃ parts, highlight basicEnv (ofAscii "xABy") (ofAscii "/ab/") =
        some parts ∧
      RegexExact (Pattern.toRegExp upperAscii (ofAscii "i")
        (literalFrom .empty (ofAscii "ab"))) (ofAscii "xABy") parts := by
  have hform : regexQuery (ofAscii "/ab/") = some (ofAscii "ab", []) := by
    decide
  obtain ⟨re, parts, hre, hparts, hiff, _⟩ :=
    regex_highlight_exact_iff basicEnv (ofAscii "xABy") hform rfl
  have hgroup : re = Pattern.toRegExp upperAscii (ofAscii "i")
      (.seq .empty (.group (literalFrom .empty (ofAscii "ab")))) :=
    Option.some.inj hre.symm
  subst hgroup
  exact ⟨parts, hparts, hiff.mpr
    ⟨by decide +kernel, by decide +kernel, by decide +kernel⟩⟩

/-- The group of the pattern is one more part. -/
theorem regex_group_repeats_text :
    ∃ matcher parts,
      regexQuery (ofAscii "/(a)b/") = some (ofAscii "(a)b", []) ∧
      basicEnv.engine.compile (ofAscii "(a)b") (safeFlags []) =
        some matcher ∧
      highlight basicEnv (ofAscii "ab") (ofAscii "/(a)b/") = some parts ∧
      parts.flatMap RenderedPart.text = ofAscii "aba" ∧
      ¬ RegexExact matcher (ofAscii "ab") parts := by
  refine ⟨_, [⟨false, []⟩, ⟨true, ofAscii "ab"⟩, ⟨false, ofAscii "a"⟩,
    ⟨false, []⟩], by decide, rfl, by decide +kernel, by decide, ?_⟩
  intro hexact
  exact absurd hexact.whole (by decide)

/-! ## Patterns without context -/

theorem bounds_of_mem_gapSpans
    {cuts : List Cut} {p : ℕ} (hvalid : CutsValid text p cuts)
    {gap : ℕ × ℕ} (hgap : gap ∈ gapSpans text.length p cuts) :
    gap.2 ≤ text.length := by
  induction cuts generalizing p with
  | nil => rw [List.mem_singleton.mp hgap]
  | cons cut rest ih =>
      obtain ⟨_, hcut, hstop, hrest⟩ := hvalid
      rcases List.mem_cons.mp hgap with rfl | hlater
      · exact hcut.trans hstop
      · exact ih hrest hlater

theorem run_eq_none_of_mem_gapSpans
    {re : RegExp} {cuts : List Cut} {p : ℕ}
    (hleft : CutsLeftmost re text p cuts) {gap : ℕ × ℕ}
    (hgap : gap ∈ gapSpans text.length p cuts) {j : ℕ} (hj : gap.1 ≤ j)
    (hlt : j < gap.2) : re.run text j = none := by
  induction cuts generalizing p with
  | nil =>
      rw [List.mem_singleton.mp hgap] at hj hlt
      exact hleft j hj hlt
  | cons cut rest ih =>
      rcases List.mem_cons.mp hgap with rfl | hlater
      · exact hleft.1 j hj hlt
      · exact ih hleft.2 hlater

section Plain

variable {canonicalize : UInt16 → UInt16} {flags : JsString}
  {pattern : Pattern}

theorem sameMatches_group
    (canonicalize : UInt16 → UInt16) (flags : JsString) (pattern : Pattern)
    (text : JsString) :
    SameMatches
      (Pattern.toRegExp canonicalize flags (.seq .empty (.group pattern)))
      (pattern.toRegExp canonicalize flags) text where
  unicode := rfl
  ends i := by
    rw [run_group, Option.map_map]
    rfl

/-- A pattern of characters and alternatives whose matches are not empty does
not see what stands around a stretch. -/
theorem matchesLocally_group
    (hgroups : pattern.groups = 0) (hconsumes : pattern.consumes = true) :
    MatchesLocally
      (Pattern.toRegExp canonicalize flags (.seq .empty (.group pattern)))
      text := by
  obtain ⟨hvalid, hmatch⟩ := cuts_valid
    (Pattern.toRegExp canonicalize flags (.seq .empty (.group pattern))) text
  have hwhole : (Pattern.seq .empty (.group pattern)).consumes = true := hconsumes
  have hleft := cuts_leftmost rfl fun j result hrun =>
    (@ends_of_run canonicalize text _ flags j result hrun).lt_of_consumes hwhole
  refine ⟨?_, ?_, ?_⟩
  · intro cut hcut group hgroup
    obtain ⟨_, result, hrun, _, hcaptures⟩ := hmatch cut hcut
    rw [run_group, Option.map_eq_some_iff] at hrun
    obtain ⟨found, hfound, rfl⟩ := hrun
    have hlength := Pattern.length_captures (List.mem_of_mem_head? hfound)
    rw [hgroups, List.length_eq_zero_iff] at hlength
    rw [← hcaptures, List.tail_cons, hlength] at hgroup
    simp at hgroup
  · intro cut hcut hlt
    obtain ⟨_, result, hrun, hend, _⟩ := hmatch cut hcut
    obtain ⟨hle, hstop⟩ := hvalid.bounds hcut
    have hends := ends_of_run hrun
    rw [hend, ← Nat.add_sub_cancel' hle] at hends
    obtain ⟨result, hrun⟩ := Option.isSome_iff_exists.mp (isSome_run_iff.mpr
      ⟨cut.stop - cut.start, (@ends_substring_iff _ _
        (.seq .empty (.group pattern)) cut.start cut.stop 0 _ hle hstop).mpr
          ⟨hends, le_of_eq (Nat.add_sub_cancel' hle)⟩⟩)
    rw [foundFrom_zero hrun]
    rfl
  · intro look hlook hlt
    have hgap := gapSpans_of_gapLooks hlook
    have hstop := bounds_of_mem_gapSpans hvalid hgap
    apply foundFrom_eq_none
    intro k hk
    rw [length_substring hstop] at hk
    by_contra hsome
    obtain ⟨e, hinside⟩ :=
      isSome_run_iff.mp (Option.isSome_iff_ne_none.mpr hsome)
    obtain ⟨hends, he⟩ :=
      (ends_substring_iff _ (by omega) hstop).mp hinside
    have hpast := hends.lt_of_consumes hwhole
    have hnone := @run_eq_none_of_mem_gapSpans _ _ _ _ hleft look.2 hgap
      (look.2.1 + k) (by omega) (by omega)
    have hfound := isSome_run_iff.mpr ⟨_, hends⟩
    rw [hnone] at hfound
    contradiction

end Plain

/-- A regular expression of characters and alternatives, without groups and
without empty matches, is highlighted exactly. -/
theorem plain_regex_highlight_exact
    (env : HighlightEnv) (text : JsString) {q source flags : JsString}
    {pattern : Pattern} (hform : regexQuery q = some (source, flags))
    (hparse : parse source [Frame.start] = some pattern)
    (hgroups : pattern.groups = 0) (hconsumes : pattern.consumes = true)
    (hflags : FlagsOk (safeFlags flags)) :
    ∃ matcher parts,
      env.engine.compile source (safeFlags flags) = some matcher ∧
      highlight env text q = some parts ∧ RegexExact matcher text parts := by
  have hcompile := compile_of_parse env.engine hflags hparse
  have hgroup := compile_of_parse env.engine hflags (parse_parenthesize hparse)
  obtain ⟨re, hre, hwhole⟩ :=
    env.engine.compile_parenthesize source (safeFlags flags) _ hcompile
  obtain rfl := Option.some.inj (hre.symm.trans hgroup)
  refine ⟨_, _, hcompile, highlight_of_regexQuery text hform hgroup, ?_⟩
  rw [regexExact_iff hwhole,
    matchesAlone_iff_locally (sameMatches_group _ _ _ _)]
  exact matchesLocally_group hgroups hconsumes

end SearchEvery
