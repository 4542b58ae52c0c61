import SearchEvery.TantivyIndex
import Mathlib.Tactic

/-!
# Searching the index

`search::query` parses the text over the name and content fields, takes the
fifty best-ranked matches and filters them by extension and size.  The query
parser and the ranking are those of the index library and enter as a
parameter.  Cutting comes before filtering, and the two orders agree exactly
when the filters accept all of the first fifty matches or none of the others.
-/

namespace SearchEvery

/-- The parts of the index library which a search uses: the parser of a query
text over some fields of a schema, which documents a query matches, and all
of these in ranking order with their scores. -/
structure SearchEngine (Score : Type) where
  Query : Type
  parseQuery : List FieldEntry → List String → String → Except String Query
  isMatch : Query → Doc → Bool
  ranked : Query → List Doc → List (Score × Doc)
  ranked_perm :
    ∀ query docs,
      ((ranked query docs).map Prod.snd).Perm (docs.filter (isMatch query))

structure SearchFilters where
  ext : Option (List String)
  minSize : Option ℕ
  maxSize : Option ℕ
  deriving DecidableEq

structure SearchResult (Score : Type) where
  path : String
  name : String
  ext : String
  score : Score
  size : Option ℕ
  modifiedTs : Option ℤ
  summary : Option String
  deriving DecidableEq

structure QueryRequest where
  query : String
  filters : Option SearchFilters
  indexDir : String

inductive QueryError
  | failed (text : String)
  | panicked
  deriving DecidableEq

def SearchFilters.skips (filters : SearchFilters) (ext : String)
    (size : Option ℕ) : Bool :=
  (match filters.ext with
    | some exts =>
        !exts.isEmpty && !exts.any fun e => eqIgnoreAsciiCase e ext
    | none => false) ||
  (match filters.minSize, size with
    | some least, some sz => decide (sz < least)
    | _, _ => false) ||
  (match filters.maxSize, size with
    | some most, some sz => decide (sz > most)
    | _, _ => false)

def searchResult {Score : Type} (index : Index)
    (filters : Option SearchFilters) (hit : Score × Doc) :
    Option (SearchResult Score) :=
  let size := if index.HasField "size" then some hit.2.size else none
  if filters.any fun f => f.skips hit.2.ext size then none
  else some {
    path := hit.2.path
    name := hit.2.name
    ext := hit.2.ext
    score := hit.1
    size := size
    modifiedTs :=
      if index.HasField "modified_ts" then some hit.2.modifiedTs else none
    summary := if index.HasField "summary" then hit.2.summary else none }

def Doc.fieldTokens (tables : CharTables) (doc : Doc) (field : String) :
    List String :=
  if field = "path" then tables.defaultTokens doc.path
  else if field = "name" then tables.defaultTokens doc.name
  else if field = "content" then
    (doc.content.map tables.defaultTokens).getD []
  else []

def defaultFields : List String := ["name", "content"]

def topLimit : ℕ := 50

/-- `search::query`; a schema without one of the four required fields makes it
panic. -/
def query {Score : Type} (engine : SearchEngine Score)
    (openInDir : String → Except String Index) (req : QueryRequest) :
    Except QueryError (List (SearchResult Score)) :=
  match openInDir req.indexDir with
  | .error e => .error (.failed e)
  | .ok index =>
      if index.HasField "name" ∧ index.HasField "content" ∧
          index.HasField "ext" ∧ index.HasField "path" then
        match engine.parseQuery index.schema defaultFields req.query with
        | .error e => .error (.failed e)
        | .ok q =>
            .ok (((engine.ranked q index.docs).take topLimit).filterMap
              (searchResult index req.filters))
      else .error .panicked

/-! ## Cutting and filtering -/

section Cut

variable {α : Type*} {p : α → Bool} {n : ℕ} {l : List α}

theorem filter_take_append_drop
    (p : α → Bool) (n : ℕ) (l : List α) :
    (l.take n).filter p ++ (l.drop n).filter p = l.filter p := by
  rw [← List.filter_append, List.take_append_drop]

theorem filter_take_eq_take_filter
    (hcut : (∀ a ∈ l.take n, p a = true) ∨ ∀ a ∈ l.drop n, p a = false) :
    (l.take n).filter p = (l.filter p).take n := by
  rw [← filter_take_append_drop p n l]
  have hbound : ((l.take n).filter p).length ≤ n :=
    (List.length_filter_le _ _).trans (List.length_take_le _ _)
  rcases hcut with hall | hnone
  · rw [List.filter_eq_self.mpr hall]
    by_cases hlong : n ≤ l.length
    · have hlength : (l.take n).length = n := List.length_take_of_le hlong
      rw [List.take_left' hlength]
    · have hdrop : l.drop n = [] := List.drop_eq_nil_of_le (by omega)
      rw [hdrop, List.filter_nil, List.append_nil, List.take_take, min_self]
  · have hdrop : (l.drop n).filter p = [] := by
      rw [List.filter_eq_nil_iff]
      intro a ha
      simp [hnone a ha]
    rw [hdrop, List.append_nil, List.take_of_length_le hbound]

theorem cut_of_length_eq
    (hlength : ((l.take n).filter p).length = ((l.filter p).take n).length) :
    (∀ a ∈ l.take n, p a = true) ∨ ∀ a ∈ l.drop n, p a = false := by
  by_cases hrest : (l.drop n).filter p = []
  · right
    intro a ha
    simpa using List.filter_eq_nil_iff.mp hrest a ha
  · left
    have hpos : 0 < ((l.drop n).filter p).length :=
      List.length_pos_iff.mpr hrest
    rw [← filter_take_append_drop p n l, List.length_take,
      List.length_append] at hlength
    have hfull : (l.take n).length ≤ ((l.take n).filter p).length := by
      have hshort := List.length_take_le n l
      omega
    have hsame := List.filter_sublist.eq_of_length_le hfull
    exact List.filter_eq_self.mp hsame

end Cut

/-! ## What a query returns -/

def Satisfies (filters : Option SearchFilters) (doc : Doc) : Prop :=
  ∀ f ∈ filters,
    (∀ exts ∈ f.ext, exts ≠ [] →
      ∃ e ∈ exts, eqIgnoreAsciiCase e doc.ext = true) ∧
    (∀ least ∈ f.minSize, least ≤ doc.size) ∧
    (∀ most ∈ f.maxSize, doc.size ≤ most)

instance (filters : Option SearchFilters) (doc : Doc) :
    Decidable (Satisfies filters doc) :=
  inferInstanceAs (Decidable (∀ f ∈ filters,
    (∀ exts ∈ f.ext, exts ≠ [] →
      ∃ e ∈ exts, eqIgnoreAsciiCase e doc.ext = true) ∧
    (∀ least ∈ f.minSize, least ≤ doc.size) ∧
    (∀ most ∈ f.maxSize, doc.size ≤ most)))

def SearchResult.of {Score : Type} (hit : Score × Doc) : SearchResult Score where
  path := hit.2.path
  name := hit.2.name
  ext := hit.2.ext
  score := hit.1
  size := some hit.2.size
  modifiedTs := some hit.2.modifiedTs
  summary := hit.2.summary

theorem skips_eq_false_iff
    (filters : SearchFilters) (doc : Doc) :
    filters.skips doc.ext (some doc.size) = false ↔
      Satisfies (some filters) doc := by
  obtain ⟨ext, minSize, maxSize⟩ := filters
  simp only [SearchFilters.skips, Satisfies, Bool.or_eq_false_iff,
    Option.mem_def, Option.some.injEq, forall_eq', and_assoc]
  refine and_congr ?_ (and_congr ?_ ?_)
  · cases ext with
    | none => simp
    | some exts =>
        by_cases hnil : exts = []
        · simp [hnil]
        · simp only [Bool.and_eq_false_iff, Bool.not_eq_false',
            List.isEmpty_iff, hnil, false_or, List.any_eq_true,
            Option.some.injEq, forall_eq', ne_eq, not_false_eq_true,
            forall_true_left]
  · cases minSize <;> simp
  · cases maxSize <;> simp

theorem programSchema_hasField
    (docs : List Doc) (name : String)
    (hname : name ∈ programSchema.map FieldEntry.name) :
    Index.HasField ⟨programSchema, docs⟩ name := hname

theorem searchResult_program
    {Score : Type} (docs : List Doc) (filters : Option SearchFilters)
    (hit : Score × Doc) :
    searchResult ⟨programSchema, docs⟩ filters hit =
      if Satisfies filters hit.2 then some (SearchResult.of hit) else none := by
  have hsize := programSchema_hasField docs "size" (by decide)
  have hmodified := programSchema_hasField docs "modified_ts" (by decide)
  have hsummary := programSchema_hasField docs "summary" (by decide)
  unfold searchResult
  simp only [hsize, hmodified, hsummary, if_true]
  cases filters with
  | none => simp [Satisfies, SearchResult.of]
  | some f =>
      by_cases hsat : Satisfies (some f) hit.2
      · have hkeep := (skips_eq_false_iff f hit.2).mpr hsat
        simp [hkeep, hsat, SearchResult.of]
      · have hskip : f.skips hit.2.ext (some hit.2.size) = true := by
          rw [← Bool.not_eq_false, skips_eq_false_iff]
          exact hsat
        simp [hskip, hsat]

theorem query_program
    {Score : Type} {engine : SearchEngine Score}
    {openInDir : String → Except String Index} (req : QueryRequest)
    {docs : List Doc} (hopen : openInDir req.indexDir = .ok ⟨programSchema, docs⟩)
    {q : engine.Query}
    (hparse : engine.parseQuery programSchema defaultFields req.query = .ok q) :
    query engine openInDir req =
      .ok ((((engine.ranked q docs).take topLimit).filter
        fun hit => Satisfies req.filters hit.2).map SearchResult.of) := by
  have hfields :
      Index.HasField ⟨programSchema, docs⟩ "name" ∧
        Index.HasField ⟨programSchema, docs⟩ "content" ∧
        Index.HasField ⟨programSchema, docs⟩ "ext" ∧
        Index.HasField ⟨programSchema, docs⟩ "path" :=
    ⟨programSchema_hasField docs _ (by decide),
      programSchema_hasField docs _ (by decide),
      programSchema_hasField docs _ (by decide),
      programSchema_hasField docs _ (by decide)⟩
  unfold query
  simp only [hopen, hparse, if_pos hfields, Except.ok.injEq]
  rw [← List.filterMap_eq_map, List.filterMap_filter]
  apply List.filterMap_congr
  intro hit _
  rw [searchResult_program]
  simp

/-- The query returns the first fifty of all the matching documents which
satisfy the filters, and nothing only if there is none. -/
structure ReturnsBest {Score : Type} (engine : SearchEngine Score)
    (openInDir : String → Except String Index) (req : QueryRequest)
    (docs : List Doc) (q : engine.Query) : Prop where
  best :
    query engine openInDir req =
      .ok ((((engine.ranked q docs).filter
        fun hit => Satisfies req.filters hit.2).take 50).map SearchResult.of)
  complete :
    query engine openInDir req = .ok [] →
      ∀ doc ∈ docs, engine.isMatch q doc = true → ¬ Satisfies req.filters doc

theorem not_satisfies_of_filter_nil
    {Score : Type} {engine : SearchEngine Score} {q : engine.Query}
    {docs : List Doc} {filters : Option SearchFilters}
    (hnil : ((engine.ranked q docs).filter
      fun hit => Satisfies filters hit.2) = []) :
    ∀ doc ∈ docs, engine.isMatch q doc = true → ¬ Satisfies filters doc := by
  intro doc hdoc hmatch hsat
  have hmem : doc ∈ (engine.ranked q docs).map Prod.snd := by
    rw [(engine.ranked_perm q docs).mem_iff, List.mem_filter]
    exact ⟨hdoc, hmatch⟩
  obtain ⟨hit, hhit, rfl⟩ := List.mem_map.mp hmem
  exact List.filter_eq_nil_iff.mp hnil hit hhit (by simpa using hsat)

/-- On an index of the program, a parseable query returns the best fifty
exactly when the filters accept each of the fifty best matches or none of the
others. -/
theorem query_returnsBest_iff
    {Score : Type} (engine : SearchEngine Score)
    (openInDir : String → Except String Index) (req : QueryRequest)
    (docs : List Doc) (hopen : openInDir req.indexDir = .ok ⟨programSchema, docs⟩)
    (q : engine.Query)
    (hparse : engine.parseQuery programSchema defaultFields req.query = .ok q) :
    ReturnsBest engine openInDir req docs q ↔
      (∀ hit ∈ (engine.ranked q docs).take 50, Satisfies req.filters hit.2) ∨
        ∀ hit ∈ (engine.ranked q docs).drop 50, ¬ Satisfies req.filters hit.2 := by
  have hquery := query_program req hopen hparse
  constructor
  · intro hreturns
    have hbest := hreturns.best
    rw [hquery, Except.ok.injEq] at hbest
    have hlength := congrArg List.length hbest
    rw [List.length_map, List.length_map, topLimit] at hlength
    simpa using cut_of_length_eq hlength
  · intro hcut
    have hbest :
        query engine openInDir req =
          .ok ((((engine.ranked q docs).filter
            fun hit => Satisfies req.filters hit.2).take 50).map
              SearchResult.of) := by
      rw [hquery, topLimit, filter_take_eq_take_filter (by simpa using hcut)]
    refine ⟨hbest, ?_⟩
    intro hempty
    rw [hbest, Except.ok.injEq, List.map_eq_nil_iff, List.take_eq_nil_iff] at hempty
    exact not_satisfies_of_filter_nil (hempty.resolve_left (by decide))

def wordMatch (q : Option (List String × String)) (doc : Doc) : Bool :=
  match q with
  | none => false
  | some (fields, token) =>
      fields.any fun field => decide (token ∈ doc.fieldTokens asciiTables field)

/-- Single words over ASCII text, in index order and with equal scores. -/
def wordEngine : SearchEngine ℕ where
  Query := Option (List String × String)
  parseQuery _ fields text :=
    if text ∈ ["AND", "OR", "NOT", "IN"] then .error "SyntaxError"
    else
      match asciiTables.defaultTokens text with
      | [] => .ok none
      | [token] => .ok (some (fields, token))
      | _ => .error "FieldDoesNotHavePositionsIndexed"
  isMatch := wordMatch
  ranked q docs := (docs.filter (wordMatch q)).map fun doc => (0, doc)
  ranked_perm _ docs := by
    rw [List.map_map]
    exact List.Perm.of_eq (List.map_id _)

def reportDoc (i : ℕ) (ext : String) : Doc where
  path := "/" ++ String.ofList (List.replicate i 'd') ++ "/report"
  name := "report"
  ext := ext
  size := 1
  modifiedTs := 0
  content := none
  summary := none

theorem query_returnsBest_two_matches :
    ReturnsBest wordEngine
      (fun _ => .ok ⟨programSchema, [reportDoc 1 "txt", reportDoc 2 "md"]⟩)
      ⟨"report", some ⟨some ["MD"], none, none⟩, "idx"⟩
      [reportDoc 1 "txt", reportDoc 2 "md"] (some (defaultFields, "report")) :=
  (query_returnsBest_iff wordEngine _ _ _ rfl _ rfl).mpr
    (Or.inr (by decide))

/-- Fifty text files rank before the only Markdown file, and the query for
Markdown files returns nothing. -/
theorem query_misses_after_cut :
    ¬ ReturnsBest wordEngine
        (fun _ => .ok ⟨programSchema,
          (List.range 50).map (fun i => reportDoc i "txt") ++
            [reportDoc 50 "md"]⟩)
        ⟨"report", some ⟨some ["md"], none, none⟩, "idx"⟩
        ((List.range 50).map (fun i => reportDoc i "txt") ++
          [reportDoc 50 "md"])
        (some (defaultFields, "report")) := by
  intro hreturns
  have hnone := hreturns.complete rfl (reportDoc 50 "md")
    (List.mem_append_right _ List.mem_cons_self) (by decide)
  exact hnone (by decide)

end SearchEvery
