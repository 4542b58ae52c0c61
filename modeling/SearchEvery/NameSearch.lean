import SearchEvery.SearchQuery
import Mathlib.Tactic

/-!
# Searching for the name of an indexed file

The name field is tokenized when a file is indexed and the query text is
tokenized again when it is searched.  A name which gives one token is found, a
name which gives none matches nothing, and a name which gives several becomes
a phrase query, for which the schema records no positions.
-/

namespace SearchEvery

/-- A non-empty text over ASCII letters, digits, `.` and `_` with at least one
letter or digit. -/
structure PlainName (name : String) : Prop where
  chars : ∀ c ∈ name.toList, c.isAlphanum = true ∨ c = '.' ∨ c = '_'
  word : ∃ c ∈ name.toList, c.isAlphanum = true

theorem plainName_iff
    (name : String) :
    PlainName name ↔
      name.toList.all (fun c => c.isAlphanum || c == '.' || c == '_') = true ∧
        name.toList.any Char.isAlphanum = true := by
  rw [List.all_eq_true, List.any_eq_true]
  constructor
  · intro hplain
    exact ⟨by simpa [or_assoc] using hplain.chars, hplain.word⟩
  · rintro ⟨hchars, hword⟩
    exact ⟨by simpa [or_assoc] using hchars, hword⟩

instance (name : String) : Decidable (PlainName name) :=
  decidable_of_iff _ (plainName_iff name).symm

def HasPositions (schema : List FieldEntry) (field : String) : Prop :=
  ∃ entry ∈ schema, entry.name = field ∧
    entry.record = some .withFreqsAndPositions

instance (schema : List FieldEntry) (field : String) :
    Decidable (HasPositions schema field) :=
  inferInstanceAs (Decidable (∃ entry ∈ schema, entry.name = field ∧
    entry.record = some .withFreqsAndPositions))

/-- What the query parser does with a single plain word: the operator words of
the grammar are no queries, and any other word is tokenized for the fields. -/
structure WordQueries {Score : Type} (engine : SearchEngine Score)
    (tables : CharTables) where
  operators : List String
  emptyQuery : engine.Query
  termQuery : List String → String → engine.Query
  parse_operator :
    ∀ schema fields text, text ∈ operators →
      ∃ e, engine.parseQuery schema fields text = .error e
  parse_no_token :
    ∀ schema fields text, PlainName text → text ∉ operators →
      tables.defaultTokens text = [] →
        engine.parseQuery schema fields text = .ok emptyQuery
  parse_token :
    ∀ schema fields text token, PlainName text → text ∉ operators →
      tables.defaultTokens text = [token] →
        engine.parseQuery schema fields text = .ok (termQuery fields token)
  parse_phrase :
    ∀ schema fields text, PlainName text → text ∉ operators →
      2 ≤ (tables.defaultTokens text).length →
        (∃ field ∈ fields, ¬ HasPositions schema field) →
          ∃ e, engine.parseQuery schema fields text = .error e
  match_empty : ∀ doc, engine.isMatch emptyQuery doc = false
  match_term :
    ∀ fields token doc,
      engine.isMatch (termQuery fields token) doc = true ↔
        ∃ field ∈ fields, token ∈ doc.fieldTokens tables field

/-- The unfiltered query for a text succeeds and has the document among its
matches, and so among its results when there are at most fifty. -/
def FindsDocument {Score : Type} (engine : SearchEngine Score)
    (openInDir : String → Except String Index) (indexDir text : String)
    (docs : List Doc) (doc : Doc) : Prop :=
  ∃ q results,
    engine.parseQuery programSchema defaultFields text = .ok q ∧
      query engine openInDir ⟨text, none, indexDir⟩ = .ok results ∧
      engine.isMatch q doc = true ∧
      ((docs.filter (engine.isMatch q)).length ≤ 50 →
        ∃ score, SearchResult.of (score, doc) ∈ results)

variable {Score : Type} {engine : SearchEngine Score} {tables : CharTables}

theorem mem_results_of_isMatch
    {openInDir : String → Except String Index} {indexDir text : String}
    {docs : List Doc} (hopen : openInDir indexDir = .ok ⟨programSchema, docs⟩)
    {q : engine.Query}
    (hparse : engine.parseQuery programSchema defaultFields text = .ok q)
    {doc : Doc} (hdoc : doc ∈ docs) (hmatch : engine.isMatch q doc = true)
    (hfew : (docs.filter (engine.isMatch q)).length ≤ 50) :
    ∃ results, query engine openInDir ⟨text, none, indexDir⟩ = .ok results ∧
      ∃ score, SearchResult.of (score, doc) ∈ results := by
  have hquery := query_program ⟨text, none, indexDir⟩ hopen hparse
  refine ⟨_, hquery, ?_⟩
  have hmem : doc ∈ (engine.ranked q docs).map Prod.snd := by
    rw [(engine.ranked_perm q docs).mem_iff, List.mem_filter]
    exact ⟨hdoc, hmatch⟩
  obtain ⟨hit, hhit, rfl⟩ := List.mem_map.mp hmem
  have hlength : (engine.ranked q docs).length ≤ topLimit := by
    have hperm := (engine.ranked_perm q docs).length_eq
    rw [List.length_map] at hperm
    rw [hperm]
    exact hfew
  rw [List.take_of_length_le hlength]
  refine ⟨hit.1, List.mem_map_of_mem (List.mem_filter.mpr ⟨hhit, ?_⟩)⟩
  simp [Satisfies]

/-- The query for the name of an indexed file finds its document exactly when
the name is no operator word and has exactly one token. -/
theorem query_findsName_iff
    (words : WordQueries engine tables)
    (openInDir : String → Except String Index) (indexDir : String)
    (docs : List Doc) (hopen : openInDir indexDir = .ok ⟨programSchema, docs⟩)
    (indexer : Indexer) (enableContentParse : Bool) (file : FileMeta)
    (entry : DiskEntry)
    (hdoc : indexer.doc enableContentParse file entry ∈ docs)
    (hname : PlainName file.fileName) :
    FindsDocument engine openInDir indexDir file.fileName docs
        (indexer.doc enableContentParse file entry) ↔
      file.fileName ∉ words.operators ∧
        (tables.defaultTokens file.fileName).length = 1 := by
  constructor
  · rintro ⟨q, _, hparse, _, hmatch, _⟩
    have hfail :
        ¬ ∃ e, engine.parseQuery programSchema defaultFields file.fileName =
          .error e := by
      rintro ⟨e, he⟩
      rw [hparse] at he
      contradiction
    have hword : file.fileName ∉ words.operators := by
      intro hoperator
      exact hfail (words.parse_operator _ _ _ hoperator)
    refine ⟨hword, ?_⟩
    have hsome : tables.defaultTokens file.fileName ≠ [] := by
      intro hnil
      have hempty := words.parse_no_token programSchema defaultFields _ hname
        hword hnil
      rw [hparse, Except.ok.injEq] at hempty
      rw [hempty, words.match_empty] at hmatch
      contradiction
    have hshort : ¬ 2 ≤ (tables.defaultTokens file.fileName).length := by
      intro hmany
      exact hfail (words.parse_phrase _ _ _ hname hword hmany
        ⟨"name", by decide, by decide⟩)
    have hpos := List.length_pos_iff.mpr hsome
    omega
  · rintro ⟨hword, hone⟩
    obtain ⟨token, htoken⟩ := List.length_eq_one_iff.mp hone
    have hparse := words.parse_token programSchema defaultFields _ token hname
      hword htoken
    have hstored := indexer.doc_stored enableContentParse file entry
    have hdocName :
        (indexer.doc enableContentParse file entry).name = file.fileName :=
      congrArg (fun stored => stored.2.1) hstored
    have hmatch :
        engine.isMatch (words.termQuery defaultFields token)
          (indexer.doc enableContentParse file entry) = true := by
      rw [words.match_term]
      refine ⟨"name", by decide, ?_⟩
      simp [Doc.fieldTokens, hdocName, htoken]
    have hquery := query_program ⟨file.fileName, none, indexDir⟩ hopen hparse
    refine ⟨_, _, hparse, hquery, hmatch, ?_⟩
    intro hfew
    obtain ⟨results, hresults, hfound⟩ :=
      mem_results_of_isMatch hopen hparse hdoc hmatch hfew
    rw [hquery, Except.ok.injEq] at hresults
    rw [hresults]
    exact hfound

def wordQueries : WordQueries wordEngine asciiTables where
  operators := ["AND", "OR", "NOT", "IN"]
  emptyQuery := none
  termQuery fields token := some (fields, token)
  parse_operator _ _ text htext := ⟨"SyntaxError", by simp [wordEngine, htext]⟩
  parse_no_token _ _ text _ hword hnil := by
    simp only [wordEngine, if_neg hword, hnil]
  parse_token _ _ text token _ hword hone := by
    simp only [wordEngine, if_neg hword, hone]
  parse_phrase _ _ text _ hword hmany _ := by
    refine ⟨"FieldDoesNotHavePositionsIndexed", ?_⟩
    simp only [wordEngine, if_neg hword]
    split
    next hnil => simp [hnil] at hmany
    next token hone => simp [hone] at hmany
    next => rfl
  match_empty _ := rfl
  match_term fields token doc := by simp [wordEngine, wordMatch]

theorem query_findsName_readme :
    FindsDocument wordEngine
      (fun _ => .ok ⟨programSchema,
        [Indexer.pipeline.doc false ⟨"/d/README", "README", "", 1, 0⟩ .absent]⟩)
      "idx" "README"
      [Indexer.pipeline.doc false ⟨"/d/README", "README", "", 1, 0⟩ .absent]
      (Indexer.pipeline.doc false ⟨"/d/README", "README", "", 1, 0⟩ .absent) :=
  (query_findsName_iff wordQueries _ "idx" _ rfl .pipeline false
    ⟨"/d/README", "README", "", 1, 0⟩ .absent List.mem_cons_self
    (by decide)).mpr ⟨by decide, by decide⟩

/-- A name with an extension has two tokens, and its query is an error. -/
theorem query_findsName_fails :
    PlainName "a.txt" ∧
      query wordEngine
          (fun _ => .ok ⟨programSchema,
            [Indexer.pipeline.doc false ⟨"/d/a.txt", "a.txt", "txt", 1, 0⟩
              .absent]⟩)
          ⟨"a.txt", none, "idx"⟩ =
        .error (.failed "FieldDoesNotHavePositionsIndexed") ∧
      ¬ FindsDocument wordEngine
        (fun _ => .ok ⟨programSchema,
          [Indexer.pipeline.doc false ⟨"/d/a.txt", "a.txt", "txt", 1, 0⟩
            .absent]⟩)
        "idx" "a.txt"
        [Indexer.pipeline.doc false ⟨"/d/a.txt", "a.txt", "txt", 1, 0⟩ .absent]
        (Indexer.pipeline.doc false ⟨"/d/a.txt", "a.txt", "txt", 1, 0⟩
          .absent) := by
  refine ⟨by decide, rfl, ?_⟩
  rintro ⟨q, _, hparse, _⟩
  have herror :
      wordEngine.parseQuery programSchema defaultFields "a.txt" =
        .error "FieldDoesNotHavePositionsIndexed" := rfl
  rw [herror] at hparse
  contradiction

end SearchEvery
