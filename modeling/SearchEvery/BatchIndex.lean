import SearchEvery.TantivyIndex
import Mathlib.Tactic

/-!
# Indexing a scanned list

`build_inverted_index_progress` looks every entry of the list up in a snapshot
which it takes before the loop, and skips the entry, replaces what it found or
only adds a document.  The lookup and the deletion use the raw path as a term.
The file says what the loop leaves of the documents of a path, and when this is
what an upsert of the list would leave.
-/

namespace SearchEvery

/-- The outcomes of the calls of one request.  The disk is read again for every
entry of the list, and the top document of a query is one of its matches. -/
structure BatchEnv where
  createDirAll : Except String Unit
  createInDir : Except String Unit
  openWriter : Except String Unit
  openReader : Except String Unit
  searchOk : ℕ → Bool
  fetchOk : ℕ → Bool
  addDocument : ℕ → Except String Unit
  commit : Except String Unit
  disk : ℕ → Disk
  topDoc : String → List Doc → Option Doc
  topDoc_cases : ∀ term docs,
    (docs = [] ∧ topDoc term docs = none) ∨
      ∃ doc ∈ docs, topDoc term docs = some doc

inductive IndexEvent
  | indexProgress (current total : ℕ) (name path : String) (skipped : Bool)
  | indexDone
  deriving DecidableEq

inductive EntryDecision
  | skip
  | add
  | replace
  deriving DecidableEq

/-- An entry with the top document of its search, if the search succeeds and
has one, and whether this document can be fetched. -/
structure Lookup where
  file : FileMeta
  found : Option Doc
  fetched : Bool
  deriving DecidableEq

/-- The search is for the raw path, in the snapshot from before the loop. -/
def lookupEntry (tables : CharTables) (env : BatchEnv) (snapshot : List Doc)
    (i : ℕ) (file : FileMeta) : Lookup where
  file := file
  found :=
    if env.searchOk i then
      env.topDoc file.path (snapshot.filter (hasPathToken tables file.path))
    else none
  fetched := env.fetchOk i

def lookups (tables : CharTables) (env : BatchEnv) (snapshot : List Doc)
    (files : List FileMeta) : List Lookup :=
  files.zipIdx.map fun entry =>
    lookupEntry tables env snapshot entry.2 entry.1

/-- What the loop does with an entry. -/
def entryDecision (lookup : Lookup) : EntryDecision :=
  match lookup.found with
  | some old =>
      if lookup.fetched && old.modifiedTs == lookup.file.modifiedTs &&
          old.size == lookup.file.size then .skip
      else .replace
  | none => .add

structure BatchState where
  docs : List Doc
  events : List IndexEvent
  deriving DecidableEq

structure BatchStep where
  position : ℕ
  lookup : Lookup
  doc : Doc
  deriving DecidableEq

def BatchStep.file (step : BatchStep) : FileMeta := step.lookup.file

def BatchStep.decision (step : BatchStep) : EntryDecision :=
  entryDecision step.lookup

def batchStep (tables : CharTables) (env : BatchEnv)
    (enableContentParse : Bool) (snapshot : List Doc) (i : ℕ)
    (file : FileMeta) : BatchStep where
  position := i
  lookup := lookupEntry tables env snapshot i file
  doc := progressDoc enableContentParse file (env.disk i file.path)

def BatchStep.apply (tables : CharTables) (step : BatchStep)
    (docs : List Doc) : List Doc :=
  match step.decision with
  | .skip => docs
  | .add => docs ++ [step.doc]
  | .replace => deleteTerm tables step.file.path docs ++ [step.doc]

def BatchStep.event (total : ℕ) (step : BatchStep) : IndexEvent :=
  .indexProgress (step.position + 1) total step.file.fileName step.file.path
    (decide (step.decision = .skip))

/-- One turn of the loop.  A skipped entry adds no document. -/
def indexEntry (tables : CharTables) (env : BatchEnv) (total : ℕ)
    (step : BatchStep) (state : BatchState) : Except String BatchState :=
  let next : BatchState :=
    ⟨step.apply tables state.docs, state.events ++ [step.event total]⟩
  if step.decision = .skip then .ok next
  else (env.addDocument step.position).map fun _ => next

/-- The loop; an error ends it with the events emitted so far. -/
def indexEntries (tables : CharTables) (env : BatchEnv) (total : ℕ) :
    List BatchStep → BatchState → BatchState × Except String Unit
  | [], state => (state, .ok ())
  | step :: steps, state =>
      match indexEntry tables env total step state with
      | .ok next => indexEntries tables env total steps next
      | .error error => (state, .error error)

def batchSteps (tables : CharTables) (env : BatchEnv)
    (enableContentParse : Bool) (snapshot : List Doc) (files : List FileMeta) :
    List BatchStep :=
  files.zipIdx.map fun entry =>
    batchStep tables env enableContentParse snapshot entry.2 entry.1

structure BatchOutcome where
  result : Except String Unit
  index : Option (List Doc)
  events : List IndexEvent

/-- `build_inverted_index_progress`; `index` holds the committed documents, or
`none` when the directory does not open as an index. -/
def buildInvertedIndexProgress (tables : CharTables) (env : BatchEnv)
    (enableContentParse : Bool) (files : List FileMeta)
    (index : Option (List Doc)) : BatchOutcome :=
  match env.createDirAll with
  | .error error => ⟨.error error, index, []⟩
  | .ok () =>
  match (if index.isSome then .ok () else env.createInDir) with
  | .error error => ⟨.error error, index, []⟩
  | .ok () =>
  let committed := index.getD []
  match env.openWriter with
  | .error error => ⟨.error error, some committed, []⟩
  | .ok () =>
  match env.openReader with
  | .error error => ⟨.error error, some committed, []⟩
  | .ok () =>
  match indexEntries tables env files.length
      (batchSteps tables env enableContentParse committed files)
      ⟨committed, []⟩ with
  | (state, .error error) => ⟨.error error, some committed, state.events⟩
  | (state, .ok ()) =>
  match env.commit with
  | .error error => ⟨.error error, some committed, state.events⟩
  | .ok () => ⟨.ok (), some state.docs, state.events ++ [.indexDone]⟩

/-! ## The loop as a fold -/

def applySteps (tables : CharTables) (steps : List BatchStep)
    (docs : List Doc) : List Doc :=
  steps.foldl (fun docs step => step.apply tables docs) docs

variable {tables : CharTables} {env : BatchEnv}

theorem indexEntry_ok
    {total : ℕ} {step : BatchStep} {state next : BatchState}
    (hentry : indexEntry tables env total step state = .ok next) :
    next = ⟨step.apply tables state.docs, state.events ++ [step.event total]⟩ := by
  unfold indexEntry at hentry
  simp only at hentry
  split at hentry
  next => simpa using hentry.symm
  next =>
    cases hadd : env.addDocument step.position with
    | error error => simp [hadd, Except.map] at hentry
    | ok value => simpa [hadd, Except.map] using hentry.symm

theorem indexEntries_ok
    {total : ℕ} {steps : List BatchStep} {state last : BatchState}
    (hloop : indexEntries tables env total steps state = (last, .ok ())) :
    last = ⟨applySteps tables steps state.docs,
      state.events ++ steps.map (BatchStep.event total)⟩ := by
  induction steps generalizing state with
  | nil =>
      simp only [indexEntries, Prod.mk.injEq, and_true] at hloop
      simp [← hloop, applySteps]
  | cons step steps ih =>
      unfold indexEntries at hloop
      cases hentry : indexEntry tables env total step state with
      | error error => simp [hentry] at hloop
      | ok next =>
          rw [hentry] at hloop
          rw [ih hloop, indexEntry_ok hentry]
          simp [applySteps]

/-- A request which fails leaves the committed documents as they were.  One
which succeeds has committed the whole fold, and has emitted one event for
every entry and the closing one. -/
theorem buildInvertedIndexProgress_cases
    (tables : CharTables) (env : BatchEnv) (enableContentParse : Bool)
    (files : List FileMeta) (index : Option (List Doc)) :
    (∃ error kept events,
      buildInvertedIndexProgress tables env enableContentParse files index =
        ⟨.error error, kept, events⟩ ∧ kept.getD [] = index.getD []) ∨
    buildInvertedIndexProgress tables env enableContentParse files index =
      ⟨.ok (), some (applySteps tables
          (batchSteps tables env enableContentParse (index.getD []) files)
          (index.getD [])),
        (batchSteps tables env enableContentParse (index.getD []) files).map
          (BatchStep.event files.length) ++ [.indexDone]⟩ := by
  unfold buildInvertedIndexProgress
  cases env.createDirAll with
  | error error => exact Or.inl ⟨error, _, _, rfl, rfl⟩
  | ok _ =>
  simp only
  split
  next error _ => exact Or.inl ⟨error, _, _, rfl, rfl⟩
  next =>
  cases env.openWriter with
  | error error => exact Or.inl ⟨error, _, _, rfl, rfl⟩
  | ok _ =>
  cases env.openReader with
  | error error => exact Or.inl ⟨error, _, _, rfl, rfl⟩
  | ok _ =>
  simp only
  split
  next error _ => exact Or.inl ⟨error, _, _, rfl, rfl⟩
  next state hloop =>
  cases env.commit with
  | error error => exact Or.inl ⟨error, _, _, rfl, rfl⟩
  | ok _ =>
      right
      simp [indexEntries_ok hloop]

theorem buildInvertedIndexProgress_ok
    {enableContentParse : Bool} {files : List FileMeta}
    {index : Option (List Doc)}
    (hok : (buildInvertedIndexProgress tables env enableContentParse files
      index).result = .ok ()) :
    (buildInvertedIndexProgress tables env enableContentParse files
      index).index = some (applySteps tables
        (batchSteps tables env enableContentParse (index.getD []) files)
        (index.getD [])) := by
  rcases buildInvertedIndexProgress_cases tables env enableContentParse files
      index with ⟨error, kept, events, houtcome, _⟩ | houtcome
  · rw [houtcome] at hok
    contradiction
  · rw [houtcome]

/-! ## What the loop leaves of a path -/

/-- The lookup has fetched a document of the size and the time of its entry. -/
def Lookup.Unchanged (lookup : Lookup) : Prop :=
  lookup.fetched = true ∧ ∃ old ∈ lookup.found,
    old.modifiedTs = lookup.file.modifiedTs ∧ old.size = lookup.file.size

instance (lookup : Lookup) : Decidable lookup.Unchanged :=
  inferInstanceAs (Decidable (_ ∧ ∃ old ∈ lookup.found, _ ∧ _))

/-- The lookup has found a document and not that its entry is unchanged, and
the path of the entry is a token of this one. -/
def Lookup.Reaches (tables : CharTables) (path : String) (lookup : Lookup) :
    Prop :=
  lookup.found.isSome = true ∧ ¬ lookup.Unchanged ∧
    lookup.file.path ∈ tables.defaultTokens path

instance (path : String) (lookup : Lookup) :
    Decidable (lookup.Reaches tables path) :=
  inferInstanceAs (Decidable (_ ∧ ¬ _ ∧ _))

def clearedBy (tables : CharTables) (path : String) (lookups : List Lookup) :
    Bool :=
  lookups.any fun lookup => decide (lookup.Reaches tables path)

theorem clearedBy_eq_false_iff {path : String} {lookups : List Lookup} :
    clearedBy tables path lookups = false ↔
      ∀ lookup ∈ lookups, ¬ lookup.Reaches tables path := by
  simp [clearedBy]

theorem clearedBy_iff {path : String} {lookups : List Lookup} :
    clearedBy tables path lookups = true ↔
      ∃ lookup ∈ lookups, lookup.Reaches tables path := by
  simp [clearedBy]

theorem entryDecision_eq_skip_iff {lookup : Lookup} :
    entryDecision lookup = .skip ↔ lookup.Unchanged := by
  unfold entryDecision Lookup.Unchanged
  cases lookup.found with
  | none => simp
  | some old => simp [and_assoc]

theorem entryDecision_eq_add_iff {lookup : Lookup} :
    entryDecision lookup = .add ↔ lookup.found = none := by
  unfold entryDecision
  cases lookup.found with
  | none => simp
  | some old =>
      simp only [reduceCtorEq, iff_false]
      split <;> simp

theorem entryDecision_eq_replace_iff {lookup : Lookup} :
    entryDecision lookup = .replace ↔
      lookup.found.isSome = true ∧ ¬ lookup.Unchanged := by
  rw [← entryDecision_eq_skip_iff]
  unfold entryDecision
  cases lookup.found with
  | none => simp
  | some old =>
      simp only [Option.isSome_some, true_and]
      split <;> simp

def BatchStep.added (step : BatchStep) : List Doc :=
  if step.lookup.Unchanged then [] else [step.doc]

theorem BatchStep.apply_eq (step : BatchStep) (docs : List Doc) :
    step.apply tables docs =
      docs.filter (fun doc => !decide (step.lookup.Reaches tables doc.path)) ++
        step.added := by
  cases hdecision : step.decision with
  | skip =>
      have hsame := entryDecision_eq_skip_iff.mp hdecision
      simp [BatchStep.apply, Lookup.Reaches, BatchStep.added, hdecision, hsame]
  | add =>
      have hnone := entryDecision_eq_add_iff.mp hdecision
      simp [BatchStep.apply, Lookup.Reaches, Lookup.Unchanged, BatchStep.added,
        hdecision, hnone]
  | replace =>
      obtain ⟨hsome, hchanged⟩ := entryDecision_eq_replace_iff.mp hdecision
      have hkept : deleteTerm tables step.file.path docs = docs.filter
          fun doc => !decide (step.lookup.Reaches tables doc.path) := by
        apply List.filter_congr
        intro doc _
        congr 1
        rw [hasPathToken, decide_eq_decide]
        simp [Lookup.Reaches, BatchStep.file, hsome, hchanged]
      simp [BatchStep.apply, BatchStep.added, hdecision, hchanged, hkept]

/-- The documents which the entries add and no later entry deletes. -/
def addedDocs (tables : CharTables) : List BatchStep → List Doc
  | [] => []
  | step :: later =>
      step.added.filter
          (fun doc => !clearedBy tables doc.path (later.map BatchStep.lookup)) ++
        addedDocs tables later

theorem applySteps_eq (steps : List BatchStep) (docs : List Doc) :
    applySteps tables steps docs =
      docs.filter
          (fun doc => !clearedBy tables doc.path (steps.map BatchStep.lookup)) ++
        addedDocs tables steps := by
  induction steps generalizing docs with
  | nil => simp [applySteps, addedDocs, clearedBy]
  | cons step later ih =>
      have hstep : applySteps tables (step :: later) docs =
          applySteps tables later (step.apply tables docs) := rfl
      rw [hstep, ih, step.apply_eq, List.filter_append, List.filter_filter,
        addedDocs, List.append_assoc]
      congr 2
      funext doc
      simp [clearedBy, Bool.and_comm]

def Doc.stamp (doc : Doc) : ℕ × ℤ := (doc.size, doc.modifiedTs)

def FileMeta.stamp (file : FileMeta) : ℕ × ℤ := (file.size, file.modifiedTs)

/-- The copies of a path which the entries add, each with the entries after
it. -/
def addedCopies (path : String) :
    List Lookup → List ((ℕ × ℤ) × List Lookup)
  | [] => []
  | lookup :: later =>
      if ¬ lookup.Unchanged ∧ lookup.file.path = path then
        (lookup.file.stamp, later) :: addedCopies path later
      else addedCopies path later

/-- All copies of a path: the committed ones, and those which the entries
add. -/
def copies (committed : List Doc) (lookups : List Lookup) (path : String) :
    List ((ℕ × ℤ) × List Lookup) :=
  (committed.filter fun doc => doc.path = path).map
      (fun doc => (doc.stamp, lookups)) ++ addedCopies path lookups

/-- The copies which no later entry deletes. -/
def leftCopies (tables : CharTables) (committed : List Doc)
    (lookups : List Lookup) (path : String) : List (ℕ × ℤ) :=
  ((copies committed lookups path).filter
    fun copy => !clearedBy tables path copy.2).map Prod.fst

/-- The document of an entry has the path and the stamp of its record. -/
def BatchStep.Stores (step : BatchStep) : Prop :=
  step.doc.path = step.file.path ∧ step.doc.stamp = step.file.stamp

theorem addedDocs_filter
    {steps : List BatchStep} (hstores : ∀ step ∈ steps, step.Stores)
    (path : String) :
    ((addedDocs tables steps).filter fun doc => doc.path = path).map
        Doc.stamp =
      ((addedCopies path (steps.map BatchStep.lookup)).filter
        fun copy => !clearedBy tables path copy.2).map Prod.fst := by
  induction steps with
  | nil => rfl
  | cons step later ih =>
      obtain ⟨hpath, hstamp⟩ := hstores step (by simp)
      have hlater := ih fun other hmem => hstores other (by simp [hmem])
      rw [addedDocs, List.filter_append, List.map_append, hlater,
        List.map_cons, addedCopies]
      by_cases hskip : step.lookup.Unchanged
      · simp [BatchStep.added, hskip]
      · by_cases hown : step.lookup.file.path = path
        · cases hcleared :
              clearedBy tables path (later.map BatchStep.lookup) <;>
            simp [BatchStep.added, BatchStep.file, hskip, hown, hpath, hstamp,
              hcleared]
        · cases hcleared : clearedBy tables step.lookup.file.path
              (later.map BatchStep.lookup) <;>
            simp [BatchStep.added, BatchStep.file, hskip, hown, hpath, hcleared]

theorem applySteps_filter
    {steps : List BatchStep} (hstores : ∀ step ∈ steps, step.Stores)
    (committed : List Doc) (path : String) :
    ((applySteps tables steps committed).filter
        fun doc => doc.path = path).map Doc.stamp =
      leftCopies tables committed (steps.map BatchStep.lookup) path := by
  rw [applySteps_eq, List.filter_append, List.map_append,
    addedDocs_filter hstores, leftCopies, copies, List.filter_append,
    List.map_append]
  congr 1
  rw [List.filter_filter, List.filter_map, List.map_map, List.filter_filter]
  congr 1
  apply List.filter_congr
  intro doc _
  by_cases hpath : doc.path = path <;> simp [hpath]

theorem path_of_mem_addedDocs
    {steps : List BatchStep} (hstores : ∀ step ∈ steps, step.Stores) :
    ∀ doc ∈ addedDocs tables steps, ∃ step ∈ steps,
      step.file.path = doc.path := by
  induction steps with
  | nil => simp [addedDocs]
  | cons step later ih =>
      intro doc hmem
      rw [addedDocs, List.mem_append, List.mem_filter] at hmem
      rcases hmem with ⟨hown, _⟩ | hlater
      · refine ⟨step, by simp, ?_⟩
        unfold BatchStep.added at hown
        split at hown
        next => simp at hown
        next =>
          rw [List.mem_singleton.mp hown]
          exact (hstores step (by simp)).1.symm
      · obtain ⟨other, hother, hpath⟩ :=
          ih (fun other hmem => hstores other (by simp [hmem])) doc hlater
        exact ⟨other, by simp [hother], hpath⟩

/-! ## The batch upsert -/

def IsLastOf (files : List FileMeta) (file : FileMeta) : Prop :=
  (files.filter fun other => other.path = file.path).getLast? = some file

/-- Every path of the list has exactly one document, with the stamp of its last
entry, and the documents of other paths are as before. -/
def BatchUpsert (files : List FileMeta) (before after : List Doc) : Prop :=
  (∀ file, IsLastOf files file →
    (after.filter fun doc => doc.path = file.path).map Doc.stamp =
      [file.stamp]) ∧
  after.filter (fun doc => doc.path ∉ files.map FileMeta.path) =
    before.filter fun doc => doc.path ∉ files.map FileMeta.path

/-- No entry reaches a path outside the list.  The newest copy of every path
of the list has the stamp of its last entry and is followed by no entry which
reaches the path, and every older copy is followed by one. -/
def ReachesOlderCopies (tables : CharTables) (committed : List Doc)
    (files : List FileMeta) (lookups : List Lookup) : Prop :=
  (∀ doc ∈ committed, doc.path ∉ files.map FileMeta.path →
    ∀ lookup ∈ lookups, ¬ lookup.Reaches tables doc.path) ∧
  ∀ file, IsLastOf files file → ∃ older newest,
    copies committed lookups file.path = older ++ [newest] ∧
    newest.1 = file.stamp ∧
    (∀ lookup ∈ newest.2, ¬ lookup.Reaches tables file.path) ∧
    ∀ copy ∈ older, ∃ lookup ∈ copy.2, lookup.Reaches tables file.path

theorem suffix_of_mem_addedCopies
    {path : String} {lookups : List Lookup} :
    ∀ copy ∈ addedCopies path lookups, copy.2 <:+ lookups := by
  induction lookups with
  | nil => simp [addedCopies]
  | cons lookup later ih =>
      intro copy hmem
      unfold addedCopies at hmem
      split at hmem
      next =>
        rcases List.mem_cons.mp hmem with rfl | hlater
        · exact List.suffix_cons lookup later
        · exact (ih copy hlater).trans (List.suffix_cons lookup later)
      next => exact (ih copy hmem).trans (List.suffix_cons lookup later)

theorem addedCopies_pairwise (path : String) (lookups : List Lookup) :
    (addedCopies path lookups).Pairwise
      fun copy newer => newer.2 <:+ copy.2 := by
  induction lookups with
  | nil => simp [addedCopies]
  | cons lookup later ih =>
      unfold addedCopies
      split
      next => exact List.pairwise_cons.mpr ⟨suffix_of_mem_addedCopies, ih⟩
      next => exact ih

/-- The entries after a copy are among those after every older one. -/
theorem copies_pairwise
    (committed : List Doc) (lookups : List Lookup) (path : String) :
    (copies committed lookups path).Pairwise
      fun copy newer => newer.2 <:+ copy.2 := by
  unfold copies
  rw [List.pairwise_append]
  refine ⟨?_, addedCopies_pairwise path lookups, ?_⟩
  · rw [List.pairwise_map]
    exact List.pairwise_of_forall fun _ _ => List.suffix_rfl
  · intro copy hcopy newer hnewer
    obtain ⟨doc, _, rfl⟩ := List.mem_map.mp hcopy
    exact suffix_of_mem_addedCopies newer hnewer

theorem clearedBy_of_suffix
    {path : String} {later lookups : List Lookup} (hsuffix : later <:+ lookups)
    (hkept : clearedBy tables path lookups = false) :
    clearedBy tables path later = false := by
  rw [clearedBy_eq_false_iff] at hkept ⊢
  exact fun lookup hmem => hkept lookup (hsuffix.subset hmem)

/-- When all rows after a kept one are kept, a single row is left exactly when
it is the last and all the others are gone. -/
theorem filter_eq_singleton_iff
    {α : Type*} {keep : α → Bool} {rows : List α} {row : α}
    (hkept : rows.Pairwise fun older newer =>
      keep older = true → keep newer = true) :
    rows.filter keep = [row] ↔
      ∃ older, rows = older ++ [row] ∧ keep row = true ∧
        ∀ other ∈ older, keep other = false := by
  constructor
  · intro hone
    have hrow : row ∈ rows.filter keep := by simp [hone]
    obtain ⟨hmem, hkeep⟩ := List.mem_filter.mp hrow
    rcases List.eq_nil_or_concat rows with rfl | ⟨older, newest, rfl⟩
    · simp at hmem
    · rw [List.concat_eq_append] at hone hmem hkept
      have hnewest : keep newest = true := by
        rcases List.mem_append.mp hmem with holder | hlast
        · exact (List.pairwise_append.mp hkept).2.2 row holder newest
            (by simp) hkeep
        · rwa [← List.mem_singleton.mp hlast]
      have hsplit : older.filter keep ++ [newest] = [] ++ [row] := by
        simpa [List.filter_append, hnewest] using hone
      obtain ⟨hnone, hsame⟩ := List.append_inj' hsplit rfl
      rw [List.singleton_inj] at hsame
      refine ⟨older, by simp [hsame], hkeep, ?_⟩
      simpa [List.filter_eq_nil_iff] using hnone
  · rintro ⟨older, rfl, hkeep, hnone⟩
    have holder : older.filter keep = [] := by
      simpa [List.filter_eq_nil_iff] using hnone
    rw [List.filter_append, holder]
    simp [hkeep]

/-- Everything after a kept copy is kept. -/
theorem leftCopies_eq_singleton_iff
    {committed : List Doc} {lookups : List Lookup} {path : String}
    {stamp : ℕ × ℤ} :
    leftCopies tables committed lookups path = [stamp] ↔
      ∃ older newest, copies committed lookups path = older ++ [newest] ∧
        newest.1 = stamp ∧ clearedBy tables path newest.2 = false ∧
        ∀ copy ∈ older, clearedBy tables path copy.2 = true := by
  have hkept : (copies committed lookups path).Pairwise fun copy newer =>
      (!clearedBy tables path copy.2) = true →
        (!clearedBy tables path newer.2) = true := by
    apply (copies_pairwise committed lookups path).imp
    intro copy newer hsuffix hkeep
    rw [Bool.not_eq_true'] at hkeep ⊢
    exact clearedBy_of_suffix hsuffix hkeep
  rw [leftCopies, List.map_eq_singleton_iff]
  simp only [filter_eq_singleton_iff hkept, Bool.not_eq_true',
    Bool.not_eq_false']
  constructor
  · rintro ⟨newest, ⟨older, hcopies, hkeep, hgone⟩, hstamp⟩
    exact ⟨older, newest, hcopies, hstamp, hkeep, hgone⟩
  · rintro ⟨older, newest, hcopies, hstamp, hkeep, hgone⟩
    exact ⟨newest, ⟨older, hcopies, hkeep, hgone⟩, hstamp⟩

theorem batchSteps_file
    {enableContentParse : Bool} {snapshot : List Doc}
    (files : List FileMeta) :
    (batchSteps tables env enableContentParse snapshot files).map
      BatchStep.file = files := by
  rw [batchSteps, List.map_map]
  exact files.zipIdx_map_fst 0

theorem batchSteps_lookup
    {enableContentParse : Bool} {snapshot : List Doc}
    (files : List FileMeta) :
    (batchSteps tables env enableContentParse snapshot files).map
      BatchStep.lookup = lookups tables env snapshot files := by
  rw [batchSteps, List.map_map]
  rfl

theorem batchSteps_stores
    {enableContentParse : Bool} {snapshot : List Doc} {files : List FileMeta} :
    ∀ step ∈ batchSteps tables env enableContentParse snapshot files,
      step.Stores := by
  intro step hmem
  obtain ⟨entry, _, rfl⟩ := List.mem_map.mp hmem
  have hstored := Indexer.doc_stored .buildProgress enableContentParse entry.1
    (env.disk entry.2 entry.1.path)
  simp only [Doc.stored, Prod.mk.injEq] at hstored
  exact ⟨hstored.1, Prod.ext hstored.2.2.2.1 hstored.2.2.2.2⟩

theorem applySteps_filter_outside
    {steps : List BatchStep} (hstores : ∀ step ∈ steps, step.Stores)
    (committed : List Doc) :
    (applySteps tables steps committed).filter
        (fun doc => doc.path ∉ (steps.map BatchStep.file).map FileMeta.path) =
      (committed.filter fun doc =>
          doc.path ∉ (steps.map BatchStep.file).map FileMeta.path).filter
        fun doc => !clearedBy tables doc.path (steps.map BatchStep.lookup) := by
  have hadded : (addedDocs tables steps).filter (fun doc =>
      doc.path ∉ (steps.map BatchStep.file).map FileMeta.path) = [] := by
    rw [List.filter_eq_nil_iff]
    intro doc hmem hout
    obtain ⟨step, hstep, hpath⟩ := path_of_mem_addedDocs hstores doc hmem
    rw [decide_eq_true_eq] at hout
    apply hout
    rw [← hpath]
    exact List.mem_map_of_mem (List.mem_map_of_mem hstep)
  rw [applySteps_eq, List.filter_append, hadded, List.append_nil,
    List.filter_filter, List.filter_filter]
  congr 1
  funext doc
  exact Bool.and_comm _ _

theorem batchUpsert_applySteps_iff
    {steps : List BatchStep} (hstores : ∀ step ∈ steps, step.Stores)
    (committed : List Doc) :
    BatchUpsert (steps.map BatchStep.file) committed
        (applySteps tables steps committed) ↔
      ReachesOlderCopies tables committed (steps.map BatchStep.file)
        (steps.map BatchStep.lookup) := by
  unfold BatchUpsert ReachesOlderCopies
  rw [applySteps_filter_outside hstores, List.filter_eq_self, and_comm]
  simp only [applySteps_filter hstores, leftCopies_eq_singleton_iff,
    clearedBy_eq_false_iff, clearedBy_iff, List.mem_filter, decide_eq_true_eq,
    Bool.not_eq_true', and_imp]

/-! ## Paths with a separator -/

theorem lookupEntry_of_hasSeparator
    {file : FileMeta} (hsep : HasSeparator file.path) (snapshot : List Doc)
    (i : ℕ) : (lookupEntry tables env snapshot i file).found = none := by
  have hnone : snapshot.filter (hasPathToken tables file.path) = [] := by
    rw [List.filter_eq_nil_iff]
    intro doc _
    simp [hasPathToken, tables.not_mem_defaultTokens hsep]
  unfold lookupEntry
  rw [hnone]
  rcases env.topDoc_cases file.path [] with ⟨_, htop⟩ | ⟨doc, hmem, _⟩
  · simp [htop]
  · simp at hmem

theorem clearedBy_of_not_found
    {lookups : List Lookup} (hnone : ∀ lookup ∈ lookups, lookup.found = none)
    (path : String) : clearedBy tables path lookups = false := by
  rw [clearedBy_eq_false_iff]
  intro lookup hmem
  simp [Lookup.Reaches, hnone lookup hmem]

theorem addedCopies_of_not_found
    {lookups : List Lookup} (hnone : ∀ lookup ∈ lookups, lookup.found = none)
    (path : String) :
    ((addedCopies path lookups).filter
        fun copy => !clearedBy tables path copy.2).map Prod.fst =
      ((lookups.map Lookup.file).filter fun file => file.path = path).map
        FileMeta.stamp := by
  induction lookups with
  | nil => rfl
  | cons lookup later ih =>
      have hlater : ∀ other ∈ later, other.found = none :=
        fun other hmem => hnone other (by simp [hmem])
      have hchanged : ¬ lookup.Unchanged := by
        simp [Lookup.Unchanged, hnone lookup (by simp)]
      by_cases hpath : lookup.file.path = path
      · simp [addedCopies, hchanged, hpath, clearedBy_of_not_found hlater,
          ih hlater]
      · simp [addedCopies, hpath, ih hlater]

theorem leftCopies_of_not_found
    {lookups : List Lookup} (hnone : ∀ lookup ∈ lookups, lookup.found = none)
    (committed : List Doc) (path : String) :
    leftCopies tables committed lookups path =
      (committed.filter fun doc => doc.path = path).map Doc.stamp ++
        ((lookups.map Lookup.file).filter fun file => file.path = path).map
          FileMeta.stamp := by
  rw [leftCopies, copies, List.filter_append, List.map_append,
    addedCopies_of_not_found hnone]
  simp [List.filter_map, Function.comp_def, clearedBy_of_not_found hnone]

theorem lookups_file (snapshot : List Doc) (files : List FileMeta) :
    (lookups tables env snapshot files).map Lookup.file = files := by
  rw [lookups, List.map_map]
  exact files.zipIdx_map_fst 0

theorem exists_isLastOf
    {files : List FileMeta} {path : String}
    (hmem : path ∈ files.map FileMeta.path) :
    ∃ file, IsLastOf files file ∧ file.path = path := by
  obtain ⟨some, hsome, rfl⟩ := List.mem_map.mp hmem
  cases hlast : (files.filter fun other => other.path = some.path).getLast? with
  | none =>
      rw [List.getLast?_eq_none_iff, List.filter_eq_nil_iff] at hlast
      simpa using hlast some hsome
  | some file =>
      have hfile := List.mem_filter.mp (List.mem_of_getLast? hlast)
      have hpath : file.path = some.path := by simpa using hfile.2
      refine ⟨file, ?_, hpath⟩
      rw [IsLastOf, hpath]
      exact hlast

theorem count_path (files : List FileMeta) (path : String) :
    (files.map FileMeta.path).count path =
      (files.filter fun file => file.path = path).length := by
  rw [List.count, List.countP_map, List.countP_eq_length_filter]
  rfl

theorem filter_of_nodup
    {files : List FileMeta} (hnodup : (files.map FileMeta.path).Nodup)
    {file : FileMeta} (hlast : IsLastOf files file) :
    (files.filter fun other => other.path = file.path) = [file] := by
  have hcount := List.nodup_iff_count_le_one.mp hnodup file.path
  rw [count_path] at hcount
  obtain ⟨front, hfront⟩ := List.getLast?_eq_some_iff.mp hlast
  rw [hfront, List.length_append, List.length_singleton] at hcount
  have hnil : front = [] := List.eq_nil_of_length_eq_zero (by omega)
  rw [hfront, hnil, List.nil_append]

/-- A list of paths with separators, as every scan of an absolute root gives,
is upserted exactly when it repeats no path and none of its paths has been
committed. -/
theorem reachesOlderCopies_iff_fresh
    {files : List FileMeta}
    (hsep : ∀ file ∈ files, HasSeparator file.path) (committed : List Doc) :
    ReachesOlderCopies tables committed files
        (lookups tables env committed files) ↔
      (files.map FileMeta.path).Nodup ∧
        ∀ doc ∈ committed, doc.path ∉ files.map FileMeta.path := by
  have hnone : ∀ lookup ∈ lookups tables env committed files,
      lookup.found = none := by
    intro lookup hmem
    obtain ⟨entry, hentry, rfl⟩ := List.mem_map.mp hmem
    exact lookupEntry_of_hasSeparator
      (hsep entry.1 (List.fst_mem_of_mem_zipIdx hentry)) committed entry.2
  simp only [ReachesOlderCopies, ← clearedBy_eq_false_iff, ← clearedBy_iff,
    ← leftCopies_eq_singleton_iff, clearedBy_of_not_found hnone,
    leftCopies_of_not_found hnone, lookups_file, implies_true, true_and]
  constructor
  · intro hone
    have hlength {path : String} (hmem : path ∈ files.map FileMeta.path) :
        (committed.filter fun doc => doc.path = path).length +
          (files.map FileMeta.path).count path = 1 := by
      obtain ⟨file, hlast, rfl⟩ := exists_isLastOf hmem
      simpa [count_path] using congrArg List.length (hone file hlast)
    constructor
    · rw [List.nodup_iff_count_le_one]
      intro path
      by_cases hmem : path ∈ files.map FileMeta.path
      · have := hlength hmem
        omega
      · rw [List.count_eq_zero_of_not_mem hmem]
        exact Nat.zero_le 1
    · intro doc hdoc hmem
      have hcount := List.count_pos_iff.mpr hmem
      have hnone : (committed.filter fun other => other.path = doc.path) =
          [] := List.eq_nil_of_length_eq_zero (by have := hlength hmem; omega)
      rw [List.filter_eq_nil_iff] at hnone
      simpa using hnone doc hdoc
  · rintro ⟨hnodup, hfresh⟩ file hlast
    have hmem : file ∈ files :=
      (List.mem_filter.mp (List.mem_of_getLast? hlast)).1
    have hnone : (committed.filter fun doc => doc.path = file.path) = [] := by
      rw [List.filter_eq_nil_iff]
      intro doc hdoc hpath
      rw [decide_eq_true_eq] at hpath
      exact hfresh doc hdoc (hpath ▸ List.mem_map_of_mem hmem)
    rw [filter_of_nodup hnodup hlast, hnone]
    rfl

/-! ## The whole request -/

/-- A successful request has upserted the list exactly when its deletions reach
the older copies of every path, no other copies and no other paths. -/
theorem batch_upsert_iff
    {enableContentParse : Bool} {files : List FileMeta}
    {index : Option (List Doc)} {after : List Doc}
    (hok : (buildInvertedIndexProgress tables env enableContentParse files
      index).result = .ok ())
    (hafter : (buildInvertedIndexProgress tables env enableContentParse files
      index).index = some after) :
    BatchUpsert files (index.getD []) after ↔
      ReachesOlderCopies tables (index.getD []) files
        (lookups tables env (index.getD []) files) := by
  rw [buildInvertedIndexProgress_ok hok, Option.some.injEq] at hafter
  have hiff := @batchUpsert_applySteps_iff tables _
    (@batchSteps_stores tables env enableContentParse (index.getD []) files)
    (index.getD [])
  rwa [batchSteps_file, batchSteps_lookup, hafter] at hiff

/-- Every call succeeds, the disk is empty, and the first match is the top
one. -/
def quietEnv : BatchEnv where
  createDirAll := .ok ()
  createInDir := .ok ()
  openWriter := .ok ()
  openReader := .ok ()
  searchOk _ := true
  fetchOk _ := true
  addDocument _ := .ok ()
  commit := .ok ()
  disk _ _ := .absent
  topDoc _ docs := docs.head?
  topDoc_cases _ docs := by
    cases docs with
    | nil => exact Or.inl ⟨rfl, rfl⟩
    | cons doc docs => exact Or.inr ⟨doc, by simp, rfl⟩

def sampleMeta : FileMeta := ⟨"/d/a.txt", "a.txt", "txt", 1, 0⟩

def notesMeta : FileMeta := ⟨"notes", "notes", "", 2, 5⟩

def otherMeta : FileMeta := ⟨"/e/b.txt", "b.txt", "txt", 3, 0⟩

/-- The older copy of a relative root file, whose path is a token of itself. -/
def oldNotes : Doc := { notesMeta.toDoc with size := 1 }

/-- The file of a new path is added and the older copy of `notes` is
replaced. -/
theorem batch_upsert_replaces :
    (buildInvertedIndexProgress asciiTables quietEnv false
      [sampleMeta, notesMeta] (some [oldNotes, otherMeta.toDoc])).result =
        .ok () ∧
    BatchUpsert [sampleMeta, notesMeta] [oldNotes, otherMeta.toDoc]
      [otherMeta.toDoc, sampleMeta.toDoc, notesMeta.toDoc] := by
  refine ⟨by decide, (@batch_upsert_iff asciiTables quietEnv false
    [sampleMeta, notesMeta] (some [oldNotes, otherMeta.toDoc])
    [otherMeta.toDoc, sampleMeta.toDoc, notesMeta.toDoc]
    (by decide) (by decide)).mpr ⟨by decide, ?_⟩⟩
  intro file hlast
  have hmem : file ∈ [sampleMeta, notesMeta] :=
    (List.mem_filter.mp (List.mem_of_getLast? hlast)).1
  rcases List.mem_pair.mp hmem with rfl | rfl
  · exact ⟨[], (sampleMeta.stamp, [⟨notesMeta, some oldNotes, true⟩]),
      by decide, by decide, by decide, by decide⟩
  · exact ⟨[(oldNotes.stamp, [⟨sampleMeta, none, true⟩,
      ⟨notesMeta, some oldNotes, true⟩])], (notesMeta.stamp, []),
      by decide, by decide, by decide, by decide⟩

/-- The same list again, with nothing changed on the disk: the file has two
documents. -/
theorem batch_upsert_doubles :
    UniquePaths [sampleMeta.toDoc] ∧
    (buildInvertedIndexProgress asciiTables quietEnv false [sampleMeta]
      (some [sampleMeta.toDoc])).result = .ok () ∧
    (buildInvertedIndexProgress asciiTables quietEnv false [sampleMeta]
      (some [sampleMeta.toDoc])).index =
        some [sampleMeta.toDoc, sampleMeta.toDoc] ∧
    ¬ BatchUpsert [sampleMeta] [sampleMeta.toDoc]
      [sampleMeta.toDoc, sampleMeta.toDoc] := by
  refine ⟨by simp [UniquePaths], by decide, by decide, ?_⟩
  intro hupsert
  have hone := hupsert.1 sampleMeta rfl
  revert hone
  decide

end SearchEvery
