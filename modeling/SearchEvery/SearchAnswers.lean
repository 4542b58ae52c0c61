import SearchEvery.Backend
import SearchEvery.NameSearch
import SearchEvery.ScanAgreement
import Mathlib.Tactic

/-!
# From the disk to the answers of a search

A search answers from the documents of a directory, and these come from the
lists and the runs which were handed to the indexers before.  The file follows
both directions through every interleaving of the writers: an answer is the
record of a file which was handed over for its directory, and a scanned file
which was indexed is found by its name from then on.
-/

namespace SearchEvery

/-- `Index::open_in_dir`, with the error for a directory without an index. -/
def Backend.openInDir (b : Backend) (missing : String) (dir : String) :
    Except String Index :=
  match b.index dir with
  | none => .error missing
  | some docs => .ok ⟨programSchema, docs⟩

/-- The arguments and the walk of every run, in starting order. -/
def Backend.started (b : Backend) : List (RunArgs × List WalkItem) :=
  b.sys.runs.map fun run => (run.args, run.items)

/-- One of the lists indexed into the directory has the file. -/
inductive Listed (actions : List BackendAction) (dir : String)
    (file : FileMeta) : Prop
  | build {benv enableContentParse files}
      (haction : .build dir benv enableContentParse files ∈ actions)
      (hfile : file ∈ files) : Listed actions dir file
  | buildInvertedIndexProgress {benv enableContentParse files}
      (haction : .buildInvertedIndexProgress dir benv enableContentParse
        files ∈ actions)
      (hfile : file ∈ files) : Listed actions dir file

/-- One of the runs on the directory has admitted the file. -/
def Walked (env : PipelineEnv) (started : List (RunArgs × List WalkItem))
    (dir : String) (file : FileMeta) : Prop :=
  ∃ run ∈ started, run.1.indexDir = dir ∧
    file ∈ run.2.filterMap (pipelineFile env run.1)

/-- A document was there at first, or is the record of a listed or walked
file. -/
def Accounted (env : PipelineEnv) (init b : Backend)
    (past : List BackendAction) (dir : String) (doc : Doc) : Prop :=
  doc ∈ init.sys.docs dir ∨
    ∃ file, (Listed past dir file ∨ Walked env b.started dir file) ∧
      doc.stored = file.toDoc.stored

structure Backend.Sourced (env : PipelineEnv) (b init : Backend)
    (past : List BackendAction) : Prop where
  coherent : b.sys.Coherent env
  docs : ∀ dir, ∀ doc ∈ b.sys.docs dir, Accounted env init b past dir doc
  pending :
    ∀ run ∈ b.sys.runs, ∀ doc ∈ run.frame.pending,
      Accounted env init b past run.args.indexDir doc

variable {env : PipelineEnv} {init : Backend}

/-! ## What a writer leaves in its directory -/

theorem Listed.append
    {past : List BackendAction} {dir : String} {file : FileMeta}
    (hlisted : Listed past dir file) (later : List BackendAction) :
    Listed (past ++ later) dir file := by
  cases hlisted with
  | build haction hfile => exact .build (List.mem_append_left _ haction) hfile
  | buildInvertedIndexProgress haction hfile =>
      exact .buildInvertedIndexProgress (List.mem_append_left _ haction) hfile

theorem Accounted.mono
    {b next : Backend} {past : List BackendAction} {dir : String} {doc : Doc}
    (hdoc : Accounted env init b past dir doc)
    (hstarted : b.started ⊆ next.started) (action : BackendAction) :
    Accounted env init next (past ++ [action]) dir doc := by
  rcases hdoc with hold | ⟨file, hfile, hstored⟩
  · exact Or.inl hold
  · refine Or.inr ⟨file, hfile.imp (fun hlisted => hlisted.append _) ?_, hstored⟩
    rintro ⟨run, hrun, hwalked⟩
    exact ⟨run, hstarted hrun, hwalked⟩

theorem mem_build
    {benv : BuildEnv} {enableContentParse : Bool} {files : List FileMeta}
    {index : Option (List Doc)} {doc : Doc}
    (hdoc : doc ∈ (build benv enableContentParse files index).index.getD []) :
    doc ∈ index.getD [] ∨
      ∃ file ∈ files, ∃ entry, doc = buildDoc enableContentParse file entry := by
  cases index with
  | some docs =>
      rw [(build_existing benv enableContentParse files docs).2] at hdoc
      exact Or.inl hdoc
  | none =>
      by_cases hok : (build benv enableContentParse files none).result = .ok ()
      · rw [build_ok hok, Option.getD_some] at hdoc
        obtain ⟨row, hrow, rfl⟩ := List.mem_map.mp hdoc
        exact Or.inr ⟨row.1, List.fst_mem_of_mem_zipIdx hrow, _, rfl⟩
      · rw [build_fresh_failed hok] at hdoc
        exact (List.not_mem_nil hdoc).elim

theorem mem_applySteps
    {tables : CharTables} {steps : List BatchStep} {docs : List Doc}
    {doc : Doc} (hdoc : doc ∈ applySteps tables steps docs) :
    doc ∈ docs ∨ ∃ step ∈ steps, doc = step.doc := by
  induction steps generalizing docs with
  | nil => exact Or.inl hdoc
  | cons step steps ih =>
      have happly : doc ∈ step.apply tables docs → doc ∈ docs ∨ doc = step.doc := by
        unfold BatchStep.apply
        split
        · exact Or.inl
        · intro hmem
          exact (List.mem_append.mp hmem).imp_right List.mem_singleton.mp
        · intro hmem
          exact (List.mem_append.mp hmem).imp
            (fun hkept => (mem_deleteTerm.mp hkept).1) List.mem_singleton.mp
      rcases ih hdoc with hmem | ⟨later, hlater, heq⟩
      · exact (happly hmem).imp_right fun heq => ⟨step, List.mem_cons_self, heq⟩
      · exact Or.inr ⟨later, List.mem_cons_of_mem _ hlater, heq⟩

theorem mem_buildInvertedIndexProgress
    {tables : CharTables} {benv : BatchEnv} {enableContentParse : Bool}
    {files : List FileMeta} {index : Option (List Doc)} {doc : Doc}
    (hdoc : doc ∈ (buildInvertedIndexProgress tables benv enableContentParse
      files index).index.getD []) :
    doc ∈ index.getD [] ∨
      ∃ file ∈ files, ∃ entry,
        doc = progressDoc enableContentParse file entry := by
  rcases buildInvertedIndexProgress_cases tables benv enableContentParse files
      index with ⟨error, kept, events, houtcome, hkept⟩ | houtcome
  · rw [houtcome] at hdoc
    exact Or.inl (hkept ▸ hdoc)
  · rw [houtcome, Option.getD_some] at hdoc
    refine (mem_applySteps hdoc).imp_right ?_
    rintro ⟨step, hstep, rfl⟩
    obtain ⟨row, hrow, rfl⟩ := List.mem_map.mp hstep
    exact ⟨row.1, List.fst_mem_of_mem_zipIdx hrow, _, rfl⟩

theorem mem_deleteFileAndIndex
    {tables : CharTables} {path : String} {wenv : DeleteEnv} {disk : Disk}
    {index : Option (List Doc)} {doc : Doc}
    (hdoc : doc ∈ ((deleteFileAndIndex tables wenv path disk (index.map
      fun docs => ⟨programSchema, docs⟩)).index.map Index.docs).getD []) :
    doc ∈ index.getD [] := by
  cases hremove : wenv.remove disk path with
  | none =>
      rw [deleteFileAndIndex_not_removed hremove] at hdoc
      cases index <;> exact hdoc
  | some removed =>
      rcases deleteFileAndIndex_removed hremove tables (index.map
          fun docs => ⟨programSchema, docs⟩) with
        ⟨_, houtcome⟩ | ⟨_, error, houtcome⟩
      · rw [houtcome] at hdoc
        cases index with
        | none => exact hdoc
        | some docs => exact (mem_deleteTerm.mp hdoc).1
      · rw [houtcome] at hdoc
        cases index <;> exact hdoc

theorem Backend.mem_getD_index
    {b : Backend} {dir : String} {doc : Doc}
    (hdoc : doc ∈ (b.index dir).getD []) : doc ∈ b.sys.docs dir := by
  unfold Backend.index at hdoc
  split at hdoc
  · exact hdoc
  · exact (List.not_mem_nil hdoc).elim

/-- One step of a run leaves only documents which were there before or which
it built for a file it admitted. -/
theorem runStep_documents
    {args : RunArgs} {items : List WalkItem} {s next : RunState}
    {action : RunAction} {P : Doc → Prop}
    (hgood : s.Coherent env args items)
    (hfiles : ∀ file ∈ items.filterMap (pipelineFile env args), ∀ doc : Doc,
      doc.stored = file.toDoc.stored → P doc)
    (hdocs : ∀ doc ∈ s.docs, P doc) (hpending : ∀ doc ∈ s.pending, P doc)
    (hstep : runStep env args items s action = some next) :
    (∀ doc ∈ next.docs, P doc) ∧ ∀ doc ∈ next.pending, P doc := by
  cases runStep_docStep hgood hstep with
  | task _ hsame hrest _ => rw [hsame, hrest]; exact ⟨hdocs, hpending⟩
  | openWriter _ _ hsame hrest => rw [hsame, hrest]; exact ⟨hdocs, hdocs⟩
  | spawn _ hsame hrest _ => rw [hsame, hrest]; exact ⟨hdocs, hpending⟩
  | quiet _ _ hsame hrest _ _ _ => rw [hsame, hrest]; exact ⟨hdocs, hpending⟩
  | giveUp _ _ _ hsame hrest => rw [hsame, hrest]; exact ⟨hdocs, hpending⟩
  | deleteTerm _ _ _ hsame hrest =>
      rw [hsame, hrest]
      exact ⟨hdocs, fun doc hdoc => hpending doc (mem_deleteTerm.mp hdoc).1⟩
  | @addDocument _ _ ok worker hrow hphase _ hsame hrest =>
      rw [hsame, hrest]
      refine ⟨hdocs, fun doc hdoc => ?_⟩
      cases ok with
      | false => exact hpending doc hdoc
      | true =>
          rcases List.mem_append.mp hdoc with hold | hnew
          · exact hpending doc hold
          · have hmem := List.mem_of_getElem? hrow
            obtain ⟨built, hbuilt, hstored⟩ :=
              hgood.doc_stored hmem (by simp [hphase])
            rw [hbuilt, Option.toList_some, List.mem_singleton] at hnew
            exact hfiles _ (hgood.file_mem hmem) doc (hnew ▸ hstored)
  | @commit _ _ ok _ _ _ _ hsame hrest =>
      rw [hsame, hrest]
      refine ⟨fun doc hdoc => ?_, hpending⟩
      cases ok with
      | false => exact hdocs doc hdoc
      | true => exact hpending doc hdoc

/-! ## Every document is accounted for -/

theorem Backend.started_put
    (b : Backend) (dir : String) (index : Option (List Doc)) :
    (b.put dir index).started = b.started := by
  cases index <;> rfl

theorem Backend.Sourced.put
    {past : List BackendAction} {b : Backend} (hsourced : b.Sourced env init past)
    {dir : String} {index : Option (List Doc)} {action : BackendAction}
    (hindex : ∀ doc ∈ index.getD [],
      Accounted env init b (past ++ [action]) dir doc) :
    (b.put dir index).Sourced env init (past ++ [action]) := by
  have hruns : (b.put dir index).sys.runs = b.sys.runs := by
    cases index <;> rfl
  have hstarted : b.started ⊆ (b.put dir index).started := by
    rw [b.started_put]
    exact List.Subset.refl _
  have hsame {other : String} {doc : Doc}
      (hdoc : Accounted env init b (past ++ [action]) other doc) :
      Accounted env init (b.put dir index) (past ++ [action]) other doc := by
    unfold Accounted at hdoc ⊢
    rw [b.started_put]
    exact hdoc
  refine ⟨?_, ?_, ?_⟩
  · cases index with
    | none => exact hsourced.coherent
    | some docs => exact hsourced.coherent.withDocs _
  · intro other doc hdoc
    rw [b.docs_put] at hdoc
    by_cases hother : other = dir
    · subst hother
      rw [Function.update_self] at hdoc
      cases index with
      | none => exact (hsourced.docs other doc hdoc).mono hstarted action
      | some docs => exact hsame (hindex doc hdoc)
    · rw [Function.update_of_ne hother] at hdoc
      exact (hsourced.docs other doc hdoc).mono hstarted action
  · intro run hrun doc hdoc
    rw [hruns] at hrun
    exact (hsourced.pending run hrun doc hdoc).mono hstarted action

theorem Backend.Sourced.changeDisk
    {past : List BackendAction} {b : Backend} (hsourced : b.Sourced env init past)
    (disk : Disk) : ({ b with disk := disk } : Backend).Sourced env init past :=
  ⟨hsourced.coherent, hsourced.docs, hsourced.pending⟩

/-- Damage adds no document. -/
theorem Backend.Sourced.damaged
    {past : List BackendAction} {b : Backend} (hsourced : b.Sourced env init past)
    (hits : List (String × Damage)) : (b.damaged hits).Sourced env init past := by
  induction hits generalizing b with
  | nil => exact hsourced
  | cons hit hits ih =>
      apply ih
      refine ⟨hsourced.coherent.withDocs _, ?_, hsourced.pending⟩
      intro dir doc hdoc
      simp only [Backend.damage] at hdoc
      by_cases hdir : dir = hit.1
      · rw [hdir, Function.update_self] at hdoc
        split at hdoc
        · rw [hdir]
          exact hsourced.docs hit.1 doc (List.mem_filter.mp hdoc).1
        · simp at hdoc
      · rw [Function.update_of_ne hdir] at hdoc
        exact hsourced.docs dir doc hdoc

theorem Backend.Sourced.later
    {past : List BackendAction} {b : Backend} (hsourced : b.Sourced env init past)
    (action : BackendAction) : b.Sourced env init (past ++ [action]) where
  coherent := hsourced.coherent
  docs dir doc hdoc :=
    (hsourced.docs dir doc hdoc).mono (List.Subset.refl _) action
  pending run hrun doc hdoc :=
    (hsourced.pending run hrun doc hdoc).mono (List.Subset.refl _) action

theorem Backend.started_run
    {b : Backend} {opened : String → Bool} {r : ℕ} {run : Run}
    {after : RunState} (hrow : b.sys.runs[r]? = some run) :
    ({ b with sys := b.sys.store r run after, opened := opened } :
      Backend).started = b.started := by
  have hkey : (b.sys.runs.map fun run => (run.args, run.items))[r]? =
      some (run.args, run.items) := by
    rw [List.getElem?_map, hrow]
    rfl
  simp only [Backend.started, Sys.store, List.map_set]
  obtain ⟨_, hget⟩ := List.getElem?_eq_some_iff.mp hkey
  rw [← hget, List.set_getElem_self]

theorem Backend.Sourced.sysStep
    {past : List BackendAction} {b : Backend} (hsourced : b.Sourced env init past)
    {sys : Sys} {action : SysAction}
    (hstep : SearchEvery.sysStep env b.sys action = some sys) :
    ({ b with sys := sys, opened := b.openedAfter action } : Backend).Sourced
      env init (past ++ [.sys action]) := by
  have hcoherent := hsourced.coherent.step hstep
  cases sysStep_spec hstep with
  | schedule scheduled =>
      have hlater := hsourced.later (.sys action)
      exact ⟨hcoherent, hlater.docs, hlater.pending⟩
  | launch scheduled args items =>
      refine ⟨hcoherent, ?_, ?_⟩
      · intro dir doc hdoc
        refine (hsourced.docs dir doc hdoc).mono ?_ _
        simp [Backend.started]
      · intro run hrun doc hdoc
        rcases List.mem_append.mp hrun with hold | hnew
        · refine (hsourced.pending run hold doc hdoc).mono ?_ _
          simp [Backend.started]
        · rw [List.mem_singleton.mp hnew] at hdoc
          exact (List.not_mem_nil hdoc).elim
  | @run r action run after hrow hrun =>
      have hmem := List.mem_of_getElem? hrow
      have hstarted := @Backend.started_run b
        (b.openedAfter (.run r action)) r run after hrow
      have hlater {dir : String} {doc : Doc}
          (hdoc : Accounted env init b past dir doc) :
          Accounted env init { b with
            sys := b.sys.store r run after
            opened := b.openedAfter (.run r action) }
              (past ++ [.sys (.run r action)]) dir doc := by
        refine hdoc.mono ?_ _
        rw [hstarted]
        exact List.Subset.refl _
      have hleft := runStep_documents (hsourced.coherent.row hrow)
        (P := fun doc => Accounted env init b past run.args.indexDir doc)
        (fun file hfile doc hstored => Or.inr ⟨file, Or.inr
          ⟨_, List.mem_map_of_mem hmem, rfl, hfile⟩, hstored⟩)
        (hsourced.docs _) (hsourced.pending run hmem) hrun
      refine ⟨hcoherent, ?_, ?_⟩
      · intro dir doc hdoc
        simp only [Sys.store] at hdoc
        by_cases hdir : dir = run.args.indexDir
        · subst hdir
          rw [Function.update_self] at hdoc
          exact hlater (hleft.1 doc hdoc)
        · rw [Function.update_of_ne hdir] at hdoc
          exact hlater (hsourced.docs dir doc hdoc)
      · intro other hother doc hdoc
        simp only [Sys.store] at hother
        rcases List.mem_or_eq_of_mem_set hother with hold | rfl
        · exact hlater (hsourced.pending other hold doc hdoc)
        · exact hlater (hleft.2 doc hdoc)

theorem Backend.Sourced.step
    {past : List BackendAction} {b next : Backend} {action : BackendAction}
    (hsourced : b.Sourced env init past)
    (hstep : backendStep env b action = some next) :
    next.Sourced env init (past ++ [action]) := by
  have hkept {dir : String} {doc : Doc} (hdoc : doc ∈ (b.index dir).getD []) :
      Accounted env init b (past ++ [action]) dir doc :=
    (hsourced.docs dir doc (Backend.mem_getD_index hdoc)).mono
      (List.Subset.refl _) action
  have hnow : action ∈ past ++ [action] :=
    List.mem_append_right _ (List.mem_singleton_self action)
  cases action with
  | sys action =>
      obtain ⟨sys, hsys, rfl⟩ := Option.map_eq_some_iff.mp hstep
      exact hsourced.sysStep hsys
  | build dir benv enableContentParse files =>
      simp only [backendStep] at hstep
      split at hstep
      next => simp at hstep
      next =>
        rw [← Option.some.inj hstep]
        refine hsourced.put fun doc hdoc => ?_
        rcases mem_build hdoc with hold | ⟨file, hfile, entry, rfl⟩
        · exact hkept hold
        · exact Or.inr ⟨file, Or.inl (.build hnow hfile),
            Indexer.doc_stored .build enableContentParse file entry⟩
  | buildInvertedIndexProgress dir benv enableContentParse files =>
      simp only [backendStep] at hstep
      split at hstep
      next => simp at hstep
      next =>
        rw [← Option.some.inj hstep]
        refine hsourced.put fun doc hdoc => ?_
        rcases mem_buildInvertedIndexProgress hdoc with
          hold | ⟨file, hfile, entry, rfl⟩
        · exact hkept hold
        · exact Or.inr ⟨file,
            Or.inl (.buildInvertedIndexProgress hnow hfile),
            Indexer.doc_stored .buildProgress enableContentParse file entry⟩
  | deleteFileAndIndex path dir wenv hits =>
      simp only [backendStep] at hstep
      split at hstep
      next => simp at hstep
      next =>
        rw [← Option.some.inj hstep]
        have hleft : (if (wenv.remove b.disk path).isSome = true then
            b.damaged hits else b).Sourced env init past := by
          split
          · exact hsourced.damaged hits
          · exact hsourced
        refine (hleft.changeDisk _).put fun doc hdoc => ?_
        exact (hleft.docs dir doc
          (Backend.mem_getD_index (mem_deleteFileAndIndex hdoc))).mono
            (List.Subset.refl _) _
  | changeDisk disk hits =>
      rw [← Option.some.inj hstep]
      exact ((hsourced.damaged hits).later _).changeDisk disk

theorem Backend.sourced_exec
    {final : Backend} {actions : List BackendAction}
    (hruns : init.sys.runs = [])
    (hexec : ActionSystem.exec (backendStep env) init actions = some final) :
    final.Sourced env init actions := by
  have hinit : init.Sourced env init [] :=
    ⟨Sys.coherent_of_no_runs env hruns, fun _ _ hdoc => Or.inl hdoc,
      by simp [hruns]⟩
  have hstep (past : List BackendAction) (b : Backend)
      (action : BackendAction) (next : Backend)
      (hsourced : b.Sourced env init past)
      (hnext : backendStep env b action = some next) :
      next.Sourced env init (past ++ [action]) :=
    hsourced.step hnext
  have hfinal := ActionSystem.exec_invariant_history hstep hinit hexec
  rw [List.nil_append] at hfinal
  exact hfinal

/-! ## What an answer says -/

/-- The answer carries the record of a file. -/
structure SearchResult.Shows {Score : Type} (result : SearchResult Score)
    (doc : Doc) : Prop where
  path : result.path = doc.path
  name : result.name = doc.name
  ext : result.ext = doc.ext
  size : result.size = some doc.size
  modifiedTs : result.modifiedTs = some doc.modifiedTs

theorem SearchResult.shows_of
    {Score : Type} {hit : Score × Doc} {doc : Doc}
    (hstored : hit.2.stored = doc.stored) :
    (SearchResult.of hit).Shows doc := by
  simp only [Doc.stored, Prod.mk.injEq] at hstored
  obtain ⟨hpath, hname, hext, hsize, hmodified⟩ := hstored
  exact ⟨hpath, hname, hext, congrArg some hsize, congrArg some hmodified⟩

theorem satisfies_of_stored
    {filters : Option SearchFilters} {doc other : Doc}
    (hsat : Satisfies filters doc) (hstored : doc.stored = other.stored) :
    Satisfies filters other := by
  simp only [Doc.stored, Prod.mk.injEq] at hstored
  obtain ⟨_, _, hext, hsize, _⟩ := hstored
  unfold Satisfies at hsat ⊢
  rw [← hext, ← hsize]
  exact hsat

theorem query_ok_cases
    {Score : Type} {engine : SearchEngine Score} {b : Backend}
    {missing : String} {req : QueryRequest}
    {results : List (SearchResult Score)}
    (hquery : query engine (b.openInDir missing) req = .ok results) :
    ∃ q, engine.parseQuery programSchema defaultFields req.query = .ok q ∧
      ∀ result ∈ results, ∃ hit : Score × Doc, result = SearchResult.of hit ∧
        hit.2 ∈ b.sys.docs req.indexDir ∧ engine.isMatch q hit.2 = true ∧
        Satisfies req.filters hit.2 := by
  cases hindex : b.index req.indexDir with
  | none => simp [query, Backend.openInDir, hindex] at hquery
  | some docs =>
      have hopen : b.openInDir missing req.indexDir =
          .ok ⟨programSchema, docs⟩ := by
        simp [Backend.openInDir, hindex]
      cases hparse : engine.parseQuery programSchema defaultFields req.query with
      | error e =>
          unfold query at hquery
          simp only [hopen, hparse] at hquery
          split at hquery <;> simp at hquery
      | ok q =>
          refine ⟨q, rfl, ?_⟩
          rw [query_program req hopen hparse, Except.ok.injEq] at hquery
          rw [← hquery]
          intro result hresult
          obtain ⟨hit, hhit, rfl⟩ := List.mem_map.mp hresult
          obtain ⟨htop, hsat⟩ := List.mem_filter.mp hhit
          have hmatch : hit.2 ∈ docs.filter (engine.isMatch q) :=
            (engine.ranked_perm q docs).mem_iff.mp
              (List.mem_map_of_mem (List.mem_of_mem_take htop))
          obtain ⟨hdoc, hmatch⟩ := List.mem_filter.mp hmatch
          refine ⟨hit, rfl, ?_, hmatch, by simpa using hsat⟩
          exact Backend.mem_getD_index (by rw [hindex]; exact hdoc)

/-- A file which a run has admitted is a regular file of its walk, within the
size limit and without any of its patterns. -/
theorem pipelineFile_eq_some
    {args : RunArgs} {item : WalkItem} {file : FileMeta}
    (hfile : pipelineFile env args item = some file) :
    ∃ md, item = some ⟨true, some file.path, some md⟩ ∧ file.size = md.len ∧
      md.len ≤ pipelineMaxBytes ∧
      ∀ pattern ∈ args.excludePatterns,
        strContains file.path pattern = false := by
  obtain ⟨⟨path, md⟩, hadmit, rfl⟩ := Option.map_eq_some_iff.mp hfile
  obtain ⟨hitem, hclean, hsmall⟩ := admitEntry_eq_some_iff.mp hadmit
  exact ⟨md, hitem, rfl, hsmall _ rfl, hclean⟩

/-- In every interleaving of the writers, whatever they do to the files of the
indexes, what a search answers is the record of a document of the first state,
of an entry of a list which was indexed into the directory, or of a regular file
in the walk of a run on the directory, which none of that run's patterns
excludes. -/
theorem query_provenance
    {final : Backend} {actions : List BackendAction}
    (hruns : init.sys.runs = [])
    (hexec : ActionSystem.exec (backendStep env) init actions = some final)
    {Score : Type} (engine : SearchEngine Score) (missing : String)
    (req : QueryRequest) {results : List (SearchResult Score)}
    (hquery : query engine (final.openInDir missing) req = .ok results) :
    ∀ result ∈ results, ∃ doc, result.Shows doc ∧ Satisfies req.filters doc ∧
      (doc ∈ init.sys.docs req.indexDir ∨
        (∃ file, Listed actions req.indexDir file ∧ doc = file.toDoc) ∨
        ∃ run ∈ final.started, run.1.indexDir = req.indexDir ∧
          ∃ md, some ⟨true, some doc.path, some md⟩ ∈ run.2 ∧
            doc.size = md.len ∧ md.len ≤ pipelineMaxBytes ∧
            ∀ pattern ∈ run.1.excludePatterns,
              strContains doc.path pattern = false) := by
  have hfinal := Backend.sourced_exec hruns hexec
  obtain ⟨q, _, hresults⟩ := query_ok_cases hquery
  intro result hresult
  obtain ⟨hit, rfl, hdoc, _, hsat⟩ := hresults result hresult
  rcases hfinal.docs _ _ hdoc with hold | ⟨file, hfile, hstored⟩
  · exact ⟨hit.2, SearchResult.shows_of rfl, hsat, Or.inl hold⟩
  · refine ⟨file.toDoc, SearchResult.shows_of hstored,
      satisfies_of_stored hsat hstored, Or.inr ?_⟩
    rcases hfile with hlisted | ⟨run, hrun, hdir, hadmitted⟩
    · exact Or.inl ⟨file, hlisted, rfl⟩
    · obtain ⟨item, hitem, hadmit⟩ := List.mem_filterMap.mp hadmitted
      obtain ⟨md, rfl, hrest⟩ := pipelineFile_eq_some hadmit
      exact Or.inr ⟨run, hrun, hdir, md, hitem, hrest⟩

/-- A run of the pipeline, the same file again as a list and its deletion: the
word of its name still has both records as answers. -/
theorem query_provenance_twice :
    ∃ final results,
      ActionSystem.exec (backendStep sampleEnv) emptyBackend storedTwice =
        some final ∧
      query wordEngine (final.openInDir "no index") ⟨"a", none, "idx"⟩ =
        .ok results ∧
      results.length = 2 ∧
      ∀ result ∈ results, ∃ doc, result.Shows doc ∧ Satisfies none doc ∧
        (doc ∈ emptyBackend.sys.docs "idx" ∨
          (∃ file, Listed storedTwice "idx" file ∧ doc = file.toDoc) ∨
          ∃ run ∈ final.started, run.1.indexDir = "idx" ∧
            ∃ md, some ⟨true, some doc.path, some md⟩ ∈ run.2 ∧
              doc.size = md.len ∧ md.len ≤ pipelineMaxBytes ∧
              ∀ pattern ∈ run.1.excludePatterns,
                strContains doc.path pattern = false) := by
  have hexec := (Option.some_get (x := ActionSystem.exec
    (backendStep sampleEnv) emptyBackend storedTwice)
    (by decide +kernel)).symm
  refine ⟨_, _, hexec, rfl, by decide +kernel, ?_⟩
  exact @query_provenance sampleEnv emptyBackend _ _ rfl hexec _ wordEngine
    "no index" ⟨"a", none, "idx"⟩ _ rfl

/-! ## A scanned file stays findable -/

theorem Backend.Sound.step_opened
    {b next : Backend} {action : BackendAction} {dir : String}
    (hsound : b.Sound env) (hharmless : Harmless b action)
    (hopened : b.opened dir = true)
    (hstep : backendStep env b action = some next) :
    next.opened dir = true := by
  cases action with
  | sys action =>
      obtain ⟨sys, _, rfl⟩ := Option.map_eq_some_iff.mp hstep
      exact Backend.openedAfter_of_opened hopened action
  | build _ _ _ _ =>
      simp only [backendStep] at hstep
      split at hstep
      next => simp at hstep
      next => exact Option.some.inj hstep ▸ b.opened_put _ _ hopened
  | buildInvertedIndexProgress _ _ _ _ =>
      simp only [backendStep] at hstep
      split at hstep
      next => simp at hstep
      next => exact Option.some.inj hstep ▸ b.opened_put _ _ hopened
  | deleteFileAndIndex _ _ _ hits =>
      simp only [backendStep, hsound.stray.damaged_eq hharmless.2, ite_self]
        at hstep
      split at hstep
      next => simp at hstep
      next =>
        rw [← Option.some.inj hstep]
        exact Backend.opened_put _ _ _ hopened
  | changeDisk _ hits =>
      simp only [backendStep, hsound.stray.damaged_eq hharmless] at hstep
      rw [← Option.some.inj hstep]
      exact hopened

/-- An index stays while its files are left alone. -/
theorem Backend.Sound.opened_of_exec
    {b final : Backend} {actions : List BackendAction} {dir : String}
    (hsound : b.Sound env) (hopened : b.opened dir = true)
    (hguard : ActionSystem.Guarded (backendStep env) Harmless b actions)
    (hexec : ActionSystem.exec (backendStep env) b actions = some final) :
    final.opened dir = true := by
  have hkeeps (b : Backend) (action : BackendAction) (next : Backend)
      (hstate : b.Sound env ∧ b.opened dir = true)
      (hharmless : Harmless b action)
      (hstep : backendStep env b action = some next) :
      next.Sound env ∧ next.opened dir = true :=
    ⟨(hstate.1.step hharmless hstep).1,
      hstate.1.step_opened hharmless hstate.2 hstep⟩
  have hfinal := ActionSystem.exec_invariant_of_guarded hkeeps
    ⟨hsound, hopened⟩ hguard hexec
  exact hfinal.2

/-- A list which was indexed without an error is in the directory, and the
directory has an index. -/
theorem Backend.Sound.docs_of_list
    {b next : Backend} (hsound : b.Sound env) {dir : String} {benv : BatchEnv}
    {enableContentParse : Bool} {files : List FileMeta}
    (hsep : ∀ file ∈ files, HasSeparator file.path)
    (hok : (buildInvertedIndexProgress env.tables benv enableContentParse files
      (b.index dir)).result = .ok ())
    (hstep : backendStep env b (.buildInvertedIndexProgress dir benv
      enableContentParse files) = some next) :
    next.opened dir = true ∧
      ∀ file ∈ files, ∃ entry,
        progressDoc enableContentParse file entry ∈ next.sys.docs dir := by
  refine ⟨?_, ?_⟩
  · simp only [backendStep] at hstep
    split at hstep
    next => simp at hstep
    next =>
      rw [← Option.some.inj hstep, buildInvertedIndexProgress_ok hok]
      simp [Backend.put]
  · intro file hfile
    rw [hsound.stray.docs_of_progress hsep hstep hok]
    obtain ⟨i, hi, rfl⟩ := List.mem_iff_getElem.mp hfile
    refine ⟨benv.disk i files[i].path, List.mem_append_right _ ?_⟩
    refine List.mem_map.mpr ⟨(files[i], i), ?_, rfl⟩
    exact List.mk_mem_zipIdx_iff_getElem?.mpr (List.getElem?_eq_getElem hi)

/-- The scan returns every regular file of its walk which no pattern excludes
and which is within the limit. -/
theorem exists_scanned
    {senv : ScanEnv} {opts : ScanOptions} {disk : Disk} {limit : Option ℕ}
    {files : List FileMeta} {events : List ScanEvent}
    (hlimit : maxBytes senv.overflowChecks opts.maxFileSizeMb = .ok limit)
    (hscan : scanPathsProgress senv opts disk = .ok (files, events))
    {path : String} {md : Metadata}
    (hwalk : some ⟨true, some path, some md⟩ ∈ walkRoots senv opts disk)
    (hclean : ∀ pattern ∈ opts.excludePatterns,
      strContains path pattern = false)
    (hsmall : ∀ bytes ∈ limit, md.len ≤ bytes) :
    ∃ file ∈ files,
      file.entry = entryOf senv.tables senv.platform (path, md) := by
  have hadmit : admitEntry opts.excludePatterns limit
      (some ⟨true, some path, some md⟩) = some (path, md) :=
    admitEntry_eq_some_iff.mpr ⟨rfl, hclean, hsmall⟩
  have hmem : entryOf senv.tables senv.platform (path, md) ∈
      files.map FileMeta.entry := by
    rw [scanPathsProgress_entries hlimit hscan]
    exact List.mem_map_of_mem (List.mem_filterMap.mpr ⟨_, hwalk, hadmit⟩)
  exact List.mem_map.mp hmem

/-- Once a list is indexed its documents stay, under every continuation which
leaves the files of the indexes alone. -/
theorem listed_docs_stay
    {mid final : Backend} {before after : List BackendAction} {dir : String}
    {benv : BatchEnv} {enableContentParse : Bool} {files : List FileMeta}
    (hruns : init.sys.runs = []) (hstray : init.NoStray)
    (hguard : ActionSystem.Guarded (backendStep env) Harmless init
      (before ++ .buildInvertedIndexProgress dir benv enableContentParse files
        :: after))
    (hbefore : ActionSystem.exec (backendStep env) init before = some mid)
    (hok : (buildInvertedIndexProgress env.tables benv enableContentParse files
      (mid.index dir)).result = .ok ())
    (hafter : ActionSystem.exec (backendStep env) mid
      (.buildInvertedIndexProgress dir benv enableContentParse files :: after) =
        some final) :
    final.index dir = some (final.sys.docs dir) ∧
      ∀ file ∈ files, ∃ entry,
        progressDoc enableContentParse file entry ∈ final.sys.docs dir := by
  have hmid : init.Grown env mid :=
    (Backend.sound_of_no_runs hruns hstray).grown_of_exec
      hguard.of_append_left hbefore
  have hrest := hguard.of_append hbefore
  obtain ⟨next, hstep, hlater⟩ := ActionSystem.exec_cons_eq_some_iff.mp hafter
  have hsound := (hmid.1.step hrest.1 hstep).1
  obtain ⟨hopened, hdocs⟩ := hmid.1.docs_of_list hrest.1 hok hstep
  have hfinal : next.Grown env final :=
    hsound.grown_of_exec (hrest.2 next hstep) hlater
  have hopen : final.opened dir = true :=
    hsound.opened_of_exec hopened (hrest.2 next hstep) hlater
  refine ⟨by simp [Backend.index, hopen], fun file hfile => ?_⟩
  obtain ⟨entry, hentry⟩ := hdocs file hfile
  exact ⟨entry, (hfinal.2 dir).subset hentry⟩

/-- A file of the disk which the scan lists, indexed from that list, is an
answer to its name after every continuation: whatever other indexers, runs,
deletions and changes of the disk come before and after, as long as the paths
deleted by have a separator and the files of the indexes are left alone. -/
theorem query_indexed_name
    {mid final : Backend} {before after : List BackendAction} {dir : String}
    {benv : BatchEnv} {enableContentParse : Bool} {files : List FileMeta}
    (hruns : init.sys.runs = []) (hstray : init.NoStray)
    (hguard : ActionSystem.Guarded (backendStep env) Harmless init
      (before ++ .buildInvertedIndexProgress dir benv enableContentParse files
        :: after))
    (hbefore : ActionSystem.exec (backendStep env) init before = some mid)
    (hok : (buildInvertedIndexProgress env.tables benv enableContentParse files
      (mid.index dir)).result = .ok ())
    (hafter : ActionSystem.exec (backendStep env) mid
      (.buildInvertedIndexProgress dir benv enableContentParse files :: after) =
        some final)
    {senv : ScanEnv} {opts : ScanOptions} {disk : Disk} {limit : Option ℕ}
    {events : List ScanEvent}
    (hlimit : maxBytes senv.overflowChecks opts.maxFileSizeMb = .ok limit)
    (hscan : scanPathsProgress senv opts disk = .ok (files, events))
    {path name : String} {md : Metadata}
    (hwalk : some ⟨true, some path, some md⟩ ∈ walkRoots senv opts disk)
    (hclean : ∀ pattern ∈ opts.excludePatterns,
      strContains path pattern = false)
    (hsmall : ∀ bytes ∈ limit, md.len ≤ bytes)
    (hname : senv.platform.fileName path = some name)
    {Score : Type} {engine : SearchEngine Score}
    (words : WordQueries engine env.tables) (missing : String)
    (hplain : PlainName name) (hword : name ∉ words.operators) {token : String}
    (htoken : env.tables.defaultTokens name = [token])
    (hfew : ((final.sys.docs dir).filter (engine.isMatch
      (words.termQuery defaultFields token))).length ≤ 50) :
    ∃ results,
      query engine (final.openInDir missing) ⟨name, none, dir⟩ = .ok results ∧
      ∃ result ∈ results, result.path = path ∧ result.name = name ∧
        result.ext = senv.tables.strToLowercase
          ((senv.platform.extension path).getD "") ∧
        result.size = some md.len := by
  obtain ⟨hindex, hdocs⟩ :=
    listed_docs_stay hruns hstray hguard hbefore hok hafter
  obtain ⟨file, hfile, hentry⟩ :=
    exists_scanned hlimit hscan hwalk hclean hsmall
  obtain ⟨entry, hdoc⟩ := hdocs file hfile
  have hstored :=
    Indexer.doc_stored .buildProgress enableContentParse file entry
  simp only [FileMeta.entry, entryOf, fileMetaOf, hname, Option.getD_some,
    Prod.mk.injEq] at hentry
  obtain ⟨hpath, hfileName, hext, hsize⟩ := hentry
  have hopen : final.openInDir missing dir =
      .ok ⟨programSchema, final.sys.docs dir⟩ := by
    simp [Backend.openInDir, hindex]
  have hparse := words.parse_token programSchema defaultFields name token
    hplain hword htoken
  have hmatch : engine.isMatch (words.termQuery defaultFields token)
      (progressDoc enableContentParse file entry) = true := by
    have hdocName : (progressDoc enableContentParse file entry).name = name :=
      (congrArg (fun stored => stored.2.1) hstored).trans hfileName
    rw [words.match_term]
    exact ⟨"name", by decide, by simp [Doc.fieldTokens, hdocName, htoken]⟩
  obtain ⟨results, hquery, score, hresult⟩ :=
    mem_results_of_isMatch hopen hparse hdoc hmatch hfew
  have hshows := @SearchResult.shows_of _
    (score, progressDoc enableContentParse file entry) _ hstored
  refine ⟨results, hquery, _, hresult, ?_⟩
  exact ⟨hshows.path.trans hpath, hshows.name.trans hfileName,
    hshows.ext.trans hext, hshows.size.trans (congrArg some hsize)⟩

def readmeScan : ScanEnv :=
  { oneFileScan false none with
    walkDir := listedWalkDir [("/d/README", ⟨1, none⟩)] (by decide) }

def readmeList : BackendAction :=
  .buildInvertedIndexProgress "idx" quietEnv false
    [⟨"/d/README", "README", "", 1, 0⟩]

def readmeRemoved : BackendAction :=
  .deleteFileAndIndex "/d/README" "idx" ⟨true, 15000000, false, true, "", "", ""⟩ []

/-- The file is still found after it was deleted through the program. -/
theorem query_indexed_name_readme :
    ∃ final results,
      ActionSystem.exec (backendStep sampleEnv)
          { emptyBackend with disk := oneFileDisk }
          [readmeList, readmeRemoved] = some final ∧
      final.disk "/d/README" = .absent ∧
      query wordEngine (final.openInDir "no index") ⟨"README", none, "idx"⟩ =
        .ok results ∧
      ∃ result ∈ results, result.path = "/d/README" ∧
        result.name = "README" ∧ result.ext = "" ∧ result.size = some 1 := by
  have hexec := (Option.some_get (x := ActionSystem.exec
    (backendStep sampleEnv) { emptyBackend with disk := oneFileDisk }
    [readmeList, readmeRemoved]) (by decide +kernel)).symm
  have hscan : scanPathsProgress readmeScan ⟨["/d"], [], none, false⟩
      oneFileDisk = .ok ([⟨"/d/README", "README", "", 1, 0⟩],
        [.progress 1 "/d/README" "README", .done 1]) := by
    rfl
  obtain ⟨results, hquery, hfound⟩ := @query_indexed_name sampleEnv
    { emptyBackend with disk := oneFileDisk } _ _ [] [readmeRemoved] "idx"
    quietEnv false _ rfl (fun _ _ => rfl) (by decide +kernel) rfl rfl hexec
    readmeScan _ _ none _ rfl hscan "/d/README" "README" ⟨1, none⟩
    (by decide) (by simp) (by simp) (by decide) _ wordEngine wordQueries
    "no index" (by decide) (by decide) "readme" (by decide) (by decide +kernel)
  exact ⟨_, results, hexec, by decide +kernel, hquery, hfound⟩

end SearchEvery
