import SearchEvery.PipelineDocs
import Mathlib.Tactic

/-!
# No update of a pipeline run is lost

The number ledger holds in every run: the numbers handed out by the shared
counter are those already reported together with those still held by a
worker.  The document ledger needs successful calls and paths with a
separator, for which `delete_term` deletes nothing: the committed documents
are the old ones together with one for every worker past its commit, and the
writer is ahead of them by the document of the worker inside the critical
section.
-/

namespace SearchEvery

def Worker.isCounted (worker : Worker) : Bool :=
  match worker.phase with
  | .counted | .emitted | .finished => true
  | _ => false

def Worker.publishedDoc (worker : Worker) : Option Doc :=
  if worker.stage = .published then worker.doc else none

def Worker.stagedDoc (worker : Worker) : Option Doc :=
  if worker.stage = .staged then worker.doc else none

def Worker.heldNumber (worker : Worker) : Option ℕ :=
  if worker.phase = .counted then some (worker.number.getD 0) else none

def PipelineEvent.indexNumber : PipelineEvent → Option ℕ
  | .indexProgress current _ _ => some current
  | _ => none

def RunAction.succeeds : RunAction → Bool
  | .lock _ ok => ok
  | .addDocument _ ok => ok
  | .commit _ ok => ok
  | _ => true

variable {env : PipelineEnv} {args : RunArgs} {items : List WalkItem}

/-! ## The numbers -/

structure RunState.NumberLedger (s : RunState) : Prop where
  numbers :
    (s.events.filterMap PipelineEvent.indexNumber ++
      s.workers.filterMap Worker.heldNumber).Perm (List.range' 1 s.counter)
  counter : s.counter = s.workers.countP Worker.isCounted

theorem RunState.start_numberLedger
    (docs : List Doc) (locked : Bool) (stateFile : StateFile) :
    (RunState.start docs locked stateFile).NumberLedger := by
  constructor <;> simp [RunState.start, RunFrame.initial]

theorem RunState.NumberLedger.of_same
    {s next : RunState} (hledger : s.NumberLedger)
    (hcounter : next.counter = s.counter)
    (hevents : next.events.filterMap PipelineEvent.indexNumber =
      s.events.filterMap PipelineEvent.indexNumber)
    (hheld : next.workers.filterMap Worker.heldNumber =
      s.workers.filterMap Worker.heldNumber)
    (hcounted : next.workers.countP Worker.isCounted =
      s.workers.countP Worker.isCounted) :
    next.NumberLedger where
  numbers := by
    rw [hcounter, hevents, hheld]
    exact hledger.numbers
  counter := by
    rw [hcounter, hcounted]
    exact hledger.counter

theorem RunState.NumberLedger.of_worker
    {s next : RunState} (hledger : s.NumberLedger)
    {i : ℕ} {old new : Worker} (hrow : s.workers[i]? = some old)
    (hworkers : next.workers = s.workers.set i new)
    (hcounter : next.counter = s.counter) (hevents : next.events = s.events)
    (hheld : new.heldNumber = old.heldNumber)
    (hcounted : new.isCounted = old.isCounted) :
    next.NumberLedger := by
  refine hledger.of_same hcounter (by rw [hevents]) ?_ ?_
  · rw [hworkers, TableUpdate.filterMap_set_of_eq hrow hheld]
  · rw [hworkers, TableUpdate.countP_set_of_eq hrow hcounted]

theorem Worker.heldNumber_of_not_isCounted
    {worker : Worker} (hcounted : worker.isCounted = false) :
    worker.heldNumber = none := by
  unfold Worker.heldNumber
  rw [if_neg]
  intro hphase
  simp [Worker.isCounted, hphase] at hcounted

theorem RunState.NumberLedger.of_uncounted
    {s next : RunState} (hledger : s.NumberLedger)
    {i : ℕ} {old new : Worker} (hrow : s.workers[i]? = some old)
    (hworkers : next.workers = s.workers.set i new)
    (hcounter : next.counter = s.counter) (hevents : next.events = s.events)
    (hold : old.isCounted = false) (hnew : new.isCounted = false) :
    next.NumberLedger := by
  apply hledger.of_worker hrow hworkers hcounter hevents
  · rw [Worker.heldNumber_of_not_isCounted hnew,
      Worker.heldNumber_of_not_isCounted hold]
  · rw [hnew, hold]

theorem RunState.NumberLedger.fetchAdd
    {s : RunState} (hledger : s.NumberLedger) {i : ℕ} {worker : Worker}
    (hrow : s.workers[i]? = some worker) (hphase : worker.phase = .unlocked) :
    ({ s.setWorker i { worker with
        phase := .counted
        number := some (s.counter + 1) } with
      counter := s.counter + 1 } : RunState).NumberLedger where
  numbers := by
    have hheld := TableUpdate.filterMap_set_add Worker.heldNumber
      { worker with
        phase := .counted
        number := some (s.counter + 1) }
      hrow (by simp [Worker.heldNumber, hphase]) rfl
    have hnumbers := hledger.numbers.append_right [s.counter + 1]
    rw [List.range'_1_concat, Nat.add_comm 1 s.counter]
    refine (hheld.append_left _).trans ?_
    rw [← List.append_assoc]
    exact hnumbers
  counter := by
    have hcount := TableUpdate.countP_set_add Worker.isCounted
      { worker with
        phase := .counted
        number := some (s.counter + 1) }
      hrow (by simp [Worker.isCounted, hphase]) rfl
    simp only [RunState.setWorker]
    rw [hcount, hledger.counter]

theorem RunState.NumberLedger.emitProgress
    {s : RunState} (hledger : s.NumberLedger) {i : ℕ} {worker : Worker}
    (hrow : s.workers[i]? = some worker) (hphase : worker.phase = .counted) :
    ({ s.setWorker i { worker with phase := .emitted } with
      events := s.events ++
        [.indexProgress (worker.number.getD 0) worker.file.fileName
          worker.file.path] } : RunState).NumberLedger where
  numbers := by
    have hheld := TableUpdate.filterMap_set_drop Worker.heldNumber
      { worker with phase := .emitted }
      hrow (by simp only [Worker.heldNumber, hphase, if_true]; rfl) rfl
    refine List.Perm.trans ?_ hledger.numbers
    simp only [RunState.setWorker, List.filterMap_append,
      List.filterMap_cons, PipelineEvent.indexNumber, List.filterMap_nil,
      List.append_assoc]
    exact ((hheld.trans List.perm_append_comm).symm).append_left _
  counter := by
    simp only [RunState.setWorker]
    rw [TableUpdate.countP_set_of_eq hrow
      (by simp [Worker.isCounted, hphase])]
    exact hledger.counter

theorem RunState.NumberLedger.step
    {s next : RunState} {action : RunAction} (hledger : s.NumberLedger)
    (hstep : runStep env args items s action = some next) :
    next.NumberLedger := by
  cases runStep_spec hstep with
  | setup _ _ _ => exact hledger.of_same rfl rfl rfl rfl
  | openWriter _ _ => exact hledger.of_same rfl rfl rfl rfl
  | markStarted _ => exact hledger.of_same rfl rfl rfl rfl
  | skip _ _ => exact hledger.of_same rfl rfl rfl rfl
  | spawn _ _ =>
      refine hledger.of_same rfl ?_ ?_ ?_
      · simp [PipelineEvent.indexNumber]
      · simp [Worker.heldNumber, Worker.spawn]
      · simp [Worker.isCounted, Worker.spawn]
  | emitScanDone _ =>
      refine hledger.of_same rfl ?_ rfl rfl
      simp [PipelineEvent.indexNumber]
  | markCompleted _ => exact hledger.of_same rfl rfl rfl rfl
  | emitIndexDone _ =>
      refine hledger.of_same rfl ?_ rfl rfl
      simp [PipelineEvent.indexNumber]
  | returnOk _ => exact hledger.of_same rfl rfl rfl rfl
  | buildDoc hrow hphase =>
      exact hledger.of_uncounted hrow rfl rfl rfl
        (by simp [Worker.isCounted, hphase]) rfl
  | lock hrow hphase _ =>
      exact hledger.of_uncounted hrow rfl rfl rfl
        (by simp [Worker.isCounted, hphase]) rfl
  | lockFailed hrow hphase =>
      exact hledger.of_uncounted hrow rfl rfl rfl
        (by simp [Worker.isCounted, hphase]) rfl
  | deleteTerm hrow hphase =>
      exact hledger.of_uncounted hrow rfl rfl rfl
        (by simp [Worker.isCounted, hphase]) rfl
  | addDocument hrow hphase =>
      exact hledger.of_uncounted hrow rfl rfl rfl
        (by simp [Worker.isCounted, hphase]) rfl
  | commit hrow hphase =>
      exact hledger.of_uncounted hrow rfl rfl rfl
        (by simp [Worker.isCounted, hphase]) rfl
  | unlock hrow hphase =>
      exact hledger.of_uncounted hrow rfl rfl rfl
        (by simp [Worker.isCounted, hphase]) rfl
  | fetchAdd hrow hphase => exact hledger.fetchAdd hrow hphase
  | emitProgress hrow hphase => exact hledger.emitProgress hrow hphase
  | finish hrow hphase =>
      refine hledger.of_worker hrow rfl rfl rfl ?_ ?_
      · simp [Worker.heldNumber, hphase]
      · simp [Worker.isCounted, hphase]

theorem RunState.NumberLedger.exec
    {s final : RunState} {actions : List RunAction} (hledger : s.NumberLedger)
    (hexec : ActionSystem.exec (runStep env args items) s actions =
      some final) :
    final.NumberLedger :=
  ActionSystem.exec_invariant
    (fun _ _ _ hinv hstep => RunState.NumberLedger.step hinv hstep) hledger hexec

/-! ## The documents -/

structure RunState.DocLedger (old : List Doc) (s : RunState) : Prop where
  docs : s.docs.Perm (old ++ s.workers.filterMap Worker.publishedDoc)
  pending :
    s.task.hasOpened = true →
      s.pending.Perm (s.docs ++ s.workers.filterMap Worker.stagedDoc)

variable {old : List Doc}

theorem RunState.start_docLedger
    (old : List Doc) (locked : Bool) (stateFile : StateFile) :
    (RunState.start old locked stateFile).DocLedger old := by
  constructor <;>
    simp [RunState.start, RunFrame.initial, TaskPhase.hasOpened]

theorem Worker.publishedDoc_congr
    {worker moved : Worker} (hstage : moved.stage = worker.stage)
    (hdoc : worker.stage ≠ .waiting → moved.doc = worker.doc) :
    moved.publishedDoc = worker.publishedDoc := by
  unfold Worker.publishedDoc
  rw [hstage]
  split
  next hpublished => exact hdoc (by simp [hpublished])
  next => rfl

theorem Worker.stagedDoc_congr
    {worker moved : Worker} (hstage : moved.stage = worker.stage)
    (hdoc : worker.stage ≠ .waiting → moved.doc = worker.doc) :
    moved.stagedDoc = worker.stagedDoc := by
  unfold Worker.stagedDoc
  rw [hstage]
  split
  next hstaged => exact hdoc (by simp [hstaged])
  next => rfl

theorem RunState.DocLedger.of_same
    {s next : RunState} (hledger : s.DocLedger old)
    (hdocs : next.docs = s.docs) (hpending : next.pending = s.pending)
    (hpublished : next.workers.filterMap Worker.publishedDoc =
      s.workers.filterMap Worker.publishedDoc)
    (hstaged : next.workers.filterMap Worker.stagedDoc =
      s.workers.filterMap Worker.stagedDoc)
    (hopened : next.task.hasOpened = true → s.task.hasOpened = true) :
    next.DocLedger old where
  docs := by
    rw [hdocs, hpublished]
    exact hledger.docs
  pending := by
    intro hnext
    rw [hpending, hdocs, hstaged]
    exact hledger.pending (hopened hnext)

theorem RunState.Coherent.staged_set_eq_nil
    {s : RunState} (hgood : s.Coherent env args items)
    {i : ℕ} {worker : Worker} (hrow : s.workers[i]? = some worker)
    (hcritical : worker.phase.isCritical = true) {moved : Worker}
    (hmoved : moved.stagedDoc = none) :
    (s.workers.set i moved).filterMap Worker.stagedDoc = [] := by
  rw [List.filterMap_eq_nil_iff]
  intro other hmem
  obtain ⟨j, hget⟩ := List.mem_iff_getElem?.mp hmem
  rcases TableUpdate.getElem?_set_cases hget with ⟨_, rfl⟩ | ⟨hne, hother⟩
  · exact hmoved
  · unfold Worker.stagedDoc
    rw [if_neg]
    intro hstaged
    exact hne (hgood.row_unique hrow hcritical hother (Or.inr hstaged)).1

theorem RunState.DocLedger.addDocument
    {s next : RunState} (hgood : s.Coherent env args items)
    (hledger : s.DocLedger old) {i : ℕ} {worker : Worker}
    (hrow : s.workers[i]? = some worker) (hphase : worker.phase = .deleted)
    (hworkers : next.workers =
      s.workers.set i { worker with phase := .added })
    (hdocs : next.docs = s.docs)
    (hpending : next.pending = s.pending ++ worker.doc.toList) :
    next.DocLedger old := by
  obtain ⟨doc, hdoc, _⟩ :=
    hgood.doc_stored (List.mem_of_getElem? hrow) (by simp [hphase])
  constructor
  · rw [hworkers, hdocs, TableUpdate.filterMap_set_of_eq hrow]
    · exact hledger.docs
    · simp [Worker.publishedDoc, Worker.stage, hphase, WorkerPhase.docStage]
  · intro _
    have hstaged := TableUpdate.filterMap_set_add Worker.stagedDoc
      { worker with phase := .added } hrow
      (by simp [Worker.stagedDoc, Worker.stage, hphase, WorkerPhase.docStage])
      hdoc
    have hbefore := hledger.pending (hgood.hasOpened_of_row hrow)
    rw [hworkers, hdocs, hpending, hdoc, Option.toList_some]
    refine (hbefore.append_right [doc]).trans ?_
    rw [List.append_assoc]
    exact hdoc ▸ hstaged.symm.append_left _

theorem RunState.DocLedger.commit
    {s next : RunState} (hgood : s.Coherent env args items)
    (hledger : s.DocLedger old) {i : ℕ} {worker : Worker}
    (hrow : s.workers[i]? = some worker) (hphase : worker.phase = .added)
    (hworkers : next.workers =
      s.workers.set i { worker with phase := .committed })
    (hdocs : next.docs = s.pending) (hpending : next.pending = s.pending) :
    next.DocLedger old := by
  obtain ⟨doc, hdoc, _⟩ :=
    hgood.doc_stored (List.mem_of_getElem? hrow) (by simp [hphase])
  have hgone :
      Worker.stagedDoc { worker with phase := .committed } = none := by
    simp [Worker.stagedDoc, Worker.stage, WorkerPhase.docStage]
  have hnil := hgood.staged_set_eq_nil hrow
    (by simp [hphase, WorkerPhase.isCritical]) hgone
  have hpublished := TableUpdate.filterMap_set_add Worker.publishedDoc
    { worker with phase := .committed } hrow
    (by simp [Worker.publishedDoc, Worker.stage, hphase, WorkerPhase.docStage])
    hdoc
  have hstaged := TableUpdate.filterMap_set_drop Worker.stagedDoc
    { worker with phase := .committed } hrow
    (by simpa [Worker.stagedDoc, Worker.stage, hphase, WorkerPhase.docStage]
      using hdoc) hgone
  rw [hnil, List.nil_append] at hstaged
  constructor
  · rw [hworkers, hdocs]
    calc
      s.pending.Perm (s.docs ++ s.workers.filterMap Worker.stagedDoc) :=
        hledger.pending (hgood.hasOpened_of_row hrow)
      _ |>.Perm (s.docs ++ [doc]) := hstaged.append_left _
      _ |>.Perm (old ++ s.workers.filterMap Worker.publishedDoc ++ [doc]) :=
        hledger.docs.append_right _
      _ |>.Perm (old ++ (s.workers.set i
          { worker with phase := .committed }).filterMap
            Worker.publishedDoc) := by
        rw [List.append_assoc]
        exact hpublished.symm.append_left _
  · intro _
    rw [hworkers, hpending, hdocs, hnil, List.append_nil]

/-- A successful step of a run over paths with a separator keeps the
ledger. -/
theorem RunState.DocLedger.step
    {s next : RunState} {action : RunAction}
    (hsep : ∀ file ∈ items.filterMap (pipelineFile env args),
      HasSeparator file.path)
    (hgood : s.Coherent env args items) (hledger : s.DocLedger old)
    (hsucceeds : action.succeeds = true)
    (hstep : runStep env args items s action = some next) :
    next.DocLedger old := by
  cases runStep_docStep hgood hstep with
  | task hworkers hdocs hpending hopened =>
      exact hledger.of_same hdocs hpending (by rw [hworkers]) (by rw [hworkers])
        hopened
  | openWriter hnil hworkers hdocs hpending =>
      constructor
      · rw [hworkers, hdocs, ← hnil]
        exact hledger.docs
      · simp [hworkers, hdocs, hpending]
  | spawn hworkers hdocs hpending hopened =>
      refine hledger.of_same hdocs hpending ?_ ?_ (fun _ => hopened)
      · simp [hworkers, Worker.publishedDoc, Worker.stage, Worker.spawn,
          WorkerPhase.docStage]
      · simp [hworkers, Worker.stagedDoc, Worker.stage, Worker.spawn,
          WorkerPhase.docStage]
  | quiet hrow hworkers hdocs hpending _ hstage hdoc =>
      refine hledger.of_same hdocs hpending ?_ ?_
        (fun _ => hgood.hasOpened_of_row hrow)
      · rw [hworkers, TableUpdate.filterMap_set_of_eq hrow
          (Worker.publishedDoc_congr hstage hdoc)]
      · rw [hworkers, TableUpdate.filterMap_set_of_eq hrow
          (Worker.stagedDoc_congr hstage hdoc)]
  | giveUp _ _ _ _ _ => simp [RunAction.succeeds] at hsucceeds
  | @deleteTerm _ i worker hrow hphase hworkers hdocs hpending =>
      have hfile := hgood.file_mem (List.mem_of_getElem? hrow)
      refine hledger.of_same hdocs ?_ ?_ ?_
        (fun _ => hgood.hasOpened_of_row hrow)
      · rw [hpending, deleteTerm_of_hasSeparator (hsep worker.file hfile)]
      · rw [hworkers, TableUpdate.filterMap_set_of_eq hrow]
        simp [Worker.publishedDoc, Worker.stage, hphase, WorkerPhase.docStage]
      · rw [hworkers, TableUpdate.filterMap_set_of_eq hrow]
        simp [Worker.stagedDoc, Worker.stage, hphase, WorkerPhase.docStage]
  | addDocument hrow hphase hworkers hdocs hpending =>
      simp only [RunAction.succeeds] at hsucceeds
      rw [if_pos hsucceeds] at hpending
      exact RunState.DocLedger.addDocument hgood hledger hrow hphase hworkers
        hdocs hpending
  | commit hrow hphase hworkers hdocs hpending =>
      simp only [RunAction.succeeds] at hsucceeds
      rw [if_pos hsucceeds] at hdocs
      exact RunState.DocLedger.commit hgood hledger hrow hphase hworkers hdocs
        hpending

theorem RunState.DocLedger.exec
    {s final : RunState} {actions : List RunAction}
    (hsep : ∀ file ∈ items.filterMap (pipelineFile env args),
      HasSeparator file.path)
    (hgood : s.Coherent env args items) (hledger : s.DocLedger old)
    (hsucceeds : ∀ action ∈ actions, action.succeeds = true)
    (hexec : ActionSystem.exec (runStep env args items) s actions =
      some final) :
    final.DocLedger old :=
  RunState.Coherent.exec_over
    (fun _ _ _ hbooks hinv hok hstep =>
      RunState.DocLedger.step hsep hbooks hinv hok hstep)
    hgood hledger (ActionSystem.guarded_of_forall hsucceeds) hexec

/-! ## A finished run -/

def storedOf (env : PipelineEnv) (found : String × Metadata) :
    String × String × String × ℕ × ℤ :=
  (found.1, (env.platform.fileName found.1).getD "",
    env.tables.strToLowercase ((env.platform.extension found.1).getD ""),
    found.2.len, pipelineModifiedTs found.2.modified)

theorem pipelineFile_stored
    (items : List WalkItem) :
    (items.filterMap (pipelineFile env args)).map (fun file => file.toDoc.stored) =
      (items.filterMap (admitEntry args.excludePatterns
        (some pipelineMaxBytes))).map (storedOf env) := by
  unfold pipelineFile
  rw [← List.map_filterMap, List.map_map]
  rfl

theorem RunState.Coherent.published_stored
    {s : RunState} (hgood : s.Coherent env args items)
    (hpublished : ∀ worker ∈ s.workers, worker.stage = .published) :
    (s.workers.filterMap Worker.publishedDoc).map Doc.stored =
      s.workers.map fun worker => worker.file.toDoc.stored := by
  rw [List.map_filterMap, ← List.filterMap_eq_map]
  apply List.filterMap_congr
  intro worker hmem
  have hstage := hpublished worker hmem
  obtain ⟨doc, hdoc, hstored⟩ := hgood.doc_stored hmem (by
    intro hqueued
    simp [Worker.stage, hqueued, WorkerPhase.docStage] at hstage)
  simp [Worker.publishedDoc, hstage, hdoc, hstored]

theorem RunState.NumberLedger.numbers_of_finished
    {s : RunState} (hledger : s.NumberLedger)
    (hfinished : ∀ worker ∈ s.workers, worker.phase = .finished) :
    (s.events.filterMap PipelineEvent.indexNumber).Perm
      (List.range' 1 s.workers.length) := by
  have hheld : s.workers.filterMap Worker.heldNumber = [] := by
    rw [List.filterMap_eq_nil_iff]
    intro worker hmem
    simp [Worker.heldNumber, hfinished worker hmem]
  have hcounted : s.workers.countP Worker.isCounted = s.workers.length := by
    rw [List.countP_eq_length]
    intro worker hmem
    simp [Worker.isCounted, hfinished worker hmem]
  have hnumbers := hledger.numbers
  rwa [hheld, List.append_nil, hledger.counter, hcounted] at hnumbers

/-- A run with successful calls loses nothing: the old documents stay, one
document is added for every admitted entry, and the progress events carry the
numbers from one to the number of scanned files. -/
theorem run_no_lost_update
    {locked : Bool} {stateFile : StateFile} {actions : List RunAction}
    {final : RunState}
    (hsep : ∀ found ∈ items.filterMap (admitEntry args.excludePatterns
      (some pipelineMaxBytes)), HasSeparator found.1)
    (hexec : ActionSystem.exec (runStep env args items)
      (RunState.start old locked stateFile) actions = some final)
    (hsucceeds : ∀ action ∈ actions, action.succeeds = true)
    (hwalked : final.task.remaining items = [])
    (hfinished : ∀ worker ∈ final.workers, worker.phase = .finished) :
    ∃ added,
      final.docs.Perm (old ++ added) ∧
      added.map Doc.stored =
        (items.filterMap (admitEntry args.excludePatterns
          (some pipelineMaxBytes))).map (storedOf env) ∧
      (final.events.filterMap PipelineEvent.indexNumber).Perm
        (List.range' 1 final.scannedFiles) := by
  have hfiles : ∀ file ∈ items.filterMap (pipelineFile env args),
      HasSeparator file.path := by
    intro file hfile
    obtain ⟨item, hitem, hpipeline⟩ := List.mem_filterMap.mp hfile
    obtain ⟨found, hfound, rfl⟩ := Option.map_eq_some_iff.mp hpipeline
    exact hsep found (List.mem_filterMap.mpr ⟨item, hitem, hfound⟩)
  have hstart := RunState.start_coherent env args items old locked stateFile
  have hgood := hstart.exec hexec
  have hnumbers :=
    (RunState.start_numberLedger old locked stateFile).exec hexec
  have hdocs := (RunState.start_docLedger old locked stateFile).exec
    hfiles hstart hsucceeds hexec
  refine ⟨final.workers.filterMap Worker.publishedDoc, hdocs.docs, ?_, ?_⟩
  · have hall := hgood.files
    rw [hwalked, List.filterMap_nil, List.append_nil] at hall
    rw [hgood.published_stored fun worker hmem => by
      rw [Worker.stage, hfinished worker hmem]; rfl]
    rw [← pipelineFile_stored, ← hall, List.map_map]
    rfl
  · rw [hgood.scanned]
    exact hnumbers.numbers_of_finished hfinished

/-! ## A run of two workers -/

def overtakingSteps : List RunAction :=
  setupSteps ++ [.visit, .visit] ++ publishSteps 0 ++ publishSteps 1 ++
    closingSteps ++ reportSteps 1 ++ reportSteps 0

def sampleDoc : Doc := ⟨"/d/a.TXT", "a.TXT", "txt", 9, 0, none, none⟩

def overtakingRun : Option RunState :=
  ActionSystem.exec
    (runStep sampleEnv sampleArgs [sampleItem "/d/a.TXT", sampleItem "/d/b"])
    (RunState.start [sampleDoc] false none) overtakingSteps

theorem run_no_lost_update_overtaking :
    ∃ final added,
      overtakingRun = some final ∧
        final.docs.Perm (sampleDoc :: added) ∧
        added.map Doc.stored =
          [("/d/a.TXT", "a.TXT", "txt", 1, 5), ("/d/b", "b", "", 1, 5)] ∧
        (final.events.filterMap PipelineEvent.indexNumber).Perm [1, 2] := by
  have hexec := (Option.some_get (x := overtakingRun) (by decide)).symm
  obtain ⟨added, hdocs, hstored, hnumbers⟩ := run_no_lost_update
    (by decide) hexec (by decide) (by decide) (by decide)
  exact ⟨_, added, hexec, hdocs, hstored, hnumbers⟩

end SearchEvery
