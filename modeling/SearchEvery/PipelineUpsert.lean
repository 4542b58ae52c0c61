import SearchEvery.PipelineSystem
import Mathlib.Tactic

/-!
# When the worker's delete-then-add is an upsert

A worker deletes by the raw text of its path and then adds its document.  The
pair replaces the old document only if the deletion reaches it.  At most one
document per path is stored in every system execution in which each
`delete_term` either is given a path which is one of its own tokens, or comes
when no document of that path is in the writer.
-/

namespace SearchEvery

/-- The deletion leaves no document of the worker's path in the writer. -/
def ClearsPath (tables : CharTables) (pending : List Doc) (worker : Worker) :
    Prop :=
  worker.file.path ∈ tables.defaultTokens worker.file.path ∨
    ∀ doc ∈ pending, doc.path ≠ worker.file.path

instance (tables : CharTables) (pending : List Doc) (worker : Worker) :
    Decidable (ClearsPath tables pending worker) :=
  inferInstanceAs (Decidable (_ ∨ ∀ doc ∈ pending, _))

def ReplacesOwn (tables : CharTables) (frame : RunFrame) : RunAction → Prop
  | .deleteTerm i =>
      ∀ worker ∈ frame.workers[i]?, ClearsPath tables frame.pending worker
  | _ => True

instance (tables : CharTables) (frame : RunFrame) (action : RunAction) :
    Decidable (ReplacesOwn tables frame action) :=
  match action with
  | .deleteTerm i =>
      inferInstanceAs (Decidable (∀ worker ∈ frame.workers[i]?,
        ClearsPath tables frame.pending worker))
  | .createDir _ | .openIndex _ | .buildPool _ | .openWriter _ _
  | .markStarted _ _ | .visit | .emitScanDone | .markCompleted _ _
  | .emitIndexDone | .returnOk | .buildDoc _ _ | .lock _ _
  | .addDocument _ _ | .commit _ _ | .unlock _ | .fetchAdd _
  | .emitProgress _ | .finish _ => .isTrue trivial

def UpsertGuard (tables : CharTables) (sys : Sys) : SysAction → Prop
  | .run r action => ∀ run ∈ sys.runs[r]?, ReplacesOwn tables run.frame action
  | _ => True

instance (tables : CharTables) (sys : Sys) (action : SysAction) :
    Decidable (UpsertGuard tables sys action) :=
  match action with
  | .run r action =>
      inferInstanceAs (Decidable (∀ run ∈ sys.runs[r]?,
        ReplacesOwn tables run.frame action))
  | .poll _ _ _ | .spawnScheduled _ | .scanAndIndexPipeline _ _ _
  | .startAutoScanNow _ _ => .isTrue trivial

/-- The writer of a run holds one document per path, and none for the worker
between its delete and its add. -/
structure RunFrame.Upserting (frame : RunFrame) : Prop where
  pending : UniquePaths frame.pending
  fresh :
    ∀ worker ∈ frame.workers, worker.stage = .deleted →
      ∀ doc ∈ frame.pending, doc.path ≠ worker.file.path

variable {env : PipelineEnv} {args : RunArgs} {items : List WalkItem}

theorem RunFrame.initial_upserting : RunFrame.initial.Upserting := by
  constructor <;> simp [RunFrame.initial, UniquePaths]

theorem ClearsPath.deleteTerm
    {tables : CharTables} {pending : List Doc} {worker : Worker}
    (hclears : ClearsPath tables pending worker) :
    ∀ doc ∈ SearchEvery.deleteTerm tables worker.file.path pending,
      doc.path ≠ worker.file.path := by
  intro doc hmem heq
  obtain ⟨hdoc, hkept⟩ := mem_deleteTerm.mp hmem
  rcases hclears with htoken | hnone
  · exact hkept (heq ▸ htoken)
  · exact hnone doc hdoc heq

theorem RunFrame.Upserting.of_same
    {frame next : RunFrame} (hupsert : frame.Upserting)
    (hpending : next.pending = frame.pending)
    (hold : ∀ worker ∈ next.workers, worker.stage = .deleted →
      ∃ before ∈ frame.workers,
        before.file = worker.file ∧ before.stage = .deleted) :
    next.Upserting where
  pending := by
    rw [hpending]
    exact hupsert.pending
  fresh := by
    intro worker hmem hstage
    obtain ⟨before, hbefore, hfile, hdeleted⟩ := hold worker hmem hstage
    rw [hpending, ← hfile]
    exact hupsert.fresh before hbefore hdeleted

theorem deleted_of_mem_set
    {workers : List Worker} {i : ℕ} {moved : Worker}
    (hmoved : moved.stage ≠ .deleted) :
    ∀ row ∈ workers.set i moved, row.stage = .deleted →
      ∃ before ∈ workers, before.file = row.file ∧ before.stage = .deleted := by
  intro row hmem hstage
  rcases List.mem_or_eq_of_mem_set hmem with hold | rfl
  · exact ⟨row, hold, rfl, hstage⟩
  · exact (hmoved hstage).elim

theorem RunFrame.Upserting.deleteTerm
    {s next : RunState} (hgood : s.Coherent env args items)
    (hupsert : s.toRunFrame.Upserting) {i : ℕ} {worker : Worker}
    (hrow : s.workers[i]? = some worker) (hphase : worker.phase = .holding)
    (hworkers : next.workers =
      s.workers.set i { worker with phase := .deleted })
    (hpending : next.pending =
      SearchEvery.deleteTerm env.tables worker.file.path s.pending)
    (hclears : ClearsPath env.tables s.pending worker) :
    next.toRunFrame.Upserting where
  pending := by
    rw [hpending]
    exact hupsert.pending.deleteTerm env.tables worker.file.path
  fresh := by
    intro row hmem hstage
    rw [hworkers] at hmem
    obtain ⟨j, hget⟩ := List.mem_iff_getElem?.mp hmem
    rcases TableUpdate.getElem?_set_cases hget with ⟨_, rfl⟩ | ⟨hne, hold⟩
    · rw [hpending]
      exact hclears.deleteTerm
    · exact (hne (hgood.row_unique hrow
        (by simp [hphase, WorkerPhase.isCritical]) hold (Or.inl hstage)).1).elim

theorem RunFrame.Upserting.addDocument
    {s next : RunState} (hgood : s.Coherent env args items)
    (hupsert : s.toRunFrame.Upserting) {i : ℕ} {worker : Worker}
    (hrow : s.workers[i]? = some worker) (hphase : worker.phase = .deleted)
    (hworkers : next.workers =
      s.workers.set i { worker with phase := .added })
    (hpending : next.pending = s.pending ++ worker.doc.toList) :
    next.toRunFrame.Upserting := by
  have hmemRow := List.mem_of_getElem? hrow
  have hdeleted : worker.stage = .deleted := by
    simp [Worker.stage, hphase, WorkerPhase.docStage]
  obtain ⟨doc, hdoc, hstored⟩ := hgood.doc_stored hmemRow (by simp [hphase])
  have hpath : doc.path = worker.file.path := congrArg Prod.fst hstored
  constructor
  · rw [hpending, hdoc, Option.toList_some]
    refine hupsert.pending.append_singleton ?_
    rw [hpath]
    exact hupsert.fresh worker hmemRow hdeleted
  · intro row hmem hstage
    rw [hworkers] at hmem
    obtain ⟨j, hget⟩ := List.mem_iff_getElem?.mp hmem
    rcases TableUpdate.getElem?_set_cases hget with ⟨_, rfl⟩ | ⟨hne, hold⟩
    · simp [Worker.stage, WorkerPhase.docStage] at hstage
    · exact (hne (hgood.row_unique hrow
        (by simp [hphase, WorkerPhase.isCritical]) hold (Or.inl hstage)).1).elim

theorem RunFrame.Upserting.step
    {s next : RunState} {action : RunAction}
    (hgood : s.Coherent env args items) (hdocs : UniquePaths s.docs)
    (hupsert : s.toRunFrame.Upserting)
    (hguard : ReplacesOwn env.tables s.toRunFrame action)
    (hstep : runStep env args items s action = some next) :
    UniquePaths next.docs ∧ next.toRunFrame.Upserting := by
  cases runStep_docStep hgood hstep with
  | task hworkers hsame hpending _ =>
      rw [hsame]
      refine ⟨hdocs, hupsert.of_same hpending ?_⟩
      rw [hworkers]
      exact fun worker hmem hstage => ⟨worker, hmem, rfl, hstage⟩
  | openWriter _ hworkers hsame hpending =>
      rw [hsame]
      refine ⟨hdocs, ?_, by simp [hworkers]⟩
      rw [hpending]
      exact hdocs
  | spawn hworkers hsame hpending _ =>
      rw [hsame]
      refine ⟨hdocs, hupsert.of_same hpending ?_⟩
      intro worker hmem hstage
      rw [hworkers, List.mem_append, List.mem_singleton] at hmem
      rcases hmem with hold | rfl
      · exact ⟨worker, hold, rfl, hstage⟩
      · simp [Worker.stage, Worker.spawn, WorkerPhase.docStage] at hstage
  | quiet hrow hworkers hsame hpending hfile hstage _ =>
      rw [hsame]
      refine ⟨hdocs, hupsert.of_same hpending ?_⟩
      intro row hmem hdeleted
      rw [hworkers] at hmem
      obtain ⟨before, hbefore, hbeforeFile, hbeforeStage⟩ :=
        (stage_of_mem_set hrow hfile hstage).1 row hmem
      exact ⟨before, hbefore, hbeforeFile, hbeforeStage.trans hdeleted⟩
  | giveUp _ _ hworkers hsame hpending =>
      rw [hsame]
      refine ⟨hdocs, hupsert.of_same hpending ?_⟩
      rw [hworkers]
      exact deleted_of_mem_set (by simp [Worker.stage, WorkerPhase.docStage])
  | deleteTerm hrow hphase hworkers hsame hpending =>
      rw [hsame]
      exact ⟨hdocs, RunFrame.Upserting.deleteTerm hgood hupsert hrow hphase
        hworkers hpending (hguard _ hrow)⟩
  | @addDocument _ _ ok _ hrow hphase hworkers hsame hpending =>
      rw [hsame]
      refine ⟨hdocs, ?_⟩
      cases ok with
      | true =>
          exact RunFrame.Upserting.addDocument hgood hupsert hrow hphase
            hworkers hpending
      | false =>
          refine hupsert.of_same hpending ?_
          rw [hworkers]
          exact deleted_of_mem_set
            (by simp [Worker.stage, WorkerPhase.docStage])
  | @commit _ _ ok _ hrow hphase hworkers hpublish hpending =>
      constructor
      · rw [hpublish]
        cases ok with
        | true => exact hupsert.pending
        | false => exact hdocs
      · refine hupsert.of_same hpending ?_
        rw [hworkers]
        exact deleted_of_mem_set (by simp [Worker.stage, WorkerPhase.docStage])

/-! ## The system -/

structure Sys.Upserting (sys : Sys) : Prop where
  docs : ∀ dir, UniquePaths (sys.docs dir)
  runs : ∀ run ∈ sys.runs, run.frame.Upserting

theorem Sys.Upserting.step
    {sys next : Sys} {action : SysAction} (hgood : sys.Coherent env)
    (hupsert : sys.Upserting) (hguard : UpsertGuard env.tables sys action)
    (hstep : sysStep env sys action = some next) : next.Upserting := by
  cases sysStep_spec hstep with
  | schedule _ => exact ⟨hupsert.docs, hupsert.runs⟩
  | launch _ _ _ =>
      refine ⟨hupsert.docs, ?_⟩
      intro run hmem
      rcases List.mem_append.mp hmem with hold | hnew
      · exact hupsert.runs run hold
      · rw [List.mem_singleton] at hnew
        rw [hnew]
        exact RunFrame.initial_upserting
  | @run r action run after hrow hrun =>
      obtain ⟨hdocs, hframe⟩ := RunFrame.Upserting.step (hgood.row hrow)
        (hupsert.docs run.args.indexDir)
        (hupsert.runs run (List.mem_of_getElem? hrow)) (hguard run hrow) hrun
      constructor
      · intro dir
        simp only [Sys.store]
        by_cases hdir : dir = run.args.indexDir
        · rw [hdir, Function.update_self]
          exact hdocs
        · rw [Function.update_of_ne hdir]
          exact hupsert.docs dir
      · exact TableUpdate.forall_mem_set hupsert.runs hframe

/-- In every execution of the system whose deletions clear their own paths,
an index which starts with at most one document per path keeps that. -/
theorem pipelineRuns_unique_paths
    {init sys : Sys} {actions : List SysAction} (hinit : init.runs = [])
    (hunique : ∀ dir, UniquePaths (init.docs dir))
    (hguard : ActionSystem.Guarded (sysStep env) (UpsertGuard env.tables)
      init actions)
    (hexec : ActionSystem.exec (sysStep env) init actions = some sys)
    (dir : String) :
    UniquePaths (sys.docs dir) := by
  have hstart : init.Upserting := ⟨hunique, by simp [hinit]⟩
  have hfinal := ActionSystem.exec_invariant_over
    (fun _ _ _ hinv hstep => Sys.Coherent.step hinv hstep)
    (fun _ _ _ hbooks hinv hallowed hstep =>
      Sys.Upserting.step hbooks hinv hallowed hstep)
    (Sys.coherent_of_no_runs env hinit) hstart hguard hexec
  exact hfinal.docs dir

def oneFileRunSteps (config : AppConfig) (r : ℕ) (path : String) :
    List SysAction :=
  .startAutoScanNow config [[sampleItem path]] ::
    (setupSteps ++ [RunAction.visit] ++ publishSteps 0 ++ closingSteps ++
      reportSteps 0).map (SysAction.run r)

def wholeRunSteps (r : ℕ) (path : String) : List SysAction :=
  oneFileRunSteps sampleConfig r path

/-- The root is a file of the working directory. -/
def notesConfig : AppConfig := { sampleConfig with scanRoots := ["notes"] }

def repeatedRunSteps : List SysAction :=
  oneFileRunSteps notesConfig 0 "notes" ++ wholeRunSteps 1 "/d/a" ++
    oneFileRunSteps notesConfig 2 "notes"

/-- The path `notes` is a token of itself: its second run replaces the document
of the first. -/
theorem pipelineRuns_unique_paths_repeated :
    ∃ sys,
      ActionSystem.exec (sysStep sampleEnv) emptySys repeatedRunSteps =
        some sys ∧
      (sys.docs "idx").map Doc.path = ["/d/a", "notes"] ∧
      UniquePaths (sys.docs "idx") := by
  have hexec := (Option.some_get (x := ActionSystem.exec (sysStep sampleEnv)
    emptySys repeatedRunSteps) (by decide +kernel)).symm
  have hempty : ∀ dir, UniquePaths (emptySys.docs dir) :=
    fun _ => List.nodup_nil
  exact ⟨_, hexec, by decide,
    pipelineRuns_unique_paths rfl hempty (by decide +kernel) hexec "idx"⟩

/-- The same file on two days is stored twice. -/
theorem pipelineRuns_duplicate_documents :
    ∃ sys,
      ActionSystem.exec (sysStep sampleEnv) emptySys
        (wholeRunSteps 0 "/d/a" ++ wholeRunSteps 1 "/d/a") = some sys ∧
      (sys.docs "idx").map Doc.path = ["/d/a", "/d/a"] ∧
      ¬ UniquePaths (sys.docs "idx") := by
  have hexec := (Option.some_get (x := ActionSystem.exec (sysStep sampleEnv)
    emptySys (wholeRunSteps 0 "/d/a" ++ wholeRunSteps 1 "/d/a"))
    (by decide)).symm
  have hpaths : (((ActionSystem.exec (sysStep sampleEnv) emptySys
      (wholeRunSteps 0 "/d/a" ++ wholeRunSteps 1 "/d/a")).get
        (by decide)).docs "idx").map Doc.path = ["/d/a", "/d/a"] := by
    decide
  refine ⟨_, hexec, hpaths, ?_⟩
  unfold UniquePaths
  rw [hpaths]
  decide

end SearchEvery
