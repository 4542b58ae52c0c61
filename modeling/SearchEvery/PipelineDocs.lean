import SearchEvery.PipelineInvariant
import Mathlib.Tactic

/-!
# What a step does to the documents

For the index only four points of a worker's life matter: before it touches
the writer, after its `delete_term`, after its `add_document`, and past its
commit.  Every step of a run is one of eight moves on the committed documents,
the writer's documents and these stages.
-/

namespace SearchEvery

inductive DocStage
  | waiting
  | deleted
  | staged
  | published
  deriving DecidableEq

def WorkerPhase.docStage : WorkerPhase → DocStage
  | .queued | .built | .holding => .waiting
  | .deleted => .deleted
  | .added => .staged
  | .committed | .unlocked | .counted | .emitted | .finished => .published

def Worker.stage (worker : Worker) : DocStage := worker.phase.docStage

def TaskPhase.hasOpened : TaskPhase → Bool
  | .start | .dirCreated | .indexOpened | .poolBuilt | .failed => false
  | _ => true

/-- The effect of every action on the documents. -/
inductive DocStep (env : PipelineEnv) (s : RunState) :
    RunAction → RunState → Prop
  | task {action next} (hworkers : next.workers = s.workers)
      (hdocs : next.docs = s.docs) (hpending : next.pending = s.pending)
      (hopened : next.task.hasOpened = true → s.task.hasOpened = true) :
      DocStep env s action next
  | openWriter {action next} (hnil : s.workers = [])
      (hworkers : next.workers = [])
      (hdocs : next.docs = s.docs) (hpending : next.pending = s.docs) :
      DocStep env s action next
  | spawn {action next file}
      (hworkers : next.workers = s.workers ++ [Worker.spawn file])
      (hdocs : next.docs = s.docs) (hpending : next.pending = s.pending)
      (hopened : s.task.hasOpened = true) :
      DocStep env s action next
  | quiet {action next i worker moved} (hrow : s.workers[i]? = some worker)
      (hworkers : next.workers = s.workers.set i moved)
      (hdocs : next.docs = s.docs) (hpending : next.pending = s.pending)
      (hfile : moved.file = worker.file) (hstage : moved.stage = worker.stage)
      (hdoc : worker.stage ≠ .waiting → moved.doc = worker.doc) :
      DocStep env s action next
  | giveUp {next i worker} (hrow : s.workers[i]? = some worker)
      (hwaiting : worker.stage = .waiting)
      (hworkers : next.workers =
        s.workers.set i { worker with phase := .unlocked })
      (hdocs : next.docs = s.docs) (hpending : next.pending = s.pending) :
      DocStep env s (.lock i false) next
  | deleteTerm {next i worker} (hrow : s.workers[i]? = some worker)
      (hphase : worker.phase = .holding)
      (hworkers : next.workers =
        s.workers.set i { worker with phase := .deleted })
      (hdocs : next.docs = s.docs)
      (hpending : next.pending =
        SearchEvery.deleteTerm env.tables worker.file.path s.pending) :
      DocStep env s (.deleteTerm i) next
  | addDocument {next i ok worker} (hrow : s.workers[i]? = some worker)
      (hphase : worker.phase = .deleted)
      (hworkers : next.workers =
        s.workers.set i { worker with phase := .added })
      (hdocs : next.docs = s.docs)
      (hpending : next.pending =
        if ok then s.pending ++ worker.doc.toList else s.pending) :
      DocStep env s (.addDocument i ok) next
  | commit {next i ok worker} (hrow : s.workers[i]? = some worker)
      (hphase : worker.phase = .added)
      (hworkers : next.workers =
        s.workers.set i { worker with phase := .committed })
      (hdocs : next.docs = if ok then s.pending else s.docs)
      (hpending : next.pending = s.pending) :
      DocStep env s (.commit i ok) next

variable {env : PipelineEnv} {args : RunArgs} {items : List WalkItem}

theorem TaskPhase.remaining_of_not_hasOpened
    (items : List WalkItem) {task : TaskPhase}
    (hclosed : task.hasOpened = false) :
    task.remaining items = items := by
  cases task <;> simp [TaskPhase.hasOpened, TaskPhase.remaining] at hclosed ⊢

theorem TaskPhase.not_hasOpened_of_setup
    {task : TaskPhase} (hsetup : task.isSetup = true ∨ task = .failed) :
    task.hasOpened = false := by
  rcases hsetup with hsetup | rfl
  · cases task <;> simp [TaskPhase.hasOpened, TaskPhase.isSetup] at hsetup ⊢
  · rfl

theorem RunState.Coherent.hasOpened_of_row
    {s : RunState} (hgood : s.Coherent env args items)
    {i : ℕ} {worker : Worker} (hrow : s.workers[i]? = some worker) :
    s.task.hasOpened = true := by
  by_contra hclosed
  have hnil := hgood.workers_nil
    (TaskPhase.remaining_of_not_hasOpened items (by simpa using hclosed))
  simp [hnil] at hrow

theorem RunState.Coherent.file_mem
    {s : RunState} (hgood : s.Coherent env args items)
    {worker : Worker} (hmem : worker ∈ s.workers) :
    worker.file ∈ items.filterMap (pipelineFile env args) := by
  rw [← hgood.files]
  exact List.mem_append_left _ (List.mem_map_of_mem hmem)

theorem runStep_docStep
    {s next : RunState} {action : RunAction}
    (hgood : s.Coherent env args items)
    (hstep : runStep env args items s action = some next) :
    DocStep env s action next := by
  cases runStep_spec hstep with
  | setup _ _ hnew =>
      refine .task rfl rfl rfl ?_
      simp [TaskPhase.not_hasOpened_of_setup hnew]
  | openWriter htask _ =>
      have hnil := hgood.workers_nil (by rw [htask]; rfl)
      exact .openWriter hnil hnil rfl rfl
  | markStarted htask =>
      exact .task rfl rfl rfl (by simp [htask, TaskPhase.hasOpened])
  | skip htask _ =>
      exact .task rfl rfl rfl (by simp [htask, TaskPhase.hasOpened])
  | spawn htask _ =>
      exact .spawn rfl rfl rfl (by simp [htask, TaskPhase.hasOpened])
  | emitScanDone htask =>
      exact .task rfl rfl rfl (by simp [htask, TaskPhase.hasOpened])
  | markCompleted htask =>
      exact .task rfl rfl rfl (by simp [htask, TaskPhase.hasOpened])
  | emitIndexDone htask =>
      exact .task rfl rfl rfl (by simp [htask, TaskPhase.hasOpened])
  | returnOk htask =>
      exact .task rfl rfl rfl (by simp [htask, TaskPhase.hasOpened])
  | buildDoc hrow hphase =>
      refine .quiet hrow rfl rfl rfl rfl ?_ ?_
      · simp [Worker.stage, hphase, WorkerPhase.docStage]
      · simp [Worker.stage, hphase, WorkerPhase.docStage]
  | lock hrow hphase _ =>
      refine .quiet hrow rfl rfl rfl rfl ?_ (fun _ => rfl)
      simp [Worker.stage, hphase, WorkerPhase.docStage]
  | lockFailed hrow hphase =>
      exact .giveUp hrow (by simp [Worker.stage, hphase, WorkerPhase.docStage])
        rfl rfl rfl
  | deleteTerm hrow hphase => exact .deleteTerm hrow hphase rfl rfl rfl
  | addDocument hrow hphase => exact .addDocument hrow hphase rfl rfl rfl
  | commit hrow hphase => exact .commit hrow hphase rfl rfl rfl
  | unlock hrow hphase =>
      refine .quiet hrow rfl rfl rfl rfl ?_ (fun _ => rfl)
      simp [Worker.stage, hphase, WorkerPhase.docStage]
  | fetchAdd hrow hphase =>
      refine .quiet hrow rfl rfl rfl rfl ?_ (fun _ => rfl)
      simp [Worker.stage, hphase, WorkerPhase.docStage]
  | emitProgress hrow hphase =>
      refine .quiet hrow rfl rfl rfl rfl ?_ (fun _ => rfl)
      simp [Worker.stage, hphase, WorkerPhase.docStage]
  | finish hrow hphase =>
      refine .quiet hrow rfl rfl rfl rfl ?_ (fun _ => rfl)
      simp [Worker.stage, hphase, WorkerPhase.docStage]

theorem criticalAt_of_stage
    {workers : List Worker} {i : ℕ} {worker : Worker}
    (hrow : workers[i]? = some worker)
    (hstage : worker.stage = .deleted ∨ worker.stage = .staged) :
    CriticalAt workers i := by
  refine ⟨worker, hrow, ?_⟩
  unfold Worker.stage at hstage
  cases hphase : worker.phase <;>
    simp [hphase, WorkerPhase.docStage, WorkerPhase.isCritical] at hstage ⊢

theorem RunState.Coherent.row_unique
    {s : RunState} (hgood : s.Coherent env args items)
    {i j : ℕ} {worker other : Worker}
    (hrow : s.workers[i]? = some worker)
    (hcritical : worker.phase.isCritical = true)
    (hother : s.workers[j]? = some other)
    (hstage : other.stage = .deleted ∨ other.stage = .staged) :
    j = i ∧ other = worker := by
  have hji := hgood.critical_unique (criticalAt_of_stage hother hstage)
    ⟨worker, hrow, hcritical⟩
  subst hji
  rw [hrow, Option.some.injEq] at hother
  exact ⟨rfl, hother.symm⟩

theorem stage_of_mem_set
    {workers : List Worker} {i : ℕ} {worker moved : Worker}
    (hrow : workers[i]? = some worker)
    (hfile : moved.file = worker.file) (hstage : moved.stage = worker.stage) :
    (∀ row ∈ workers.set i moved, ∃ before ∈ workers,
      before.file = row.file ∧ before.stage = row.stage) ∧
    (∀ before ∈ workers, ∃ row ∈ workers.set i moved,
      row.file = before.file ∧ row.stage = before.stage) := by
  obtain ⟨front, back, hrows, hset⟩ := TableUpdate.exists_split hrow
  rw [hset, hrows]
  constructor
  · intro row hmem
    simp only [List.mem_append, List.mem_cons] at hmem ⊢
    rcases hmem with hfront | rfl | hback
    · exact ⟨row, Or.inl hfront, rfl, rfl⟩
    · exact ⟨worker, Or.inr (Or.inl rfl), hfile.symm, hstage.symm⟩
    · exact ⟨row, Or.inr (Or.inr hback), rfl, rfl⟩
  · intro before hmem
    simp only [List.mem_append, List.mem_cons] at hmem ⊢
    rcases hmem with hfront | rfl | hback
    · exact ⟨before, Or.inl hfront, rfl, rfl⟩
    · exact ⟨moved, Or.inr (Or.inl rfl), hfile, hstage⟩
    · exact ⟨before, Or.inr (Or.inr hback), rfl, rfl⟩

theorem RunState.Coherent.doc_stored
    {s : RunState} (hgood : s.Coherent env args items)
    {worker : Worker} (hmem : worker ∈ s.workers)
    (hphase : worker.phase ≠ .queued) :
    ∃ doc, worker.doc = some doc ∧ doc.stored = worker.file.toDoc.stored := by
  obtain ⟨entry, hdoc⟩ := hgood.docOf worker hmem hphase
  exact ⟨_, hdoc, workerDoc_stored _ _ _⟩

/-! ## Where the documents come from -/

/-- A document was there before the run or is of a file the run admitted. -/
def SourcedDoc (env : PipelineEnv) (args : RunArgs) (items : List WalkItem)
    (old : List Doc) (doc : Doc) : Prop :=
  doc ∈ old ∨
    ∃ file ∈ items.filterMap (pipelineFile env args), doc.path = file.path

structure RunState.Sourced (env : PipelineEnv) (args : RunArgs)
    (items : List WalkItem) (old : List Doc) (s : RunState) : Prop where
  docs : ∀ doc ∈ s.docs, SourcedDoc env args items old doc
  pending : ∀ doc ∈ s.pending, SourcedDoc env args items old doc

theorem RunState.start_sourced
    (env : PipelineEnv) (args : RunArgs) (items : List WalkItem)
    (old : List Doc) (locked : Bool) (stateFile : StateFile) :
    (RunState.start old locked stateFile).Sourced env args items old where
  docs _ hmem := Or.inl hmem
  pending _ hmem := by simp [RunState.start, RunFrame.initial] at hmem

theorem RunState.Coherent.sourcedDoc
    {old : List Doc} {s : RunState} (hgood : s.Coherent env args items)
    {worker : Worker} (hmem : worker ∈ s.workers)
    (hphase : worker.phase ≠ .queued) {doc : Doc}
    (hdoc : doc ∈ worker.doc.toList) :
    SourcedDoc env args items old doc := by
  obtain ⟨built, hbuilt, hstored⟩ := hgood.doc_stored hmem hphase
  rw [hbuilt, Option.toList_some, List.mem_singleton] at hdoc
  subst hdoc
  exact Or.inr ⟨worker.file, hgood.file_mem hmem,
    congrArg Prod.fst hstored⟩

theorem RunState.Sourced.step
    {old : List Doc} {s next : RunState} {action : RunAction}
    (hgood : s.Coherent env args items)
    (hsourced : s.Sourced env args items old)
    (hstep : runStep env args items s action = some next) :
    next.Sourced env args items old := by
  cases runStep_docStep hgood hstep with
  | task _ hdocs hpending _ =>
      exact ⟨hdocs ▸ hsourced.docs, hpending ▸ hsourced.pending⟩
  | openWriter _ _ hdocs hpending =>
      exact ⟨hdocs ▸ hsourced.docs, hpending ▸ hsourced.docs⟩
  | spawn _ hdocs hpending _ =>
      exact ⟨hdocs ▸ hsourced.docs, hpending ▸ hsourced.pending⟩
  | quiet _ _ hdocs hpending _ _ _ =>
      exact ⟨hdocs ▸ hsourced.docs, hpending ▸ hsourced.pending⟩
  | giveUp _ _ _ hdocs hpending =>
      exact ⟨hdocs ▸ hsourced.docs, hpending ▸ hsourced.pending⟩
  | deleteTerm _ _ _ hdocs hpending =>
      refine ⟨hdocs ▸ hsourced.docs, ?_⟩
      intro doc hmem
      rw [hpending] at hmem
      exact hsourced.pending doc (mem_deleteTerm.mp hmem).1
  | @addDocument _ i ok worker hrow hphase _ hdocs hpending =>
      refine ⟨hdocs ▸ hsourced.docs, ?_⟩
      intro doc hmem
      rw [hpending] at hmem
      cases ok with
      | false => exact hsourced.pending doc hmem
      | true =>
          rcases List.mem_append.mp hmem with hold | hnew
          · exact hsourced.pending doc hold
          · exact hgood.sourcedDoc (List.mem_of_getElem? hrow)
              (by simp [hphase]) hnew
  | @commit _ i ok worker _ _ _ hdocs hpending =>
      refine ⟨?_, hpending ▸ hsourced.pending⟩
      intro doc hmem
      rw [hdocs] at hmem
      cases ok with
      | false => exact hsourced.docs doc hmem
      | true => exact hsourced.pending doc hmem

theorem RunState.Sourced.of_exec
    {old : List Doc} {locked : Bool} {stateFile : StateFile}
    {final : RunState} {actions : List RunAction}
    (hexec : ActionSystem.exec (runStep env args items)
      (RunState.start old locked stateFile) actions = some final) :
    final.Sourced env args items old :=
  RunState.Coherent.exec_over
    (fun _ _ _ hgood hinv _ hstep => RunState.Sourced.step hgood hinv hstep)
    (RunState.start_coherent env args items old locked stateFile)
    (RunState.start_sourced env args items old locked stateFile)
    (ActionSystem.guarded_of_forall fun _ _ => trivial) hexec

end SearchEvery
