import SearchEvery.Pipeline
import Mathlib.Tactic

/-!
# The structural invariant of a pipeline run

Whatever the outcomes of the calls, a run keeps its books: the reference count
is the task's handle plus one for every unfinished worker, the mutex names the
one worker inside the critical section, every document belongs to the file of
its worker, and the workers are the admitted entries visited so far.
-/

namespace SearchEvery

def WorkerPhase.isCritical : WorkerPhase → Bool
  | .holding | .deleted | .added | .committed => true
  | _ => false

def Worker.isUnfinished (worker : Worker) : Bool :=
  decide (worker.phase ≠ .finished)

def TaskPhase.holdsWriter : TaskPhase → Bool
  | .writerOpened | .scanning _ | .scanDone | .completed | .indexDone => true
  | _ => false

/-- The walk items the task has not visited. -/
def TaskPhase.remaining (items : List WalkItem) : TaskPhase → List WalkItem
  | .scanning todo => todo
  | .scanDone | .completed | .indexDone | .returned => []
  | _ => items

/-- Worker `i` is inside the critical section. -/
def CriticalAt (workers : List Worker) (i : ℕ) : Prop :=
  ∃ worker, workers[i]? = some worker ∧ worker.phase.isCritical = true

structure RunState.Coherent (env : PipelineEnv) (args : RunArgs)
    (items : List WalkItem) (s : RunState) : Prop where
  handles :
    s.handles = (if s.task.holdsWriter then 1 else 0) +
      s.workers.countP Worker.isUnfinished
  mutex : ∀ i, s.mutex = some i ↔ CriticalAt s.workers i
  docOf :
    ∀ worker ∈ s.workers, worker.phase ≠ .queued →
      ∃ entry, worker.doc =
        some (workerDoc args.enableContentParse worker.file entry)
  files :
    s.workers.map Worker.file ++
        (s.task.remaining items).filterMap (pipelineFile env args) =
      items.filterMap (pipelineFile env args)
  scanned : s.scannedFiles = s.workers.length

def RunState.start (docs : List Doc) (locked : Bool) (stateFile : StateFile) :
    RunState :=
  { RunFrame.initial with docs := docs, locked := locked, stateFile := stateFile }

variable {env : PipelineEnv} {args : RunArgs} {items : List WalkItem}

theorem RunState.start_coherent
    (env : PipelineEnv) (args : RunArgs) (items : List WalkItem)
    (docs : List Doc) (locked : Bool) (stateFile : StateFile) :
    (RunState.start docs locked stateFile).Coherent env args items := by
  constructor <;>
    simp [RunState.start, RunFrame.initial, TaskPhase.holdsWriter,
      TaskPhase.remaining, CriticalAt]

theorem RunState.Coherent.workers_nil
    {s : RunState} (hgood : s.Coherent env args items)
    (hremaining : s.task.remaining items = items) : s.workers = [] := by
  have hfiles := hgood.files
  rw [hremaining] at hfiles
  have hlength := congrArg List.length hfiles
  simp only [List.length_append, List.length_map] at hlength
  exact List.eq_nil_of_length_eq_zero (by omega)

theorem TaskPhase.remaining_of_setup
    (items : List WalkItem) {task : TaskPhase}
    (hsetup : task.isSetup = true ∨ task = .failed) :
    task.remaining items = items ∧ task.holdsWriter = false := by
  rcases hsetup with hsetup | rfl
  · cases task <;>
      simp [TaskPhase.isSetup, TaskPhase.remaining,
        TaskPhase.holdsWriter] at hsetup ⊢
  · exact ⟨rfl, rfl⟩

theorem criticalAt_set
    {workers : List Worker} {i : ℕ} {old new : Worker}
    (hrow : workers[i]? = some old) (j : ℕ) :
    CriticalAt (workers.set i new) j ↔
      (j = i ∧ new.phase.isCritical = true) ∨
        (j ≠ i ∧ CriticalAt workers j) := by
  constructor
  · rintro ⟨worker, hget, hcritical⟩
    rcases TableUpdate.getElem?_set_cases hget with ⟨heq, rfl⟩ | ⟨hne, hold⟩
    · exact Or.inl ⟨heq, hcritical⟩
    · exact Or.inr ⟨hne, worker, hold, hcritical⟩
  · have hlt := (List.getElem?_eq_some_iff.mp hrow).1
    rintro (⟨rfl, hcritical⟩ | ⟨hne, worker, hget, hcritical⟩)
    · exact ⟨new, List.getElem?_set_self hlt, hcritical⟩
    · exact ⟨worker, by rw [List.getElem?_set_ne (Ne.symm hne), hget],
        hcritical⟩

theorem criticalAt_set_of_eq
    {workers : List Worker} {i : ℕ} {old new : Worker}
    (hrow : workers[i]? = some old)
    (hsame : new.phase.isCritical = old.phase.isCritical) (j : ℕ) :
    CriticalAt (workers.set i new) j ↔ CriticalAt workers j := by
  rw [criticalAt_set hrow]
  by_cases hj : j = i
  · subst hj
    simp [CriticalAt, hrow, hsame]
  · simp [hj]

theorem criticalAt_append
    {workers : List Worker} {new : Worker}
    (hnew : new.phase.isCritical = false) (j : ℕ) :
    CriticalAt (workers ++ [new]) j ↔ CriticalAt workers j := by
  constructor
  · rintro ⟨worker, hget, hcritical⟩
    rcases TableUpdate.getElem?_append_cases hget with ⟨_, rfl⟩ | hold
    · rw [hnew] at hcritical
      contradiction
    · exact ⟨worker, hold, hcritical⟩
  · rintro ⟨worker, hget, hcritical⟩
    exact ⟨worker, TableUpdate.getElem?_append_of_eq hget _, hcritical⟩

theorem RunState.Coherent.critical_unique
    {s : RunState} (hgood : s.Coherent env args items) {i j : ℕ}
    (hi : CriticalAt s.workers i) (hj : CriticalAt s.workers j) : i = j := by
  have hmi := (hgood.mutex i).mpr hi
  have hmj := (hgood.mutex j).mpr hj
  rw [hmi] at hmj
  exact Option.some.inj hmj

theorem RunState.Coherent.of_task
    {s next : RunState} (hgood : s.Coherent env args items)
    (hworkers : next.workers = s.workers) (hmutex : next.mutex = s.mutex)
    (hscanned : next.scannedFiles = s.scannedFiles)
    (hhandles : next.handles =
      (if next.task.holdsWriter then 1 else 0) +
        s.workers.countP Worker.isUnfinished)
    (hremaining :
      (next.task.remaining items).filterMap (pipelineFile env args) =
        (s.task.remaining items).filterMap (pipelineFile env args)) :
    next.Coherent env args items where
  handles := by rw [hworkers, hhandles]
  mutex := by rw [hworkers, hmutex]; exact hgood.mutex
  docOf := by rw [hworkers]; exact hgood.docOf
  files := by rw [hworkers, hremaining]; exact hgood.files
  scanned := by rw [hworkers, hscanned]; exact hgood.scanned

/-- The task goes on without opening or dropping the writer. -/
theorem RunState.Coherent.of_holding
    {s next : RunState} (hgood : s.Coherent env args items)
    (hworkers : next.workers = s.workers) (hmutex : next.mutex = s.mutex)
    (hscanned : next.scannedFiles = s.scannedFiles)
    (hhandles : next.handles = s.handles)
    (hholds : next.task.holdsWriter = s.task.holdsWriter)
    (hremaining :
      (next.task.remaining items).filterMap (pipelineFile env args) =
        (s.task.remaining items).filterMap (pipelineFile env args)) :
    next.Coherent env args items := by
  apply hgood.of_task hworkers hmutex hscanned ?_ hremaining
  rw [hhandles, hholds]
  exact hgood.handles

/-- A step of one worker keeps the books if it keeps the worker's file, gives
it a document, and moves the mutex with the critical section. -/
theorem RunState.Coherent.of_worker
    {s next : RunState} (hgood : s.Coherent env args items)
    {i : ℕ} {old new : Worker} (hrow : s.workers[i]? = some old)
    (hworkers : next.workers = s.workers.set i new)
    (htask : next.task = s.task) (hscanned : next.scannedFiles = s.scannedFiles)
    (hfile : new.file = old.file)
    (hdoc : ∃ entry, new.doc =
      some (workerDoc args.enableContentParse new.file entry))
    (hhandles : next.handles =
      (if s.task.holdsWriter then 1 else 0) +
        next.workers.countP Worker.isUnfinished)
    (hmutex : ∀ j, next.mutex = some j ↔ CriticalAt (s.workers.set i new) j) :
    next.Coherent env args items where
  handles := by rw [htask, hhandles]
  mutex := by rw [hworkers]; exact hmutex
  docOf := by
    rw [hworkers]
    exact TableUpdate.forall_mem_set hgood.docOf (fun _ => hdoc)
  files := by
    rw [hworkers, htask, TableUpdate.map_set_of_eq hrow hfile]
    exact hgood.files
  scanned := by rw [hworkers, hscanned, List.length_set]; exact hgood.scanned

theorem RunState.Coherent.of_worker_same
    {s next : RunState} (hgood : s.Coherent env args items)
    {i : ℕ} {old new : Worker} (hrow : s.workers[i]? = some old)
    (hworkers : next.workers = s.workers.set i new)
    (htask : next.task = s.task) (hscanned : next.scannedFiles = s.scannedFiles)
    (hfile : new.file = old.file)
    (hdoc : ∃ entry, new.doc =
      some (workerDoc args.enableContentParse new.file entry))
    (hmutex : next.mutex = s.mutex) (hhandles : next.handles = s.handles)
    (hcritical : new.phase.isCritical = old.phase.isCritical)
    (hunfinished : new.isUnfinished = old.isUnfinished) :
    next.Coherent env args items := by
  refine hgood.of_worker hrow hworkers htask hscanned hfile hdoc ?_ ?_
  · rw [hhandles, hworkers,
      TableUpdate.countP_set_of_eq hrow hunfinished]
    exact hgood.handles
  · intro j
    rw [hmutex, criticalAt_set_of_eq hrow hcritical]
    exact hgood.mutex j

theorem RunState.Coherent.doc_of_row
    {s : RunState} (hgood : s.Coherent env args items)
    {i : ℕ} {worker : Worker} (hrow : s.workers[i]? = some worker)
    (hphase : worker.phase ≠ .queued) :
    ∃ entry, worker.doc =
      some (workerDoc args.enableContentParse worker.file entry) :=
  hgood.docOf worker (List.mem_of_getElem? hrow) hphase

theorem RunState.Coherent.of_phase
    {s next : RunState} (hgood : s.Coherent env args items)
    {i : ℕ} {old new : Worker} {before : WorkerPhase}
    (hrow : s.workers[i]? = some old) (hphase : old.phase = before)
    (hworkers : next.workers = s.workers.set i new)
    (htask : next.task = s.task) (hscanned : next.scannedFiles = s.scannedFiles)
    (hmutex : next.mutex = s.mutex) (hhandles : next.handles = s.handles)
    (hfile : new.file = old.file) (hdoc : new.doc = old.doc)
    (hqueued : before ≠ .queued)
    (hcritical : new.phase.isCritical = before.isCritical)
    (hunfinished : new.phase ≠ .finished ∧ before ≠ .finished) :
    next.Coherent env args items := by
  have hbuilt :
      ∃ entry, new.doc =
        some (workerDoc args.enableContentParse new.file entry) := by
    rw [hdoc, hfile]
    exact hgood.doc_of_row hrow (hphase ▸ hqueued)
  apply hgood.of_worker_same hrow hworkers htask hscanned hfile hbuilt hmutex
    hhandles
  · rw [hphase, hcritical]
  · simp [Worker.isUnfinished, hphase, hunfinished]

/-- The task finds a file and spawns its worker. -/
theorem RunState.Coherent.spawn
    {s next : RunState} (hgood : s.Coherent env args items)
    {item : WalkItem} {todo : List WalkItem} {file : FileMeta}
    (htask : s.task = .scanning (item :: todo))
    (hfile : pipelineFile env args item = some file)
    (hnext : next.task = .scanning todo)
    (hworkers : next.workers = s.workers ++ [Worker.spawn file])
    (hmutex : next.mutex = s.mutex) (hhandles : next.handles = s.handles + 1)
    (hscanned : next.scannedFiles = s.scannedFiles + 1) :
    next.Coherent env args items where
  handles := by
    have hbefore := hgood.handles
    rw [htask] at hbefore
    rw [hhandles, hbefore, hnext, hworkers, List.countP_append]
    rfl
  mutex := by
    intro j
    rw [hmutex, hworkers, criticalAt_append rfl]
    exact hgood.mutex j
  docOf := by
    intro worker hmem hphase
    rw [hworkers] at hmem
    rcases List.mem_append.mp hmem with hold | hnew
    · exact hgood.docOf worker hold hphase
    · rw [List.mem_singleton] at hnew
      exact (hphase (by rw [hnew]; rfl)).elim
  files := by
    have hfiles := hgood.files
    rw [htask] at hfiles
    simp only [TaskPhase.remaining, List.filterMap_cons_some hfile] at hfiles
    simpa [hnext, hworkers, TaskPhase.remaining, Worker.spawn] using hfiles
  scanned := by
    rw [hscanned, hworkers, hgood.scanned, List.length_append]
    rfl

/-- Every step keeps the books. -/
theorem RunState.Coherent.step
    {s next : RunState} {action : RunAction}
    (hgood : s.Coherent env args items)
    (hstep : runStep env args items s action = some next) :
    next.Coherent env args items := by
  cases runStep_spec hstep with
  | setup _ hold hnew =>
      have hbefore := TaskPhase.remaining_of_setup items (Or.inl hold)
      have hafter := TaskPhase.remaining_of_setup items hnew
      exact hgood.of_holding rfl rfl rfl rfl (hafter.2.trans hbefore.2.symm)
        (by rw [hbefore.1, hafter.1])
  | openWriter htask _ =>
      have hnil := hgood.workers_nil (by rw [htask]; rfl)
      exact hgood.of_task rfl rfl rfl (by simp [TaskPhase.holdsWriter, hnil])
        (by rw [htask]; rfl)
  | markStarted htask =>
      exact hgood.of_holding rfl rfl rfl rfl (by rw [htask]; rfl)
        (by rw [htask]; rfl)
  | skip htask hskip =>
      refine hgood.of_holding rfl rfl rfl rfl (by rw [htask]; rfl) ?_
      simp [htask, TaskPhase.remaining, hskip]
  | spawn htask hfile => exact hgood.spawn htask hfile rfl rfl rfl rfl rfl
  | emitScanDone htask =>
      exact hgood.of_holding rfl rfl rfl rfl (by rw [htask]; rfl)
        (by rw [htask]; rfl)
  | markCompleted htask =>
      exact hgood.of_holding rfl rfl rfl rfl (by rw [htask]; rfl)
        (by rw [htask]; rfl)
  | emitIndexDone htask =>
      exact hgood.of_holding rfl rfl rfl rfl (by rw [htask]; rfl)
        (by rw [htask]; rfl)
  | returnOk htask =>
      refine hgood.of_task rfl rfl rfl ?_
        (by simp [htask, TaskPhase.remaining, RunState.dropHandle])
      have hhandles := hgood.handles
      simp only [htask, TaskPhase.holdsWriter, if_true] at hhandles
      simp [RunState.dropHandle, TaskPhase.holdsWriter, hhandles]
  | buildDoc hrow hphase =>
      refine hgood.of_worker_same hrow rfl rfl rfl rfl ⟨_, rfl⟩ rfl rfl ?_ ?_
      · simp [hphase, WorkerPhase.isCritical]
      · simp [hphase, Worker.isUnfinished]
  | @lock i worker hrow hphase hfree =>
      have hdoc := hgood.doc_of_row hrow (by simp [hphase])
      refine hgood.of_worker hrow rfl rfl rfl rfl hdoc ?_ ?_
      · simp only [RunState.setWorker]
        rw [TableUpdate.countP_set_of_eq hrow
          (by simp [hphase, Worker.isUnfinished])]
        exact hgood.handles
      · intro j
        rw [criticalAt_set hrow, ← hgood.mutex j, hfree]
        simp [WorkerPhase.isCritical, eq_comm]
  | lockFailed hrow hphase =>
      exact hgood.of_phase hrow hphase rfl rfl rfl rfl rfl rfl rfl
        (by decide) rfl (by simp)
  | deleteTerm hrow hphase =>
      exact hgood.of_phase hrow hphase rfl rfl rfl rfl rfl rfl rfl
        (by decide) rfl (by simp)
  | addDocument hrow hphase =>
      exact hgood.of_phase hrow hphase rfl rfl rfl rfl rfl rfl rfl
        (by decide) rfl (by simp)
  | commit hrow hphase =>
      exact hgood.of_phase hrow hphase rfl rfl rfl rfl rfl rfl rfl
        (by decide) rfl (by simp)
  | @unlock i worker hrow hphase =>
      have hdoc := hgood.doc_of_row hrow (by simp [hphase])
      refine hgood.of_worker hrow rfl rfl rfl rfl hdoc ?_ ?_
      · simp only [RunState.setWorker]
        rw [TableUpdate.countP_set_of_eq hrow
          (by simp [hphase, Worker.isUnfinished])]
        exact hgood.handles
      · intro j
        have hi : CriticalAt s.workers i :=
          ⟨worker, hrow, by simp [hphase, WorkerPhase.isCritical]⟩
        rw [criticalAt_set hrow]
        simp only [reduceCtorEq, WorkerPhase.isCritical, Bool.false_eq_true,
          and_false, false_or, false_iff, not_and]
        exact fun hne hj => hne (hgood.critical_unique hj hi)
  | fetchAdd hrow hphase =>
      exact hgood.of_phase hrow hphase rfl rfl rfl rfl rfl rfl rfl
        (by decide) rfl (by simp)
  | emitProgress hrow hphase =>
      exact hgood.of_phase hrow hphase rfl rfl rfl rfl rfl rfl rfl
        (by decide) rfl (by simp)
  | @finish i worker hrow hphase =>
      have hdoc := hgood.doc_of_row hrow (by simp [hphase])
      refine hgood.of_worker hrow rfl rfl rfl rfl hdoc ?_ ?_
      · have hhandles := hgood.handles
        have hcount := TableUpdate.countP_set_drop Worker.isUnfinished
          { worker with phase := .finished } hrow
          (by simp [hphase, Worker.isUnfinished])
          (by simp [Worker.isUnfinished])
        simp only [RunState.dropHandle, RunState.setWorker]
        omega
      · intro j
        simp only [RunState.dropHandle, RunState.setWorker]
        rw [criticalAt_set_of_eq hrow
          (by simp [hphase, WorkerPhase.isCritical])]
        exact hgood.mutex j

theorem RunState.Coherent.exec
    {s final : RunState} {actions : List RunAction}
    (hgood : s.Coherent env args items)
    (hexec : ActionSystem.exec (runStep env args items) s actions =
      some final) :
    final.Coherent env args items :=
  ActionSystem.exec_invariant
    (fun _ _ _ hinv hstep => RunState.Coherent.step hinv hstep) hgood hexec

theorem RunState.Coherent.exec_over
    {Inv : RunState → Prop} {Guard : RunState → RunAction → Prop}
    (hkeep : ∀ s action next,
      RunState.Coherent env args items s → Inv s → Guard s action →
        runStep env args items s action = some next → Inv next)
    {s final : RunState} {actions : List RunAction}
    (hgood : s.Coherent env args items) (hinit : Inv s)
    (hguard : ActionSystem.Guarded (runStep env args items) Guard s actions)
    (hexec : ActionSystem.exec (runStep env args items) s actions =
      some final) :
    Inv final :=
  ActionSystem.exec_invariant_over
    (fun _ _ _ hinv hstep => RunState.Coherent.step hinv hstep)
    hkeep hgood hinit hguard hexec

/-- A run which has returned has spawned one worker for each admitted entry. -/
theorem returned_submits
    {docs : List Doc} {locked : Bool} {stateFile : StateFile}
    {actions : List RunAction} {final : RunState}
    (hexec : ActionSystem.exec (runStep env args items)
      (RunState.start docs locked stateFile) actions = some final)
    (hreturned : final.task = .returned) :
    final.workers.map Worker.file = items.filterMap (pipelineFile env args) := by
  have hgood := (RunState.start_coherent env args items docs locked
    stateFile).exec hexec
  have hfiles := hgood.files
  simpa [hreturned, TaskPhase.remaining] using hfiles

end SearchEvery
