import SearchEvery.ActionSystem
import SearchEvery.TableUpdate
import SearchEvery.TantivyIndex
import Mathlib.Tactic

/-!
# One run of the scan-and-index pipeline

`scan_and_index_pipeline_internal` as an action system.  The scanning task sets
up the index and the writer, walks the roots, spawns one worker for each
admitted file and goes on without waiting; the workers share the writer
behind a mutex and a reference count.  An action is one call of the scanning
task or of a worker, together with its outcome, so that a list of actions is
one interleaving.
-/

namespace SearchEvery

structure PipelineState where
  lastDay : Option String
  completed : Bool
  deriving DecidableEq

/-- `scan_state.json`; `none` when it is missing or does not parse. -/
abbrev StateFile := Option PipelineState

/-- How `fs::write` of the state file ends.  A failed write leaves the file as
it was or truncated. -/
inductive WriteOutcome
  | ok
  | failed
  | truncated
  deriving DecidableEq

def writeState (file : StateFile) (state : PipelineState) :
    WriteOutcome → StateFile
  | .ok => some state
  | .failed => file
  | .truncated => none

structure RunArgs where
  roots : List String
  excludePatterns : List String
  indexDir : String
  enableContentParse : Bool
  deriving DecidableEq

structure PipelineEnv where
  tables : CharTables
  platform : Platform
  minBudget : ℕ

/-- Seconds since the epoch, `0` for a time before it. -/
def pipelineModifiedTs (modified : Option ℤ) : ℤ :=
  match modified with
  | none => 0
  | some t => if 0 ≤ t then t / nanosPerSecond else 0

def pipelineMaxBytes : ℕ := 500 * 1024 * 1024

def pipelineFile (env : PipelineEnv) (args : RunArgs) (item : WalkItem) :
    Option FileMeta :=
  (admitEntry args.excludePatterns (some pipelineMaxBytes) item).map fun found =>
    fileMetaOf env.tables env.platform found.1 found.2
      (pipelineModifiedTs found.2.modified)

def writerHeapBytes (totalMemory : ℕ) : ℕ :=
  min (totalMemory / 1024 / 64) 100 * 1000000

/-! ## States -/

/-- Where a worker stands: before its document is built, before the lock, the
four points inside the critical section, before the counter, before the event,
before its captures are dropped, and after. -/
inductive WorkerPhase
  | queued
  | built
  | holding
  | deleted
  | added
  | committed
  | unlocked
  | counted
  | emitted
  | finished
  deriving DecidableEq

structure Worker where
  file : FileMeta
  phase : WorkerPhase
  doc : Option Doc
  number : Option ℕ
  deriving DecidableEq

def Worker.spawn (file : FileMeta) : Worker := ⟨file, .queued, none, none⟩

inductive TaskPhase
  | start
  | dirCreated
  | indexOpened
  | poolBuilt
  | writerOpened
  | scanning (todo : List WalkItem)
  | scanDone
  | completed
  | indexDone
  | returned
  | failed
  deriving DecidableEq

inductive PipelineEvent
  | scanProgress (current : ℕ) (path name : String)
  | scanDone (total : ℕ)
  | indexProgress (current : ℕ) (name path : String)
  | indexDone
  deriving DecidableEq

/-- What belongs to one run: its task, the reference count of the writer, the
writer's mutex and its documents after the pending operations, the counters,
the workers in spawning order and the emitted events. -/
structure RunFrame where
  task : TaskPhase
  handles : ℕ
  mutex : Option ℕ
  pending : List Doc
  counter : ℕ
  scannedFiles : ℕ
  workers : List Worker
  events : List PipelineEvent
  deriving DecidableEq

def RunFrame.initial : RunFrame := ⟨.start, 0, none, [], 0, 0, [], []⟩

/-- A run together with what it shares with the rest of the world: the
documents of its index directory, that directory's writer lock and the state
file. -/
structure RunState extends RunFrame where
  docs : List Doc
  locked : Bool
  stateFile : StateFile
  deriving DecidableEq

def RunState.setWorker (s : RunState) (i : ℕ) (worker : Worker) : RunState :=
  { s with workers := s.workers.set i worker }

/-- Drop one handle of the writer; the last one releases the directory. -/
def RunState.dropHandle (s : RunState) : RunState :=
  { s with
    handles := s.handles - 1
    locked := if s.handles - 1 = 0 then false else s.locked }

def RunState.withWorker (s : RunState) (i : ℕ) (phase : WorkerPhase)
    (next : Worker → RunState) : Option RunState :=
  match s.workers[i]? with
  | none => none
  | some worker => if worker.phase = phase then some (next worker) else none

/-! ## Actions -/

inductive RunAction
  | createDir (ok : Bool)
  | openIndex (ok : Bool)
  | buildPool (ok : Bool)
  | openWriter (totalMemory : ℕ) (ioOk : Bool)
  | markStarted (today : String) (outcome : WriteOutcome)
  | visit
  | emitScanDone
  | markCompleted (today : String) (outcome : WriteOutcome)
  | emitIndexDone
  | returnOk
  | buildDoc (i : ℕ) (entry : DiskEntry)
  | lock (i : ℕ) (ok : Bool)
  | deleteTerm (i : ℕ)
  | addDocument (i : ℕ) (ok : Bool)
  | commit (i : ℕ) (ok : Bool)
  | unlock (i : ℕ)
  | fetchAdd (i : ℕ)
  | emitProgress (i : ℕ)
  | finish (i : ℕ)
  deriving DecidableEq

/-- The loop body for the next walk entry: skip it, or count it, report it and
spawn a worker which holds a handle of the writer. -/
def visitItem (env : PipelineEnv) (args : RunArgs) (s : RunState)
    (item : WalkItem) (todo : List WalkItem) : RunState :=
  match pipelineFile env args item with
  | none => { s with task := .scanning todo }
  | some file =>
      { s with
        task := .scanning todo
        scannedFiles := s.scannedFiles + 1
        events := s.events ++
          [.scanProgress (s.scannedFiles + 1) file.path file.fileName]
        workers := s.workers ++ [Worker.spawn file]
        handles := s.handles + 1 }

def runStep (env : PipelineEnv) (args : RunArgs) (items : List WalkItem)
    (s : RunState) : RunAction → Option RunState
  | .createDir ok =>
      if s.task = .start then
        some { s with task := if ok then .dirCreated else .failed }
      else none
  | .openIndex ok =>
      if s.task = .dirCreated then
        some { s with task := if ok then .indexOpened else .failed }
      else none
  | .buildPool ok =>
      if s.task = .indexOpened then
        some { s with task := if ok then .poolBuilt else .failed }
      else none
  | .openWriter totalMemory ioOk =>
      if s.task = .poolBuilt then
        if ioOk && !s.locked &&
            decide (env.minBudget ≤ writerHeapBytes totalMemory) then
          some { s with
            task := .writerOpened
            locked := true
            handles := 1
            pending := s.docs }
        else some { s with task := .failed }
      else none
  | .markStarted today outcome =>
      if s.task = .writerOpened then
        some { s with
          task := .scanning items
          stateFile := writeState s.stateFile ⟨some today, false⟩ outcome }
      else none
  | .visit =>
      match s.task with
      | .scanning (item :: todo) => some (visitItem env args s item todo)
      | _ => none
  | .emitScanDone =>
      if s.task = .scanning [] then
        some { s with
          task := .scanDone
          events := s.events ++ [.scanDone s.scannedFiles] }
      else none
  | .markCompleted today outcome =>
      if s.task = .scanDone then
        some { s with
          task := .completed
          stateFile := writeState s.stateFile ⟨some today, true⟩ outcome }
      else none
  | .emitIndexDone =>
      if s.task = .completed then
        some { s with
          task := .indexDone
          events := s.events ++ [.indexDone] }
      else none
  | .returnOk =>
      if s.task = .indexDone then
        some { s with task := .returned }.dropHandle
      else none
  | .buildDoc i entry =>
      s.withWorker i .queued fun worker =>
        s.setWorker i { worker with
          phase := .built
          doc := some (workerDoc args.enableContentParse worker.file entry) }
  | .lock i ok =>
      if ok then
        if s.mutex = none then
          s.withWorker i .built fun worker =>
            { s.setWorker i { worker with phase := .holding } with
              mutex := some i }
        else none
      else
        s.withWorker i .built fun worker =>
          s.setWorker i { worker with phase := .unlocked }
  | .deleteTerm i =>
      s.withWorker i .holding fun worker =>
        { s.setWorker i { worker with phase := .deleted } with
          pending := SearchEvery.deleteTerm env.tables worker.file.path
            s.pending }
  | .addDocument i ok =>
      s.withWorker i .deleted fun worker =>
        { s.setWorker i { worker with phase := .added } with
          pending := if ok then s.pending ++ worker.doc.toList
            else s.pending }
  | .commit i ok =>
      s.withWorker i .added fun worker =>
        { s.setWorker i { worker with phase := .committed } with
          docs := if ok then s.pending else s.docs }
  | .unlock i =>
      s.withWorker i .committed fun worker =>
        { s.setWorker i { worker with phase := .unlocked } with
          mutex := none }
  | .fetchAdd i =>
      s.withWorker i .unlocked fun worker =>
        { s.setWorker i { worker with
            phase := .counted
            number := some (s.counter + 1) } with
          counter := s.counter + 1 }
  | .emitProgress i =>
      s.withWorker i .counted fun worker =>
        { s.setWorker i { worker with phase := .emitted } with
          events := s.events ++
            [.indexProgress (worker.number.getD 0) worker.file.fileName
              worker.file.path] }
  | .finish i =>
      s.withWorker i .emitted fun worker =>
        (s.setWorker i { worker with phase := .finished }).dropHandle

/-! ## What one step can do -/

def TaskPhase.isSetup : TaskPhase → Bool
  | .start | .dirCreated | .indexOpened | .poolBuilt => true
  | _ => false

def RunAction.isSetup : RunAction → Bool
  | .createDir _ | .openIndex _ | .buildPool _ | .openWriter _ _ => true
  | _ => false

/-- The effect of every action, with the guard under which it is taken. -/
inductive RunStep (env : PipelineEnv) (args : RunArgs)
    (items : List WalkItem) (s : RunState) : RunAction → RunState → Prop
  | setup {action task} (haction : action.isSetup = true)
      (hold : s.task.isSetup = true)
      (hnew : task.isSetup = true ∨ task = .failed) :
      RunStep env args items s action { s with task := task }
  | openWriter {totalMemory ioOk} (htask : s.task = .poolBuilt)
      (hfree : s.locked = false) :
      RunStep env args items s (.openWriter totalMemory ioOk)
        { s with
          task := .writerOpened
          locked := true
          handles := 1
          pending := s.docs }
  | markStarted {today outcome} (htask : s.task = .writerOpened) :
      RunStep env args items s (.markStarted today outcome)
        { s with
          task := .scanning items
          stateFile := writeState s.stateFile ⟨some today, false⟩ outcome }
  | skip {item todo} (htask : s.task = .scanning (item :: todo))
      (hskip : pipelineFile env args item = none) :
      RunStep env args items s .visit { s with task := .scanning todo }
  | spawn {item todo file} (htask : s.task = .scanning (item :: todo))
      (hfile : pipelineFile env args item = some file) :
      RunStep env args items s .visit
        { s with
          task := .scanning todo
          scannedFiles := s.scannedFiles + 1
          events := s.events ++
            [.scanProgress (s.scannedFiles + 1) file.path file.fileName]
          workers := s.workers ++ [Worker.spawn file]
          handles := s.handles + 1 }
  | emitScanDone (htask : s.task = .scanning []) :
      RunStep env args items s .emitScanDone
        { s with
          task := .scanDone
          events := s.events ++ [.scanDone s.scannedFiles] }
  | markCompleted {today outcome} (htask : s.task = .scanDone) :
      RunStep env args items s (.markCompleted today outcome)
        { s with
          task := .completed
          stateFile := writeState s.stateFile ⟨some today, true⟩ outcome }
  | emitIndexDone (htask : s.task = .completed) :
      RunStep env args items s .emitIndexDone
        { s with
          task := .indexDone
          events := s.events ++ [.indexDone] }
  | returnOk (htask : s.task = .indexDone) :
      RunStep env args items s .returnOk
        { s with task := .returned }.dropHandle
  | buildDoc {i entry worker} (hrow : s.workers[i]? = some worker)
      (hphase : worker.phase = .queued) :
      RunStep env args items s (.buildDoc i entry)
        (s.setWorker i { worker with
          phase := .built
          doc := some (workerDoc args.enableContentParse worker.file entry) })
  | lock {i worker} (hrow : s.workers[i]? = some worker)
      (hphase : worker.phase = .built) (hfree : s.mutex = none) :
      RunStep env args items s (.lock i true)
        { s.setWorker i { worker with phase := .holding } with
          mutex := some i }
  | lockFailed {i worker} (hrow : s.workers[i]? = some worker)
      (hphase : worker.phase = .built) :
      RunStep env args items s (.lock i false)
        (s.setWorker i { worker with phase := .unlocked })
  | deleteTerm {i worker} (hrow : s.workers[i]? = some worker)
      (hphase : worker.phase = .holding) :
      RunStep env args items s (.deleteTerm i)
        { s.setWorker i { worker with phase := .deleted } with
          pending := SearchEvery.deleteTerm env.tables worker.file.path
            s.pending }
  | addDocument {i ok worker} (hrow : s.workers[i]? = some worker)
      (hphase : worker.phase = .deleted) :
      RunStep env args items s (.addDocument i ok)
        { s.setWorker i { worker with phase := .added } with
          pending := if ok then s.pending ++ worker.doc.toList
            else s.pending }
  | commit {i ok worker} (hrow : s.workers[i]? = some worker)
      (hphase : worker.phase = .added) :
      RunStep env args items s (.commit i ok)
        { s.setWorker i { worker with phase := .committed } with
          docs := if ok then s.pending else s.docs }
  | unlock {i worker} (hrow : s.workers[i]? = some worker)
      (hphase : worker.phase = .committed) :
      RunStep env args items s (.unlock i)
        { s.setWorker i { worker with phase := .unlocked } with
          mutex := none }
  | fetchAdd {i worker} (hrow : s.workers[i]? = some worker)
      (hphase : worker.phase = .unlocked) :
      RunStep env args items s (.fetchAdd i)
        { s.setWorker i { worker with
            phase := .counted
            number := some (s.counter + 1) } with
          counter := s.counter + 1 }
  | emitProgress {i worker} (hrow : s.workers[i]? = some worker)
      (hphase : worker.phase = .counted) :
      RunStep env args items s (.emitProgress i)
        { s.setWorker i { worker with phase := .emitted } with
          events := s.events ++
            [.indexProgress (worker.number.getD 0) worker.file.fileName
              worker.file.path] }
  | finish {i worker} (hrow : s.workers[i]? = some worker)
      (hphase : worker.phase = .emitted) :
      RunStep env args items s (.finish i)
        (s.setWorker i { worker with phase := .finished }).dropHandle

theorem RunState.withWorker_eq_some
    {s next : RunState} {i : ℕ} {phase : WorkerPhase}
    {k : Worker → RunState} (hstep : s.withWorker i phase k = some next) :
    ∃ worker, s.workers[i]? = some worker ∧ worker.phase = phase ∧
      next = k worker := by
  unfold RunState.withWorker at hstep
  cases hrow : s.workers[i]? with
  | none => simp [hrow] at hstep
  | some worker =>
      simp only [hrow] at hstep
      split at hstep
      next hphase =>
        rw [Option.some.injEq] at hstep
        exact ⟨worker, rfl, hphase, hstep.symm⟩
      next => simp at hstep

private theorem RunStep.setup_of_ite
    {env : PipelineEnv} {args : RunArgs} {items : List WalkItem}
    {s next : RunState} {action : RunAction} {before after : TaskPhase}
    {ok : Bool} (haction : action.isSetup = true)
    (hbefore : before.isSetup = true) (hafter : after.isSetup = true)
    (hstep : (if s.task = before then
      some { s with task := if ok then after else .failed } else none) =
        some next) :
    RunStep env args items s action next := by
  split at hstep
  next htask =>
    rw [Option.some.injEq] at hstep
    subst hstep
    refine RunStep.setup haction (htask ▸ hbefore) ?_
    cases ok with
    | true => exact Or.inl (by simpa using hafter)
    | false => exact Or.inr rfl
  next => simp at hstep

theorem runStep_spec
    {env : PipelineEnv} {args : RunArgs} {items : List WalkItem}
    {s next : RunState} {action : RunAction}
    (hstep : runStep env args items s action = some next) :
    RunStep env args items s action next := by
  cases action with
  | createDir ok => exact RunStep.setup_of_ite rfl rfl rfl hstep
  | openIndex ok => exact RunStep.setup_of_ite rfl rfl rfl hstep
  | buildPool ok => exact RunStep.setup_of_ite rfl rfl rfl hstep
  | openWriter totalMemory ioOk =>
      simp only [runStep] at hstep
      split at hstep
      next htask =>
        split at hstep
        next hopen =>
          rw [Option.some.injEq] at hstep
          subst hstep
          simp only [Bool.and_eq_true, Bool.not_eq_true'] at hopen
          exact RunStep.openWriter htask hopen.1.2
        next =>
          rw [Option.some.injEq] at hstep
          subst hstep
          exact RunStep.setup rfl (by simp [htask, TaskPhase.isSetup])
            (Or.inr rfl)
      next => simp at hstep
  | markStarted today outcome =>
      simp only [runStep, Option.ite_none_right_eq_some,
        Option.some.injEq] at hstep
      obtain ⟨htask, rfl⟩ := hstep
      exact RunStep.markStarted htask
  | visit =>
      simp only [runStep] at hstep
      split at hstep
      next item todo htask =>
        rw [Option.some.injEq] at hstep
        subst hstep
        unfold visitItem
        cases hfile : pipelineFile env args item with
        | none => exact RunStep.skip htask hfile
        | some file => exact RunStep.spawn htask hfile
      next => simp at hstep
  | emitScanDone =>
      simp only [runStep, Option.ite_none_right_eq_some,
        Option.some.injEq] at hstep
      obtain ⟨htask, rfl⟩ := hstep
      exact RunStep.emitScanDone htask
  | markCompleted today outcome =>
      simp only [runStep, Option.ite_none_right_eq_some,
        Option.some.injEq] at hstep
      obtain ⟨htask, rfl⟩ := hstep
      exact RunStep.markCompleted htask
  | emitIndexDone =>
      simp only [runStep, Option.ite_none_right_eq_some,
        Option.some.injEq] at hstep
      obtain ⟨htask, rfl⟩ := hstep
      exact RunStep.emitIndexDone htask
  | returnOk =>
      simp only [runStep, Option.ite_none_right_eq_some,
        Option.some.injEq] at hstep
      obtain ⟨htask, rfl⟩ := hstep
      exact RunStep.returnOk htask
  | buildDoc i entry =>
      obtain ⟨worker, hrow, hphase, rfl⟩ := RunState.withWorker_eq_some hstep
      exact RunStep.buildDoc hrow hphase
  | lock i ok =>
      cases ok with
      | true =>
          simp only [runStep, if_true, Option.ite_none_right_eq_some] at hstep
          obtain ⟨worker, hrow, hphase, rfl⟩ :=
            RunState.withWorker_eq_some hstep.2
          exact RunStep.lock hrow hphase hstep.1
      | false =>
          obtain ⟨worker, hrow, hphase, rfl⟩ :=
            RunState.withWorker_eq_some hstep
          exact RunStep.lockFailed hrow hphase
  | deleteTerm i =>
      obtain ⟨worker, hrow, hphase, rfl⟩ := RunState.withWorker_eq_some hstep
      exact RunStep.deleteTerm hrow hphase
  | addDocument i ok =>
      obtain ⟨worker, hrow, hphase, rfl⟩ := RunState.withWorker_eq_some hstep
      exact RunStep.addDocument hrow hphase
  | commit i ok =>
      obtain ⟨worker, hrow, hphase, rfl⟩ := RunState.withWorker_eq_some hstep
      exact RunStep.commit hrow hphase
  | unlock i =>
      obtain ⟨worker, hrow, hphase, rfl⟩ := RunState.withWorker_eq_some hstep
      exact RunStep.unlock hrow hphase
  | fetchAdd i =>
      obtain ⟨worker, hrow, hphase, rfl⟩ := RunState.withWorker_eq_some hstep
      exact RunStep.fetchAdd hrow hphase
  | emitProgress i =>
      obtain ⟨worker, hrow, hphase, rfl⟩ := RunState.withWorker_eq_some hstep
      exact RunStep.emitProgress hrow hphase
  | finish i =>
      obtain ⟨worker, hrow, hphase, rfl⟩ := RunState.withWorker_eq_some hstep
      exact RunStep.finish hrow hphase

/-! ## Schedules of small runs -/

def sampleEnv : PipelineEnv := ⟨asciiTables, .unix, 15000000⟩

def sampleArgs : RunArgs := ⟨["/d"], [], "idx", false⟩

def sampleItem (path : String) : WalkItem :=
  some ⟨true, some path, some ⟨1, some 5000000000⟩⟩

def setupSteps : List RunAction :=
  [.createDir true, .openIndex true, .buildPool true,
    .openWriter 16000000 true, .markStarted "2024-01-02" .ok]

def publishSteps (i : ℕ) : List RunAction :=
  [.buildDoc i .absent, .lock i true, .deleteTerm i, .addDocument i true,
    .commit i true, .unlock i]

def reportSteps (i : ℕ) : List RunAction :=
  [.fetchAdd i, .emitProgress i, .finish i]

def closingSteps : List RunAction :=
  [.emitScanDone, .markCompleted "2024-01-02" .ok, .emitIndexDone, .returnOk]

end SearchEvery
