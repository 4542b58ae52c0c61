import SearchEvery.PipelineSystem
import Mathlib.Tactic

/-!
# Runs come to an end

Every action of a run lowers its work rank: one for each call which the task
and each worker still have to make, and for each entry which is still to be
visited, with the work of its worker.  A run whose rank is not zero can always
move, because the worker inside the critical section can.  A directory is
locked only while some run on it still has work to do.
-/

namespace SearchEvery

def WorkerPhase.work : WorkerPhase → ℕ
  | .queued => 9
  | .built => 8
  | .holding => 7
  | .deleted => 6
  | .added => 5
  | .committed => 4
  | .unlocked => 3
  | .counted => 2
  | .emitted => 1
  | .finished => 0

/-- The visits to come and the work of the workers they spawn. -/
def itemsWork (env : PipelineEnv) (args : RunArgs) (todo : List WalkItem) : ℕ :=
  todo.length + 9 * (todo.filterMap (pipelineFile env args)).length

def TaskPhase.work (env : PipelineEnv) (args : RunArgs)
    (items : List WalkItem) : TaskPhase → ℕ
  | .start => 9 + itemsWork env args items
  | .dirCreated => 8 + itemsWork env args items
  | .indexOpened => 7 + itemsWork env args items
  | .poolBuilt => 6 + itemsWork env args items
  | .writerOpened => 5 + itemsWork env args items
  | .scanning todo => 4 + itemsWork env args todo
  | .scanDone => 3
  | .completed => 2
  | .indexDone => 1
  | .returned | .failed => 0

def workersWork (workers : List Worker) : ℕ :=
  (workers.map fun worker => worker.phase.work).sum

def RunFrame.work (env : PipelineEnv) (args : RunArgs)
    (items : List WalkItem) (s : RunFrame) : ℕ :=
  s.task.work env args items + workersWork s.workers

/-- The task is over and so is every worker. -/
structure RunFrame.Finished (s : RunFrame) : Prop where
  task : s.task = .returned ∨ s.task = .failed
  workers : ∀ worker ∈ s.workers, worker.phase = .finished

variable {env : PipelineEnv}

section OneRun

variable {args : RunArgs} {items : List WalkItem}

theorem RunFrame.work_eq_zero_iff (s : RunFrame) :
    s.work env args items = 0 ↔ s.Finished := by
  have htask : s.task.work env args items = 0 ↔
      s.task = .returned ∨ s.task = .failed := by
    cases s.task <;> simp [TaskPhase.work]
  have hphase (phase : WorkerPhase) : phase.work = 0 ↔ phase = .finished := by
    cases phase <;> simp [WorkerPhase.work]
  have hworkers : workersWork s.workers = 0 ↔
      ∀ worker ∈ s.workers, worker.phase = .finished := by
    simp only [workersWork, List.sum_eq_zero_iff, List.mem_map,
      forall_exists_index, and_imp, forall_apply_eq_imp_iff₂, hphase]
  rw [RunFrame.work, Nat.add_eq_zero_iff, htask, hworkers]
  exact ⟨fun h => ⟨h.1, h.2⟩, fun h => ⟨h.task, h.workers⟩⟩

theorem workersWork_set
    {workers : List Worker} {i : ℕ} {worker moved : Worker}
    (hrow : workers[i]? = some worker)
    (hless : moved.phase.work < worker.phase.work) :
    workersWork (workers.set i moved) < workersWork workers := by
  have hsum := TableUpdate.sum_map_set (fun worker => worker.phase.work) moved
    hrow
  unfold workersWork
  omega

theorem itemsWork_cons
    (item : WalkItem) (todo : List WalkItem) :
    itemsWork env args (item :: todo) =
      1 + (if (pipelineFile env args item).isSome then 9 else 0) +
        itemsWork env args todo := by
  unfold itemsWork
  cases hfile : pipelineFile env args item with
  | none =>
      rw [List.filterMap_cons_none hfile]
      simp only [List.length_cons, Option.isSome_none, Bool.false_eq_true,
        if_false]
      omega
  | some file =>
      rw [List.filterMap_cons_some hfile]
      simp only [List.length_cons, Option.isSome_some, if_true]
      omega

theorem runStep_setup_work
    {s next : RunState} {action : RunAction} (haction : action.isSetup = true)
    (hstep : runStep env args items s action = some next) :
    next.toRunFrame.work env args items < s.toRunFrame.work env args items := by
  unfold RunFrame.work
  cases action with
  | createDir ok | openIndex ok | buildPool ok =>
      simp only [runStep, Option.ite_none_right_eq_some,
        Option.some.injEq] at hstep
      obtain ⟨htask, rfl⟩ := hstep
      rw [htask]
      cases ok <;> simp [TaskPhase.work]
  | openWriter totalMemory ioOk =>
      simp only [runStep] at hstep
      split at hstep
      next htask =>
        rw [htask]
        split at hstep
        all_goals
          rw [← Option.some.inj hstep]
          simp [TaskPhase.work]
      next => simp at hstep
  | _ => simp [RunAction.isSetup] at haction

/-- Every action lowers the rank. -/
theorem runStep_work
    {s next : RunState} {action : RunAction}
    (hstep : runStep env args items s action = some next) :
    next.toRunFrame.work env args items < s.toRunFrame.work env args items := by
  have hworker {i : ℕ} {worker moved : Worker} {after : RunState}
      (hrow : s.workers[i]? = some worker) (htask : after.task = s.task)
      (hworkers : after.workers = s.workers.set i moved)
      (hless : moved.phase.work < worker.phase.work) :
      after.toRunFrame.work env args items <
        s.toRunFrame.work env args items := by
    unfold RunFrame.work
    rw [htask, hworkers]
    exact Nat.add_lt_add_left (workersWork_set hrow hless) _
  have htaskStep {after : RunState} (hworkers : after.workers = s.workers)
      (hless : after.task.work env args items < s.task.work env args items) :
      after.toRunFrame.work env args items <
        s.toRunFrame.work env args items := by
    unfold RunFrame.work
    rw [hworkers]
    exact Nat.add_lt_add_right hless _
  cases runStep_spec hstep with
  | setup haction _ _ => exact runStep_setup_work haction hstep
  | openWriter _ _ => exact runStep_setup_work rfl hstep
  | markStarted htask =>
      exact htaskStep rfl (by simp [htask, TaskPhase.work])
  | skip htask hskip =>
      refine htaskStep rfl ?_
      rw [htask]
      simp only [TaskPhase.work, itemsWork_cons, hskip]
      simp
  | @spawn item todo file htask hfile =>
      unfold RunFrame.work
      rw [htask]
      simp only [TaskPhase.work, itemsWork_cons, hfile, workersWork,
        List.map_append, List.sum_append]
      simp [Worker.spawn, WorkerPhase.work]
      omega
  | emitScanDone htask =>
      refine htaskStep rfl ?_
      rw [htask]
      simp only [TaskPhase.work]
      omega
  | markCompleted htask =>
      exact htaskStep rfl (by simp [htask, TaskPhase.work])
  | emitIndexDone htask =>
      exact htaskStep rfl (by simp [htask, TaskPhase.work])
  | returnOk htask =>
      exact htaskStep rfl (by simp [RunState.dropHandle, htask, TaskPhase.work])
  | buildDoc hrow hphase =>
      exact hworker hrow rfl rfl (by simp [hphase, WorkerPhase.work])
  | lock hrow hphase _ =>
      exact hworker hrow rfl rfl (by simp [hphase, WorkerPhase.work])
  | lockFailed hrow hphase =>
      exact hworker hrow rfl rfl (by simp [hphase, WorkerPhase.work])
  | deleteTerm hrow hphase =>
      exact hworker hrow rfl rfl (by simp [hphase, WorkerPhase.work])
  | addDocument hrow hphase =>
      exact hworker hrow rfl rfl (by simp [hphase, WorkerPhase.work])
  | commit hrow hphase =>
      exact hworker hrow rfl rfl (by simp [hphase, WorkerPhase.work])
  | unlock hrow hphase =>
      exact hworker hrow rfl rfl (by simp [hphase, WorkerPhase.work])
  | fetchAdd hrow hphase =>
      exact hworker hrow rfl rfl (by simp [hphase, WorkerPhase.work])
  | emitProgress hrow hphase =>
      exact hworker hrow rfl rfl (by simp [hphase, WorkerPhase.work])
  | finish hrow hphase =>
      exact hworker hrow rfl rfl (by simp [hphase, WorkerPhase.work])

/-! ## A run which is not finished can move -/

/-- The call of the action does what it should. -/
def RunAction.callOk : RunAction → Bool
  | .createDir ok | .openIndex ok | .buildPool ok | .openWriter _ ok => ok
  | .markStarted _ outcome | .markCompleted _ outcome => outcome == .ok
  | .lock _ ok | .addDocument _ ok | .commit _ ok => ok
  | _ => true

theorem exists_action_of_task
    {s : RunState} (htask : ¬ (s.task = .returned ∨ s.task = .failed)) :
    ∃ action, action.callOk = true ∧
      (runStep env args items s action).isSome = true := by
  cases hphase : s.task with
  | start => exact ⟨.createDir true, rfl, by simp [runStep, hphase]⟩
  | dirCreated => exact ⟨.openIndex true, rfl, by simp [runStep, hphase]⟩
  | indexOpened => exact ⟨.buildPool true, rfl, by simp [runStep, hphase]⟩
  | poolBuilt =>
      refine ⟨.openWriter 0 true, rfl, ?_⟩
      simp only [runStep, hphase, if_true]
      split <;> rfl
  | writerOpened => exact ⟨.markStarted "" .ok, rfl, by simp [runStep, hphase]⟩
  | scanning todo =>
      cases todo with
      | nil => exact ⟨.emitScanDone, rfl, by simp [runStep, hphase]⟩
      | cons item todo => exact ⟨.visit, rfl, by simp [runStep, hphase]⟩
  | scanDone => exact ⟨.markCompleted "" .ok, rfl, by simp [runStep, hphase]⟩
  | completed => exact ⟨.emitIndexDone, rfl, by simp [runStep, hphase]⟩
  | indexDone => exact ⟨.returnOk, rfl, by simp [runStep, hphase]⟩
  | returned => exact (htask (Or.inl hphase)).elim
  | failed => exact (htask (Or.inr hphase)).elim

theorem RunState.withWorker_isSome
    {s : RunState} {i : ℕ} {worker : Worker} {phase : WorkerPhase}
    (hrow : s.workers[i]? = some worker) (hphase : worker.phase = phase)
    (k : Worker → RunState) : (s.withWorker i phase k).isSome = true := by
  simp [RunState.withWorker, hrow, hphase]

/-- A worker outside the queue for the mutex can move. -/
theorem exists_action_of_worker
    {s : RunState} {i : ℕ} {worker : Worker}
    (hrow : s.workers[i]? = some worker) (hbuilt : worker.phase ≠ .built)
    (hunfinished : worker.phase ≠ .finished) :
    ∃ action, action.callOk = true ∧
      (runStep env args items s action).isSome = true := by
  have hsome {phase : WorkerPhase} (hphase : worker.phase = phase) :=
    RunState.withWorker_isSome hrow hphase
  cases hphase : worker.phase with
  | queued => exact ⟨.buildDoc i .absent, rfl, hsome hphase _⟩
  | built => exact (hbuilt hphase).elim
  | holding => exact ⟨.deleteTerm i, rfl, hsome hphase _⟩
  | deleted => exact ⟨.addDocument i true, rfl, hsome hphase _⟩
  | added => exact ⟨.commit i true, rfl, hsome hphase _⟩
  | committed => exact ⟨.unlock i, rfl, hsome hphase _⟩
  | unlocked => exact ⟨.fetchAdd i, rfl, hsome hphase _⟩
  | counted => exact ⟨.emitProgress i, rfl, hsome hphase _⟩
  | emitted => exact ⟨.finish i, rfl, hsome hphase _⟩
  | finished => exact (hunfinished hphase).elim

theorem RunState.Coherent.exists_action
    {s : RunState} (hgood : s.Coherent env args items)
    (hleft : ¬ s.toRunFrame.Finished) :
    ∃ action, action.callOk = true ∧
      (runStep env args items s action).isSome = true := by
  by_cases htask : s.task = .returned ∨ s.task = .failed
  · have hworkers : ¬ ∀ worker ∈ s.workers, worker.phase = .finished :=
      fun hworkers => hleft ⟨htask, hworkers⟩
    simp only [not_forall] at hworkers
    obtain ⟨worker, hmem, hunfinished⟩ := hworkers
    obtain ⟨i, hrow⟩ := List.mem_iff_getElem?.mp hmem
    by_cases hbuilt : worker.phase = .built
    · -- The worker waits for the mutex, so either it gets it or the worker
      -- which has it can go on.
      cases hmutex : s.mutex with
      | none =>
          refine ⟨.lock i true, rfl, ?_⟩
          simp only [runStep, if_true, hmutex]
          exact RunState.withWorker_isSome hrow hbuilt _
      | some j =>
          obtain ⟨holder, hholder, hcritical⟩ := (hgood.mutex j).mp hmutex
          refine exists_action_of_worker hholder ?_ ?_
          · rintro hphase
            simp [hphase, WorkerPhase.isCritical] at hcritical
          · rintro hphase
            simp [hphase, WorkerPhase.isCritical] at hcritical
    · exact exists_action_of_worker hrow hbuilt hunfinished
  · exact exists_action_of_task htask

theorem RunState.Coherent.handles_eq_zero
    {s : RunState} (hgood : s.Coherent env args items)
    (hfinished : s.toRunFrame.Finished) : s.handles = 0 := by
  have htask : s.task.holdsWriter = false := by
    rcases hfinished.task with htask | htask <;> rw [htask] <;> rfl
  have hworkers : s.workers.countP Worker.isUnfinished = 0 := by
    rw [List.countP_eq_zero]
    intro worker hmem
    simp [Worker.isUnfinished, hfinished.workers worker hmem]
  have hhandles := hgood.handles
  rw [htask, hworkers] at hhandles
  simpa using hhandles

/-- A lock which is left after a step belongs to the run, or was there before
and the run's handles are as before. -/
theorem runStep_locked_cases
    {s next : RunState} {action : RunAction}
    (hstep : runStep env args items s action = some next)
    (hlocked : next.locked = true) :
    0 < next.handles ∨ next.handles = s.handles ∧ s.locked = true := by
  have hdrop {after : RunState} (hafter : after.dropHandle.locked = true) :
      0 < after.dropHandle.handles := by
    simp only [RunState.dropHandle] at hafter ⊢
    split at hafter
    · simp at hafter
    · omega
  cases runStep_spec hstep with
  | openWriter _ _ => exact Or.inl (by simp)
  | spawn _ _ => exact Or.inl (by simp)
  | returnOk _ => exact Or.inl (hdrop hlocked)
  | finish _ _ => exact Or.inl (hdrop hlocked)
  | _ => exact Or.inr ⟨rfl, hlocked⟩

end OneRun

/-! ## All runs together -/

def SysAction.isOf (r : ℕ) : SysAction → Bool
  | .run r' _ => r' == r
  | _ => false

/-- The calls of a run in which nothing fails. -/
def runCalls (env : PipelineEnv) (args : RunArgs) (items : List WalkItem) : ℕ :=
  9 + items.length + 9 * (items.filterMap (pipelineFile env args)).length

/-- The actions so far of every run and the work it has left are within its
calls, and every lock has an owner. -/
structure Sys.Bounded (env : PipelineEnv) (past : List SysAction)
    (sys : Sys) : Prop where
  coherent : sys.Coherent env
  calls :
    ∀ (r : ℕ) (run : Run), sys.runs[r]? = some run →
      past.countP (SysAction.isOf r) + run.frame.work env run.args run.items ≤
        runCalls env run.args run.items
  none : ∀ r, sys.runs.length ≤ r → past.countP (SysAction.isOf r) = 0
  owner : ∀ dir, sys.locked dir = true → ∃ r, sys.InSpan dir r

theorem work_initial
    (args : RunArgs) (items : List WalkItem) :
    RunFrame.initial.work env args items = runCalls env args items := by
  simp only [RunFrame.work, RunFrame.initial, TaskPhase.work, itemsWork,
    workersWork, runCalls, List.map_nil, List.sum_nil]
  omega

/-- An action of the scheduler or of a command moves no run. -/
theorem Sys.Bounded.other
    {past : List SysAction} {sys next : Sys} {action : SysAction}
    (hbounded : sys.Bounded env past) (hother : ∀ r, action.isOf r = false)
    (hstep : sysStep env sys action = some next) :
    next.Bounded env (past ++ [action]) := by
  have hcoherent := hbounded.coherent.step hstep
  have hcount (r : ℕ) : (past ++ [action]).countP (SysAction.isOf r) =
      past.countP (SysAction.isOf r) := by
    simp [hother r]
  cases sysStep_spec hstep with
  | schedule scheduled =>
      refine ⟨hcoherent, ?_, ?_, hbounded.owner⟩
      · intro r run hrow
        rw [hcount]
        exact hbounded.calls r run hrow
      · intro r hr
        rw [hcount]
        exact hbounded.none r hr
  | launch scheduled args items =>
      refine ⟨hcoherent, ?_, ?_, ?_⟩
      · intro r run hrow
        rw [hcount]
        rcases TableUpdate.getElem?_append_cases hrow with ⟨hr, rfl⟩ | hold
        · rw [hbounded.none r (le_of_eq hr.symm), Nat.zero_add]
          exact le_of_eq (work_initial args items)
        · exact hbounded.calls r run hold
      · intro r hr
        rw [hcount]
        refine hbounded.none r ?_
        simp only [List.length_append] at hr
        omega
      · intro dir hlocked
        obtain ⟨r, run, hrow, hspan⟩ := hbounded.owner dir hlocked
        refine ⟨r, run, ?_, hspan⟩
        rw [List.getElem?_append_left (List.getElem?_eq_some_iff.mp hrow).1]
        exact hrow
  | @run r action run after hrow hrun =>
      have hself := hother r
      simp [SysAction.isOf] at hself

theorem Sys.Bounded.run
    {past : List SysAction} {sys : Sys} {r : ℕ} {run : Run} {after : RunState}
    {action : RunAction} (hbounded : sys.Bounded env past)
    (hrow : sys.runs[r]? = some run)
    (hstep : runStep env run.args run.items (sys.view run) action =
      some after) :
    (sys.store r run after).Bounded env (past ++ [.run r action]) := by
  have hcoherent := hbounded.coherent.run hrow hstep
  have hcount (r' : ℕ) (hne : r' ≠ r) :
      (past ++ [SysAction.run r action]).countP (SysAction.isOf r') =
        past.countP (SysAction.isOf r') := by
    simp [SysAction.isOf, hne.symm]
  refine ⟨hcoherent, ?_, ?_, ?_⟩
  · intro r' other hother
    simp only [Sys.store] at hother
    rcases TableUpdate.getElem?_set_cases hother with ⟨rfl, rfl⟩ | ⟨hne, hold⟩
    · have hless : after.toRunFrame.work env run.args run.items <
          run.frame.work env run.args run.items := runStep_work hstep
      have hcalls := hbounded.calls r' run hrow
      simp only [List.countP_append, List.countP_singleton, SysAction.isOf,
        beq_self_eq_true, if_true]
      omega
    · rw [hcount r' hne]
      exact hbounded.calls r' other hold
  · intro r' hr'
    have hlength : sys.runs.length ≤ r' := by
      simpa [Sys.store] using hr'
    have hlt : r < sys.runs.length :=
      (List.getElem?_eq_some_iff.mp hrow).1
    rw [hcount r' (by omega)]
    exact hbounded.none r' hlength
  · intro dir hlocked
    have hset : (sys.store r run after).runs[r]? =
        some { run with frame := after.toRunFrame } := by
      simp only [Sys.store]
      exact List.getElem?_set_self (List.getElem?_eq_some_iff.mp hrow).1
    have hkeep (hdir : sys.locked dir = true)
        (hself : run.args.indexDir = dir → after.handles = run.frame.handles) :
        ∃ r', (sys.store r run after).InSpan dir r' := by
      obtain ⟨r', other, hother, hdir', hspan⟩ := hbounded.owner dir hdir
      by_cases hr : r' = r
      · subst hr
        rw [hrow] at hother
        obtain rfl := Option.some.inj hother
        exact ⟨r', _, hset, hdir', (hself hdir').symm ▸ hspan⟩
      · refine ⟨r', other, ?_, hdir', hspan⟩
        simp only [Sys.store]
        rw [List.getElem?_set_ne (Ne.symm hr)]
        exact hother
    by_cases hdir : dir = run.args.indexDir
    · subst hdir
      simp only [Sys.store, Function.update_self] at hlocked
      rcases runStep_locked_cases hstep hlocked with hpos | ⟨hsame, hbefore⟩
      · exact ⟨r, _, hset, rfl, hpos⟩
      · exact hkeep hbefore fun _ => hsame
    · simp only [Sys.store, Function.update_of_ne hdir] at hlocked
      exact hkeep hlocked fun hself => (hdir hself.symm).elim

theorem Sys.Bounded.step
    {past : List SysAction} {sys next : Sys} {action : SysAction}
    (hbounded : sys.Bounded env past)
    (hstep : sysStep env sys action = some next) :
    next.Bounded env (past ++ [action]) := by
  cases action with
  | run r action =>
      obtain ⟨run, after, hrow, hafter, rfl⟩ := sysStep_run hstep
      exact hbounded.run hrow hafter
  | poll | spawnScheduled | scanAndIndexPipeline | startAutoScanNow =>
      exact hbounded.other (fun _ => rfl) hstep

/-- In every interleaving of runs, whatever their calls answer, each run takes
at most as many actions as it has calls to make, and it can move until its task
and all its workers are over.  A directory is locked only while a run on it
can still move, so that when all runs are over every directory is free. -/
theorem pipelineRuns_end
    {init final : Sys} {actions : List SysAction} (hruns : init.runs = [])
    (hfree : ∀ dir, init.locked dir = false)
    (hexec : ActionSystem.exec (sysStep env) init actions = some final) :
    (∀ (r : ℕ) (run : Run), final.runs[r]? = some run →
      actions.countP (SysAction.isOf r) ≤ runCalls env run.args run.items ∧
      ((∀ action, sysStep env final (.run r action) = none) ↔
        run.frame.Finished) ∧
      (¬ run.frame.Finished → ∃ action, action.callOk = true ∧
        (sysStep env final (.run r action)).isSome = true)) ∧
    ∀ dir, final.locked dir = true → ∃ (r : ℕ) (run : Run),
      final.runs[r]? = some run ∧ run.args.indexDir = dir ∧
        ¬ run.frame.Finished := by
  have hinit : init.Bounded env [] :=
    ⟨Sys.coherent_of_no_runs env hruns, by simp [hruns], by simp,
      fun dir hlocked => by simp [hfree dir] at hlocked⟩
  have hstep (past : List SysAction) (sys : Sys) (action : SysAction)
      (next : Sys) (hbounded : sys.Bounded env past)
      (hnext : sysStep env sys action = some next) :
      next.Bounded env (past ++ [action]) := hbounded.step hnext
  have hfinal := ActionSystem.exec_invariant_history hstep hinit hexec
  rw [List.nil_append] at hfinal
  have hview {r : ℕ} {run : Run} (hrow : final.runs[r]? = some run)
      (action : RunAction) : (sysStep env final (.run r action)).isSome =
        (runStep env run.args run.items (final.view run) action).isSome := by
    simp [sysStep, hrow]
  refine ⟨?_, ?_⟩
  · intro r run hrow
    have hgood := hfinal.coherent.row hrow
    have hmoves : ¬ run.frame.Finished → ∃ action, action.callOk = true ∧
        (sysStep env final (.run r action)).isSome = true := by
      intro hleft
      obtain ⟨action, hcallOk, hsome⟩ := hgood.exists_action hleft
      exact ⟨action, hcallOk, (hview hrow action).trans hsome⟩
    refine ⟨?_, ⟨?_, ?_⟩, hmoves⟩
    · have hcalls := hfinal.calls r run hrow
      omega
    · intro hstuck
      by_contra hleft
      obtain ⟨action, _, hsome⟩ := hmoves hleft
      rw [hstuck action] at hsome
      contradiction
    · intro hfinished action
      have hzero := (@RunFrame.work_eq_zero_iff env run.args run.items
        run.frame).mpr hfinished
      rw [← Option.not_isSome_iff_eq_none, hview hrow action]
      intro hsome
      obtain ⟨after, hafter⟩ := Option.isSome_iff_exists.mp hsome
      have hless : after.toRunFrame.work env run.args run.items <
          run.frame.work env run.args run.items := runStep_work hafter
      omega
  · intro dir hlocked
    obtain ⟨r, run, hrow, hdir, hspan⟩ := hfinal.owner dir hlocked
    refine ⟨r, run, hrow, hdir, fun hfinished => ?_⟩
    have hzero := (hfinal.coherent.row hrow).handles_eq_zero hfinished
    have hsame : (final.view run).handles = run.frame.handles := rfl
    omega

/-- The second of two runs on one directory is over once it has failed to open
a writer, and the first still has the directory. -/
theorem pipelineRuns_end_contended :
    ∃ final,
      ActionSystem.exec (sysStep sampleEnv) emptySys contendedSteps =
        some final ∧
      (∀ action, sysStep sampleEnv final (.run 1 action) = none) ∧
      ∃ (r : ℕ) (run : Run), final.runs[r]? = some run ∧
        run.args.indexDir = "idx" ∧ ¬ run.frame.Finished := by
  have hexec := (Option.some_get (x := ActionSystem.exec (sysStep sampleEnv)
    emptySys contendedSteps) (by decide)).symm
  obtain ⟨hends, hlocks⟩ := @pipelineRuns_end sampleEnv _ _ _ rfl
    (fun _ => rfl) hexec
  refine ⟨_, hexec, ?_, hlocks "idx" (by decide)⟩
  refine (hends 1 _ rfl).2.1.mpr ⟨Or.inr rfl, ?_⟩
  intro worker hworker
  exact (List.not_mem_nil hworker).elim

end SearchEvery
