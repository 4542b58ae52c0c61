import SearchEvery.PipelineDocs
import Mathlib.Tactic

/-!
# Many pipeline runs

The runs of the whole program share the index directories, the writer lock of
each directory and the one state file.  A run is started by the scheduler, by
the `scan_and_index_pipeline` command or by `start_auto_scan_now`; nothing
stops a second one from starting while the first still has workers.
-/

namespace SearchEvery

structure AppConfig where
  scanRoots : List String
  excludePatterns : List String
  indexDir : String
  autoScanEnabled : Bool
  deriving DecidableEq

structure IndexOptions where
  indexDir : String
  enableContentParse : Bool
  deriving DecidableEq

def AppConfig.runArgs (cfg : AppConfig) : RunArgs where
  roots := cfg.scanRoots
  excludePatterns := cfg.excludePatterns
  indexDir := cfg.indexDir
  enableContentParse := false

def commandArgs (opts : ScanOptions) (indexOpts : IndexOptions) : RunArgs where
  roots := opts.roots
  excludePatterns := opts.excludePatterns
  indexDir := indexOpts.indexDir
  enableContentParse := indexOpts.enableContentParse

/-- The scheduler's test; a state which does not load counts as the default. -/
def needRun (file : StateFile) (today : String) : Bool :=
  let state := file.getD ⟨none, false⟩
  !state.completed || state.lastDay != some today

structure Run where
  args : RunArgs
  items : List WalkItem
  frame : RunFrame

/-- The documents and the writer lock of each index directory, the state file,
the run the scheduler is about to start, and the runs in starting order. -/
structure Sys where
  docs : String → List Doc
  locked : String → Bool
  stateFile : StateFile
  scheduled : Option RunArgs
  runs : List Run

def Sys.view (sys : Sys) (run : Run) : RunState :=
  { run.frame with
    docs := sys.docs run.args.indexDir
    locked := sys.locked run.args.indexDir
    stateFile := sys.stateFile }

def Sys.store (sys : Sys) (r : ℕ) (run : Run) (next : RunState) : Sys :=
  { sys with
    docs := Function.update sys.docs run.args.indexDir next.docs
    locked := Function.update sys.locked run.args.indexDir next.locked
    stateFile := next.stateFile
    runs := sys.runs.set r { run with frame := next.toRunFrame } }

def Sys.launch (sys : Sys) (args : RunArgs) (walks : List (List WalkItem)) :
    Option Sys :=
  if walks.length = args.roots.length then
    some { sys with
      runs := sys.runs ++ [⟨args, walks.flatten, RunFrame.initial⟩] }
  else none

inductive SysAction
  | poll (cfg : AppConfig) (today : String) (idle : Bool)
  | spawnScheduled (walks : List (List WalkItem))
  | scanAndIndexPipeline (opts : ScanOptions) (indexOpts : IndexOptions)
      (walks : List (List WalkItem))
  | startAutoScanNow (cfg : AppConfig) (walks : List (List WalkItem))
  | run (r : ℕ) (action : RunAction)

/-- One step of the system.  The scheduler reads the state file and spawns the
run in two steps, so that other runs may move in between. -/
def sysStep (env : PipelineEnv) (sys : Sys) : SysAction → Option Sys
  | .poll cfg today idle =>
      if sys.scheduled = none then
        if cfg.autoScanEnabled && needRun sys.stateFile today && idle then
          some { sys with scheduled := some cfg.runArgs }
        else some sys
      else none
  | .spawnScheduled walks =>
      match sys.scheduled with
      | none => none
      | some args => { sys with scheduled := none }.launch args walks
  | .scanAndIndexPipeline opts indexOpts walks =>
      sys.launch (commandArgs opts indexOpts) walks
  | .startAutoScanNow cfg walks => sys.launch cfg.runArgs walks
  | .run r action =>
      match sys.runs[r]? with
      | none => none
      | some run =>
          (runStep env run.args run.items (sys.view run) action).map
            (sys.store r run)

inductive SysStep (env : PipelineEnv) (sys : Sys) : SysAction → Sys → Prop
  | schedule {action} (scheduled : Option RunArgs) :
      SysStep env sys action { sys with scheduled := scheduled }
  | launch {action} (scheduled : Option RunArgs) (args : RunArgs)
      (items : List WalkItem) :
      SysStep env sys action
        { sys with
          scheduled := scheduled
          runs := sys.runs ++ [⟨args, items, RunFrame.initial⟩] }
  | run {r action run next} (hrow : sys.runs[r]? = some run)
      (hstep : runStep env run.args run.items (sys.view run) action =
        some next) :
      SysStep env sys (.run r action) (sys.store r run next)

variable {env : PipelineEnv}

private theorem SysStep.of_launch
    (scheduled : Option RunArgs) {sys next : Sys} {action : SysAction}
    {args : RunArgs} {walks : List (List WalkItem)}
    (hlaunch : { sys with scheduled := scheduled }.launch args walks =
      some next) :
    SysStep env sys action next := by
  unfold Sys.launch at hlaunch
  split at hlaunch
  next =>
    rw [Option.some.injEq] at hlaunch
    subst hlaunch
    exact .launch scheduled args walks.flatten
  next => simp at hlaunch

theorem sysStep_run
    {sys next : Sys} {r : ℕ} {action : RunAction}
    (hstep : sysStep env sys (.run r action) = some next) :
    ∃ run after, sys.runs[r]? = some run ∧
      runStep env run.args run.items (sys.view run) action = some after ∧
        next = sys.store r run after := by
  simp only [sysStep] at hstep
  split at hstep
  next => simp at hstep
  next run hrow =>
    obtain ⟨after, hafter, hnext⟩ := Option.map_eq_some_iff.mp hstep
    exact ⟨run, after, hrow, hafter, hnext.symm⟩

theorem sysStep_spec
    {sys next : Sys} {action : SysAction}
    (hstep : sysStep env sys action = some next) :
    SysStep env sys action next := by
  cases action with
  | poll cfg today idle =>
      simp only [sysStep] at hstep
      split at hstep
      next =>
        split at hstep
        next =>
          rw [Option.some.injEq] at hstep
          subst hstep
          exact .schedule _
        next =>
          rw [Option.some.injEq] at hstep
          subst hstep
          exact .schedule sys.scheduled
      next => simp at hstep
  | spawnScheduled walks =>
      simp only [sysStep] at hstep
      split at hstep
      next => simp at hstep
      next => exact .of_launch none hstep
  | scanAndIndexPipeline opts indexOpts walks =>
      exact SysStep.of_launch sys.scheduled hstep
  | startAutoScanNow cfg walks =>
      exact SysStep.of_launch sys.scheduled hstep
  | run r action =>
      obtain ⟨run, after, hrow, hafter, rfl⟩ := sysStep_run hstep
      exact .run hrow hafter

/-! ## Handles and locks -/

section OneRun

variable {args : RunArgs} {items : List WalkItem}

theorem RunState.Coherent.of_frame
    {s s' : RunState} (hgood : s.Coherent env args items)
    (hframe : s'.toRunFrame = s.toRunFrame) :
    s'.Coherent env args items where
  handles := by rw [hframe]; exact hgood.handles
  mutex := by rw [hframe]; exact hgood.mutex
  docOf := by rw [hframe]; exact hgood.docOf
  files := by rw [hframe]; exact hgood.files
  scanned := by rw [hframe]; exact hgood.scanned

theorem RunState.Coherent.handles_pos_of_holdsWriter
    {s : RunState} (hgood : s.Coherent env args items)
    (hholds : s.task.holdsWriter = true) : 0 < s.handles := by
  have hhandles := hgood.handles
  rw [if_pos hholds] at hhandles
  omega

theorem RunState.Coherent.handles_pos_of_row
    {s : RunState} (hgood : s.Coherent env args items)
    {i : ℕ} {worker : Worker} (hrow : s.workers[i]? = some worker)
    (hphase : worker.phase ≠ .finished) : 0 < s.handles := by
  have hcount : 0 < s.workers.countP Worker.isUnfinished := by
    rw [List.countP_pos_iff]
    exact ⟨worker, List.mem_of_getElem? hrow, by
      simp [Worker.isUnfinished, hphase]⟩
  have hhandles := hgood.handles
  omega

/-- After the writer is opened, a run moves only while it holds a handle. -/
theorem runStep_handles_pos
    {s next : RunState} {action : RunAction}
    (hgood : s.Coherent env args items) (haction : action.isSetup = false)
    (hstep : runStep env args items s action = some next) :
    0 < s.handles := by
  have htask :
      ∀ {task : TaskPhase}, s.task = task → task.holdsWriter = true →
        0 < s.handles :=
    fun htask hholds => hgood.handles_pos_of_holdsWriter (htask ▸ hholds)
  cases runStep_spec hstep with
  | setup hsetup _ _ =>
      rw [hsetup] at haction
      contradiction
  | openWriter _ _ => simp [RunAction.isSetup] at haction
  | markStarted heq => exact htask heq rfl
  | skip heq _ => exact htask heq rfl
  | spawn heq _ => exact htask heq rfl
  | emitScanDone heq => exact htask heq rfl
  | markCompleted heq => exact htask heq rfl
  | emitIndexDone heq => exact htask heq rfl
  | returnOk heq => exact htask heq rfl
  | buildDoc hrow hphase => exact hgood.handles_pos_of_row hrow (by simp [hphase])
  | lock hrow hphase _ => exact hgood.handles_pos_of_row hrow (by simp [hphase])
  | lockFailed hrow hphase =>
      exact hgood.handles_pos_of_row hrow (by simp [hphase])
  | deleteTerm hrow hphase =>
      exact hgood.handles_pos_of_row hrow (by simp [hphase])
  | addDocument hrow hphase =>
      exact hgood.handles_pos_of_row hrow (by simp [hphase])
  | commit hrow hphase => exact hgood.handles_pos_of_row hrow (by simp [hphase])
  | unlock hrow hphase => exact hgood.handles_pos_of_row hrow (by simp [hphase])
  | fetchAdd hrow hphase => exact hgood.handles_pos_of_row hrow (by simp [hphase])
  | emitProgress hrow hphase =>
      exact hgood.handles_pos_of_row hrow (by simp [hphase])
  | finish hrow hphase => exact hgood.handles_pos_of_row hrow (by simp [hphase])

theorem runStep_setup
    {s next : RunState} {action : RunAction} (haction : action.isSetup = true)
    (hstep : runStep env args items s action = some next) :
    next.docs = s.docs ∧ next.stateFile = s.stateFile ∧
      ((next.handles = s.handles ∧ next.locked = s.locked) ∨
        (s.locked = false ∧ next.handles = 1 ∧ next.locked = true)) := by
  cases runStep_spec hstep with
  | setup _ _ _ => exact ⟨rfl, rfl, Or.inl ⟨rfl, rfl⟩⟩
  | openWriter _ hfree => exact ⟨rfl, rfl, Or.inr ⟨hfree, rfl, rfl⟩⟩
  | _ => simp [RunAction.isSetup] at haction

theorem RunState.dropHandle_locked
    {s : RunState} (hhandles : 0 < s.dropHandle.handles) :
    s.dropHandle.locked = s.locked := by
  simp only [RunState.dropHandle] at hhandles ⊢
  rw [if_neg (by omega)]

theorem runStep_locked_of_handles
    {s next : RunState} {action : RunAction} (haction : action.isSetup = false)
    (hstep : runStep env args items s action = some next)
    (hhandles : 0 < next.handles) : next.locked = s.locked := by
  cases runStep_spec hstep with
  | openWriter _ _ => simp [RunAction.isSetup] at haction
  | returnOk _ => exact RunState.dropHandle_locked hhandles
  | finish _ _ => exact RunState.dropHandle_locked hhandles
  | _ => rfl

theorem runStep_locked
    {s next : RunState} {action : RunAction}
    (hgood : s.Coherent env args items)
    (hlocked : 0 < s.handles → s.locked = true)
    (hstep : runStep env args items s action = some next)
    (hhandles : 0 < next.handles) : next.locked = true := by
  cases haction : action.isSetup with
  | true =>
      rcases (runStep_setup haction hstep).2.2 with hsame | hopen
      · rw [hsame.2]
        exact hlocked (hsame.1 ▸ hhandles)
      · exact hopen.2.2
  | false =>
      rw [runStep_locked_of_handles haction hstep hhandles]
      exact hlocked (runStep_handles_pos hgood haction hstep)

theorem runStep_idle
    {s next : RunState} {action : RunAction}
    (hgood : s.Coherent env args items) (hidle : s.handles = 0)
    (hlocked : s.locked = true)
    (hstep : runStep env args items s action = some next) :
    next.handles = 0 ∧ next.locked = true := by
  cases haction : action.isSetup with
  | true =>
      rcases (runStep_setup haction hstep).2.2 with hsame | hopen
      · exact ⟨hsame.1.trans hidle, hsame.2.trans hlocked⟩
      · rw [hopen.1] at hlocked
        contradiction
  | false =>
      have hpos := runStep_handles_pos hgood haction hstep
      omega

end OneRun

/-! ## Mutual exclusion -/

/-- Run `r` works on the directory, and stands between the opening of its
writer and the release of the last handle. -/
def Sys.InSpan (sys : Sys) (dir : String) (r : ℕ) : Prop :=
  ∃ run, sys.runs[r]? = some run ∧ run.args.indexDir = dir ∧
    0 < run.frame.handles

structure Sys.Coherent (env : PipelineEnv) (sys : Sys) : Prop where
  runs : ∀ run ∈ sys.runs, (sys.view run).Coherent env run.args run.items
  locked : ∀ dir r, sys.InSpan dir r → sys.locked dir = true
  unique : ∀ dir r r', sys.InSpan dir r → sys.InSpan dir r' → r = r'

theorem Sys.coherent_of_no_runs
    (env : PipelineEnv) {sys : Sys} (hruns : sys.runs = []) : sys.Coherent env := by
  constructor <;> simp [Sys.InSpan, hruns]

theorem Sys.InSpan.of_launch
    {sys : Sys} {scheduled : Option RunArgs} {args : RunArgs}
    {items : List WalkItem} {dir : String} {r : ℕ}
    (hspan : Sys.InSpan
      { sys with
        scheduled := scheduled
        runs := sys.runs ++ [⟨args, items, RunFrame.initial⟩] } dir r) :
    sys.InSpan dir r := by
  obtain ⟨run, hget, hdir, hhandles⟩ := hspan
  rcases TableUpdate.getElem?_append_cases hget with ⟨_, rfl⟩ | hold
  · simp [RunFrame.initial] at hhandles
  · exact ⟨run, hold, hdir, hhandles⟩

theorem Sys.InSpan.of_store
    {sys : Sys} {r r' : ℕ} {run : Run} {next : RunState} {dir : String}
    (hspan : (sys.store r run next).InSpan dir r') :
    (r' = r ∧ run.args.indexDir = dir ∧ 0 < next.handles) ∨
      (r' ≠ r ∧ sys.InSpan dir r') := by
  obtain ⟨other, hget, hdir, hhandles⟩ := hspan
  rcases TableUpdate.getElem?_set_cases hget with ⟨heq, rfl⟩ | ⟨hne, hold⟩
  · exact Or.inl ⟨heq, hdir, hhandles⟩
  · exact Or.inr ⟨hne, other, hold, hdir, hhandles⟩

theorem Sys.Coherent.row
    {sys : Sys} (hgood : sys.Coherent env) {r : ℕ} {run : Run}
    (hrow : sys.runs[r]? = some run) :
    (sys.view run).Coherent env run.args run.items :=
  hgood.runs run (List.mem_of_getElem? hrow)

theorem Sys.Coherent.row_locked
    {sys : Sys} (hgood : sys.Coherent env) {r : ℕ} {run : Run}
    (hrow : sys.runs[r]? = some run) (hhandles : 0 < (sys.view run).handles) :
    (sys.view run).locked = true :=
  hgood.locked run.args.indexDir r ⟨run, hrow, rfl, hhandles⟩

theorem Sys.Coherent.idle_of_other
    {sys : Sys} (hgood : sys.Coherent env) {r r' : ℕ} {run : Run}
    {next : RunState} {action : RunAction}
    (hrow : sys.runs[r]? = some run)
    (hstep : runStep env run.args run.items (sys.view run) action = some next)
    (hne : r' ≠ r) (hspan : sys.InSpan run.args.indexDir r') :
    next.handles = 0 ∧ next.locked = true := by
  have hidle : (sys.view run).handles = 0 := by
    by_contra hpos
    exact hne (hgood.unique _ r' r hspan
      ⟨run, hrow, rfl, Nat.pos_of_ne_zero hpos⟩)
  exact runStep_idle (hgood.row hrow) hidle
    (hgood.locked run.args.indexDir r' hspan) hstep

theorem Sys.Coherent.run
    {sys : Sys} (hgood : sys.Coherent env) {r : ℕ} {run : Run}
    {next : RunState} {action : RunAction}
    (hrow : sys.runs[r]? = some run)
    (hstep : runStep env run.args run.items (sys.view run) action =
      some next) :
    (sys.store r run next).Coherent env where
  runs := by
    intro other hmem
    rcases List.mem_or_eq_of_mem_set hmem with hold | rfl
    · exact (hgood.runs other hold).of_frame rfl
    · exact ((hgood.row hrow).step hstep).of_frame rfl
  locked := by
    intro dir r' hspan
    simp only [Sys.store]
    rcases hspan.of_store with ⟨_, rfl, hhandles⟩ | ⟨hne, hold⟩
    · rw [Function.update_self]
      exact runStep_locked (hgood.row hrow) (hgood.row_locked hrow) hstep
        hhandles
    · by_cases hdir : dir = run.args.indexDir
      · subst hdir
        rw [Function.update_self]
        exact (hgood.idle_of_other hrow hstep hne hold).2
      · rw [Function.update_of_ne hdir]
        exact hgood.locked dir r' hold
  unique := by
    intro dir r₁ r₂ hspan₁ hspan₂
    rcases hspan₁.of_store with ⟨h₁, hdir₁, hpos₁⟩ | ⟨hne₁, hold₁⟩ <;>
      rcases hspan₂.of_store with ⟨h₂, hdir₂, hpos₂⟩ | ⟨hne₂, hold₂⟩
    · exact h₁.trans h₂.symm
    · subst hdir₁
      have hidle := (hgood.idle_of_other hrow hstep hne₂ hold₂).1
      omega
    · subst hdir₂
      have hidle := (hgood.idle_of_other hrow hstep hne₁ hold₁).1
      omega
    · exact hgood.unique dir r₁ r₂ hold₁ hold₂

theorem Sys.Coherent.step
    {sys next : Sys} {action : SysAction} (hgood : sys.Coherent env)
    (hstep : sysStep env sys action = some next) : next.Coherent env := by
  cases sysStep_spec hstep with
  | schedule _ => exact ⟨hgood.runs, hgood.locked, hgood.unique⟩
  | launch _ args items =>
      constructor
      · intro run hmem
        rcases List.mem_append.mp hmem with hold | hnew
        · exact hgood.runs run hold
        · rw [List.mem_singleton] at hnew
          subst hnew
          exact RunState.start_coherent env args items _ _ _
      · exact fun dir r hspan => hgood.locked dir r hspan.of_launch
      · exact fun dir r r' hspan hspan' =>
          hgood.unique dir r r' hspan.of_launch hspan'.of_launch
  | run hrow hrun => exact hgood.run hrow hrun

theorem Sys.Coherent.exec
    {sys final : Sys} {actions : List SysAction} (hgood : sys.Coherent env)
    (hexec : ActionSystem.exec (sysStep env) sys actions = some final) :
    final.Coherent env :=
  ActionSystem.exec_invariant
    (fun _ _ _ hinv hstep => Sys.Coherent.step hinv hstep) hgood hexec

/-! ## Runs which fail -/

section OneRun

variable {args : RunArgs} {items : List WalkItem}

theorem runStep_hasOpened
    {s next : RunState} {action : RunAction}
    (hopened : s.task.hasOpened = true)
    (hstep : runStep env args items s action = some next) :
    next.task.hasOpened = true := by
  cases runStep_spec hstep with
  | setup _ hold _ =>
      rw [TaskPhase.not_hasOpened_of_setup (Or.inl hold)] at hopened
      contradiction
  | openWriter _ _ => rfl
  | markStarted _ => rfl
  | skip _ _ => rfl
  | spawn _ _ => rfl
  | emitScanDone _ => rfl
  | markCompleted _ => rfl
  | emitIndexDone _ => rfl
  | returnOk _ => rfl
  | _ => exact hopened

theorem hasOpened_of_not_isSetup
    {s next : RunState} {action : RunAction}
    (hgood : s.Coherent env args items) (haction : action.isSetup = false)
    (hstep : runStep env args items s action = some next) :
    s.task.hasOpened = true := by
  by_contra hclosed
  rw [Bool.not_eq_true] at hclosed
  have hnil := hgood.workers_nil
    (TaskPhase.remaining_of_not_hasOpened items hclosed)
  have hhandles := hgood.handles
  have hholds : s.task.holdsWriter = false := by
    cases htask : s.task <;>
      simp [htask, TaskPhase.hasOpened, TaskPhase.holdsWriter] at hclosed ⊢
  rw [hholds, hnil] at hhandles
  have hpos := runStep_handles_pos hgood haction hstep
  simp only [Bool.false_eq_true, if_false, List.countP_nil] at hhandles
  omega

end OneRun

def Sys.Failed (sys : Sys) (r : ℕ) : Prop :=
  ∃ run, sys.runs[r]? = some run ∧ run.frame.task = .failed

def Sys.Opened (sys : Sys) (r : ℕ) : Prop :=
  ∃ run, sys.runs[r]? = some run ∧ run.frame.task.hasOpened = true

theorem Sys.Opened.step
    {sys next : Sys} {action : SysAction} {r : ℕ} (hopened : sys.Opened r)
    (hstep : sysStep env sys action = some next) : next.Opened r := by
  obtain ⟨run, hrow, htask⟩ := hopened
  have hlt := (List.getElem?_eq_some_iff.mp hrow).1
  cases sysStep_spec hstep with
  | schedule _ => exact ⟨run, hrow, htask⟩
  | launch _ _ _ =>
      exact ⟨run, TableUpdate.getElem?_append_of_eq hrow _, htask⟩
  | @run moved action other after hother hrun =>
      by_cases heq : moved = r
      · subst heq
        rw [hrow, Option.some.injEq] at hother
        subst hother
        exact ⟨_, List.getElem?_set_self hlt, runStep_hasOpened htask hrun⟩
      · exact ⟨run, by rw [Sys.store, List.getElem?_set_ne heq, hrow], htask⟩

theorem Sys.Opened.not_failed
    {sys : Sys} {r : ℕ} (hopened : sys.Opened r) : ¬ sys.Failed r := by
  rintro ⟨run, hrow, hfailed⟩
  obtain ⟨other, hother, htask⟩ := hopened
  rw [hrow, Option.some.injEq] at hother
  subst hother
  simp [hfailed, TaskPhase.hasOpened] at htask

theorem Sys.Coherent.unchanged_of_failed
    {sys next final : Sys} {r : ℕ} {action : RunAction}
    {rest : List SysAction} (hgood : sys.Coherent env)
    (hstep : sysStep env sys (.run r action) = some next)
    (hrest : ActionSystem.exec (sysStep env) next rest = some final)
    (hfailed : final.Failed r) :
    next.stateFile = sys.stateFile ∧ next.docs = sys.docs := by
  obtain ⟨run, after, hrow, hrun, hnext⟩ := sysStep_run hstep
  cases haction : action.isSetup with
  | true =>
      obtain ⟨hdocs, hstate, _⟩ := runStep_setup haction hrun
      rw [hnext]
      refine ⟨hstate, ?_⟩
      simp only [Sys.store, hdocs]
      exact Function.update_eq_self _ _
  | false =>
      have hopened : sys.Opened r :=
        ⟨run, hrow, hasOpened_of_not_isSetup (hgood.row hrow) haction hrun⟩
      have hfinal := ActionSystem.exec_invariant
        (fun _ _ _ hinv hstep => Sys.Opened.step hinv hstep)
        (hopened.step hstep) hrest
      exact (hfinal.not_failed hfailed).elim

/-! ## The result -/

def RunAction.publishes : RunAction → Bool
  | .markStarted _ _ => true
  | .markCompleted _ _ => true
  | .commit _ _ => true
  | _ => false

/-- In every reachable state at most one run of a directory is in its span,
during which no other run of that directory writes the state file or commits,
and a run which ends in an error never has changed the state file or the
documents. -/
theorem pipelineRuns_mutual_exclusion
    {init sys : Sys} {actions : List SysAction} (hinit : init.runs = [])
    (hexec : ActionSystem.exec (sysStep env) init actions = some sys) :
    (∀ dir r r', sys.InSpan dir r → sys.InSpan dir r' → r = r') ∧
    (∀ dir r r' run action next,
      sys.InSpan dir r → sys.runs[r']? = some run → run.args.indexDir = dir →
        action.publishes = true →
          sysStep env sys (.run r' action) = some next → r' = r) ∧
    (∀ r action next rest final,
      sysStep env sys (.run r action) = some next →
        ActionSystem.exec (sysStep env) next rest = some final →
          final.Failed r →
            next.stateFile = sys.stateFile ∧ next.docs = sys.docs) := by
  have hgood := (Sys.coherent_of_no_runs env hinit).exec hexec
  refine ⟨hgood.unique, ?_, ?_⟩
  · intro dir r r' run action next hspan hrow hdir hpublishes hstep
    have hsetup : action.isSetup = false := by
      cases action <;>
        simp [RunAction.publishes, RunAction.isSetup] at hpublishes ⊢
    obtain ⟨other, after, hother, hafter, _⟩ := sysStep_run hstep
    rw [hrow, Option.some.injEq] at hother
    subst hother
    have hpos := runStep_handles_pos (hgood.row hrow) hsetup hafter
    exact hgood.unique dir r' r ⟨run, hrow, hdir, hpos⟩ hspan
  · intro r action next rest final hstep hrest hfailed
    exact hgood.unchanged_of_failed hstep hrest hfailed

def sampleConfig : AppConfig := ⟨["/d"], [], "idx", true⟩

def emptySys : Sys := ⟨fun _ => [], fun _ => false, none, none, []⟩

def contendedSteps : List SysAction :=
  [.startAutoScanNow sampleConfig [[sampleItem "/d/b"]],
    .poll sampleConfig "2024-01-02" true,
    .spawnScheduled [[sampleItem "/d/b"]]] ++
  setupSteps.map (SysAction.run 0) ++
  [.run 1 (.createDir true), .run 1 (.openIndex true), .run 1 (.buildPool true),
    .run 1 (.openWriter 16000000 true)]

theorem pipelineRuns_mutual_exclusion_contended :
    ∃ sys,
      ActionSystem.exec (sysStep sampleEnv) emptySys contendedSteps =
        some sys ∧
      sys.InSpan "idx" 0 ∧ sys.Failed 1 ∧
      ∀ r, sys.InSpan "idx" r → r = 0 := by
  have hexec := (Option.some_get (x := ActionSystem.exec (sysStep sampleEnv)
    emptySys contendedSteps) (by decide)).symm
  have hspan : Sys.InSpan ((ActionSystem.exec (sysStep sampleEnv) emptySys
      contendedSteps).get (by decide)) "idx" 0 :=
    ⟨_, rfl, by decide, by decide⟩
  have hexclusive := (pipelineRuns_mutual_exclusion rfl hexec).1
  exact ⟨_, hexec, hspan, ⟨_, rfl, by decide⟩,
    fun r hr => hexclusive "idx" r 0 hr hspan⟩

end SearchEvery
