import SearchEvery.PipelineSystem
import Mathlib.Tactic

/-!
# The daily skip of the scheduler

The scheduler leaves a day out when the state file says that a run was
completed on that day.  The file is one for the whole program: whatever run
writes it last, over whatever roots and into whatever directory, decides.  To
speak about days the system gets a clock, and it gets a history: on which day
a run reached the end of its walk, and on which day it stored its completion.
-/

namespace SearchEvery

/-- The system over days and restarts of the program.  Runs before
`firstAlive` belong to earlier processes; the two lists are the history. -/
structure Daily where
  sys : Sys
  today : String
  firstAlive : ℕ
  walked : List (ℕ × String)
  stored : List (ℕ × String)

/-- A fresh installation, before any state file is written. -/
def Daily.install (docs : String → List Doc) (today : String) : Daily where
  sys := ⟨docs, fun _ => false, none, none, []⟩
  today := today
  firstAlive := 0
  walked := []
  stored := []

inductive DailyAction
  | newDay (day : String)
  | restart
  | sys (action : SysAction)

def SysAction.day : SysAction → Option String
  | .poll _ today _ => some today
  | .run _ (.markStarted today _) => some today
  | .run _ (.markCompleted today _) => some today
  | _ => none

def SysAction.mover : SysAction → Option ℕ
  | .run r _ => some r
  | _ => none

def Daily.record (s : Daily) (next : Sys) : SysAction → Daily
  | .run r .emitScanDone =>
      { s with sys := next, walked := s.walked ++ [(r, s.today)] }
  | .run r (.markCompleted _ .ok) =>
      { s with sys := next, stored := s.stored ++ [(r, s.today)] }
  | _ => { s with sys := next }

/-- One step of the program.  The calls which look at the calendar see the
present day, and the runs of an earlier process do not move. -/
def dailyStep (env : PipelineEnv) (s : Daily) : DailyAction → Option Daily
  | .newDay day => some { s with today := day }
  | .restart =>
      some { s with
        sys := { s.sys with locked := fun _ => false, scheduled := none }
        firstAlive := s.sys.runs.length }
  | .sys action =>
      if (∀ day ∈ action.day, day = s.today) ∧
          ∀ r ∈ action.mover, s.firstAlive ≤ r then
        (sysStep env s.sys action).map fun next => s.record next action
      else none

/-- A tick of the scheduler under this configuration computes that no run is
needed today. -/
def Daily.Skips (s : Daily) (cfg : AppConfig) : Prop :=
  cfg.autoScanEnabled = true ∧ needRun s.sys.stateFile s.today = false

instance (s : Daily) (cfg : AppConfig) : Decidable (s.Skips cfg) :=
  inferInstanceAs (Decidable (_ ∧ _))

/-- A run over the roots of the configuration into its directory has ended its
walk today. -/
def Daily.WalkedFor (s : Daily) (cfg : AppConfig) : Prop :=
  ∃ entry ∈ s.walked, entry.2 = s.today ∧
    ∃ run ∈ s.sys.runs[entry.1]?,
      run.args.roots = cfg.scanRoots ∧ run.args.indexDir = cfg.indexDir

instance (s : Daily) (cfg : AppConfig) : Decidable (s.WalkedFor cfg) :=
  inferInstanceAs (Decidable (∃ entry ∈ s.walked, _))

def TaskPhase.hasWalked : TaskPhase → Bool
  | .scanDone | .completed | .indexDone | .returned => true
  | _ => false

variable {env : PipelineEnv}

/-! ## What the state file can say -/

section OneRun

variable {args : RunArgs} {items : List WalkItem}

theorem runStep_hasWalked
    {s next : RunState} {action : RunAction}
    (hstep : runStep env args items s action = some next)
    (hwalked : next.task.hasWalked = true) :
    action = .emitScanDone ∨ s.task.hasWalked = true := by
  cases runStep_spec hstep with
  | setup _ _ hnew =>
      rcases hnew with hsetup | hfailed
      · simp only at hwalked
        revert hsetup hwalked
        rename_i task _ _
        cases task <;> simp [TaskPhase.isSetup, TaskPhase.hasWalked]
      · simp [hfailed, TaskPhase.hasWalked] at hwalked
  | openWriter _ _ => simp [TaskPhase.hasWalked] at hwalked
  | markStarted _ => simp [TaskPhase.hasWalked] at hwalked
  | skip _ _ => simp [TaskPhase.hasWalked] at hwalked
  | spawn _ _ => simp [TaskPhase.hasWalked] at hwalked
  | emitScanDone _ => exact Or.inl rfl
  | markCompleted htask => exact Or.inr (by rw [htask]; rfl)
  | emitIndexDone htask => exact Or.inr (by rw [htask]; rfl)
  | returnOk htask => exact Or.inr (by rw [htask]; rfl)
  | _ => exact Or.inr hwalked

theorem runStep_completed
    {s next : RunState} {action : RunAction} {day : String}
    (hstep : runStep env args items s action = some next)
    (hfile : next.stateFile = some ⟨some day, true⟩) :
    s.stateFile = some ⟨some day, true⟩ ∨
      (action = .markCompleted day .ok ∧ s.task = .scanDone) := by
  cases runStep_spec hstep with
  | @markStarted today outcome _ =>
      cases outcome with
      | ok => simp [writeState] at hfile
      | failed => exact Or.inl hfile
      | truncated => simp [writeState] at hfile
  | @markCompleted today outcome htask =>
      cases outcome with
      | ok =>
          simp only [writeState, Option.some.injEq, PipelineState.mk.injEq,
            and_true] at hfile
          exact Or.inr ⟨by rw [hfile], htask⟩
      | failed => exact Or.inl hfile
      | truncated => simp [writeState] at hfile
  | _ => exact Or.inl hfile

theorem task_of_markCompleted
    {s next : RunState} {day : String} {outcome : WriteOutcome}
    (hstep : runStep env args items s (.markCompleted day outcome) =
      some next) :
    s.task = .scanDone := by
  cases runStep_spec hstep with
  | setup haction _ _ => simp [RunAction.isSetup] at haction
  | markCompleted htask => exact htask

end OneRun

theorem sysStep_start
    {sys next : Sys} {action : SysAction} (hmover : action.mover = none)
    (hstep : sysStep env sys action = some next) :
    next.stateFile = sys.stateFile ∧ sys.runs <+: next.runs ∧
      ∀ (r : ℕ) (run : Run), next.runs[r]? = some run →
        sys.runs[r]? = some run ∨ run.frame = RunFrame.initial := by
  cases sysStep_spec hstep with
  | schedule _ => exact ⟨rfl, List.prefix_rfl, fun _ _ hrow => Or.inl hrow⟩
  | launch _ args items =>
      refine ⟨rfl, List.prefix_append _ _, ?_⟩
      intro r run hrow
      rcases TableUpdate.getElem?_append_cases hrow with ⟨_, rfl⟩ | hold
      · exact Or.inr rfl
      · exact Or.inl hold
  | run _ _ => simp [SysAction.mover] at hmover

/-! ## The history -/

/-- What the state file says was stored by a run, and a run which has stored
its completion or stands past its walk has ended the walk. -/
structure Daily.Recorded (s : Daily) : Prop where
  file :
    ∀ day, s.sys.stateFile = some ⟨some day, true⟩ → ∃ r, (r, day) ∈ s.stored
  stored : ∀ r day, (r, day) ∈ s.stored → ∃ ended, (r, ended) ∈ s.walked
  walked : ∀ r day, (r, day) ∈ s.walked → r < s.sys.runs.length
  tasks :
    ∀ r run, s.sys.runs[r]? = some run → run.frame.task.hasWalked = true →
      ∃ ended, (r, ended) ∈ s.walked

theorem Daily.install_recorded
    (docs : String → List Doc) (today : String) :
    (Daily.install docs today).Recorded := by
  constructor <;> simp [Daily.install]

theorem Daily.record_of_start
    (s : Daily) (next : Sys) {action : SysAction}
    (hmover : action.mover = none) :
    s.record next action = { s with sys := next } := by
  cases action with
  | run r action => simp [SysAction.mover] at hmover
  | _ => rfl

theorem Daily.record_sys
    (s : Daily) (next : Sys) (action : SysAction) :
    (s.record next action).sys = next := by
  unfold Daily.record
  split <;> rfl

theorem Daily.mem_record_walked
    {s : Daily} {next : Sys} {action : SysAction} {entry : ℕ × String} :
    entry ∈ (s.record next action).walked ↔
      entry ∈ s.walked ∨
        ∃ r, action = .run r .emitScanDone ∧ entry = (r, s.today) := by
  unfold Daily.record
  split
  next r => simp
  next r day => simp
  next hscan hmark =>
    rw [iff_self_or]
    rintro ⟨r, haction, _⟩
    exact (hscan r haction).elim

theorem Daily.mem_record_stored
    {s : Daily} {next : Sys} {action : SysAction} {entry : ℕ × String} :
    entry ∈ (s.record next action).stored ↔
      entry ∈ s.stored ∨
        ∃ r day, action = .run r (.markCompleted day .ok) ∧
          entry = (r, s.today) := by
  unfold Daily.record
  split
  next r => simp
  next r day => simp
  next hscan hmark =>
    rw [iff_self_or]
    rintro ⟨r, day, haction, _⟩
    exact (hmark r day haction).elim

theorem Daily.Recorded.run
    {s : Daily} (hrecorded : s.Recorded) {next : Sys} {r : ℕ}
    {action : RunAction}
    (hday : ∀ day ∈ SysAction.day (.run r action), day = s.today)
    (hstep : sysStep env s.sys (.run r action) = some next) :
    (s.record next (.run r action)).Recorded := by
  obtain ⟨run, after, hrow, hrun, rfl⟩ := sysStep_run hstep
  have hlt := (List.getElem?_eq_some_iff.mp hrow).1
  constructor
  · intro day hfile
    rw [Daily.record_sys] at hfile
    rcases runStep_completed hrun hfile with hsame | ⟨rfl, _⟩
    · obtain ⟨other, hother⟩ := hrecorded.file day hsame
      exact ⟨other, Daily.mem_record_stored.mpr (Or.inl hother)⟩
    · refine ⟨r, Daily.mem_record_stored.mpr (Or.inr ⟨r, day, rfl, ?_⟩)⟩
      rw [hday day rfl]
  · intro other day hmem
    rcases Daily.mem_record_stored.mp hmem with hold | ⟨moved, _, haction, hentry⟩
    · obtain ⟨ended, hended⟩ := hrecorded.stored other day hold
      exact ⟨ended, Daily.mem_record_walked.mpr (Or.inl hended)⟩
    · simp only [SysAction.run.injEq, Prod.mk.injEq] at haction hentry
      obtain ⟨rfl, rfl⟩ := haction
      rw [hentry.1]
      obtain ⟨ended, hended⟩ := hrecorded.tasks r run hrow
        (congrArg TaskPhase.hasWalked (task_of_markCompleted hrun))
      exact ⟨ended, Daily.mem_record_walked.mpr (Or.inl hended)⟩
  · intro other day hmem
    rw [Daily.record_sys, Sys.store, List.length_set]
    rcases Daily.mem_record_walked.mp hmem with hold | ⟨moved, haction, hentry⟩
    · exact hrecorded.walked other day hold
    · simp only [SysAction.run.injEq, Prod.mk.injEq] at haction hentry
      rw [hentry.1, ← haction.1]
      exact hlt
  · intro other found hfound hwalked
    rw [Daily.record_sys] at hfound
    rcases TableUpdate.getElem?_set_cases hfound with ⟨rfl, rfl⟩ | ⟨_, hold⟩
    · rcases runStep_hasWalked hrun hwalked with rfl | hbefore
      · exact ⟨s.today, Daily.mem_record_walked.mpr (Or.inr ⟨_, rfl, rfl⟩)⟩
      · obtain ⟨ended, hended⟩ := hrecorded.tasks other run hrow hbefore
        exact ⟨ended, Daily.mem_record_walked.mpr (Or.inl hended)⟩
    · obtain ⟨ended, hended⟩ := hrecorded.tasks other found hold hwalked
      exact ⟨ended, Daily.mem_record_walked.mpr (Or.inl hended)⟩

theorem Daily.Recorded.step
    {s next : Daily} {action : DailyAction} (hrecorded : s.Recorded)
    (hstep : dailyStep env s action = some next) : next.Recorded := by
  cases action with
  | newDay day =>
      simp only [dailyStep, Option.some.injEq] at hstep
      subst hstep
      exact ⟨hrecorded.file, hrecorded.stored, hrecorded.walked,
        hrecorded.tasks⟩
  | restart =>
      simp only [dailyStep, Option.some.injEq] at hstep
      subst hstep
      exact ⟨hrecorded.file, hrecorded.stored, hrecorded.walked,
        hrecorded.tasks⟩
  | sys action =>
      simp only [dailyStep] at hstep
      split at hstep
      next henabled =>
        obtain ⟨after, hafter, rfl⟩ := Option.map_eq_some_iff.mp hstep
        cases hmover : action.mover with
        | some r =>
            cases action with
            | run r action => exact hrecorded.run henabled.1 hafter
            | _ => simp [SysAction.mover] at hmover
        | none =>
            obtain ⟨hfile, hgrows, hrows⟩ := sysStep_start hmover hafter
            rw [Daily.record_of_start s after hmover]
            refine ⟨?_, hrecorded.stored, ?_, ?_⟩
            · intro day hday
              exact hrecorded.file day (hfile ▸ hday)
            · intro r day hmem
              exact (hrecorded.walked r day hmem).trans_le hgrows.length_le
            · intro r run hrow hwalked
              rcases hrows r run hrow with hold | hfresh
              · exact hrecorded.tasks r run hold hwalked
              · simp [hfresh, RunFrame.initial, TaskPhase.hasWalked] at hwalked
      next => simp at hstep

theorem needRun_eq_false_iff
    (file : StateFile) (today : String) :
    needRun file today = false ↔ file = some ⟨some today, true⟩ := by
  unfold needRun
  cases file with
  | none => simp
  | some state =>
      obtain ⟨lastDay, completed⟩ := state
      simp [and_comm]

/-- Whenever a tick skips the day, some run over whatever roots and into
whatever directory has ended its walk and has stored its completion on that
day. -/
theorem daily_skip_after_completion
    {docs : String → List Doc} {day : String} {actions : List DailyAction}
    {s : Daily} {cfg : AppConfig}
    (hexec : ActionSystem.exec (dailyStep env) (Daily.install docs day)
      actions = some s)
    (hskips : s.Skips cfg) :
    ∃ (r : ℕ) (run : Run), s.sys.runs[r]? = some run ∧
      (r, s.today) ∈ s.stored ∧ ∃ ended, (r, ended) ∈ s.walked := by
  have hrecorded := ActionSystem.exec_invariant
    (fun _ _ _ hinv hstep => Daily.Recorded.step hinv hstep)
    (Daily.install_recorded docs day) hexec
  have hfile := (needRun_eq_false_iff _ _).mp hskips.2
  obtain ⟨r, hstored⟩ := hrecorded.file s.today hfile
  obtain ⟨ended, hwalked⟩ := hrecorded.stored r s.today hstored
  have hlt := hrecorded.walked r ended hwalked
  exact ⟨r, s.sys.runs[r], List.getElem?_eq_getElem hlt, hstored, ended,
    hwalked⟩

/-! ## Three days -/

def runSteps (actions : List RunAction) : List DailyAction :=
  actions.map fun action => .sys (.run 0 action)

def ownDay : List DailyAction :=
  .sys (.startAutoScanNow sampleConfig [[sampleItem "/d/b"]]) ::
    runSteps (setupSteps ++ [.visit] ++ closingSteps)

def foreignDay : List DailyAction :=
  .sys (.scanAndIndexPipeline ⟨["/e"], [], some 500, false⟩ ⟨"other", false⟩
      [[sampleItem "/e/b"]]) ::
    runSteps (setupSteps ++ [.visit] ++ closingSteps)

def midnightDay : List DailyAction :=
  .sys (.startAutoScanNow sampleConfig [[sampleItem "/d/b"]]) ::
    runSteps (setupSteps ++ [.visit, .emitScanDone]) ++
      .newDay "2024-01-03" :: runSteps [.markCompleted "2024-01-03" .ok]

theorem daily_skip_after_completion_own_run :
    ∃ s,
      ActionSystem.exec (dailyStep sampleEnv)
          (Daily.install (fun _ => []) "2024-01-02") ownDay = some s ∧
        s.Skips sampleConfig ∧
        ∃ (r : ℕ) (run : Run), s.sys.runs[r]? = some run ∧
          (r, "2024-01-02") ∈ s.stored ∧ ∃ ended, (r, ended) ∈ s.walked := by
  have hexec := (Option.some_get (x := ActionSystem.exec
    (dailyStep sampleEnv) (Daily.install (fun _ => []) "2024-01-02") ownDay)
    (by decide)).symm
  exact ⟨_, hexec, by decide,
    @daily_skip_after_completion _ _ _ _ _ sampleConfig hexec (by decide)⟩

/-- A manual run over other roots into another directory makes the scheduler
skip the day, and so does a run which ended its walk before midnight and
stored its completion after it. -/
theorem daily_skip_unsound :
    (∃ s,
      ActionSystem.exec (dailyStep sampleEnv)
          (Daily.install (fun _ => []) "2024-01-02") foreignDay = some s ∧
        s.Skips sampleConfig ∧ ¬ s.WalkedFor sampleConfig) ∧
    (∃ s,
      ActionSystem.exec (dailyStep sampleEnv)
          (Daily.install (fun _ => []) "2024-01-02") midnightDay = some s ∧
        s.Skips sampleConfig ∧ ¬ s.WalkedFor sampleConfig) := by
  have hforeign := (Option.some_get (x := ActionSystem.exec
    (dailyStep sampleEnv) (Daily.install (fun _ => []) "2024-01-02")
    foreignDay) (by decide)).symm
  have hmidnight := (Option.some_get (x := ActionSystem.exec
    (dailyStep sampleEnv) (Daily.install (fun _ => []) "2024-01-02")
    midnightDay) (by decide)).symm
  exact ⟨⟨_, hforeign, by decide, by decide⟩,
    ⟨_, hmidnight, by decide, by decide⟩⟩

end SearchEvery
