import SearchEvery.PipelineLedger
import Mathlib.Tactic

/-!
# The progress display

The page follows a pipeline run by its events: three handlers overwrite the
current number, the total and the running flag.  The two closing events come
from the scanning task, the numbered ones from the workers, and nothing
orders the two.  The file says for which orders of a run's events the display
ends on the result of the run.
-/

namespace SearchEvery

structure ProgressView where
  idxCurrent : ℕ
  idxTotal : ℕ
  idxRunning : Bool
  deriving DecidableEq

/-- What `doScanAndIndex` sets before it starts the run. -/
def ProgressView.started : ProgressView := ⟨0, 0, true⟩

/-- The handlers of the page.  An `index_progress` of the pipeline carries no
total, and its handler takes `0` for it; `scan_progress` has no handler. -/
def ProgressView.handle (view : ProgressView) : PipelineEvent → ProgressView
  | .indexProgress current _ _ => ⟨current, 0, true⟩
  | .indexDone => { view with idxRunning := false }
  | .scanDone total => { view with idxTotal := total }
  | .scanProgress _ _ _ => view

def ProgressView.after (view : ProgressView) (events : List PipelineEvent) :
    ProgressView :=
  events.foldl ProgressView.handle view

/-- Every numbered event comes before `scan_done`, and the last of them
carries the last number. -/
def LastNumberFirst (n : ℕ) (events : List PipelineEvent) : Prop :=
  ∃ before, events = before ++ [.scanDone n, .indexDone] ∧
    (before.filterMap PipelineEvent.indexNumber).getLast? = some n

/-! ## The order of a run's events -/

def PipelineEvent.isClosing : PipelineEvent → Bool
  | .scanDone _ | .indexDone => true
  | _ => false

def PipelineEvent.isNumbered : PipelineEvent → Bool
  | .indexProgress _ _ _ => true
  | _ => false

/-- What the task's phase says about the events: before the end of the walk
there is no closing one, and behind a closing one there are only numbered
ones and the other closing one. -/
def EventOrder (total : ℕ) (events : List PipelineEvent) : TaskPhase → Prop
  | .scanDone | .completed =>
      ∃ front back, events = front ++ .scanDone total :: back ∧
        (∀ event ∈ front, event.isClosing = false) ∧
        ∀ event ∈ back, event.isNumbered = true
  | .indexDone | .returned =>
      ∃ front mid back,
        events = front ++ .scanDone total :: (mid ++ .indexDone :: back) ∧
        (∀ event ∈ front, event.isClosing = false) ∧
        (∀ event ∈ mid, event.isNumbered = true) ∧
        ∀ event ∈ back, event.isNumbered = true
  | _ => ∀ event ∈ events, event.isClosing = false

def RunState.Ordered (s : RunState) : Prop :=
  EventOrder s.scannedFiles s.events s.task

variable {env : PipelineEnv} {args : RunArgs} {items : List WalkItem}

theorem eventOrder_of_setup
    {total : ℕ} {events : List PipelineEvent} {task : TaskPhase}
    (hsetup : task.isSetup = true ∨ task = .failed) :
    EventOrder total events task ↔
      ∀ event ∈ events, event.isClosing = false := by
  rcases hsetup with hsetup | rfl
  · cases task <;> simp [TaskPhase.isSetup, EventOrder] at hsetup ⊢
  · rfl

theorem EventOrder.append_numbered
    {total : ℕ} {events : List PipelineEvent} {task : TaskPhase}
    (horder : EventOrder total events task) {event : PipelineEvent}
    (hnumbered : event.isNumbered = true) :
    EventOrder total (events ++ [event]) task := by
  have hopen : event.isClosing = false := by
    cases event <;> simp [PipelineEvent.isNumbered, PipelineEvent.isClosing]
      at hnumbered ⊢
  have hwalking (hall : ∀ event ∈ events, event.isClosing = false) :
      ∀ other ∈ events ++ [event], other.isClosing = false :=
    List.forall_mem_append.mpr ⟨hall, List.forall_mem_singleton.mpr hopen⟩
  have hbehind {back : List PipelineEvent}
      (hall : ∀ event ∈ back, event.isNumbered = true) :
      ∀ other ∈ back ++ [event], other.isNumbered = true :=
    List.forall_mem_append.mpr ⟨hall, List.forall_mem_singleton.mpr hnumbered⟩
  cases task with
  | scanDone | completed =>
      obtain ⟨front, back, rfl, hfront, hback⟩ := horder
      exact ⟨front, back ++ [event], by simp, hfront, hbehind hback⟩
  | indexDone | returned =>
      obtain ⟨front, mid, back, rfl, hfront, hmid, hback⟩ := horder
      exact ⟨front, mid, back ++ [event], by simp, hfront, hmid,
        hbehind hback⟩
  | start | dirCreated | indexOpened | poolBuilt | writerOpened | failed =>
      exact hwalking horder
  | scanning todo => exact hwalking horder

theorem RunState.Ordered.step
    {s next : RunState} {action : RunAction} (hordered : s.Ordered)
    (hstep : runStep env args items s action = some next) :
    next.Ordered := by
  unfold RunState.Ordered at hordered ⊢
  cases runStep_spec hstep with
  | setup _ hold hnew =>
      rw [eventOrder_of_setup (Or.inl hold)] at hordered
      exact (eventOrder_of_setup hnew).mpr hordered
  | openWriter htask _ =>
      rw [htask] at hordered
      exact hordered
  | markStarted htask =>
      rw [htask] at hordered
      exact hordered
  | skip htask _ =>
      rw [htask] at hordered
      exact hordered
  | spawn htask _ =>
      rw [htask] at hordered
      exact List.forall_mem_append.mpr
        ⟨hordered, List.forall_mem_singleton.mpr rfl⟩
  | emitScanDone htask =>
      rw [htask] at hordered
      exact ⟨s.events, [], rfl, hordered, by simp⟩
  | markCompleted htask =>
      rw [htask] at hordered
      exact hordered
  | emitIndexDone htask =>
      rw [htask] at hordered
      obtain ⟨front, back, hevents, hfront, hback⟩ := hordered
      exact ⟨front, back, [], by simp [hevents], hfront, hback, by simp⟩
  | returnOk htask =>
      rw [htask] at hordered
      exact hordered
  | emitProgress _ _ => exact hordered.append_numbered rfl
  | buildDoc _ _ | lock _ _ _ | lockFailed _ _ | deleteTerm _ _
  | addDocument _ _ | commit _ _ | unlock _ _ | fetchAdd _ _ | finish _ _ =>
      exact hordered

theorem ordered_of_exec
    {docs : List Doc} {locked : Bool} {stateFile : StateFile}
    {actions : List RunAction} {final : RunState}
    (hexec : ActionSystem.exec (runStep env args items)
      (RunState.start docs locked stateFile) actions = some final) :
    final.Ordered := by
  have hstart : (RunState.start docs locked stateFile).Ordered := by
    intro event hmem
    simp [RunState.start, RunFrame.initial] at hmem
  exact ActionSystem.exec_invariant
    (fun _ _ _ hinv hstep => RunState.Ordered.step hinv hstep) hstart hexec

/-! ## The display after a list of events -/

theorem ProgressView.after_open
    (view : ProgressView) {events : List PipelineEvent}
    (hopen : ∀ event ∈ events, event.isClosing = false) :
    view.after events =
      (events.filterMap PipelineEvent.indexNumber).getLast?.elim view
        fun current => ⟨current, 0, true⟩ := by
  induction events generalizing view with
  | nil => rfl
  | cons event events ih =>
      rw [List.forall_mem_cons] at hopen
      rw [ProgressView.after, List.foldl_cons, ← ProgressView.after,
        ih _ hopen.2]
      cases event with
      | scanProgress current path name => rfl
      | scanDone total => exact absurd hopen.1 (by simp [PipelineEvent.isClosing])
      | indexDone => exact absurd hopen.1 (by simp [PipelineEvent.isClosing])
      | indexProgress current name path =>
          simp only [List.filterMap_cons, PipelineEvent.indexNumber,
            List.getLast?_cons, ProgressView.handle]
          cases (events.filterMap PipelineEvent.indexNumber).getLast? with
          | none => rfl
          | some last => rfl

theorem ProgressView.after_append
    (view : ProgressView) (front back : List PipelineEvent) :
    view.after (front ++ back) = (view.after front).after back := by
  simp [ProgressView.after]

theorem ProgressView.after_cons
    (view : ProgressView) (event : PipelineEvent)
    (events : List PipelineEvent) :
    view.after (event :: events) = (view.handle event).after events := rfl

theorem ProgressView.after_numbered
    (view : ProgressView) (front : List PipelineEvent) {event : PipelineEvent}
    (hnumbered : event.isNumbered = true) :
    ∃ current, view.after (front ++ [event]) = ⟨current, 0, true⟩ := by
  cases event with
  | indexProgress current name path =>
      exact ⟨current, by rw [ProgressView.after_append]; rfl⟩
  | scanProgress current path name => simp [PipelineEvent.isNumbered] at hnumbered
  | scanDone total => simp [PipelineEvent.isNumbered] at hnumbered
  | indexDone => simp [PipelineEvent.isNumbered] at hnumbered

theorem eq_nil_of_append_eq_concat
    {front back before : List PipelineEvent} {event : PipelineEvent}
    (hback : ∀ event ∈ back, event.isNumbered = true)
    (hevent : event.isNumbered = false)
    (hsame : front ++ back = before ++ [event]) : back = [] := by
  rcases List.eq_nil_or_concat' back with hnil | ⟨most, last, rfl⟩
  · exact hnil
  · rw [← List.append_assoc] at hsame
    have hend := List.append_inj_right' hsame rfl
    rw [List.cons.injEq] at hend
    have hlast := hback last (by simp)
    rw [hend.1, hevent] at hlast
    contradiction

theorem lastNumberFirst_iff
    {n : ℕ} {front mid back : List PipelineEvent}
    (hmid : ∀ event ∈ mid, event.isNumbered = true)
    (hback : ∀ event ∈ back, event.isNumbered = true) :
    LastNumberFirst n
        (front ++ .scanDone n :: (mid ++ .indexDone :: back)) ↔
      mid = [] ∧ back = [] ∧
        (front.filterMap PipelineEvent.indexNumber).getLast? = some n := by
  constructor
  · rintro ⟨before, hsame, hlast⟩
    have hbackNil : back = [] := by
      apply @eq_nil_of_append_eq_concat
        (front ++ .scanDone n :: (mid ++ [.indexDone])) back
        (before ++ [.scanDone n]) .indexDone hback rfl
      simpa using hsame
    subst hbackNil
    have hend :
        (front ++ .scanDone n :: mid) ++ [PipelineEvent.indexDone] =
          (before ++ [.scanDone n]) ++ [.indexDone] := by simpa using hsame
    have hcut := List.append_cancel_right hend
    have hmidNil : mid = [] := by
      apply @eq_nil_of_append_eq_concat (front ++ [.scanDone n]) mid before
        (.scanDone n) hmid rfl
      simpa using hcut
    subst hmidNil
    rw [List.append_cancel_right_eq] at hcut
    exact ⟨rfl, rfl, hcut ▸ hlast⟩
  · rintro ⟨rfl, rfl, hlast⟩
    exact ⟨front, by simp, hlast⟩

/-- The display after the closing events, when at least one event was
numbered. -/
theorem ProgressView.after_closed_iff
    (view : ProgressView) {n : ℕ} {front mid back : List PipelineEvent}
    (hpos : 1 ≤ n) (hfront : ∀ event ∈ front, event.isClosing = false)
    (hmid : ∀ event ∈ mid, event.isNumbered = true)
    (hback : ∀ event ∈ back, event.isNumbered = true)
    (hsome : (front ++ .scanDone n :: (mid ++ .indexDone :: back)).filterMap
      PipelineEvent.indexNumber ≠ []) :
    view.after (front ++ .scanDone n :: (mid ++ .indexDone :: back)) =
        ⟨n, n, false⟩ ↔
      mid = [] ∧ back = [] ∧
        (front.filterMap PipelineEvent.indexNumber).getLast? = some n := by
  rcases List.eq_nil_or_concat' back with rfl | ⟨most, event, rfl⟩
  · rcases List.eq_nil_or_concat' mid with rfl | ⟨most, event, rfl⟩
    · obtain ⟨last, hlast⟩ :
          ∃ last, (front.filterMap PipelineEvent.indexNumber).getLast? =
            some last := by
        rw [← Option.isSome_iff_exists, List.getLast?_isSome]
        simpa [List.filterMap_cons, PipelineEvent.indexNumber] using hsome
      have hview :
          view.after (front ++ .scanDone n :: ([] ++ [.indexDone])) =
            ⟨last, n, false⟩ := by
        rw [ProgressView.after_append, ProgressView.after_open view hfront,
          hlast]
        rfl
      rw [hview, hlast]
      simp
    · obtain ⟨current, hmost⟩ := ProgressView.after_numbered
        ((view.after front).handle (.scanDone n)) most (hmid event (by simp))
      rw [ProgressView.after_append, ProgressView.after_cons,
        ProgressView.after_append, hmost]
      simp [ProgressView.after, ProgressView.handle]
      omega
  · obtain ⟨current, hmost⟩ := ProgressView.after_numbered
      (view.after (front ++ .scanDone n :: (mid ++ [.indexDone]))) most
      (hback event (by simp))
    rw [← ProgressView.after_append] at hmost
    have hview :
        view.after (front ++ .scanDone n ::
          (mid ++ .indexDone :: (most ++ [event]))) = ⟨current, 0, true⟩ := by
      simpa using hmost
    rw [hview]
    simp

/-- After a run over at least one file, whose workers have all reported, the
display shows the result exactly when every numbered event came before
`scan_done` and the last of them carried the last number. -/
theorem progress_converges_iff
    {docs : List Doc} {locked : Bool} {stateFile : StateFile}
    {actions : List RunAction} {final : RunState} {n : ℕ}
    (hexec : ActionSystem.exec (runStep env args items)
      (RunState.start docs locked stateFile) actions = some final)
    (hreturned : final.task = .returned)
    (hfinished : ∀ worker ∈ final.workers, worker.phase = .finished)
    (hadmitted : (items.filterMap (pipelineFile env args)).length = n)
    (hpos : 1 ≤ n) (view : ProgressView) :
    view.after final.events = ⟨n, n, false⟩ ↔
      LastNumberFirst n final.events := by
  have hworkers : final.workers.length = n := by
    rw [← hadmitted, ← returned_submits hexec hreturned, List.length_map]
  have hscanned : final.scannedFiles = n := by
    rw [← hworkers]
    exact ((RunState.start_coherent env args items docs locked
      stateFile).exec hexec).scanned
  have hnumbers := ((RunState.start_numberLedger docs locked
    stateFile).exec hexec).numbers_of_finished hfinished
  have hordered := ordered_of_exec hexec
  rw [RunState.Ordered, hreturned, hscanned] at hordered
  obtain ⟨front, mid, back, hevents, hfront, hmid, hback⟩ := hordered
  have hsome : final.events.filterMap PipelineEvent.indexNumber ≠ [] := by
    intro hnil
    have hlength := hnumbers.length_eq
    rw [hnil, List.length_nil, hworkers, List.length_range'] at hlength
    omega
  rw [hevents] at hsome ⊢
  rw [lastNumberFirst_iff hmid hback,
    view.after_closed_iff hpos hfront hmid hback hsome]

/-! ## Two orders of one run -/

def oneFileRun (actions : List RunAction) : Option RunState :=
  ActionSystem.exec (runStep sampleEnv sampleArgs [sampleItem "/d/a"])
    (RunState.start [] false none) actions

def overtakenSteps : List RunAction :=
  setupSteps ++ [.visit] ++ closingSteps ++ publishSteps 0 ++ reportSteps 0

/-- The first worker publishes while the scan goes on, and the second reports
before it; both report before the scan is announced. -/
def promptSteps : List RunAction :=
  setupSteps ++ [.visit] ++ publishSteps 0 ++ [.visit] ++ publishSteps 1 ++
    reportSteps 1 ++ reportSteps 0 ++ closingSteps

def promptRun : Option RunState :=
  ActionSystem.exec
    (runStep sampleEnv sampleArgs [sampleItem "/d/a", sampleItem "/d/b"])
    (RunState.start [] false none) promptSteps

theorem progress_converges_prompt :
    ∃ final, promptRun = some final ∧
      ProgressView.started.after final.events = ⟨2, 2, false⟩ := by
  have hexec := (Option.some_get (x := promptRun) (by decide)).symm
  refine ⟨_, hexec, ?_⟩
  refine (progress_converges_iff hexec (by decide) (by decide) rfl (by decide)
    .started).mpr ?_
  exact ⟨[.scanProgress 1 "/d/a" "a", .scanProgress 2 "/d/b" "b",
    .indexProgress 1 "b" "/d/b", .indexProgress 2 "a" "/d/a"], by decide,
    by decide⟩

/-- The one worker of a run reports after the task has returned: the display
ends with the flag set and the total gone. -/
theorem progress_overtaken :
    ∃ final, oneFileRun overtakenSteps = some final ∧
      final.task = .returned ∧
      (∀ worker ∈ final.workers, worker.phase = .finished) ∧
      final.scannedFiles = 1 ∧
      ProgressView.started.after final.events = ⟨1, 0, true⟩ := by
  have hexec :=
    (Option.some_get (x := oneFileRun overtakenSteps) (by decide)).symm
  exact ⟨_, hexec, by decide⟩

end SearchEvery
