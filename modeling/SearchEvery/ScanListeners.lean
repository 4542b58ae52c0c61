import SearchEvery.ActionSystem
import SearchEvery.TableUpdate
import SearchEvery.Scanner
import SearchEvery.Dedup
import Mathlib.Tactic

/-!
# Listeners of the scans

`doScan`, which no control of the page calls, and `runDetect` subscribe to
`scan_progress`, await the scan and then call the unlisten function.  A scan
which fails or times out throws past that call.  An action is one outcome of
the world: a click, a promise which settles or an event of the back end; the
calls of the two functions may overlap, since the busy flag is shared with
operations which reset it.
-/

namespace SearchEvery

inductive ScanOp
  | doScan
  | runDetect
  deriving DecidableEq

/-- What a call awaits: `onEvent`, `scanPathsProgress` or `detectDuplicates`,
the last two with the retries left to `safeInvoke`. -/
inductive ScanPhase
  | subscribing
  | scanning (retries : ℕ)
  | detecting (paths : List String) (retries : ℕ)
  | finished
  deriving DecidableEq

inductive ListenerState
  | absent
  | live
  | unlistened
  deriving DecidableEq

structure ScanCall where
  op : ScanOp
  phase : ScanPhase
  listener : ListenerState
  deriving DecidableEq

structure ScanPayload where
  current : Option ℕ
  path : Option String
  deriving DecidableEq

structure ScanPage where
  inTauri : Bool
  busy : Bool
  msg : String
  scanned : List FileMeta
  scanCount : ℕ
  scanDir : String
  lastScanTotal : ℕ
  dupGroups : List DupGroup
  calls : List ScanCall
  deriving DecidableEq

def ScanPage.mount (inTauri : Bool) : ScanPage :=
  ⟨inTauri, false, "", [], 0, "", 0, [], []⟩

/-- How a promise of `safeInvoke`'s race settles. -/
inductive InvokeOutcome (α : Type)
  | resolved (value : α)
  | rejected (error : String)
  | timedOut
  deriving DecidableEq

def InvokeOutcome.isResolved {α : Type} : InvokeOutcome α → Bool
  | .resolved _ => true
  | .rejected _ | .timedOut => false

def InvokeOutcome.errorText {α : Type} (cmd : String) (timeoutMs : ℕ) :
    InvokeOutcome α → String
  | .resolved _ => ""
  | .rejected error => error
  | .timedOut =>
      "Error: invoke " ++ cmd ++ " timeout after " ++ toString timeoutMs ++ "ms"

/-- The text before the last separator, unless nothing stands before it. -/
def directoryOf (path : String) : String :=
  match path.toList.reverse.dropWhile (fun c => c != '/' && c != '\\') with
  | _ :: before :: rest => String.ofList (before :: rest).reverse
  | _ => path

/-- The handler which both functions subscribe. -/
def ScanPage.onScanProgress (page : ScanPage) (payload : ScanPayload) :
    ScanPage :=
  { page with
    scanCount := payload.current.getD page.scanCount
    scanDir := match payload.path with
      | some path => if path = "" then page.scanDir else directoryOf path
      | none => page.scanDir }

/-- The back end emits `scan_progress`: every live listener runs. -/
def ScanPage.emit (page : ScanPage) (payload : ScanPayload) : ScanPage :=
  (page.calls.filter fun call => call.listener = .live).foldl
    (fun page _ => page.onScanProgress payload) page

def ScanPage.setCall (page : ScanPage) (k : ℕ) (call : ScanCall) : ScanPage :=
  { page with calls := page.calls.set k call }

/-- The end of a call: the `finally` of both functions. -/
def ScanPage.finish (page : ScanPage) (k : ℕ) (op : ScanOp)
    (listener : ListenerState) : ScanPage :=
  { page.setCall k ⟨op, .finished, listener⟩ with busy := false }

/-- The `catch` of both functions. -/
def ScanPage.fail (page : ScanPage) (k : ℕ) (op : ScanOp)
    (listener : ListenerState) (error : String) : ScanPage :=
  { page with msg := error }.finish k op listener

def ScanPage.startDoScan (page : ScanPage) : ScanPage :=
  { page with
    busy := true
    msg := "扫描中..."
    scanCount := 0
    scanDir := ""
    calls := page.calls ++ [⟨.doScan, .subscribing, .absent⟩] }

/-- `runDetect` scans only when nothing has been scanned before. -/
def ScanPage.startRunDetect (page : ScanPage) (retries : ℕ) : ScanPage :=
  if page.scanned.isEmpty then
    { page with
      busy := true
      msg := "扫描中..."
      calls := page.calls ++ [⟨.runDetect, .subscribing, .absent⟩] }
  else
    { page with
      busy := true
      msg := "正在分析重复..."
      calls := page.calls ++
        [⟨.runDetect, .detecting (page.scanned.map FileMeta.path) retries,
          .absent⟩] }

/-- The scan has answered: `unlisten()`, and what follows it. -/
def ScanPage.scanDone (page : ScanPage) (retries k : ℕ) (op : ScanOp)
    (files : List FileMeta) : ScanPage :=
  match op with
  | .doScan =>
      { page with
        scanned := files
        lastScanTotal := files.length
        msg := "扫描完成：" ++ toString files.length ++ " 个文件" }.finish k
          op .unlistened
  | .runDetect =>
      { page with
        scanned := files
        msg := "正在分析重复..." }.setCall k
          ⟨op, .detecting (files.map FileMeta.path) retries, .unlistened⟩

def ScanPage.detectDone (page : ScanPage) (k : ℕ) (op : ScanOp)
    (listener : ListenerState) (groups : List DupGroup) : ScanPage :=
  { page with
    dupGroups := groups
    msg := "检测完成：发现 " ++ toString groups.length ++ " 组重复" }.finish k
      op listener

/-- A failed attempt: `safeInvoke` calls again while it has retries left, and
throws otherwise. -/
def ScanPage.retry (page : ScanPage) (k : ℕ) (call : ScanCall)
    (again : ℕ → ScanPhase) (error : String) : ℕ → ScanPage
  | 0 => page.fail k call.op call.listener error
  | retries + 1 => page.setCall k { call with phase := again retries }

inductive ScanAction
  | doScan
  | runDetect
  | subscribed (k : ℕ)
  | subscribeFailed (k : ℕ) (error : String)
  | scanAnswered (k : ℕ) (outcome : InvokeOutcome (List FileMeta))
  | detectAnswered (k : ℕ) (outcome : InvokeOutcome (List DupGroup))
  | scanProgress (payload : ScanPayload)
  deriving DecidableEq

def scanPathsTimeout : ℕ := 120000

def searchQueryTimeout : ℕ := 60000

/-- One step; `retries` is the configured default of `safeInvoke`. -/
def listenerStep (retries : ℕ) (page : ScanPage) : ScanAction → Option ScanPage
  | .doScan => some (if page.inTauri then page.startDoScan else page)
  | .runDetect =>
      some (if page.inTauri then page.startRunDetect retries else page)
  | .subscribed k =>
      match page.calls[k]? with
      | some ⟨op, .subscribing, _⟩ =>
          some (page.setCall k ⟨op, .scanning retries, .live⟩)
      | _ => none
  | .subscribeFailed k error =>
      match page.calls[k]? with
      | some ⟨op, .subscribing, listener⟩ =>
          some (page.fail k op listener error)
      | _ => none
  | .scanAnswered k outcome =>
      match page.calls[k]? with
      | some ⟨op, .scanning left, listener⟩ =>
          match outcome with
          | .resolved files => some (page.scanDone retries k op files)
          | failure =>
              some (page.retry k ⟨op, .scanning left, listener⟩ .scanning
                (failure.errorText "scan_paths_progress" scanPathsTimeout)
                left)
      | _ => none
  | .detectAnswered k outcome =>
      match page.calls[k]? with
      | some ⟨op, .detecting paths left, listener⟩ =>
          match outcome with
          | .resolved groups => some (page.detectDone k op listener groups)
          | failure =>
              some (page.retry k ⟨op, .detecting paths left, listener⟩
                (.detecting paths)
                (failure.errorText "detect_duplicates" searchQueryTimeout)
                left)
      | _ => none
  | .scanProgress payload => some (page.emit payload)

/-! ## Released listeners -/

/-- The listener of every finished call has been unlistened, if there was one,
and when all calls have finished an event changes nothing. -/
structure ScanPage.Released (page : ScanPage) : Prop where
  unlistened :
    ∀ call ∈ page.calls, call.phase = .finished → call.listener ≠ .live
  silent :
    (∀ call ∈ page.calls, call.phase = .finished) →
      ∀ payload, page.emit payload = page

/-- The last attempt of no scan fails. -/
def ScanSucceeds (page : ScanPage) : ScanAction → Prop
  | .scanAnswered k outcome =>
      ∀ call ∈ page.calls[k]?, call.phase = .scanning 0 →
        outcome.isResolved = true
  | _ => True

instance (page : ScanPage) (action : ScanAction) :
    Decidable (ScanSucceeds page action) :=
  match action with
  | .scanAnswered k outcome =>
      inferInstanceAs (Decidable (∀ call ∈ page.calls[k]?,
        call.phase = .scanning 0 → outcome.isResolved = true))
  | .doScan | .runDetect | .subscribed _ | .subscribeFailed _ _
  | .detectAnswered _ _ | .scanProgress _ => .isTrue trivial

/-- A call between its subscription and the answer to its scan is the only one
which has a live listener before its end. -/
def ScanCall.Coherent (call : ScanCall) : Prop :=
  match call.phase with
  | .subscribing => call.listener = .absent
  | .scanning _ => call.listener = .live
  | .detecting _ _ => call.listener ≠ .live
  | .finished => True

def ScanCall.Ended (call : ScanCall) : Prop :=
  call.phase = .finished → call.listener ≠ .live

/-- What a step does to the calls: nothing, a new call without a listener, or
one call moved on, to an end with a live listener only against the guard. -/
inductive ScanMove (page : ScanPage) (action : ScanAction)
    (next : ScanPage) : Prop
  | same (hcalls : next.calls = page.calls)
      (hguard : ScanSucceeds page action)
  | start (call : ScanCall) (hcalls : next.calls = page.calls ++ [call])
      (hphase : call.phase ≠ .finished) (hcoherent : call.Coherent)
      (hguard : ScanSucceeds page action)
  | move (k : ℕ) (old call : ScanCall) (hrow : page.calls[k]? = some old)
      (hcalls : next.calls = page.calls.set k call)
      (hcoherent : old.Coherent → call.Coherent)
      (hended : old.Coherent → (call.Ended ↔ ScanSucceeds page action))

variable {retries : ℕ} {page next : ScanPage}

theorem ScanPage.emit_calls (page : ScanPage) (payload : ScanPayload) :
    (page.emit payload).calls = page.calls := by
  have hfold (calls : List ScanCall) (page : ScanPage) :
      (calls.foldl (fun page _ => page.onScanProgress payload) page).calls =
        page.calls := by
    induction calls generalizing page with
    | nil => rfl
    | cons call calls ih => exact ih (page.onScanProgress payload)
  exact hfold _ page

theorem ScanMove.answered
    {k left : ℕ} {op : ScanOp} {listener : ListenerState}
    {outcome : InvokeOutcome (List FileMeta)}
    (hrow : page.calls[k]? = some ⟨op, .scanning left, listener⟩)
    (hstep : listenerStep retries page (.scanAnswered k outcome) = some next) :
    ScanMove page (.scanAnswered k outcome) next := by
  have hguard : ScanSucceeds page (.scanAnswered k outcome) ↔
      (left = 0 → outcome.isResolved = true) := by
    simp [ScanSucceeds, hrow]
  have hfailed (hnot : outcome.isResolved = false) (error : String)
      (hnext : next = page.retry k ⟨op, .scanning left, listener⟩ .scanning
        error left) : ScanMove page (.scanAnswered k outcome) next := by
    cases left with
    | zero =>
        refine .move k _ ⟨op, .finished, listener⟩ hrow (by rw [hnext]; rfl)
          (fun _ => trivial) ?_
        intro hlive
        rw [hguard]
        exact iff_of_false (fun hended => hended rfl hlive)
          (fun hresolved => by simp [hnot] at hresolved)
    | succ left =>
        refine .move k _ ⟨op, .scanning left, listener⟩ hrow
          (by rw [hnext]; rfl) id ?_
        intro _
        rw [hguard]
        exact iff_of_true (fun hphase => by simp at hphase)
          (fun hzero => by simp at hzero)
  simp only [listenerStep, hrow] at hstep
  cases outcome with
  | resolved files =>
      have hsucceeds := hguard.mpr fun _ => rfl
      rw [Option.some.injEq] at hstep
      subst hstep
      cases op with
      | doScan =>
          exact .move k _ ⟨.doScan, .finished, .unlistened⟩ hrow rfl
            (fun _ => trivial)
            fun _ => iff_of_true (fun _ => by simp) hsucceeds
      | runDetect =>
          exact .move k _ ⟨.runDetect,
              .detecting (files.map FileMeta.path) retries, .unlistened⟩
            hrow rfl (fun _ => by simp [ScanCall.Coherent])
            fun _ => iff_of_true (fun hphase => by simp at hphase) hsucceeds
  | rejected error =>
      exact hfailed rfl _ (by simpa using hstep.symm)
  | timedOut => exact hfailed rfl _ (by simpa using hstep.symm)

/-- A call which only awaits the detection ends without a live listener. -/
theorem ScanMove.detected
    {k left : ℕ} {op : ScanOp} {paths : List String}
    {listener : ListenerState} {outcome : InvokeOutcome (List DupGroup)}
    (hrow : page.calls[k]? = some ⟨op, .detecting paths left, listener⟩)
    (hstep : listenerStep retries page (.detectAnswered k outcome) =
      some next) :
    ScanMove page (.detectAnswered k outcome) next := by
  have hfinished (hcalls : next.calls =
      page.calls.set k ⟨op, .finished, listener⟩) :
      ScanMove page (.detectAnswered k outcome) next :=
    .move k _ _ hrow hcalls (fun _ => trivial)
      fun hcoherent => iff_of_true (fun _ => hcoherent) trivial
  have hfailed (error : String)
      (hnext : next = page.retry k ⟨op, .detecting paths left, listener⟩
        (.detecting paths) error left) :
      ScanMove page (.detectAnswered k outcome) next := by
    cases left with
    | zero => exact hfinished (by rw [hnext]; rfl)
    | succ left =>
        exact .move k _ ⟨op, .detecting paths left, listener⟩ hrow
          (by rw [hnext]; rfl) id
          fun _ => iff_of_true (fun hphase => by simp at hphase) trivial
  simp only [listenerStep, hrow] at hstep
  cases outcome with
  | resolved groups =>
      rw [Option.some.injEq] at hstep
      exact hfinished (by rw [← hstep]; rfl)
  | rejected error => exact hfailed _ (by simpa using hstep.symm)
  | timedOut => exact hfailed _ (by simpa using hstep.symm)

theorem scanMove_of_step
    {action : ScanAction}
    (hstep : listenerStep retries page action = some next) :
    ScanMove page action next := by
  cases action with
  | doScan =>
      simp only [listenerStep, Option.some.injEq] at hstep
      subst hstep
      split
      next => exact .start _ rfl (by simp) rfl trivial
      next => exact .same rfl trivial
  | runDetect =>
      simp only [listenerStep, Option.some.injEq] at hstep
      subst hstep
      split
      next =>
        unfold ScanPage.startRunDetect
        split
        next => exact .start _ rfl (by simp) rfl trivial
        next => exact .start _ rfl (by simp) (by simp [ScanCall.Coherent]) trivial
      next => exact .same rfl trivial
  | subscribed k =>
      simp only [listenerStep] at hstep
      split at hstep
      next op listener hrow =>
        rw [Option.some.injEq] at hstep
        subst hstep
        exact .move k _ ⟨op, .scanning retries, .live⟩ hrow rfl (fun _ => rfl)
          fun _ => iff_of_true (fun hphase => by simp at hphase) trivial
      next => simp at hstep
  | subscribeFailed k error =>
      simp only [listenerStep] at hstep
      split at hstep
      next op listener hrow =>
        rw [Option.some.injEq] at hstep
        subst hstep
        refine .move k _ ⟨op, .finished, listener⟩ hrow rfl (fun _ => trivial) ?_
        intro hcoherent
        have habsent : listener = .absent := hcoherent
        exact iff_of_true (fun _ => by simp [habsent]) trivial
      next => simp at hstep
  | scanAnswered k outcome =>
      have hcopy := hstep
      simp only [listenerStep] at hcopy
      split at hcopy
      next op left listener hrow => exact ScanMove.answered hrow hstep
      next => simp at hcopy
  | detectAnswered k outcome =>
      have hcopy := hstep
      simp only [listenerStep] at hcopy
      split at hcopy
      next op paths left listener hrow => exact ScanMove.detected hrow hstep
      next => simp at hcopy
  | scanProgress payload =>
      simp only [listenerStep, Option.some.injEq] at hstep
      subst hstep
      exact .same (page.emit_calls payload) trivial

/-! ## Runs -/

def ScanPage.Coherent (page : ScanPage) : Prop :=
  ∀ call ∈ page.calls, call.Coherent

theorem ScanPage.Coherent.step
    {action : ScanAction} (hcoherent : page.Coherent)
    (hstep : listenerStep retries page action = some next) :
    next.Coherent := by
  unfold ScanPage.Coherent at hcoherent ⊢
  cases scanMove_of_step hstep with
  | same hcalls _ =>
      rw [hcalls]
      exact hcoherent
  | start call hcalls _ hnew _ =>
      rw [hcalls]
      simpa [List.mem_append, or_imp, forall_and] using ⟨hcoherent, hnew⟩
  | move k old call hrow hcalls hmoved _ =>
      rw [hcalls, TableUpdate.forall_mem_set_iff hrow hcoherent]
      exact hmoved (hcoherent old (List.mem_of_getElem? hrow))

/-- One step keeps every listener of a finished call released exactly under
the guard. -/
theorem ended_step_iff
    {action : ScanAction} (hcoherent : page.Coherent)
    (hended : ∀ call ∈ page.calls, call.Ended)
    (hstep : listenerStep retries page action = some next) :
    ScanSucceeds page action ↔ ∀ call ∈ next.calls, call.Ended := by
  cases scanMove_of_step hstep with
  | same hcalls hguard =>
      rw [hcalls]
      exact iff_of_true hguard hended
  | start call hcalls hphase _ hguard =>
      rw [hcalls]
      refine iff_of_true hguard ?_
      have hnew : call.Ended := fun hfinished => (hphase hfinished).elim
      simpa [List.mem_append, or_imp, forall_and] using ⟨hended, hnew⟩
  | move k old call hrow hcalls _ hmoved =>
      rw [hcalls, TableUpdate.forall_mem_set_iff hrow hended]
      exact (hmoved (hcoherent old (List.mem_of_getElem? hrow))).symm

theorem ScanPage.released_iff (page : ScanPage) :
    page.Released ↔ ∀ call ∈ page.calls, call.Ended := by
  constructor
  · exact fun hreleased => hreleased.unlistened
  · intro hended
    refine ⟨hended, ?_⟩
    intro hfinished payload
    have hnone : (page.calls.filter fun call => call.listener = .live) =
        [] := by
      rw [List.filter_eq_nil_iff]
      intro call hmem
      simpa using hended call hmem (hfinished call hmem)
    rw [ScanPage.emit, hnone]
    rfl

/-- In every state of a run the finished calls have released their listeners,
exactly when the last attempt of no scan of the run fails or times out. -/
theorem scan_listeners_released_iff
    {retries : ℕ} {inTauri : Bool} {actions : List ScanAction}
    {final : ScanPage}
    (hexec : ActionSystem.exec (listenerStep retries)
      (ScanPage.mount inTauri) actions = some final) :
    (∀ before after mid, actions = before ++ after →
      ActionSystem.exec (listenerStep retries) (ScanPage.mount inTauri)
        before = some mid → mid.Released) ↔
      ActionSystem.Guarded (listenerStep retries) ScanSucceeds
        (ScanPage.mount inTauri) actions := by
  have hmount : (ScanPage.mount inTauri).Coherent := by
    simp [ScanPage.Coherent, ScanPage.mount]
  have hreached {before : List ScanAction} {mid : ScanPage}
      (hbefore : ActionSystem.exec (listenerStep retries)
        (ScanPage.mount inTauri) before = some mid) : mid.Coherent :=
    ActionSystem.exec_invariant
      (fun _ _ _ hcoherent hstep => hcoherent.step hstep) hmount hbefore
  have hstep : ∀ page action next,
      page.Coherent ∧ (∀ call ∈ page.calls, call.Ended) →
      listenerStep retries page action = some next →
      (ScanSucceeds page action ↔
        next.Coherent ∧ ∀ call ∈ next.calls, call.Ended) := by
    rintro page action next ⟨hcoherent, hended⟩ hstep
    rw [ended_step_iff hcoherent hended hstep]
    exact (and_iff_right (hcoherent.step hstep)).symm
  rw [ActionSystem.guarded_iff_forall_reached hstep
    ⟨hmount, by simp [ScanPage.mount]⟩ hexec]
  constructor
  · intro hreleased before after mid hsplit hbefore
    exact ⟨hreached hbefore,
      mid.released_iff.mp (hreleased before after mid hsplit hbefore)⟩
  · intro hgood before after mid hsplit hbefore
    exact mid.released_iff.mpr (hgood before after mid hsplit hbefore).2

/-- A scan and a detection which are each retried once and then answered, and a
second detection over the same files which fails. -/
def releasingActions : List ScanAction :=
  [.runDetect, .subscribed 0, .scanProgress ⟨some 1, some "/d/a.txt"⟩,
    .scanAnswered 0 .timedOut,
    .scanAnswered 0 (.resolved [⟨"/d/a.txt", "a.txt", "txt", 1, 0⟩]),
    .detectAnswered 0 .timedOut, .detectAnswered 0 (.resolved []),
    .runDetect, .detectAnswered 1 .timedOut, .detectAnswered 1 .timedOut]

theorem scan_listeners_released_retried :
    ∃ final, ActionSystem.exec (listenerStep 1) (ScanPage.mount true)
        releasingActions = some final ∧
      (∀ call ∈ final.calls, call.phase = .finished) ∧ final.Released := by
  have hexec : (ActionSystem.exec (listenerStep 1) (ScanPage.mount true)
      releasingActions).isSome = true := by decide
  obtain ⟨final, hfinal⟩ := Option.isSome_iff_exists.mp hexec
  have hdone : ∀ page ∈ ActionSystem.exec (listenerStep 1)
      (ScanPage.mount true) releasingActions,
      ∀ call ∈ page.calls, call.phase = .finished := by decide
  exact ⟨final, hfinal, hdone final hfinal,
    (scan_listeners_released_iff hfinal).mpr (by decide) releasingActions []
      final (by simp) hfinal⟩

/-- The scan times out; the call is over, and an event of the scan which the
back end goes on with still changes the page. -/
theorem timed_out_scan_keeps_listening :
    ∃ final, ActionSystem.exec (listenerStep 0) (ScanPage.mount true)
        [.runDetect, .subscribed 0, .scanAnswered 0 .timedOut] = some final ∧
      final.calls = [⟨.runDetect, .finished, .live⟩] ∧
      (final.emit ⟨some 7, some "/d/a.txt"⟩).scanCount = 7 ∧
      final.scanCount = 0 := by
  refine ⟨_, rfl, rfl, ?_, rfl⟩
  decide

end SearchEvery
