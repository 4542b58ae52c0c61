import SearchEvery.ActionSystem
import SearchEvery.IndexBuild
import SearchEvery.ScanListeners
import Mathlib.Tactic

/-!
# The count shown while scanning

`scan_paths_progress` emits one numbered event for every file it returns, in
the order of the list, and a closing one.  The page overwrites its count and
its directory with every event it hears.  As long as the page hears the events
of one scan only, it shows how many files the scan has found, and its last
count is the length of the list.
-/

namespace SearchEvery

/-! ## The events of a scan -/

/-- One event for every result, numbered from one. -/
def numberedEvents (files : List FileMeta) : List ScanEvent :=
  (files.zipIdx 1).map fun row => .progress row.2 row.1.path row.1.fileName

theorem numberedEvents_append_singleton
    (files : List FileMeta) (file : FileMeta) :
    numberedEvents (files ++ [file]) =
      numberedEvents files ++
        [.progress (files ++ [file]).length file.path file.fileName] := by
  simp [numberedEvents, List.zipIdx_append, Nat.add_comm]

theorem scanStep_events
    {env : ScanEnv} {excludePatterns : List String} {limit : Option ℕ}
    {state next : ScanState} {item : WalkItem}
    (hevents : state.events = numberedEvents state.results)
    (hstep : scanStep env excludePatterns limit state item = .ok next) :
    next.events = numberedEvents next.results := by
  rcases scanStep_cases hstep with ⟨_, rfl⟩ | ⟨found, _, _, rfl⟩
  · exact hevents
  · simp only [ScanState.push, numberedEvents_append_singleton, hevents]
    rfl

theorem scanFold_events
    {env : ScanEnv} {excludePatterns : List String} {limit : Option ℕ}
    {items : List WalkItem} {state final : ScanState}
    (hevents : state.events = numberedEvents state.results)
    (hfold : items.foldlM (scanStep env excludePatterns limit) state =
      .ok final) :
    final.events = numberedEvents final.results := by
  induction items generalizing state with
  | nil => exact FallibleLoop.foldlM_nil_eq_ok hfold ▸ hevents
  | cons item items ih =>
      obtain ⟨next, hstep, hrest⟩ := FallibleLoop.foldlM_cons_eq_ok hfold
      exact ih (scanStep_events hevents hstep) hrest

theorem scanPathsProgress_events
    {env : ScanEnv} {opts : ScanOptions} {disk : Disk}
    {files : List FileMeta} {events : List ScanEvent}
    (hscan : scanPathsProgress env opts disk = .ok (files, events)) :
    events = numberedEvents files ++ [.done files.length] := by
  unfold scanPathsProgress at hscan
  obtain ⟨limit, _, hrest⟩ := FallibleLoop.bind_eq_ok hscan
  obtain ⟨final, hfold, hanswer⟩ := FallibleLoop.bind_eq_ok hrest
  have hevents := @scanFold_events _ _ _ _ ScanState.initial _ rfl hfold
  cases hanswer
  rw [hevents]

/-! ## What the page hears -/

/-- The payload of a `scan_progress` event; `scan_done` has none. -/
def ScanEvent.payload? : ScanEvent → Option ScanPayload
  | .progress current path _ => some ⟨some current, some path⟩
  | .done _ => none

def ScanAction.payload? : ScanAction → Option ScanPayload
  | .scanProgress payload => some payload
  | _ => none

/-- The action neither resets the count nor moves call `k`. -/
def ScanAction.Spares (k : ℕ) : ScanAction → Prop
  | .doScan => False
  | .runDetect | .scanProgress _ => True
  | .subscribed j | .subscribeFailed j _ | .scanAnswered j _
  | .detectAnswered j _ => j ≠ k

instance (k : ℕ) (action : ScanAction) : Decidable (action.Spares k) :=
  match action with
  | .doScan => .isFalse not_false
  | .runDetect | .scanProgress _ => .isTrue trivial
  | .subscribed j | .subscribeFailed j _ | .scanAnswered j _
  | .detectAnswered j _ => inferInstanceAs (Decidable (j ≠ k))

theorem payloads_of_scan
    {env : ScanEnv} {opts : ScanOptions} {disk : Disk}
    {files : List FileMeta} {events : List ScanEvent}
    (hscan : scanPathsProgress env opts disk = .ok (files, events)) :
    events.filterMap ScanEvent.payload? =
      (files.zipIdx 1).map fun row => ⟨some row.2, some row.1.path⟩ := by
  rw [scanPathsProgress_events hscan, List.filterMap_append, numberedEvents,
    List.filterMap_map]
  simp only [List.filterMap_cons, ScanEvent.payload?, List.filterMap_nil,
    List.append_nil]
  exact List.filterMap_eq_map' ▸ rfl

section Page

variable {retries : ℕ} {page next : ScanPage}

theorem ScanPage.onScanProgress_twice
    (page : ScanPage) (payload : ScanPayload) :
    (page.onScanProgress payload).onScanProgress payload =
      page.onScanProgress payload := by
  obtain ⟨current, path⟩ := payload
  cases path with
  | none => cases current <;> rfl
  | some path =>
      by_cases hempty : path = "" <;> cases current <;>
        simp [ScanPage.onScanProgress, hempty]

/-- However many listeners there are, an event is taken over once. -/
theorem ScanPage.emit_of_live
    {k : ℕ} {call : ScanCall} (hrow : page.calls[k]? = some call)
    (hlive : call.listener = .live) (payload : ScanPayload) :
    page.emit payload = page.onScanProgress payload := by
  have hfold (calls : List ScanCall) (shown : ScanPage)
      (hshown : shown.onScanProgress payload = shown) :
      calls.foldl (fun page _ => page.onScanProgress payload) shown =
        shown := by
    induction calls with
    | nil => rfl
    | cons call calls ih => rw [List.foldl_cons, hshown, ih]
  have hmem : call ∈ page.calls.filter fun call => call.listener = .live :=
    List.mem_filter.mpr ⟨List.mem_of_getElem? hrow, by simp [hlive]⟩
  unfold ScanPage.emit
  cases hcalls : page.calls.filter fun call => call.listener = .live with
  | nil =>
      rw [hcalls] at hmem
      exact (List.not_mem_nil hmem).elim
  | cons first rest =>
      exact hfold rest _ (page.onScanProgress_twice payload)

/-- The count and the directory on the page. -/
def ScanPage.shown (page : ScanPage) : ℕ × String :=
  (page.scanCount, page.scanDir)

theorem ScanPage.setCall_spares
    {j k : ℕ} (hne : j ≠ k) (page : ScanPage) (call : ScanCall) :
    (page.setCall j call).calls[k]? = page.calls[k]? :=
  List.getElem?_set_ne hne

theorem ScanPage.retry_spares
    {j k : ℕ} (hne : j ≠ k) (page : ScanPage) (call : ScanCall)
    (again : ℕ → ScanPhase) (error : String) (left : ℕ) :
    (page.retry j call again error left).calls[k]? = page.calls[k]? ∧
      (page.retry j call again error left).shown = page.shown := by
  cases left with
  | zero => exact ⟨List.getElem?_set_ne hne, rfl⟩
  | succ left => exact ⟨List.getElem?_set_ne hne, rfl⟩

/-- A step which spares the call keeps it, and changes what is shown only by
an event. -/
theorem listenerStep_spares
    {k : ℕ} {call : ScanCall} {action : ScanAction}
    (hrow : page.calls[k]? = some call) (hlive : call.listener = .live)
    (hspares : action.Spares k)
    (hstep : listenerStep retries page action = some next) :
    next.calls[k]? = page.calls[k]? ∧
      next.shown = match action.payload? with
        | some payload => (page.onScanProgress payload).shown
        | none => page.shown := by
  cases action with
  | doScan => exact hspares.elim
  | runDetect =>
      have hlt := (List.getElem?_eq_some_iff.mp hrow).1
      simp only [listenerStep, Option.some.injEq] at hstep
      subst hstep
      split
      · unfold ScanPage.startRunDetect
        split <;> exact ⟨List.getElem?_append_left hlt, rfl⟩
      · exact ⟨rfl, rfl⟩
  | subscribed j =>
      simp only [listenerStep] at hstep
      split at hstep
      · rw [← Option.some.inj hstep]
        exact ⟨page.setCall_spares hspares _, rfl⟩
      · simp at hstep
  | subscribeFailed j error =>
      simp only [listenerStep] at hstep
      split at hstep
      · rw [← Option.some.inj hstep]
        exact ⟨page.setCall_spares hspares _, rfl⟩
      · simp at hstep
  | scanAnswered j outcome =>
      simp only [listenerStep] at hstep
      split at hstep
      next op left listener _ =>
        split at hstep
        next files =>
          rw [← Option.some.inj hstep]
          cases op with
          | doScan => exact ⟨page.setCall_spares hspares _, rfl⟩
          | runDetect => exact ⟨page.setCall_spares hspares _, rfl⟩
        next =>
          rw [← Option.some.inj hstep]
          exact page.retry_spares hspares _ _ _ left
      next => simp at hstep
  | detectAnswered j outcome =>
      simp only [listenerStep] at hstep
      split at hstep
      next op paths left listener _ =>
        split at hstep
        next groups =>
          rw [← Option.some.inj hstep]
          exact ⟨page.setCall_spares hspares _, rfl⟩
        next =>
          rw [← Option.some.inj hstep]
          exact page.retry_spares hspares _ _ _ left
      next => simp at hstep
  | scanProgress payload =>
      rw [← Option.some.inj hstep]
      refine ⟨by rw [page.emit_calls], ?_⟩
      rw [page.emit_of_live hrow hlive]
      rfl

/-- What is shown after some payloads. -/
def shownAfter (shown : ℕ × String) (payloads : List ScanPayload) :
    ℕ × String :=
  payloads.foldl (fun shown payload =>
    (payload.current.getD shown.1,
      match payload.path with
      | some path => if path = "" then shown.2 else directoryOf path
      | none => shown.2)) shown

theorem exec_shown
    {k : ℕ} {call : ScanCall} {actions : List ScanAction} {final : ScanPage}
    (hrow : page.calls[k]? = some call) (hlive : call.listener = .live)
    (hspares : ∀ action ∈ actions, action.Spares k)
    (hexec : ActionSystem.exec (listenerStep retries) page actions =
      some final) :
    final.calls[k]? = some call ∧
      final.shown =
        shownAfter page.shown (actions.filterMap ScanAction.payload?) := by
  induction actions generalizing page with
  | nil =>
      obtain rfl := Option.some.inj hexec
      exact ⟨hrow, rfl⟩
  | cons action actions ih =>
      rw [List.forall_mem_cons] at hspares
      obtain ⟨next, hstep, hrest⟩ := ActionSystem.exec_cons_eq_some_iff.mp hexec
      obtain ⟨hsame, hshown⟩ :=
        listenerStep_spares hrow hlive hspares.1 hstep
      obtain ⟨hcall, hfinal⟩ := ih (hsame.trans hrow) hspares.2 hrest
      refine ⟨hcall, ?_⟩
      rw [hfinal, hshown]
      cases hpayload : action.payload? with
      | none => rw [List.filterMap_cons_none hpayload]
      | some payload =>
          rw [List.filterMap_cons_some hpayload]
          rfl

/-- After `n` events of a scan, the page shows `n` and the directory of the
`n`-th file. -/
theorem shownAfter_numbered
    (shown : ℕ × String) {files : List FileMeta} {n : ℕ} {file : FileMeta}
    (hfile : files[n]? = some file) :
    (shownAfter shown (((files.zipIdx 1).map fun row =>
        (⟨some row.2, some row.1.path⟩ : ScanPayload)).take (n + 1))).1 =
          n + 1 ∧
      (file.path ≠ "" →
        (shownAfter shown (((files.zipIdx 1).map fun row =>
          (⟨some row.2, some row.1.path⟩ : ScanPayload)).take (n + 1))).2 =
            directoryOf file.path) := by
  have hpayload : ((files.zipIdx 1).map fun row =>
      (⟨some row.2, some row.1.path⟩ : ScanPayload))[n]? =
        some ⟨some (n + 1), some file.path⟩ := by
    simp [List.getElem?_map, List.getElem?_zipIdx, hfile, Nat.add_comm]
  rw [List.take_add_one, hpayload]
  unfold shownAfter
  rw [List.foldl_append]
  exact ⟨rfl, fun hpath => by simp [hpath]⟩

/-- While a page hears the events of one scan and no other one is started by
`doScan`, whatever its other calls do and however many listeners it has: before
the first event it shows what it showed, and from then on the number of files
found so far and the directory of the last one; when it has heard them all and
the answer comes, the count is the length of the list it keeps, if a file was
found. -/
theorem scan_display
    {env : ScanEnv} {opts : ScanOptions} {disk : Disk}
    {files : List FileMeta} {events : List ScanEvent}
    (hscan : scanPathsProgress env opts disk = .ok (files, events))
    {final : ScanPage} {k left : ℕ} {op : ScanOp} {actions : List ScanAction}
    (hrow : page.calls[k]? = some ⟨op, .scanning left, .live⟩)
    (hspares : ∀ action ∈ actions, action.Spares k)
    (hheard : actions.filterMap ScanAction.payload? <+:
      events.filterMap ScanEvent.payload?)
    (hexec : ActionSystem.exec (listenerStep retries) page actions =
      some final) :
    let heard := (actions.filterMap ScanAction.payload?).length
    (heard = 0 → final.shown = page.shown) ∧
    (∀ n file, heard = n + 1 → files[n]? = some file →
      final.scanCount = n + 1 ∧
        (file.path ≠ "" → final.scanDir = directoryOf file.path)) ∧
    heard ≤ files.length ∧
    (heard = files.length → files ≠ [] → ∀ answered,
      listenerStep retries final (.scanAnswered k (.resolved files)) =
        some answered →
          answered.scanned = files ∧ answered.scanCount = files.length) := by
  intro heard
  obtain ⟨hcall, hshown⟩ := exec_shown hrow rfl hspares hexec
  rw [payloads_of_scan hscan] at hheard
  have hbound : heard ≤ files.length := by
    simpa using hheard.length_le
  have hcount (n : ℕ) (file : FileMeta) (hn : heard = n + 1)
      (hfile : files[n]? = some file) :
      final.scanCount = n + 1 ∧
        (file.path ≠ "" → final.scanDir = directoryOf file.path) := by
    have hafter := shownAfter_numbered page.shown hfile
    rw [← hn, ← List.prefix_iff_eq_take.mp hheard, ← hshown, hn] at hafter
    exact hafter
  refine ⟨?_, hcount, hbound, ?_⟩
  · intro hzero
    rw [hshown, List.length_eq_zero_iff.mp hzero]
    rfl
  · intro hall hsome answered hanswer
    obtain ⟨n, hn⟩ := Nat.exists_eq_succ_of_ne_zero
      (fun hzero => hsome (List.length_eq_zero_iff.mp hzero))
    have hlast := (hcount n files[n] (hall.trans hn)
      (List.getElem?_eq_getElem _)).1
    simp only [listenerStep, hcall, Option.some.injEq] at hanswer
    rw [← hanswer, hn]
    cases op with
    | doScan => exact ⟨rfl, hlast⟩
    | runDetect => exact ⟨rfl, hlast⟩

end Page

def listeningPage : ScanPage :=
  { ScanPage.mount true with calls := [⟨.runDetect, .scanning 0, .live⟩] }

def twoFileScan : ScanEnv :=
  { oneFileScan false none with
    walkDir := listedWalkDir [("/d/a", ⟨1, none⟩), ("/d/e/b", ⟨1, none⟩)]
      (by decide) }

/-- A second detection is started while the scan reports its two files. -/
theorem scan_display_two :
    ∃ final,
      ActionSystem.exec (listenerStep 0) listeningPage
          [.scanProgress ⟨some 1, some "/d/a"⟩, .runDetect,
            .scanProgress ⟨some 2, some "/d/e/b"⟩] = some final ∧
      final.scanCount = 2 ∧ final.scanDir = "/d/e" := by
  have hscan : scanPathsProgress twoFileScan
      ⟨["/d"], [], none, false⟩ oneFileDisk =
        .ok ([⟨"/d/a", "a", "", 1, 0⟩, ⟨"/d/e/b", "b", "", 1, 0⟩],
          [.progress 1 "/d/a" "a", .progress 2 "/d/e/b" "b", .done 2]) := by
    rfl
  obtain ⟨_, hcount, _⟩ := @scan_display 0 listeningPage _ _ _ _ _ hscan _ 0 0
    .runDetect [.scanProgress ⟨some 1, some "/d/a"⟩, .runDetect,
      .scanProgress ⟨some 2, some "/d/e/b"⟩] rfl (by decide) (by decide) rfl
  obtain ⟨htwo, hdir⟩ := hcount 1 _ rfl rfl
  exact ⟨_, rfl, htwo, hdir (by decide)⟩

end SearchEvery
