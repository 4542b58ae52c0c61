import SearchEvery.PipelineLedger
import Mathlib.Tactic

/-!
# When the completion of a run is sound

The task announces completion twice, by storing `completed = true` and by the
`index_done` event, and waits for no worker before either.  The announcements
are sound in every run in which they come after the last commit, every call
on the writer succeeds, and no worker's `delete_term` reaches the document of
another file.
-/

namespace SearchEvery

/-- The actions which tell the outside that the run is complete. -/
def RunAction.announces : RunAction → Bool
  | .markCompleted _ .ok => true
  | .emitIndexDone => true
  | _ => false

/-- The worker's raw path is a token of no other file of the run. -/
def DeletesOnlyItself (tables : CharTables) (workers : List Worker)
    (worker : Worker) : Prop :=
  ∀ other ∈ workers, other.file.path ≠ worker.file.path →
    worker.file.path ∉ tables.defaultTokens other.file.path

instance (tables : CharTables) (workers : List Worker) (worker : Worker) :
    Decidable (DeletesOnlyItself tables workers worker) :=
  inferInstanceAs (Decidable (∀ other ∈ workers, _ → _))

def SparesOthers (tables : CharTables) (s : RunState) : RunAction → Prop
  | .deleteTerm i =>
      ∀ worker ∈ s.workers[i]?, DeletesOnlyItself tables s.workers worker
  | _ => True

instance (tables : CharTables) (s : RunState) (action : RunAction) :
    Decidable (SparesOthers tables s action) :=
  match action with
  | .deleteTerm i =>
      inferInstanceAs (Decidable (∀ worker ∈ s.workers[i]?,
        DeletesOnlyItself tables s.workers worker))
  | .createDir _ | .openIndex _ | .buildPool _ | .openWriter _ _
  | .markStarted _ _ | .visit | .emitScanDone | .markCompleted _ _
  | .emitIndexDone | .returnOk | .buildDoc _ _ | .lock _ _
  | .addDocument _ _ | .commit _ _ | .unlock _ | .fetchAdd _
  | .emitProgress _ | .finish _ => .isTrue trivial

/-- The condition on a step under which completion stays sound: the call
succeeds, an announcement comes when every worker is past its commit, and a
deletion spares the other files. -/
def CompletionGuard (tables : CharTables) (s : RunState)
    (action : RunAction) : Prop :=
  action.succeeds = true ∧
    (action.announces = true →
      ∀ worker ∈ s.workers, worker.stage = .published) ∧
    SparesOthers tables s action

instance (tables : CharTables) (s : RunState) (action : RunAction) :
    Decidable (CompletionGuard tables s action) :=
  inferInstanceAs (Decidable (_ ∧ (_ → _) ∧ _))

/-- Every worker past its commit has a committed document.  In the writer the
same holds from its add on, unless the worker inside the critical section is
about to replace that document. -/
structure RunState.Covered (s : RunState) : Prop where
  docs :
    ∀ worker ∈ s.workers, worker.stage = .published →
      ∃ doc ∈ s.docs, doc.path = worker.file.path
  pending :
    ∀ worker ∈ s.workers, worker.stage = .staged ∨ worker.stage = .published →
      (∃ doc ∈ s.pending, doc.path = worker.file.path) ∨
        ∃ other ∈ s.workers,
          other.stage = .deleted ∧ other.file.path = worker.file.path

variable {env : PipelineEnv} {args : RunArgs} {items : List WalkItem}

theorem RunState.start_covered
    (docs : List Doc) (locked : Bool) (stateFile : StateFile) :
    (RunState.start docs locked stateFile).Covered := by
  constructor <;> simp [RunState.start, RunFrame.initial]

theorem RunState.Covered.of_same
    {s next : RunState} (hcovered : s.Covered)
    (hdocs : next.docs = s.docs) (hpending : next.pending = s.pending)
    (hold : ∀ worker ∈ next.workers, worker.stage ≠ .waiting →
      ∃ before ∈ s.workers,
        before.file = worker.file ∧ before.stage = worker.stage)
    (hnew : ∀ before ∈ s.workers, before.stage = .deleted →
      ∃ worker ∈ next.workers,
        worker.file = before.file ∧ worker.stage = .deleted) :
    next.Covered where
  docs := by
    intro worker hmem hstage
    obtain ⟨before, hbefore, hfile, hsame⟩ :=
      hold worker hmem (by simp [hstage])
    rw [hdocs, ← hfile]
    exact hcovered.docs before hbefore (hsame.trans hstage)
  pending := by
    intro worker hmem hstage
    obtain ⟨before, hbefore, hfile, hsame⟩ :=
      hold worker hmem (by rcases hstage with h | h <;> simp [h])
    rw [← hsame] at hstage
    rw [hpending, ← hfile]
    rcases hcovered.pending before hbefore hstage with hdoc | hother
    · exact Or.inl hdoc
    · obtain ⟨other, hmemOther, hdeleted, hpath⟩ := hother
      obtain ⟨moved, hmoved, hfileMoved, hstageMoved⟩ :=
        hnew other hmemOther hdeleted
      exact Or.inr ⟨moved, hmoved, hstageMoved, by rw [hfileMoved, hpath]⟩

theorem RunState.Covered.deleteTerm
    {s next : RunState} (hcovered : s.Covered)
    {i : ℕ} {worker : Worker} (hrow : s.workers[i]? = some worker)
    (hphase : worker.phase = .holding)
    (hworkers : next.workers =
      s.workers.set i { worker with phase := .deleted })
    (hdocs : next.docs = s.docs)
    (hpending : next.pending =
      SearchEvery.deleteTerm env.tables worker.file.path s.pending)
    (hspares : DeletesOnlyItself env.tables s.workers worker) :
    next.Covered := by
  have hstays :
      ∀ row ∈ next.workers, row.stage ≠ .deleted → row ∈ s.workers := by
    intro row hmem hstage
    rw [hworkers] at hmem
    rcases List.mem_or_eq_of_mem_set hmem with hold | rfl
    · exact hold
    · exact (hstage rfl).elim
  have hmoved : { worker with phase := .deleted } ∈ next.workers := by
    rw [hworkers]
    exact List.mem_set (List.getElem?_eq_some_iff.mp hrow).1 _
  have hkept :
      ∀ other ∈ s.workers, other.stage = .deleted → other ∈ next.workers := by
    intro other hother hdeleted
    obtain ⟨j, hj⟩ := List.mem_iff_getElem?.mp hother
    have hne : i ≠ j := by
      rintro rfl
      rw [hrow, Option.some.injEq] at hj
      subst hj
      simp [Worker.stage, hphase, WorkerPhase.docStage] at hdeleted
    rw [hworkers]
    exact List.mem_of_getElem? (by rw [List.getElem?_set_ne hne, hj])
  constructor
  · intro row hmem hstage
    rw [hdocs]
    exact hcovered.docs row (hstays row hmem (by simp [hstage])) hstage
  · intro row hmem hstage
    have hold := hstays row hmem (by rcases hstage with h | h <;> simp [h])
    by_cases hpath : row.file.path = worker.file.path
    · exact Or.inr ⟨_, hmoved, rfl, hpath.symm⟩
    · rcases hcovered.pending row hold hstage with hdoc | hother
      · obtain ⟨doc, hmemDoc, hdocPath⟩ := hdoc
        refine Or.inl ⟨doc, ?_, hdocPath⟩
        rw [hpending, mem_deleteTerm, hdocPath]
        exact ⟨hmemDoc, hspares row hold hpath⟩
      · obtain ⟨other, hmemOther, hdeleted, hotherPath⟩ := hother
        exact Or.inr ⟨other, hkept other hmemOther hdeleted, hdeleted,
          hotherPath⟩

theorem RunState.Covered.addDocument
    {s next : RunState} (hgood : s.Coherent env args items)
    (hcovered : s.Covered) {i : ℕ} {worker : Worker}
    (hrow : s.workers[i]? = some worker) (hphase : worker.phase = .deleted)
    (hworkers : next.workers =
      s.workers.set i { worker with phase := .added })
    (hdocs : next.docs = s.docs)
    (hpending : next.pending = s.pending ++ worker.doc.toList) :
    next.Covered := by
  obtain ⟨doc, hdoc, hstored⟩ :=
    hgood.doc_stored (List.mem_of_getElem? hrow) (by simp [hphase])
  have hnewDoc : doc ∈ next.pending := by
    simp [hpending, hdoc]
  have hdocPath : doc.path = worker.file.path := congrArg Prod.fst hstored
  constructor
  · intro row hmem hstage
    rw [hworkers] at hmem
    rw [hdocs]
    rcases List.mem_or_eq_of_mem_set hmem with hold | rfl
    · exact hcovered.docs row hold hstage
    · simp [Worker.stage, WorkerPhase.docStage] at hstage
  · intro row hmem hstage
    rw [hworkers] at hmem
    rcases List.mem_or_eq_of_mem_set hmem with hold | rfl
    · rcases hcovered.pending row hold hstage with hthere | hother
      · obtain ⟨found, hfound, hpath⟩ := hthere
        exact Or.inl ⟨found, by simp [hpending, hfound], hpath⟩
      · obtain ⟨other, hmemOther, hdeleted, hpath⟩ := hother
        obtain ⟨j, hj⟩ := List.mem_iff_getElem?.mp hmemOther
        obtain ⟨_, rfl⟩ := hgood.row_unique hrow
          (by simp [hphase, WorkerPhase.isCritical]) hj (Or.inl hdeleted)
        exact Or.inl ⟨doc, hnewDoc, hdocPath.trans hpath⟩
    · exact Or.inl ⟨doc, hnewDoc, hdocPath⟩

theorem RunState.Covered.commit
    {s next : RunState} (hgood : s.Coherent env args items)
    (hcovered : s.Covered) {i : ℕ} {worker : Worker}
    (hrow : s.workers[i]? = some worker) (hphase : worker.phase = .added)
    (hworkers : next.workers =
      s.workers.set i { worker with phase := .committed })
    (hdocs : next.docs = s.pending) (hpending : next.pending = s.pending) :
    next.Covered := by
  have hstaged : worker.stage = .staged := by
    simp [Worker.stage, hphase, WorkerPhase.docStage]
  have hall :
      ∀ row ∈ s.workers, row.stage = .staged ∨ row.stage = .published →
        ∃ doc ∈ s.pending, doc.path = row.file.path := by
    intro row hmem hstage
    rcases hcovered.pending row hmem hstage with hdoc | hother
    · exact hdoc
    · obtain ⟨other, hmemOther, hdeleted, _⟩ := hother
      obtain ⟨j, hj⟩ := List.mem_iff_getElem?.mp hmemOther
      obtain ⟨_, rfl⟩ := hgood.row_unique hrow
        (by simp [hphase, WorkerPhase.isCritical]) hj (Or.inl hdeleted)
      rw [hstaged] at hdeleted
      contradiction
  have hnext :
      ∀ row ∈ next.workers, row.stage = .staged ∨ row.stage = .published →
        ∃ doc ∈ s.pending, doc.path = row.file.path := by
    intro row hmem hstage
    rw [hworkers] at hmem
    rcases List.mem_or_eq_of_mem_set hmem with hold | rfl
    · exact hall row hold hstage
    · exact hall worker (List.mem_of_getElem? hrow) (Or.inl hstaged)
  constructor
  · intro row hmem hstage
    rw [hdocs]
    exact hnext row hmem (Or.inr hstage)
  · intro row hmem hstage
    rw [hpending]
    exact Or.inl (hnext row hmem hstage)

theorem RunState.Covered.step
    {s next : RunState} {action : RunAction}
    (hgood : s.Coherent env args items) (hcovered : s.Covered)
    (hguard : CompletionGuard env.tables s action)
    (hstep : runStep env args items s action = some next) :
    next.Covered := by
  obtain ⟨hsucceeds, _, hspares⟩ := hguard
  cases runStep_docStep hgood hstep with
  | task hworkers hdocs hpending _ =>
      refine hcovered.of_same hdocs hpending ?_ ?_
      · rw [hworkers]
        exact fun worker hmem _ => ⟨worker, hmem, rfl, rfl⟩
      · rw [hworkers]
        exact fun worker hmem hstage => ⟨worker, hmem, rfl, hstage⟩
  | openWriter _ hworkers _ _ => constructor <;> simp [hworkers]
  | spawn hworkers hdocs hpending _ =>
      refine hcovered.of_same hdocs hpending ?_ ?_
      · intro worker hmem hstage
        rw [hworkers, List.mem_append, List.mem_singleton] at hmem
        rcases hmem with hold | rfl
        · exact ⟨worker, hold, rfl, rfl⟩
        · exact (hstage rfl).elim
      · rw [hworkers]
        exact fun worker hmem hstage =>
          ⟨worker, List.mem_append_left _ hmem, rfl, hstage⟩
  | quiet hrow hworkers hdocs hpending hfile hstage _ =>
      obtain ⟨hback, hforth⟩ := stage_of_mem_set hrow hfile hstage
      refine hcovered.of_same hdocs hpending ?_ ?_
      · rw [hworkers]
        exact fun worker hmem _ => hback worker hmem
      · intro before hmem hdeleted
        obtain ⟨row, hrow', hrowFile, hrowStage⟩ := hforth before hmem
        rw [hworkers]
        exact ⟨row, hrow', hrowFile, hrowStage.trans hdeleted⟩
  | giveUp _ _ _ _ _ => simp [RunAction.succeeds] at hsucceeds
  | deleteTerm hrow hphase hworkers hdocs hpending =>
      exact hcovered.deleteTerm hrow hphase hworkers hdocs hpending
        (hspares _ hrow)
  | addDocument hrow hphase hworkers hdocs hpending =>
      simp only [RunAction.succeeds] at hsucceeds
      rw [if_pos hsucceeds] at hpending
      exact RunState.Covered.addDocument hgood hcovered hrow hphase hworkers
        hdocs hpending
  | commit hrow hphase hworkers hdocs hpending =>
      simp only [RunAction.succeeds] at hsucceeds
      rw [if_pos hsucceeds] at hdocs
      exact RunState.Covered.commit hgood hcovered hrow hphase hworkers hdocs
        hpending

/-! ## After the announcement -/

/-- Every admitted file has its worker, past the commit and with a committed
document. -/
structure RunState.Settled (env : PipelineEnv) (args : RunArgs)
    (items : List WalkItem) (s : RunState) : Prop where
  files :
    s.workers.map Worker.file = items.filterMap (pipelineFile env args)
  published : ∀ worker ∈ s.workers, worker.stage = .published
  docs :
    ∀ worker ∈ s.workers, ∃ doc ∈ s.docs, doc.path = worker.file.path

theorem RunState.Settled.step
    {s next : RunState} {action : RunAction}
    (hgood : s.Coherent env args items) (hsettled : s.Settled env args items)
    (hstep : runStep env args items s action = some next) :
    next.Settled env args items := by
  have hlate :
      ∀ {i : ℕ} {worker : Worker}, s.workers[i]? = some worker →
        worker.stage = .published :=
    fun hrow => hsettled.published _ (List.mem_of_getElem? hrow)
  cases runStep_docStep hgood hstep with
  | task hworkers hdocs _ _ =>
      refine ⟨?_, ?_, ?_⟩
      · rw [hworkers]
        exact hsettled.files
      · rw [hworkers]
        exact hsettled.published
      · rw [hworkers, hdocs]
        exact hsettled.docs
  | openWriter hnil hworkers _ _ =>
      refine ⟨?_, by simp [hworkers], by simp [hworkers]⟩
      rw [hworkers, ← hnil]
      exact hsettled.files
  | spawn hworkers _ _ _ =>
      have hnext := congrArg List.length (hgood.step hstep).files
      have hhere := congrArg List.length hsettled.files
      rw [hworkers] at hnext
      simp only [List.length_append, List.length_map, List.length_cons,
        List.length_nil] at hnext hhere
      omega
  | quiet hrow hworkers hdocs _ hfile hstage _ =>
      obtain ⟨hback, _⟩ := stage_of_mem_set hrow hfile hstage
      refine ⟨?_, ?_, ?_⟩
      · rw [hworkers, TableUpdate.map_set_of_eq hrow hfile]
        exact hsettled.files
      · intro row hmem
        rw [hworkers] at hmem
        obtain ⟨before, hbefore, _, hsame⟩ := hback row hmem
        rw [← hsame]
        exact hsettled.published before hbefore
      · intro row hmem
        rw [hworkers] at hmem
        obtain ⟨before, hbefore, hsame, _⟩ := hback row hmem
        rw [hdocs, ← hsame]
        exact hsettled.docs before hbefore
  | giveUp hrow hwaiting _ _ _ =>
      rw [hlate hrow] at hwaiting
      contradiction
  | deleteTerm hrow hphase _ _ _ =>
      have hstage := hlate hrow
      simp [Worker.stage, hphase, WorkerPhase.docStage] at hstage
  | addDocument hrow hphase _ _ _ =>
      have hstage := hlate hrow
      simp [Worker.stage, hphase, WorkerPhase.docStage] at hstage
  | commit hrow hphase _ _ _ =>
      have hstage := hlate hrow
      simp [Worker.stage, hphase, WorkerPhase.docStage] at hstage

theorem remaining_of_announces
    {s next : RunState} {action : RunAction}
    (hannounces : action.announces = true)
    (hstep : runStep env args items s action = some next) :
    s.task.remaining items = [] := by
  cases runStep_spec hstep with
  | setup haction _ _ =>
      cases action <;>
        simp [RunAction.announces, RunAction.isSetup] at haction hannounces
  | markCompleted htask =>
      rw [htask]
      rfl
  | emitIndexDone htask =>
      rw [htask]
      rfl
  | _ => simp [RunAction.announces] at hannounces

theorem RunState.Covered.settled
    {s next : RunState} {action : RunAction}
    (hgood : s.Coherent env args items) (hcovered : s.Covered)
    (hguard : CompletionGuard env.tables s action)
    (hannounces : action.announces = true)
    (hstep : runStep env args items s action = some next) :
    s.Settled env args items where
  files := by
    have hfiles := hgood.files
    rwa [remaining_of_announces hannounces hstep, List.filterMap_nil,
      List.append_nil] at hfiles
  published := hguard.2.1 hannounces
  docs worker hmem := hcovered.docs worker hmem (hguard.2.1 hannounces worker hmem)

theorem RunState.Settled.exec
    {s final : RunState} {actions : List RunAction}
    (hgood : s.Coherent env args items) (hsettled : s.Settled env args items)
    (hexec : ActionSystem.exec (runStep env args items) s actions =
      some final) :
    final.Settled env args items :=
  RunState.Coherent.exec_over
    (fun _ _ _ hbooks hinv _ hstep => RunState.Settled.step hbooks hinv hstep)
    hgood hsettled (ActionSystem.guarded_of_forall fun _ _ => trivial)
    hexec

theorem RunState.Covered.exec
    {s final : RunState} {actions : List RunAction}
    (hgood : s.Coherent env args items) (hcovered : s.Covered)
    (hguard : ActionSystem.Guarded (runStep env args items)
      (CompletionGuard env.tables) s actions)
    (hexec : ActionSystem.exec (runStep env args items) s actions =
      some final) :
    final.Covered :=
  RunState.Coherent.exec_over
    (fun _ _ _ hbooks hinv hallowed hstep =>
      RunState.Covered.step hbooks hinv hallowed hstep)
    hgood hcovered hguard hexec

/-- In a run whose steps all satisfy the guard, at every moment after an
announcement every admitted file has a committed document. -/
theorem run_completion_sound
    {docs : List Doc} {locked : Bool} {stateFile : StateFile}
    {actions : List RunAction} {final : RunState}
    (hguard : ActionSystem.Guarded (runStep env args items)
      (CompletionGuard env.tables) (RunState.start docs locked stateFile)
      actions)
    (hexec : ActionSystem.exec (runStep env args items)
      (RunState.start docs locked stateFile) actions = some final)
    (hannounced : ∃ action ∈ actions, action.announces = true) :
    ∀ file ∈ items.filterMap (pipelineFile env args),
      ∃ doc ∈ final.docs, doc.path = file.path := by
  obtain ⟨action, hmem, hannounces⟩ := hannounced
  obtain ⟨before, after, rfl⟩ := List.append_of_mem hmem
  obtain ⟨mid, hmid, hrest⟩ := ActionSystem.exec_append_eq_some_iff.mp hexec
  obtain ⟨next, hstep, hafter⟩ :=
    ActionSystem.exec_cons_eq_some_iff.mp hrest
  have hstart := RunState.start_coherent env args items docs locked stateFile
  have hgood := hstart.exec hmid
  have hcovered := (RunState.start_covered docs locked stateFile).exec hstart
    hguard.of_append_left hmid
  have hsettled :=
    hcovered.settled hgood (hguard.of_append hmid).1 hannounces hstep
  have hfinal :=
    (hsettled.step hgood hstep).exec (hgood.step hstep) hafter
  intro file hfile
  rw [← hfinal.files] at hfile
  obtain ⟨worker, hworker, rfl⟩ := List.mem_map.mp hfile
  exact hfinal.docs worker hworker

/-- The second worker publishes first, and its report comes after the
announcements. -/
def patientSteps : List RunAction :=
  setupSteps ++ [.visit, .visit] ++ publishSteps 1 ++ publishSteps 0 ++
    reportSteps 0 ++ closingSteps ++ reportSteps 1

def patientRun : Option RunState :=
  ActionSystem.exec
    (runStep sampleEnv sampleArgs [sampleItem "/d/a", sampleItem "/d/b"])
    (RunState.start [] false none) patientSteps

theorem run_completion_sound_patient :
    ∃ final, patientRun = some final ∧
      ∀ path ∈ ["/d/a", "/d/b"], ∃ doc ∈ final.docs, doc.path = path := by
  have hexec := (Option.some_get (x := patientRun) (by decide)).symm
  have hall := run_completion_sound (by decide) hexec (by decide)
  refine ⟨_, hexec, ?_⟩
  intro path hmem
  rcases List.mem_pair.mp hmem with rfl | rfl
  · exact hall ⟨"/d/a", "a", "", 1, 5⟩ (by decide)
  · exact hall ⟨"/d/b", "b", "", 1, 5⟩ (by decide)

/-- The task announces completion while the only worker is still queued. -/
theorem run_completion_unsound :
    ∃ final,
      ActionSystem.exec (runStep sampleEnv sampleArgs [sampleItem "/d/b"])
          (RunState.start [] false none)
          (setupSteps ++ [.visit] ++ closingSteps) = some final ∧
      final.stateFile = some ⟨some "2024-01-02", true⟩ ∧
      PipelineEvent.indexDone ∈ final.events ∧
      "/d/b" ∈ ([sampleItem "/d/b"].filterMap
        (pipelineFile sampleEnv sampleArgs)).map FileMeta.path ∧
      ¬ ∃ doc ∈ final.docs, doc.path = "/d/b" := by
  have hexec := (Option.some_get (x := ActionSystem.exec
    (runStep sampleEnv sampleArgs [sampleItem "/d/b"])
    (RunState.start [] false none)
    (setupSteps ++ [.visit] ++ closingSteps)) (by decide)).symm
  exact ⟨_, hexec, by decide, by decide, by decide, by decide⟩

end SearchEvery
