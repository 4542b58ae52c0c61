import SearchEvery.DeleteFile
import SearchEvery.IndexBuild
import SearchEvery.RetriedCall
import SearchEvery.ScanListeners
import Mathlib.Tactic

/-!
# Retries

`safeInvoke` repeats a command until an answer comes within the timeout or the
retries are used up; the configured number of retries may be a fraction.  An
attempt which is given up goes on in the back end while the next one starts.
A deletion begins with the removal of the file and the creation of an index
with `create_in_dir`; both bar the later attempts, so that a call has the
effect of one attempt, however the attempts overlap.
-/

namespace SearchEvery

open RetriedCall

/-- `INVOKE_DEFAULTS.retries`; `none` stands for a setting which is no finite
number. -/
def invokeDefaultRetries : Option ℚ → ℚ≥0
  | some envRetries => if h : 0 ≤ envRetries then ⟨envRetries, h⟩ else 0
  | none => 0

/-- `INVOKE_TIMEOUTS.buildIndex`, which the deletion uses too. -/
def buildIndexTimeout : ℕ := 300000

/-- A step of a call of `safeInvoke`, or of the back end for one of its
attempts.  Attempt `i` is served under the conditions of `cmds i`. -/
def safeInvokeStep {Store Value : Type} (cmd : String) (timeoutMs : ℕ)
    (retries : ℚ≥0) (cmds : ℕ → Command Store Value String) :
    Call Store Value String → Action → Option (Call Store Value String) :=
  callStep cmds retries
    ((.timedOut : InvokeOutcome Value).errorText cmd timeoutMs)

/-! ## Deleting a file -/

section Delete

variable (tables : CharTables) (path : String)

/-- `delete_file_and_index`: the file, then the index. -/
def deleteCommand (env : DeleteEnv) :
    Command (Disk × Option Index) Unit String where
  claim state :=
    match env.remove state.1 path with
    | none => .error ("删除文件失败: " ++ env.removeError)
    | some removed => .ok (removed, state.2)
  complete state :=
    match state.2 with
    | none => (some (.ok ()), state)
    | some idx =>
        if idx.HasField "path" then
          if env.opensWriter deleteBudget then
            if env.commitOk then
              (some (.ok ()), state.1,
                some { idx with docs := deleteTerm tables path idx.docs })
            else (some (.error env.commitError), state)
          else (some (.error env.writerError), state)
        else (some (.error "schema missing field 'path'"), state)

theorem deleteCommand_serve
    (env : DeleteEnv) (disk : Disk) (index : Option Index) :
    let outcome := deleteFileAndIndex tables env path disk index
    (deleteCommand tables path env).serve (disk, index) =
      (some outcome.result, outcome.disk, outcome.index) := by
  unfold deleteFileAndIndex Command.serve deleteCommand
  dsimp only
  cases env.remove disk path with
  | none => rfl
  | some removed =>
      cases index with
      | none => rfl
      | some idx =>
          dsimp only
          split_ifs <;> rfl

theorem deleteCommand_complete_disk
    (env : DeleteEnv) (state : Disk × Option Index) :
    ((deleteCommand tables path env).complete state).2.1 = state.1 := by
  unfold deleteCommand
  dsimp only
  split
  · rfl
  · split_ifs <;> rfl

/-- Once the file is gone, no attempt removes it again. -/
theorem deleteCommand_gate (envs : ℕ → DeleteEnv) :
    Gate (fun i => deleteCommand tables path (envs i))
      fun state => removeFile state.1 path = none where
  granted := by
    intro i state claimed hclaim
    simp only [deleteCommand] at hclaim
    cases hremove : (envs i).remove state.1 path with
    | none => simp [hremove] at hclaim
    | some removed =>
        have hfile := (envs i).removeFile_of_remove hremove
        simp only [hremove, Except.ok.injEq] at hclaim
        rw [← hclaim, (removeFile_eq_some_iff.mp hfile).2]
        simp [removeFile]
  completed := by
    intro i state hgone
    rw [deleteCommand_complete_disk]
    exact hgone
  refused := by
    intro i state hgone
    exact ⟨"删除文件失败: " ++ (envs i).removeError, by
      simp [deleteCommand, DeleteEnv.remove, hgone]⟩

theorem deleteCommand_claim_error
    {env : DeleteEnv} {state : Disk × Option Index} {error : String}
    (hclaim : (deleteCommand tables path env).claim state = .error error) :
    error = "删除文件失败: " ++ env.removeError := by
  simp only [deleteCommand] at hclaim
  split at hclaim
  · exact (Except.error.inj hclaim).symm
  · contradiction

/-- However often a deletion is retried and however the attempts overlap, disk
and index end as one attempt alone leaves them.  The call succeeds only with
its last attempt, if that one has removed the file and all its index steps
succeed; an earlier attempt which removes the file makes every later one fail.
-/
theorem deleteFileAndIndex_retried
    (envs : ℕ → DeleteEnv) (envRetries : Option ℚ) (disk : Disk)
    (index : Option Index) {actions : List Action}
    {final : Call (Disk × Option Index) Unit String}
    (hexec : ActionSystem.exec
      (safeInvokeStep "delete_file_and_index" buildIndexTimeout
        (invokeDefaultRetries envRetries)
        fun i => deleteCommand tables path (envs i))
      (.start (disk, index)) actions = some final) :
    final.attempts.length ≤ ⌊invokeDefaultRetries envRetries⌋₊ + 1 ∧
    (final.Settled → ∃ i < final.attempts.length, final.store =
      ((deleteFileAndIndex tables (envs i) path disk index).disk,
        (deleteFileAndIndex tables (envs i) path disk index).index)) ∧
    (final.result = some (.ok ()) → ∃ i, i + 1 = final.attempts.length ∧
      (deleteFileAndIndex tables (envs i) path disk index).result = .ok () ∧
      final.store =
        ((deleteFileAndIndex tables (envs i) path disk index).disk,
          (deleteFileAndIndex tables (envs i) path disk index).index)) ∧
    ∀ error, final.result = some (.error error) →
      ∃ i, i + 1 = final.attempts.length ∧
        i = ⌊invokeDefaultRetries envRetries⌋₊ ∧
        (error = "Error: invoke delete_file_and_index timeout after 300000ms" ∨
          error = "删除文件失败: " ++ (envs i).removeError ∨
          (deleteFileAndIndex tables (envs i) path disk index).result =
            .error error) := by
  obtain ⟨hfew, hsettled, hok, herror⟩ :=
    exec_once (deleteCommand_gate tables path envs) hexec
  simp only [deleteCommand_serve] at hsettled hok herror
  refine ⟨hfew, hsettled, ?_, ?_⟩
  · intro hresult
    obtain ⟨i, hlast, hserve⟩ := hok () hresult
    rw [Prod.mk.injEq, Option.some.injEq] at hserve
    exact ⟨i, hlast, hserve.1, hserve.2.symm⟩
  · intro error hresult
    obtain ⟨i, hlast, hfloor, hcases⟩ := herror error hresult
    refine ⟨i, hlast, hfloor, ?_⟩
    rcases hcases with htimeout | ⟨seen, hclaim⟩ | hserve
    · exact Or.inl htimeout
    · exact Or.inr (Or.inl (deleteCommand_claim_error tables path hclaim))
    · rw [Prod.mk.injEq, Option.some.injEq] at hserve
      exact Or.inr (Or.inr hserve.1)

end Delete

/-- Another program has the file open during the first attempt. -/
def lateDeletion : ℕ → DeleteEnv
  | 0 => ⟨false, 15000000, false, true, "Access is denied", "", ""⟩
  | _ => ⟨true, 15000000, false, true, "No such file", "memory arena", ""⟩

def indexedFile : Index :=
  ⟨programSchema, [⟨"/d/a", "a", "", 1, 0, none, none⟩]⟩

/-- The second attempt has removed the file when its time is up; the third
finds no file and fails, and then the second opens the index. -/
def lateDeletionRun : Option (Call (Disk × Option Index) Unit String) :=
  ActionSystem.exec
    (safeInvokeStep "delete_file_and_index" buildIndexTimeout
      (invokeDefaultRetries (some (5 / 2)))
      fun i => deleteCommand asciiTables "/d/a" (lateDeletion i))
    (.start (oneFileDisk, some indexedFile))
    [.serve 0, .answer, .serve 1, .expire, .serve 2, .answer, .serve 1]

theorem lateDeletionRun_calls :
    lateDeletionRun.map (fun call => (call.attempts, call.result)) =
      some ([.over (some (.error "删除文件失败: Access is denied")),
        .over (some (.error "memory arena")),
        .over (some (.error "删除文件失败: No such file"))],
        some (.error "删除文件失败: No such file")) := by
  decide +kernel

/-- The call fails with the disk and the index as one of its attempts leaves
them. -/
theorem deleteFileAndIndex_retried_late :
    ∃ final, lateDeletionRun = some final ∧
      final.result = some (.error "删除文件失败: No such file") ∧
      ∃ i < 3, final.store =
        ((deleteFileAndIndex asciiTables (lateDeletion i) "/d/a" oneFileDisk
            (some indexedFile)).disk,
          (deleteFileAndIndex asciiTables (lateDeletion i) "/d/a" oneFileDisk
            (some indexedFile)).index) := by
  obtain ⟨final, hfinal, hcalls⟩ :=
    Option.map_eq_some_iff.mp lateDeletionRun_calls
  rw [Prod.mk.injEq] at hcalls
  have hsettled : final.Settled := by
    rw [Call.Settled, hcalls.1]
    simp
  obtain ⟨_, hstore, _, _⟩ := deleteFileAndIndex_retried asciiTables "/d/a"
    lateDeletion (some (5 / 2)) oneFileDisk (some indexedFile) hfinal
  obtain ⟨i, hlength, hone⟩ := hstore hsettled
  rw [hcalls.1] at hlength
  exact ⟨final, hfinal, hcalls.2, i, hlength, hone⟩

/-! ## Creating an index -/

section Build

variable (enableContentParse : Bool) (files : List FileMeta)

/-- `build`: the directory and the new index, then its documents.  A panic
leaves the attempt without an answer. -/
def buildCommand (env : BuildEnv) :
    Command (Option (List Doc)) Unit String where
  claim index :=
    match env.createDirAll with
    | .error message => .error message
    | .ok () =>
    match (if index.isSome then .error env.alreadyExists
        else env.createInDir) with
    | .error message => .error message
    | .ok () => .ok (some [])
  complete index :=
    match env.openWriter with
    | .error message => (some (.error message), index)
    | .ok () =>
    match files.foldlM (buildStep env enableContentParse) ⟨[], 0⟩ with
    | .error (.failed message) => (some (.error message), index)
    | .error (.panicked _) => (none, index)
    | .ok state =>
    match env.commit with
    | .error message => (some (.error message), index)
    | .ok () => (some (.ok ()), index.map (· ++ state.docs))

/-- What the caller hears of a run which is over. -/
def BuildOutcome.answer (outcome : BuildOutcome) :
    Option (Except String Unit) :=
  match outcome.result with
  | .ok () => some (.ok ())
  | .error (.failed message) => some (.error message)
  | .error (.panicked _) => none

theorem buildCommand_serve
    (env : BuildEnv) (index : Option (List Doc)) :
    (buildCommand enableContentParse files env).serve index =
      ((build env enableContentParse files index).answer,
        (build env enableContentParse files index).index) := by
  unfold build Command.serve buildCommand BuildOutcome.answer
  dsimp only
  cases env.createDirAll with
  | error message => rfl
  | ok _ =>
      dsimp only
      cases (if index.isSome then .error env.alreadyExists
          else env.createInDir) with
      | error message => rfl
      | ok _ =>
          dsimp only
          cases env.openWriter with
          | error message => rfl
          | ok _ =>
              dsimp only
              cases files.foldlM (buildStep env enableContentParse)
                  ⟨[], 0⟩ with
              | error stop => cases stop <;> rfl
              | ok state =>
                  dsimp only
                  cases env.commit with
                  | error message => rfl
                  | ok _ => rfl

theorem buildCommand_complete_isSome
    (env : BuildEnv) (index : Option (List Doc)) :
    ((buildCommand enableContentParse files env).complete index).2.isSome =
      index.isSome := by
  unfold buildCommand
  dsimp only
  split
  · rfl
  · split
    · rfl
    · rfl
    · split
      · rfl
      · simp

theorem buildCommand_claim_ok
    {env : BuildEnv} {index claimed : Option (List Doc)}
    (hclaim : (buildCommand enableContentParse files env).claim index =
      .ok claimed) : index = none ∧ claimed = some [] := by
  simp only [buildCommand] at hclaim
  split at hclaim
  · contradiction
  · cases index with
    | none =>
        split at hclaim
        · contradiction
        · exact ⟨rfl, (Except.ok.inj hclaim).symm⟩
    | some docs => simp at hclaim

/-- Once there is an index, `create_in_dir` refuses to create one. -/
theorem buildCommand_gate (envs : ℕ → BuildEnv) :
    Gate (fun i => buildCommand enableContentParse files (envs i))
      fun index => index.isSome = true where
  granted := by
    intro i index claimed hclaim
    rw [(buildCommand_claim_ok enableContentParse files hclaim).2]
    rfl
  completed := by
    intro i index hsome
    rw [buildCommand_complete_isSome, hsome]
  refused := by
    intro i index hsome
    cases hclaim : (buildCommand enableContentParse files (envs i)).claim
        index with
    | error message => exact ⟨message, rfl⟩
    | ok claimed =>
        rw [(buildCommand_claim_ok enableContentParse files hclaim).1] at hsome
        contradiction

theorem buildCommand_claim_error
    {env : BuildEnv} {index : Option (List Doc)} {message : String}
    (hclaim : (buildCommand enableContentParse files env).claim index =
      .error message) :
    message = env.alreadyExists ∨
      (build env enableContentParse files none).result =
        .error (.failed message) := by
  simp only [buildCommand] at hclaim
  unfold build
  cases hdir : env.createDirAll with
  | error failure =>
      simp only [hdir, Except.error.injEq] at hclaim
      exact Or.inr (by rw [hclaim])
  | ok _ =>
      cases index with
      | some docs => exact Or.inl (by simpa [hdir] using hclaim.symm)
      | none =>
          simp only [hdir, Option.isSome_none, Bool.false_eq_true,
            if_false] at hclaim ⊢
          cases hcreate : env.createInDir with
          | error failure =>
              simp only [hcreate, Except.error.injEq] at hclaim
              exact Or.inr (by rw [hclaim])
          | ok _ => simp [hcreate] at hclaim

theorem build_failed_cases
    {env : BuildEnv} {index : Option (List Doc)} {message : String}
    (hfailed : (build env enableContentParse files index).result =
      .error (.failed message)) :
    message = env.alreadyExists ∨
      (build env enableContentParse files none).result =
        .error (.failed message) := by
  cases index with
  | none => exact Or.inr hfailed
  | some docs =>
      unfold build at hfailed ⊢
      cases hdir : env.createDirAll with
      | error failure => exact Or.inr (by simpa [hdir] using hfailed)
      | ok _ => exact Or.inl (by simpa [hdir] using hfailed.symm)

theorem build_index_cases
    (env : BuildEnv) (index : Option (List Doc)) :
    (build env enableContentParse files index).index = index ∨
      index = none ∧
        ((build env enableContentParse files index).index = some [] ∨
          (build env enableContentParse files index).index = some
            (files.zipIdx.map fun row =>
              env.doc enableContentParse row.2 row.1)) := by
  cases index with
  | some docs =>
      exact Or.inl (build_existing env enableContentParse files docs).2
  | none =>
      by_cases hok : (build env enableContentParse files none).result = .ok ()
      · exact Or.inr ⟨rfl, Or.inr (build_ok hok)⟩
      · have hempty := build_fresh_failed hok
        cases hindex : (build env enableContentParse files none).index with
        | none => exact Or.inl rfl
        | some docs =>
            rw [hindex, Option.getD_some] at hempty
            exact Or.inr ⟨rfl, Or.inl (congrArg some hempty)⟩

theorem BuildOutcome.result_of_answer_ok
    {outcome : BuildOutcome} (hanswer : outcome.answer = some (.ok ())) :
    outcome.result = .ok () := by
  unfold BuildOutcome.answer at hanswer
  split at hanswer
  · assumption
  · simp at hanswer
  · contradiction

theorem BuildOutcome.result_of_answer_error
    {outcome : BuildOutcome} {message : String}
    (hanswer : outcome.answer = some (.error message)) :
    outcome.result = .error (.failed message) := by
  unfold BuildOutcome.answer at hanswer
  split at hanswer
  next => simp at hanswer
  next failure hresult =>
    rw [Option.some.injEq, Except.error.injEq] at hanswer
    rw [hresult, hanswer]
  next => contradiction

/-- However often the creation of an index is retried and however the attempts
overlap, the list is stored at most once, and only where there was no index.
The call succeeds only with its last attempt, if that one creates the index;
it fails although the list is stored when an earlier attempt stores it. -/
theorem buildInvertedIndex_retried
    (envs : ℕ → BuildEnv) (envRetries : Option ℚ)
    (index : Option (List Doc)) {actions : List Action}
    {final : Call (Option (List Doc)) Unit String}
    (hexec : ActionSystem.exec
      (safeInvokeStep "build_inverted_index" buildIndexTimeout
        (invokeDefaultRetries envRetries)
        fun i => buildCommand enableContentParse files (envs i))
      (.start index) actions = some final) :
    final.attempts.length ≤ ⌊invokeDefaultRetries envRetries⌋₊ + 1 ∧
    (final.store = index ∨ index = none ∧ (final.store = some [] ∨
      ∃ i < final.attempts.length, final.store = some
        (files.zipIdx.map fun row =>
          (envs i).doc enableContentParse row.2 row.1))) ∧
    (final.Settled → ∃ i < final.attempts.length, final.store =
      (build (envs i) enableContentParse files index).index) ∧
    (final.result = some (.ok ()) → index = none ∧
      ∃ i, i + 1 = final.attempts.length ∧ final.store = some
        (files.zipIdx.map fun row =>
          (envs i).doc enableContentParse row.2 row.1)) ∧
    ∀ message, final.result = some (.error message) →
      ∃ i, i + 1 = final.attempts.length ∧
        i = ⌊invokeDefaultRetries envRetries⌋₊ ∧
        (message = "Error: invoke build_inverted_index timeout after 300000ms" ∨
          message = (envs i).alreadyExists ∨
          (build (envs i) enableContentParse files none).result =
            .error (.failed message)) := by
  have hgate := buildCommand_gate enableContentParse files envs
  obtain ⟨hprogress, _⟩ := exec_start hgate hexec
  obtain ⟨hfew, hsettled, hok, herror⟩ := exec_once hgate hexec
  have hstore := hprogress.store_cases
  simp only [buildCommand_serve] at hstore hsettled hok herror
  refine ⟨hfew, ?_, hsettled, ?_, ?_⟩
  · rcases hstore with hsame | ⟨i, hi, hclaim | hserved⟩
    · exact Or.inl hsame
    · have hfresh := buildCommand_claim_ok enableContentParse files hclaim
      exact Or.inr ⟨hfresh.1, Or.inl hfresh.2⟩
    · rw [hserved]
      rcases build_index_cases enableContentParse files (envs i) index with
        hsame | ⟨hfresh, hempty | hdocs⟩
      · exact Or.inl hsame
      · exact Or.inr ⟨hfresh, Or.inl hempty⟩
      · exact Or.inr ⟨hfresh, Or.inr ⟨i, hi, hdocs⟩⟩
  · intro hresult
    obtain ⟨i, hlast, hserve⟩ := hok () hresult
    rw [Prod.mk.injEq] at hserve
    have hbuilt := BuildOutcome.result_of_answer_ok hserve.1
    refine ⟨?_, i, hlast, hserve.2.symm.trans (build_ok hbuilt)⟩
    cases index with
    | none => rfl
    | some docs =>
        obtain ⟨message, hfailed⟩ :=
          (build_existing (envs i) enableContentParse files docs).1
        rw [hbuilt] at hfailed
        contradiction
  · intro message hresult
    obtain ⟨i, hlast, hfloor, hcases⟩ := herror message hresult
    refine ⟨i, hlast, hfloor, ?_⟩
    rcases hcases with htimeout | ⟨seen, hclaim⟩ | hserve
    · exact Or.inl htimeout
    · exact Or.inr (buildCommand_claim_error enableContentParse files hclaim)
    · rw [Prod.mk.injEq] at hserve
      have hfailed := BuildOutcome.result_of_answer_error hserve.1
      exact Or.inr (build_failed_cases enableContentParse files hfailed)

end Build

def slowBuild : BuildEnv := { zeroSampleBuild with sampleEveryVar := none }

/-- The first attempt has created the index when its time is up; the retry is
refused, and then the first attempt commits the list. -/
def slowBuildRun : Option (Call (Option (List Doc)) Unit String) :=
  ActionSystem.exec
    (safeInvokeStep "build_inverted_index" buildIndexTimeout
      (invokeDefaultRetries (some 1))
      fun _ => buildCommand false [⟨"/d/a", "a", "", 1, 0⟩] slowBuild)
    (.start none) [.serve 0, .expire, .serve 1, .answer, .serve 0]

theorem slowBuildRun_calls :
    slowBuildRun.map (fun call => (call.attempts, call.result)) =
      some ([.over (some (.ok ())),
        .over (some (.error "Index already exists"))],
        some (.error "Index already exists")) := by
  decide +kernel

/-- The call fails with the error of the retry, and the list is stored once. -/
theorem buildInvertedIndex_retried_slow :
    ∃ final, slowBuildRun = some final ∧
      final.result = some (.error "Index already exists") ∧
      final.store =
        (build slowBuild false [⟨"/d/a", "a", "", 1, 0⟩] none).index ∧
      (final.store = none ∨ final.store = some [] ∨
        ∃ doc, final.store = some [doc]) := by
  obtain ⟨final, hfinal, hcalls⟩ :=
    Option.map_eq_some_iff.mp slowBuildRun_calls
  rw [Prod.mk.injEq] at hcalls
  have hsettled : final.Settled := by
    rw [Call.Settled, hcalls.1]
    simp
  obtain ⟨_, hany, hstore, _⟩ := buildInvertedIndex_retried false
    [⟨"/d/a", "a", "", 1, 0⟩] (fun _ => slowBuild) (some 1) none hfinal
  obtain ⟨_, _, hone⟩ := hstore hsettled
  refine ⟨final, hfinal, hcalls.2, hone, ?_⟩
  rcases hany with hsame | ⟨_, hempty | ⟨_, _, hdocs⟩⟩
  · exact Or.inl hsame
  · exact Or.inr (Or.inl hempty)
  · exact Or.inr (Or.inr ⟨_, hdocs⟩)

end SearchEvery
