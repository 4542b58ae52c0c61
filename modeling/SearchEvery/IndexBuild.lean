import SearchEvery.ScanArithmetic
import SearchEvery.TantivyIndex
import Mathlib.Tactic

/-!
# Building an index from a list

`indexer::build` creates an index in a directory, adds one document for every
file of its list and commits.  It counts the documents in `usize` and divides
the count by the sampling interval of its log.  A run ends with an error of one
of its calls, with a panic of its arithmetic, or with the committed index.
-/

namespace SearchEvery

/-- How a run ends before its commit. -/
inductive BuildStop
  | failed (message : String)
  | panicked (fault : Fault)
  deriving DecidableEq

/-- The outcomes of the calls of one run.  The disk is read again for every
file of the list. -/
structure BuildEnv where
  createDirAll : Except String Unit
  /-- The error of `create_in_dir` for a directory which holds an index. -/
  alreadyExists : String
  createInDir : Except String Unit
  openWriter : Except String Unit
  addDocument : ℕ → Except String Unit
  commit : Except String Unit
  disk : ℕ → Disk
  overflowChecks : Bool
  /-- `SE_INDEX_LOG_SAMPLE_EVERY`, when it parses. -/
  sampleEveryVar : Option ℕ

def BuildEnv.sampleEvery (env : BuildEnv) : ℕ := env.sampleEveryVar.getD 500

structure BuildState where
  docs : List Doc
  processed : ℕ

def BuildEnv.doc (env : BuildEnv) (enableContentParse : Bool) (i : ℕ)
    (file : FileMeta) : Doc :=
  buildDoc enableContentParse file (env.disk i file.path)

def buildStep (env : BuildEnv) (enableContentParse : Bool)
    (state : BuildState) (file : FileMeta) : Except BuildStop BuildState := do
  let doc := env.doc enableContentParse state.docs.length file
  let _ ← (env.addDocument state.docs.length).mapError BuildStop.failed
  let processed ←
    (addUsize env.overflowChecks state.processed 1).mapError BuildStop.panicked
  let _ ← (remUsize processed env.sampleEvery).mapError BuildStop.panicked
  return ⟨state.docs ++ [doc], processed⟩

structure BuildOutcome where
  result : Except BuildStop Unit
  index : Option (List Doc)

/-- `indexer::build`; `index` holds the committed documents, or `none` when the
directory holds no index. -/
def build (env : BuildEnv) (enableContentParse : Bool) (files : List FileMeta)
    (index : Option (List Doc)) : BuildOutcome :=
  match env.createDirAll with
  | .error message => ⟨.error (.failed message), index⟩
  | .ok () =>
  match (if index.isSome then .error env.alreadyExists else env.createInDir) with
  | .error message => ⟨.error (.failed message), index⟩
  | .ok () =>
  match env.openWriter with
  | .error message => ⟨.error (.failed message), some []⟩
  | .ok () =>
  match files.foldlM (buildStep env enableContentParse) ⟨[], 0⟩ with
  | .error stop => ⟨.error stop, some []⟩
  | .ok state =>
  match env.commit with
  | .error message => ⟨.error (.failed message), some []⟩
  | .ok () => ⟨.ok (), some state.docs⟩

/-! ## One document -/

structure BuildEnv.CountFits (env : BuildEnv) (processed : ℕ) : Prop where
  count : processed + 1 < 2 ^ 64
  sample : env.sampleEvery ≠ 0

def BuildEnv.checked (env : BuildEnv) : BuildEnv :=
  { env with overflowChecks := true }

theorem buildStep_of_error
    {env : BuildEnv} {state : BuildState} {message : String}
    (hadd : env.addDocument state.docs.length = .error message)
    (enableContentParse : Bool) (file : FileMeta) :
    buildStep env enableContentParse state file = .error (.failed message) := by
  rw [buildStep, hadd]
  rfl

theorem buildStep_of_fits
    {env : BuildEnv} {state : BuildState}
    (hadd : env.addDocument state.docs.length = .ok ())
    (hfits : env.CountFits state.processed) (enableContentParse : Bool)
    (file : FileMeta) :
    buildStep env enableContentParse state file =
      .ok ⟨state.docs ++ [env.doc enableContentParse state.docs.length file],
        state.processed + 1⟩ := by
  rw [buildStep, hadd, addUsize_of_fits hfits.count]
  simp only [remUsize_of_ne hfits.sample, Except.mapError, bind, Except.bind]
  rfl

theorem buildStep_checked
    {env : BuildEnv} {state : BuildState}
    (hadd : env.addDocument state.docs.length = .ok ())
    (hfits : ¬ env.CountFits state.processed) (enableContentParse : Bool)
    (file : FileMeta) :
    ∃ fault, buildStep env.checked enableContentParse state file =
      .error (.panicked fault) := by
  have hadd' : env.checked.addDocument state.docs.length = .ok () := hadd
  have hchecks : env.checked.overflowChecks = true := rfl
  by_cases hcount : state.processed + 1 < 2 ^ 64
  · have hzero : env.checked.sampleEvery = 0 := by
      by_contra hsample
      exact hfits ⟨hcount, hsample⟩
    refine ⟨.divideByZero, ?_⟩
    rw [buildStep, hadd', addUsize_of_fits hcount, hzero]
    rfl
  · refine ⟨.overflow, ?_⟩
    rw [buildStep, hadd', hchecks, addUsize_checked hcount]
    rfl

theorem buildStep_docs
    {env : BuildEnv} {enableContentParse : Bool} {state next : BuildState}
    {file : FileMeta}
    (hstep : buildStep env enableContentParse state file = .ok next) :
    next.docs =
      state.docs ++ [env.doc enableContentParse state.docs.length file] := by
  obtain ⟨_, _, hadded⟩ := FallibleLoop.bind_eq_ok hstep
  obtain ⟨processed, _, hcounted⟩ := FallibleLoop.bind_eq_ok hadded
  obtain ⟨_, _, hnext⟩ := FallibleLoop.bind_eq_ok hcounted
  cases hnext
  rfl

theorem buildFold_docs
    {env : BuildEnv} {enableContentParse : Bool} {files : List FileMeta}
    {state final : BuildState}
    (hfold : files.foldlM (buildStep env enableContentParse) state =
      .ok final) :
    final.docs = state.docs ++ (files.zipIdx state.docs.length).map
      fun row => env.doc enableContentParse row.2 row.1 := by
  induction files generalizing state with
  | nil =>
      rw [FallibleLoop.foldlM_nil_eq_ok hfold]
      simp
  | cons file files ih =>
      obtain ⟨next, hstep, hrest⟩ := FallibleLoop.foldlM_cons_eq_ok hfold
      rw [ih hrest, buildStep_docs hstep]
      simp

/-! ## Whole runs -/

/-- The calls before the loop succeed, and the directory held no index. -/
structure BuildEnv.Opens (env : BuildEnv) (index : Option (List Doc)) :
    Prop where
  dir : env.createDirAll = .ok ()
  fresh : index = none
  create : env.createInDir = .ok ()
  writer : env.openWriter = .ok ()

/-- The end of a run, once its writer is open. -/
def BuildEnv.finish (env : BuildEnv) :
    Except BuildStop BuildState → BuildOutcome
  | .error stop => ⟨.error stop, some []⟩
  | .ok state =>
      match env.commit with
      | .error message => ⟨.error (.failed message), some []⟩
      | .ok () => ⟨.ok (), some state.docs⟩

theorem build_of_opens
    {env : BuildEnv} {index : Option (List Doc)} (hopens : env.Opens index)
    (enableContentParse : Bool) (files : List FileMeta) :
    build env enableContentParse files index =
      env.finish
        (files.foldlM (buildStep env enableContentParse) ⟨[], 0⟩) := by
  obtain ⟨hdir, rfl, hcreate, hwriter⟩ := hopens
  simp only [build, hdir, hcreate, hwriter, Option.isSome_none,
    Bool.false_eq_true, if_false, BuildEnv.finish]

theorem build_of_not_opens
    {env : BuildEnv} {index : Option (List Doc)} (hopens : ¬ env.Opens index)
    (enableContentParse : Bool) (files : List FileMeta) :
    ∃ message, (build env enableContentParse files index).result =
        .error (.failed message) ∧
      ((build env enableContentParse files index).index = index ∨
        index = none) := by
  cases hdir : env.createDirAll with
  | error message => exact ⟨message, by simp [build, hdir], by simp [build, hdir]⟩
  | ok _ =>
      cases index with
      | some docs =>
          exact ⟨env.alreadyExists, by simp [build, hdir],
            by simp [build, hdir]⟩
      | none =>
          cases hcreate : env.createInDir with
          | error message =>
              exact ⟨message, by simp [build, hdir, hcreate], .inr rfl⟩
          | ok _ =>
              cases hwriter : env.openWriter with
              | error message =>
                  exact ⟨message, by simp [build, hdir, hcreate, hwriter],
                    .inr rfl⟩
              | ok _ => exact (hopens ⟨hdir, rfl, hcreate, hwriter⟩).elim

/-- A directory with an index is left as it is, with an error. -/
theorem build_existing
    (env : BuildEnv) (enableContentParse : Bool) (files : List FileMeta)
    (docs : List Doc) :
    (∃ message, (build env enableContentParse files (some docs)).result =
      .error (.failed message)) ∧
    (build env enableContentParse files (some docs)).index = some docs := by
  have hopens : ¬ env.Opens (some docs) := fun hopens =>
    nomatch hopens.fresh
  obtain ⟨message, hresult, hindex⟩ :=
    build_of_not_opens hopens enableContentParse files
  exact ⟨⟨message, hresult⟩, hindex.resolve_right (by simp)⟩

/-- A run which returns without an error has committed one document for every
file, in the order of the list. -/
theorem build_ok
    {env : BuildEnv} {enableContentParse : Bool} {files : List FileMeta}
    {index : Option (List Doc)}
    (hok : (build env enableContentParse files index).result = .ok ()) :
    (build env enableContentParse files index).index =
      some (files.zipIdx.map fun row =>
        env.doc enableContentParse row.2 row.1) := by
  by_cases hopens : env.Opens index
  · rw [build_of_opens hopens] at hok ⊢
    cases hfold : files.foldlM (buildStep env enableContentParse) ⟨[], 0⟩ with
    | error stop => simp [hfold, BuildEnv.finish] at hok
    | ok state =>
        have hdocs := buildFold_docs hfold
        cases hcommit : env.commit with
        | error message => simp [hfold, BuildEnv.finish, hcommit] at hok
        | ok _ => simpa [BuildEnv.finish, hcommit] using hdocs
  · obtain ⟨message, hresult, _⟩ :=
      build_of_not_opens hopens enableContentParse files
    simp [hresult] at hok

/-- A build which fails in a fresh directory leaves no document there. -/
theorem build_fresh_failed
    {env : BuildEnv} {enableContentParse : Bool} {files : List FileMeta}
    (hfailed : (build env enableContentParse files none).result ≠ .ok ()) :
    (build env enableContentParse files none).index.getD [] = [] := by
  by_cases hopens : env.Opens none
  · rw [build_of_opens hopens] at hfailed ⊢
    cases hfold : files.foldlM (buildStep env enableContentParse) ⟨[], 0⟩ with
    | error stop => rfl
    | ok state =>
        cases hcommit : env.commit with
        | error message => simp [BuildEnv.finish, hcommit]
        | ok _ => simp [hfold, BuildEnv.finish, hcommit] at hfailed
  · unfold build
    cases hdir : env.createDirAll with
    | error message => rfl
    | ok _ =>
    cases hcreate : env.createInDir with
    | error message => rfl
    | ok _ =>
    cases hwriter : env.openWriter with
    | error message => rfl
    | ok _ => exact (hopens ⟨hdir, rfl, hcreate, hwriter⟩).elim

/-! ## When the arithmetic is safe -/

/-- No operation of a run divides by zero or leaves its width. -/
def BuildArithmeticSafe (env : BuildEnv) (enableContentParse : Bool)
    (files : List FileMeta) (index : Option (List Doc)) : Prop :=
  ∀ fault, (build env.checked enableContentParse files index).result ≠
    .error (.panicked fault)

/-- What the arithmetic needs for every document which the writer takes. -/
def BuildInputsFit (env : BuildEnv) (files : List FileMeta)
    (index : Option (List Doc)) : Prop :=
  env.Opens index → ∀ k < files.length,
    (∀ j ≤ k, env.addDocument j = .ok ()) →
      k + 1 < 2 ^ 64 ∧ env.sampleEvery ≠ 0

def BuildState.Counted (state : BuildState) : Prop :=
  state.processed = state.docs.length

theorem buildStep_turns
    (env : BuildEnv) (enableContentParse : Bool) :
    FallibleLoop.Turns (buildStep env.checked enableContentParse)
      BuildState.Counted (fun state => state.docs.length)
      (fun k _ => env.addDocument k ≠ .ok ())
      (fun k _ => ¬ env.CountFits k)
      (fun stop => ∃ fault, stop = .panicked fault) := by
  intro state file hcounted
  cases hadd : env.addDocument state.docs.length with
  | error message =>
      left
      exact ⟨by simp [hadd], _, by simp,
        @buildStep_of_error env.checked state message hadd enableContentParse
          file⟩
  | ok _ =>
      right
      by_cases hfits : env.CountFits state.processed
      · have hnext := @buildStep_of_fits env.checked state hadd
          ⟨hfits.count, hfits.sample⟩ enableContentParse file
        rw [hcounted] at hfits
        refine .inr ⟨not_not_intro hadd, not_not_intro hfits, _, ?_, ?_, hnext⟩
        · simpa [BuildState.Counted] using hcounted
        · simp
      · obtain ⟨fault, hfault⟩ :=
          buildStep_checked hadd hfits enableContentParse file
        rw [hcounted] at hfits
        exact .inl ⟨not_not_intro hadd, hfits, _, ⟨fault, rfl⟩, hfault⟩

theorem finish_panicked_iff
    (env : BuildEnv) (run : Except BuildStop BuildState) (fault : Fault) :
    (env.finish run).result = .error (.panicked fault) ↔
      run = .error (.panicked fault) := by
  cases run with
  | error stop => simp [BuildEnv.finish]
  | ok state =>
      cases hcommit : env.commit with
      | error message => simp [BuildEnv.finish, hcommit]
      | ok _ => simp [BuildEnv.finish, hcommit]

theorem harmless_build_iff
    (env : BuildEnv) (files : List FileMeta) :
    FallibleLoop.Harmless (fun k _ => env.addDocument k ≠ .ok ())
        (fun k _ => ¬ env.CountFits k) 0 files ↔
      ∀ k < files.length, (∀ j ≤ k, env.addDocument j = .ok ()) →
        k + 1 < 2 ^ 64 ∧ env.sampleEvery ≠ 0 := by
  constructor
  · intro hharmless k hk hadd
    have hfits := hharmless k files[k] (List.getElem?_eq_getElem hk) (by
      intro j hj _ _
      rw [Nat.zero_add]
      exact not_not_intro (hadd j hj))
    rw [Nat.zero_add, not_not] at hfits
    exact ⟨hfits.count, hfits.sample⟩
  · intro hall k file hk hgoes
    obtain ⟨hlt, _⟩ := List.getElem?_eq_some_iff.mp hk
    have hadd : ∀ j ≤ k, env.addDocument j = .ok () := by
      intro j hj
      have hj' := hgoes j hj (files[j]) (List.getElem?_eq_getElem _)
      rw [Nat.zero_add] at hj'
      exact not_not.mp hj'
    obtain ⟨hcount, hsample⟩ := hall k hlt hadd
    rw [Nat.zero_add]
    exact not_not_intro ⟨hcount, hsample⟩

theorem buildArithmeticSafe_iff
    (env : BuildEnv) (enableContentParse : Bool) (files : List FileMeta)
    (index : Option (List Doc)) :
    BuildArithmeticSafe env enableContentParse files index ↔
      BuildInputsFit env files index := by
  unfold BuildArithmeticSafe BuildInputsFit
  by_cases hopens : env.Opens index
  · have hopens' : env.checked.Opens index :=
      ⟨hopens.dir, hopens.fresh, hopens.create, hopens.writer⟩
    have hloop := (buildStep_turns env enableContentParse).foldlM_iff
      (s := ⟨[], 0⟩) rfl files
    rw [List.length_nil, harmless_build_iff] at hloop
    rw [build_of_opens hopens', forall_prop_of_true hopens, ← hloop]
    constructor
    · rintro hsafe stop hstop ⟨fault, rfl⟩
      exact hsafe fault ((finish_panicked_iff _ _ fault).mpr hstop)
    · intro hsafe fault hfault
      exact hsafe _ ((finish_panicked_iff _ _ fault).mp hfault) ⟨fault, rfl⟩
  · refine iff_of_true ?_ fun hopen => (hopens hopen).elim
    intro fault hfault
    have hopens' : ¬ env.checked.Opens index := fun hopen =>
      hopens ⟨hopen.dir, hopen.fresh, hopen.create, hopen.writer⟩
    obtain ⟨message, hresult, _⟩ :=
      build_of_not_opens hopens' enableContentParse files
    simp [hresult] at hfault

/-- The arithmetic of the scans and of the index build is safe exactly for the
limits below `2 ^ 44`, the sampling intervals which are not zero once a file
is counted, and counts and times within their widths. -/
theorem scan_and_index_arithmetic_iff
    (senv : ScanEnv) (opts : ScanOptions) (disk : Disk) (benv : BuildEnv)
    (enableContentParse : Bool) (files : List FileMeta)
    (index : Option (List Doc)) :
    (ScanArithmeticSafe senv opts disk ↔ ScanInputsFit senv opts disk) ∧
    (BuildArithmeticSafe benv enableContentParse files index ↔
      BuildInputsFit benv files index) :=
  ⟨scanArithmeticSafe_iff senv opts disk,
    buildArithmeticSafe_iff benv enableContentParse files index⟩

def oneFileScan (overflowChecks : Bool) (sampleEveryVar : Option ℕ) :
    ScanEnv where
  tables := asciiTables
  platform := .unix
  walkDir := listedWalkDir [("/d/a", ⟨1, none⟩)] (by decide)
  overflowChecks := overflowChecks
  sampleEveryVar := sampleEveryVar
  clock _ := (0, 0)

def oneFileDisk : Disk := fun _ => .file ⟨[104], true, true⟩

def zeroSampleBuild : BuildEnv where
  createDirAll := .ok ()
  alreadyExists := "Index already exists"
  createInDir := .ok ()
  openWriter := .ok ()
  addDocument _ := .ok ()
  commit := .ok ()
  disk _ := oneFileDisk
  overflowChecks := false
  sampleEveryVar := some 0

/-- A sampling interval of zero ends both scans and the build at the first
file.  A limit of `2 ^ 44` MiB faults with overflow checks; without them it
wraps to a limit of no bytes, and a file of one byte is left out. -/
theorem scan_and_index_arithmetic_faults :
    ¬ ScanArithmeticSafe (oneFileScan false (some 0))
        ⟨["/d"], [], none, false⟩ oneFileDisk ∧
    machineScan (oneFileScan false (some 0)) ⟨["/d"], [], none, false⟩
        oneFileDisk = .error .divideByZero ∧
    machineScanPathsProgress (oneFileScan false (some 0))
        ⟨["/d"], [], none, false⟩ oneFileDisk = .error .divideByZero ∧
    (build zeroSampleBuild false [⟨"/d/a", "a", "", 1, 0⟩] none).result =
      .error (.panicked .divideByZero) ∧
    machineScan (oneFileScan true none)
        ⟨["/d"], [], some (2 ^ 44), false⟩ oneFileDisk = .error .overflow ∧
    machineScan (oneFileScan false none)
        ⟨["/d"], [], some (2 ^ 44), false⟩ oneFileDisk = .ok [] := by
  refine ⟨?_, by decide, by decide, by decide, by decide, by decide⟩
  intro hsafe
  exact hsafe.scan .divideByZero (by decide)

end SearchEvery
