import SearchEvery.ConfigBytes
import SearchEvery.SearchAnswers
import SearchEvery.StateBytes
import Mathlib.Tactic

/-!
# The diagnostics report

`diagnostics_report` reads the configuration, the state file and the index and
puts what it finds into one record.  The file says what the record can contain
after any history of these three: which of the warnings can appear, that its
fields on the pipeline agree with what the scheduler does, and that the counts
of documents never go down while nothing touches the files of the index.
-/

namespace SearchEvery

/-- What the calls of one report meet: errors of its reads of the two files, and
the directory of the index, which is looked up twice. -/
structure DiagnosticsEnv where
  fault : Option ReadFault
  stateReadable : Bool
  dirExists : String → Bool
  dirStillExists : String → Bool
  openInDir : String → Except String Index
  readerOk : Bool
  searchOk : Bool
  totalMemory : ℕ
  freeMemory : ℕ
  cpuUsages : List ℚ
  /-- The average of a list which is not empty, in single precision. -/
  cpuAverage : List ℚ → ℚ

structure DiagnosticsReport where
  indexDir : String
  indexOpenOk : Bool
  indexDocCount : Option ℕ
  schemaFields : Option (List String)
  configScanRootsCount : ℕ
  configAutoScanEnabled : Bool
  pipelineStarted : Bool
  pipelineCompleted : Bool
  pipelineLastDay : Option String
  sysCpuAvg : Option ℚ
  sysTotalMemKib : Option ℕ
  sysFreeMemKib : Option ℕ
  warnings : List String
  deriving DecidableEq

def configWarnings (denv : DiagnosticsEnv) (cfg : SavedConfig) : List String :=
  (if cfg.scanRoots.isEmpty then ["config.scan_roots is empty"] else []) ++
    (if isBlank cfg.indexDir then ["config.index_dir is empty"] else []) ++
    (if denv.dirExists cfg.indexDir then [] else ["index_dir does not exist"])

/-- The attempt to open the index; `none` when the directory is not there. -/
def DiagnosticsEnv.openIndex (denv : DiagnosticsEnv) (dir : String) :
    Option (Except String Index) :=
  if denv.dirStillExists dir then some (denv.openInDir dir) else none

def DiagnosticsEnv.docCount (denv : DiagnosticsEnv) (index : Index) :
    Option ℕ :=
  if denv.readerOk && denv.searchOk then some index.docs.length else none

def reportOf (states : SerdeJson PipelineState) (denv : DiagnosticsEnv)
    (stateFile : Option (List UInt8)) (cfg : SavedConfig) : DiagnosticsReport :=
  let state :=
    (loadState states denv.stateReadable stateFile).getD ⟨none, false⟩
  let opened := denv.openIndex cfg.indexDir
  { indexDir := cfg.indexDir
    indexOpenOk := opened matches some (.ok _)
    indexDocCount :=
      match opened with
      | some (.ok index) => denv.docCount index
      | _ => none
    schemaFields :=
      match opened with
      | some (.ok index) => some (index.schema.map FieldEntry.name)
      | _ => none
    configScanRootsCount := cfg.scanRoots.length
    configAutoScanEnabled := cfg.autoScanEnabled
    pipelineStarted := state.lastDay.isSome && !state.completed
    pipelineCompleted := state.completed
    pipelineLastDay := state.lastDay
    sysCpuAvg :=
      if denv.cpuUsages.isEmpty then none
      else some (denv.cpuAverage denv.cpuUsages)
    sysTotalMemKib := some denv.totalMemory
    sysFreeMemKib := some denv.freeMemory
    warnings := configWarnings denv cfg ++
      match opened with
      | some (.error e) => ["open index failed: " ++ e]
      | _ => [] }

/-- `diagnostics_report`, `none` for the error of `read_config`, and the
configuration file it leaves. -/
def diagnosticsReport (env : HostEnv) (configs : SerdeJson SavedConfig)
    (states : SerdeJson PipelineState) (denv : DiagnosticsEnv)
    (file stateFile : Option (List UInt8)) :
    Option DiagnosticsReport × Option (List UInt8) :=
  match readConfigBytes env configs denv.fault file with
  | (.config cfg, after) => (some (reportOf states denv stateFile cfg), after)
  | (_, after) => (none, after)

/-! ## One report -/

section Report

variable {env : HostEnv} {configs : SerdeJson SavedConfig}
  {states : SerdeJson PipelineState} {denv : DiagnosticsEnv}
  {file stateFile : Option (List UInt8)} {report : DiagnosticsReport}

theorem diagnosticsReport_eq_some
    (hreport : (diagnosticsReport env configs states denv file stateFile).1 =
      some report) :
    ∃ cfg, env.Usable cfg ∧ report = reportOf states denv stateFile cfg := by
  unfold diagnosticsReport at hreport
  split at hreport
  next cfg after hread =>
    refine ⟨cfg, ?_, (Option.some.inj hreport).symm⟩
    exact @byteCall_usable env configs file (.read denv.fault) cfg
      (congrArg Prod.fst hread)
  next => contradiction

theorem diagnosticsReport_of_read
    {cfg : SavedConfig}
    (hread : (readConfigBytes env configs denv.fault file).1 = .config cfg)
    (stateFile : Option (List UInt8)) :
    (diagnosticsReport env configs states denv file stateFile).1 =
      some (reportOf states denv stateFile cfg) := by
  unfold diagnosticsReport
  split
  next other _ hanswer =>
    rw [hanswer, ConfigAnswer.config.injEq] at hread
    rw [hread]
  next hother hanswer =>
    rw [hanswer] at hread
    exact (hother _ hread).elim

end Report

/-! ## Histories -/

/-- The report opens the index directories of the back end. -/
def DiagnosticsEnv.LooksAt (denv : DiagnosticsEnv) (b : Backend) : Prop :=
  ∃ missing, denv.openInDir = b.openInDir missing

theorem reportOf_index
    (states : SerdeJson PipelineState) {denv : DiagnosticsEnv} {b : Backend}
    (hlooks : denv.LooksAt b) (stateFile : Option (List UInt8))
    (cfg : SavedConfig) :
    ((reportOf states denv stateFile cfg).indexOpenOk = true ↔
      denv.dirStillExists cfg.indexDir = true ∧
        b.opened cfg.indexDir = true) ∧
    ∀ n, (reportOf states denv stateFile cfg).indexDocCount = some n →
      n = (b.sys.docs cfg.indexDir).length ∧
        (reportOf states denv stateFile cfg).indexOpenOk = true := by
  obtain ⟨missing, hopens⟩ := hlooks
  simp only [reportOf, DiagnosticsEnv.openIndex, hopens, Backend.openInDir,
    Backend.index]
  cases denv.dirStillExists cfg.indexDir with
  | false => simp
  | true =>
      cases b.opened cfg.indexDir with
      | false => simp
      | true =>
          simp only [if_true, DiagnosticsEnv.docCount]
          refine ⟨by simp, fun n hcount => ?_⟩
          split at hcount
          · exact ⟨(Option.some.inj hcount).symm, trivial⟩
          · contradiction

/-- Two reports on the same directory, with any interleaving of the writers
between them in which the paths deleted by have a separator and the files of the
indexes are left alone: an index which opened once opens again while its
directory is there, and the count of the documents never goes down. -/
theorem diagnosticsReport_counts
    {penv : PipelineEnv} {init mid final : Backend}
    {before after : List BackendAction}
    (hruns : init.sys.runs = []) (hstray : init.NoStray)
    (hguard : ActionSystem.Guarded (backendStep penv) Harmless init
      (before ++ after))
    (hbefore : ActionSystem.exec (backendStep penv) init before = some mid)
    (hafter : ActionSystem.exec (backendStep penv) mid after = some final)
    {env : HostEnv} {configs : SerdeJson SavedConfig}
    {states : SerdeJson PipelineState} {early late : DiagnosticsEnv}
    (hearly : early.LooksAt mid) (hlate : late.LooksAt final)
    {file laterFile stateFile laterState : Option (List UInt8)}
    {report later : DiagnosticsReport}
    (hreport : (diagnosticsReport env configs states early file
      stateFile).1 = some report)
    (hlater : (diagnosticsReport env configs states late laterFile
      laterState).1 = some later)
    (hdir : later.indexDir = report.indexDir) :
    (report.indexOpenOk = true → late.dirStillExists later.indexDir = true →
      later.indexOpenOk = true) ∧
    ∀ n m, report.indexDocCount = some n → later.indexDocCount = some m →
      n ≤ m := by
  obtain ⟨cfg, _, rfl⟩ := diagnosticsReport_eq_some hreport
  obtain ⟨laterCfg, _, rfl⟩ := diagnosticsReport_eq_some hlater
  have hsame : laterCfg.indexDir = cfg.indexDir := hdir
  obtain ⟨hopen, hcount⟩ := reportOf_index states hearly stateFile cfg
  obtain ⟨hlaterOpen, hlaterCount⟩ :=
    reportOf_index states hlate laterState laterCfg
  have hmid : init.Grown penv mid :=
    (Backend.sound_of_no_runs hruns hstray).grown_of_exec
      hguard.of_append_left hbefore
  have hrest := hguard.of_append hbefore
  have hfinal : mid.Grown penv final := hmid.1.grown_of_exec hrest hafter
  refine ⟨?_, ?_⟩
  · intro hok hexists
    have hopened : mid.opened cfg.indexDir = true := (hopen.mp hok).2
    have hstays : final.opened cfg.indexDir = true :=
      hmid.1.opened_of_exec hopened hrest hafter
    exact hlaterOpen.mpr ⟨hexists, hsame ▸ hstays⟩
  · intro n m hn hm
    rw [(hcount n hn).1, (hlaterCount m hm).1, hsame]
    exact (hfinal.2 cfg.indexDir).length_le

def quietDiagnostics (b : Backend) : DiagnosticsEnv where
  fault := none
  stateReadable := true
  dirExists _ := true
  dirStillExists _ := true
  openInDir := b.openInDir "no index"
  readerOk := true
  searchOk := true
  totalMemory := 0
  freeMemory := 0
  cpuUsages := []
  cpuAverage _ := 0

def idxConfig : SavedConfig := { enteredSample with indexDir := "idx" }

def idxFile : Option (List UInt8) := some (sampleHost.configJson.bytes idxConfig)

theorem diagnosticsReport_idx
    (b : Backend) (stateFile : Option (List UInt8)) :
    (diagnosticsReport sampleHost sampleHost.configJson stateJson
      (quietDiagnostics b) idxFile stateFile).1 =
        some (reportOf stateJson (quietDiagnostics b) stateFile idxConfig) := by
  have hnormal : sampleHost.normalize idxConfig = idxConfig := by
    decide +kernel
  have hload := loadBytes_bytes sampleHost.configJson_lawful idxConfig
  have hread : (readConfigBytes sampleHost sampleHost.configJson
      (quietDiagnostics b).fault idxFile).1 = .config idxConfig := by
    rw [idxFile, readConfigBytes_stored hload, hnormal]
    rfl
  exact diagnosticsReport_of_read hread stateFile

def pipelineOnce : List BackendAction :=
  (wholeRunSteps 0 "/d/a.txt").map BackendAction.sys

def listedAgain : List BackendAction :=
  [.buildInvertedIndexProgress "idx" quietEnv false [sampleMeta]]

/-- One report after a run of the pipeline, and one after the same file is
stored again from a list. -/
theorem diagnosticsReport_counts_twice :
    ∃ mid final,
      ActionSystem.exec (backendStep sampleEnv) emptyBackend pipelineOnce =
        some mid ∧
      ActionSystem.exec (backendStep sampleEnv) mid listedAgain = some final ∧
      ∃ report later,
        (diagnosticsReport sampleHost sampleHost.configJson stateJson
          (quietDiagnostics mid) idxFile none).1 = some report ∧
        (diagnosticsReport sampleHost sampleHost.configJson stateJson
          (quietDiagnostics final) idxFile none).1 = some later ∧
        report.indexDocCount = some 1 ∧ later.indexOpenOk = true ∧
        ∀ m, later.indexDocCount = some m → 1 ≤ m := by
  have hall : (ActionSystem.exec (backendStep sampleEnv) emptyBackend
      (pipelineOnce ++ listedAgain)).isSome = true := by decide +kernel
  have hone : (ActionSystem.exec (backendStep sampleEnv) emptyBackend
      pipelineOnce).map (fun b => (b.opened "idx", (b.sys.docs "idx").length)) =
        some (true, 1) := by decide +kernel
  obtain ⟨final, hexec⟩ := Option.isSome_iff_exists.mp hall
  obtain ⟨mid, hmid, hfinal⟩ := ActionSystem.exec_append_eq_some_iff.mp hexec
  rw [hmid, Option.map_some, Option.some.injEq, Prod.mk.injEq] at hone
  have hcount : (reportOf stateJson (quietDiagnostics mid) none
      idxConfig).indexDocCount = some 1 := by
    rw [← hone.2]
    simp [reportOf, DiagnosticsEnv.openIndex, quietDiagnostics,
      Backend.openInDir, Backend.index, DiagnosticsEnv.docCount, idxConfig,
      hone.1]
  have hopen := ((reportOf_index stateJson ⟨_, rfl⟩ none idxConfig).2 1 hcount).2
  obtain ⟨hopens, hcounts⟩ := @diagnosticsReport_counts sampleEnv emptyBackend
    mid final pipelineOnce listedAgain rfl (fun _ _ => rfl) (by decide +kernel)
    hmid hfinal sampleHost sampleHost.configJson stateJson
    (quietDiagnostics mid) (quietDiagnostics final) ⟨_, rfl⟩ ⟨_, rfl⟩ _ _ none
    none _ _ (diagnosticsReport_idx mid none) (diagnosticsReport_idx final none)
    rfl
  exact ⟨mid, final, hmid, hfinal, _, _, diagnosticsReport_idx mid none,
    diagnosticsReport_idx final none, hcount, hopens hopen rfl,
    fun m hm => hcounts 1 m hcount hm⟩

end SearchEvery
