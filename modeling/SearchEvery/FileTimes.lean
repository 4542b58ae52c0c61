import SearchEvery.PipelineSystem
import Mathlib.Tactic

/-!
# Modification times

The two scanners compute a modification time from the age of the file and a
second reading of the clock, the pipeline takes the time of the file itself.
The difference of two rounded readings is the rounded time only when the clock
stands no lower within its second than the file time did, and does not pass on
to the next second between the readings.
-/

namespace SearchEvery

/-- The two commands which scan. -/
inductive ScanCommand
  | scanPaths
  | scanPathsProgress
  deriving DecidableEq

def ScanCommand.run (env : ScanEnv) (opts : ScanOptions) (disk : Disk) :
    ScanCommand → Except Fault (List FileMeta)
  | .scanPaths => scan env opts disk
  | .scanPathsProgress =>
      (SearchEvery.scanPathsProgress env opts disk).map Prod.fst

/-- One scan, and the place of a file among its results. -/
structure FileScan where
  command : ScanCommand
  env : ScanEnv
  opts : ScanOptions
  disk : Disk
  place : ℕ

/-- The result at that place. -/
def FileScan.report (s : FileScan) : Option FileMeta :=
  match s.command.run s.env s.opts s.disk with
  | .ok files => files[s.place]?
  | .error _ => none

/-- The readings of the clock which the scan takes for that file. -/
def FileScan.reading (s : FileScan) : ℤ × ℤ := s.env.clock s.place

/-- The scan returns, and the file at that place has this time. -/
def FileScan.Sees (s : FileScan) (m : ℤ) : Prop :=
  ∃ limit files found, s.command.run s.env s.opts s.disk = .ok files ∧
    maxBytes s.env.overflowChecks s.opts.maxFileSizeMb = .ok limit ∧
    ((walkRoots s.env s.opts s.disk).filterMap
      (admitEntry s.opts.excludePatterns limit))[s.place]? = some found ∧
    found.2.modified = some m

/-- The second reading of the clock falls into the second of the first, and
within its second the clock stands no lower than the file time; or the file
time is ahead of the clock and within the first second. -/
def Steady (m : ℤ) (reading : ℤ × ℤ) : Prop :=
  (m ≤ reading.1 ∧ m % nanosPerSecond ≤ reading.1 % nanosPerSecond ∧
      reading.2 / nanosPerSecond = reading.1 / nanosPerSecond) ∨
    (reading.1 < m ∧ m < nanosPerSecond)

instance (m : ℤ) (reading : ℤ × ℤ) : Decidable (Steady m reading) :=
  inferInstanceAs (Decidable (_ ∨ _))

/-! ## The time a scan reports -/

theorem scanModifiedTs_eq_iff
    {m elapsedAt nowAt : ℤ} (hpos : 0 ≤ m) (hclock : elapsedAt ≤ nowAt) :
    scanModifiedTs elapsedAt nowAt (some m) = m / nanosPerSecond ↔
      Steady m (elapsedAt, nowAt) := by
  simp only [scanModifiedTs, Steady, nanosPerSecond]
  by_cases hpast : m ≤ elapsedAt
  · rw [if_pos hpast]
    omega
  · rw [if_neg hpast]
    omega

theorem pipelineModifiedTs_eq_iff (m : ℤ) :
    pipelineModifiedTs (some m) = m / nanosPerSecond ↔ 0 ≤ m := by
  simp only [pipelineModifiedTs, nanosPerSecond]
  by_cases hpos : 0 ≤ m
  · simp [hpos]
  · rw [if_neg hpos]
    omega

def ScanEnv.result (env : ScanEnv) (found : (String × Metadata) × ℕ) :
    FileMeta :=
  fileMetaOf env.tables env.platform found.1.1 found.1.2
    (scanModifiedTs (env.clock found.2).1 (env.clock found.2).2
      found.1.2.modified)

theorem scanFold_results
    {env : ScanEnv} {excludePatterns : List String} {limit : Option ℕ}
    {items : List WalkItem} {state final : ScanState}
    (hfold : items.foldlM (scanStep env excludePatterns limit) state =
      .ok final) :
    final.results = state.results ++
      ((items.filterMap (admitEntry excludePatterns limit)).zipIdx
        state.scannedFiles).map env.result := by
  induction items generalizing state with
  | nil =>
      rw [FallibleLoop.foldlM_nil_eq_ok hfold]
      simp
  | cons item items ih =>
      obtain ⟨next, hstep, hrest⟩ := FallibleLoop.foldlM_cons_eq_ok hfold
      rw [ih hrest]
      rcases scanStep_cases hstep with
        ⟨hnone, rfl⟩ | ⟨found, hfound, _, rfl⟩
      · rw [List.filterMap_cons_none hnone]
      · rw [List.filterMap_cons_some hfound]
        simp [ScanState.push, ScanEnv.result]

theorem ScanCommand.run_eq
    (command : ScanCommand) (env : ScanEnv) (opts : ScanOptions) (disk : Disk) :
    command.run env opts disk =
      (SearchEvery.scanPathsProgress env opts disk).map Prod.fst := by
  cases command with
  | scanPaths => exact scan_eq_scanPathsProgress env opts disk
  | scanPathsProgress => rfl

theorem ScanCommand.run_results
    {command : ScanCommand} {env : ScanEnv} {opts : ScanOptions} {disk : Disk}
    {limit : Option ℕ} {files : List FileMeta}
    (hlimit : maxBytes env.overflowChecks opts.maxFileSizeMb = .ok limit)
    (hrun : command.run env opts disk = .ok files) :
    files = ((walkRoots env opts disk).filterMap
      (admitEntry opts.excludePatterns limit)).zipIdx.map env.result := by
  rw [ScanCommand.run_eq] at hrun
  cases hprogress : SearchEvery.scanPathsProgress env opts disk with
  | error fault => simp [hprogress, Except.map] at hrun
  | ok answer =>
      simp only [hprogress, Except.map, Except.ok.injEq] at hrun
      obtain ⟨final, hfold, hfiles⟩ :=
        scanFold_of_scanPathsProgress hlimit hprogress
      rw [← hrun, hfiles, scanFold_results hfold]
      rfl

theorem FileScan.Sees.report_ts
    {s : FileScan} {m : ℤ} (hsees : s.Sees m) :
    s.report.map FileMeta.modifiedTs =
      some (scanModifiedTs s.reading.1 s.reading.2 (some m)) := by
  obtain ⟨limit, files, found, hrun, hlimit, hfound, hm⟩ := hsees
  have hfiles := ScanCommand.run_results hlimit hrun
  unfold FileScan.report
  rw [hrun, hfiles]
  simp [List.getElem?_zipIdx, hfound, ScanEnv.result, fileMetaOf, hm,
    FileScan.reading]

theorem pipelineFile_ts
    {env : PipelineEnv} {args : RunArgs} {entry : WalkEntry} {md : Metadata}
    {file : FileMeta} (hmd : entry.metadata = some md)
    (hfile : pipelineFile env args (some entry) = some file) :
    file.modifiedTs = pipelineModifiedTs md.modified := by
  obtain ⟨found, hfound, rfl⟩ := Option.map_eq_some_iff.mp hfile
  obtain ⟨other, hother, _, _, hfoundMd⟩ := admitEntry_eq_some hfound
  rw [Option.some.injEq] at hother
  subst hother
  rw [hmd, Option.some.injEq] at hfoundMd
  rw [hfoundMd]
  rfl

/-- Two scans of a file and the pipeline agree on its modification time, in
whole seconds since the epoch, exactly when the time is not before the epoch
and the clock is steady at both scans. -/
theorem timestamps_agree_iff
    {m : ℤ} {s t : FileScan} (hs : s.Sees m) (ht : t.Sees m)
    (hsClock : s.reading.1 ≤ s.reading.2) (htClock : t.reading.1 ≤ t.reading.2)
    {env : PipelineEnv} {args : RunArgs} {entry : WalkEntry} {md : Metadata}
    {file : FileMeta} (hmd : entry.metadata = some md)
    (hm : md.modified = some m)
    (hfile : pipelineFile env args (some entry) = some file)
    (enableContentParse : Bool) (node : DiskEntry) :
    (s.report.map FileMeta.modifiedTs = t.report.map FileMeta.modifiedTs ∧
      s.report.map FileMeta.modifiedTs =
        some (workerDoc enableContentParse file node).modifiedTs ∧
      (workerDoc enableContentParse file node).modifiedTs =
        m / nanosPerSecond) ↔
      0 ≤ m ∧ Steady m s.reading ∧ Steady m t.reading := by
  have hstored : (workerDoc enableContentParse file node).modifiedTs =
      pipelineModifiedTs (some m) := by
    have hall := workerDoc_stored enableContentParse file node
    rw [← hm, ← pipelineFile_ts hmd hfile]
    exact congrArg (fun fields => fields.2.2.2.2) hall
  rw [hs.report_ts, ht.report_ts, hstored, Option.some.injEq,
    Option.some.injEq, pipelineModifiedTs_eq_iff]
  constructor
  · rintro ⟨hsame, hpipeline, hpos⟩
    rw [(pipelineModifiedTs_eq_iff m).mpr hpos] at hpipeline
    refine ⟨hpos, (scanModifiedTs_eq_iff hpos hsClock).mp hpipeline,
      (scanModifiedTs_eq_iff hpos htClock).mp ?_⟩
    rw [← hsame]
    exact hpipeline
  · rintro ⟨hpos, hsSteady, htSteady⟩
    rw [(scanModifiedTs_eq_iff hpos hsClock).mpr hsSteady,
      (scanModifiedTs_eq_iff hpos htClock).mpr htSteady,
      (pipelineModifiedTs_eq_iff m).mpr hpos]
    exact ⟨rfl, rfl, hpos⟩

/-! ## One file, three clocks -/

/-- A file of the instant 100.9 s, scanned at the given readings. -/
def noteScan (elapsedAt nowAt : ℤ) : FileScan where
  command := .scanPaths
  env := ⟨asciiTables, .unix,
    oneEntryWalkDir (fun root => root ++ "/a.txt") (fun _ => true)
      ⟨3, some 100900000000⟩,
    true, none, fun _ => (elapsedAt, nowAt)⟩
  opts := ⟨["/d"], [], none, false⟩
  disk := fun _ => .file ⟨[], true, true⟩
  place := 0

theorem noteScan_sees (elapsedAt nowAt : ℤ) :
    (noteScan elapsedAt nowAt).Sees 100900000000 :=
  ⟨none, _, ("/d/a.txt", ⟨3, some 100900000000⟩), rfl, rfl, by rfl, rfl⟩

def noteEntry : WalkEntry :=
  ⟨true, some "/d/a.txt", some ⟨3, some 100900000000⟩⟩

def noteFile : FileMeta := ⟨"/d/a.txt", "a.txt", "txt", 3, 100⟩

theorem timestamps_agree_steady :
    (noteScan 200950000000 200960000000).report.map FileMeta.modifiedTs =
        (noteScan 300900000000 300900000000).report.map FileMeta.modifiedTs ∧
      (noteScan 200950000000 200960000000).report.map FileMeta.modifiedTs =
        some (workerDoc false noteFile .absent).modifiedTs ∧
      (workerDoc false noteFile .absent).modifiedTs =
        100900000000 / nanosPerSecond :=
  (@timestamps_agree_iff 100900000000 (noteScan 200950000000 200960000000)
    (noteScan 300900000000 300900000000) (noteScan_sees _ _)
    (noteScan_sees _ _) (by decide) (by decide) sampleEnv sampleArgs noteEntry
    _ noteFile rfl rfl (by decide) false .absent).mpr (by decide)

/-- At 200.1 s the file of 100.9 s is 99 whole seconds old: the scan reports
101, where a scan at 200.95 s reports 100 and the pipeline stores 100. -/
theorem timestamps_drift :
    (noteScan 200100000000 200100000000).report.map FileMeta.modifiedTs =
      some 101 ∧
    (noteScan 200950000000 200950000000).report.map FileMeta.modifiedTs =
      some 100 ∧
    pipelineFile sampleEnv sampleArgs (some noteEntry) = some noteFile ∧
    noteFile.modifiedTs = 100 := by
  refine ⟨?_, ?_, by decide, rfl⟩
  · exact (noteScan_sees _ _).report_ts
  · exact (noteScan_sees _ _).report_ts

end SearchEvery
