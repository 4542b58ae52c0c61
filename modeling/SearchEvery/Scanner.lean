import SearchEvery.DiskWalk
import SearchEvery.FallibleLoop
import Mathlib.Tactic

/-!
# Scanning the roots

The three scanners walk every root in turn and accept an entry by the same
tests: a regular file, a Unicode path, no exclude pattern inside the path,
readable metadata, and a length within the limit.  They differ in the limit,
in the modification time they report and in the events they emit.
-/

namespace SearchEvery

structure FileMeta where
  path : String
  fileName : String
  ext : String
  size : ℕ
  modifiedTs : ℤ
  deriving DecidableEq

structure ScanOptions where
  roots : List String
  excludePatterns : List String
  maxFileSizeMb : Option ℕ
  followSymlinks : Bool

inductive Fault
  | overflow
  | divideByZero
  deriving DecidableEq

def mulU64 (overflowChecks : Bool) (a b : ℕ) : Except Fault ℕ :=
  if a * b < 2 ^ 64 then .ok (a * b)
  else if overflowChecks then .error .overflow
  else .ok (a * b % 2 ^ 64)

/-- `max_file_size_mb.map(|m| m * 1024 * 1024)`. -/
def maxBytes (overflowChecks : Bool) : Option ℕ → Except Fault (Option ℕ)
  | none => .ok none
  | some mb => do
      let kib ← mulU64 overflowChecks mb 1024
      let bytes ← mulU64 overflowChecks kib 1024
      return some bytes

/-- The tests an entry passes before it becomes a result. -/
def admitEntry (excludePatterns : List String) (limit : Option ℕ)
    (item : WalkItem) : Option (String × Metadata) :=
  match item with
  | none => none
  | some entry =>
      if entry.isFile then
        match entry.path with
        | none => none
        | some path =>
            if excludePatterns.any (fun pattern => strContains path pattern) then
              none
            else
              match entry.metadata with
              | none => none
              | some md =>
                  match limit with
                  | some bytes => if md.len > bytes then none else some (path, md)
                  | none => some (path, md)
      else none

def fileMetaOf (tables : CharTables) (platform : Platform)
    (path : String) (md : Metadata) (modifiedTs : ℤ) : FileMeta where
  path := path
  fileName := (platform.fileName path).getD ""
  ext := tables.strToLowercase ((platform.extension path).getD "")
  size := md.len
  modifiedTs := modifiedTs

def nanosPerSecond : ℤ := 1000000000

/-- `Utc::now().timestamp() - elapsed.as_secs()`, with the two clock readings
in the order in which they are taken; `0` for a time in the future. -/
def scanModifiedTs (elapsedAt nowAt : ℤ) (modified : Option ℤ) : ℤ :=
  match modified with
  | none => 0
  | some t =>
      if t ≤ elapsedAt then
        nowAt / nanosPerSecond - (elapsedAt - t) / nanosPerSecond
      else 0

structure ScanEnv where
  tables : CharTables
  platform : Platform
  walkDir : WalkDir
  overflowChecks : Bool
  /-- `SE_SCAN_LOG_SAMPLE_EVERY`, when it parses. -/
  sampleEveryVar : Option ℕ
  /-- The readings of `elapsed` and of `Utc::now` for the `k`-th result. -/
  clock : ℕ → ℤ × ℤ

def ScanEnv.sampleEvery (env : ScanEnv) : ℕ := env.sampleEveryVar.getD 200

inductive ScanEvent
  | progress (current : ℕ) (path name : String)
  | done (total : ℕ)
  deriving DecidableEq

structure ScanState where
  results : List FileMeta
  scannedFiles : ℕ
  events : List ScanEvent

def ScanState.initial : ScanState := ⟨[], 0, []⟩

def scanStep (env : ScanEnv) (excludePatterns : List String)
    (limit : Option ℕ) (state : ScanState) (item : WalkItem) :
    Except Fault ScanState :=
  match admitEntry excludePatterns limit item with
  | none => .ok state
  | some (path, md) =>
      let reading := env.clock state.scannedFiles
      let file := fileMetaOf env.tables env.platform path md
        (scanModifiedTs reading.1 reading.2 md.modified)
      let results := state.results ++ [file]
      let scannedFiles := state.scannedFiles + 1
      if env.sampleEvery = 0 then .error .divideByZero
      else .ok {
        results := results
        scannedFiles := scannedFiles
        events := state.events ++ [.progress results.length path file.fileName]
      }

/-- The result and the event of an accepted file. -/
def ScanState.push (env : ScanEnv) (state : ScanState)
    (found : String × Metadata) (counted : ℤ × ℕ) : ScanState :=
  let file := fileMetaOf env.tables env.platform found.1 found.2 counted.1
  let results := state.results ++ [file]
  { results := results
    scannedFiles := counted.2
    events :=
      state.events ++ [.progress results.length found.1 file.fileName] }

def walkRoots (env : ScanEnv) (opts : ScanOptions) (disk : Disk) :
    List WalkItem :=
  opts.roots.flatMap fun root => env.walkDir.walk disk root opts.followSymlinks

/-- `scan_paths_progress`: the results and the events it emitted. -/
def scanPathsProgress (env : ScanEnv) (opts : ScanOptions) (disk : Disk) :
    Except Fault (List FileMeta × List ScanEvent) := do
  let limit ← maxBytes env.overflowChecks opts.maxFileSizeMb
  let final ← (walkRoots env opts disk).foldlM
    (scanStep env opts.excludePatterns limit) ScanState.initial
  return (final.results, final.events ++ [.done final.results.length])

/-- What `scanner::scan` keeps while it walks: the same without events. -/
structure Collected where
  results : List FileMeta
  scannedFiles : ℕ

def collectStep (env : ScanEnv) (excludePatterns : List String)
    (limit : Option ℕ) (state : Collected) (item : WalkItem) :
    Except Fault Collected :=
  match admitEntry excludePatterns limit item with
  | none => .ok state
  | some (path, md) =>
      let reading := env.clock state.scannedFiles
      let file := fileMetaOf env.tables env.platform path md
        (scanModifiedTs reading.1 reading.2 md.modified)
      if env.sampleEvery = 0 then .error .divideByZero
      else .ok ⟨state.results ++ [file], state.scannedFiles + 1⟩

/-- `scanner::scan`. -/
def scan (env : ScanEnv) (opts : ScanOptions) (disk : Disk) :
    Except Fault (List FileMeta) := do
  let limit ← maxBytes env.overflowChecks opts.maxFileSizeMb
  let final ← (walkRoots env opts disk).foldlM
    (collectStep env opts.excludePatterns limit) ⟨[], 0⟩
  return final.results

/-! ## The two scans run the same loop -/

def ScanState.collected (state : ScanState) : Collected :=
  ⟨state.results, state.scannedFiles⟩

theorem collectStep_collected
    (env : ScanEnv) (excludePatterns : List String) (limit : Option ℕ)
    (state : ScanState) (item : WalkItem) :
    collectStep env excludePatterns limit state.collected item =
      (scanStep env excludePatterns limit state item).map
        ScanState.collected := by
  unfold collectStep scanStep
  cases admitEntry excludePatterns limit item with
  | none => rfl
  | some found =>
      by_cases hzero : env.sampleEvery = 0
      · simp [hzero, Except.map]
      · simp [hzero, Except.map, ScanState.collected]

theorem collectFold_collected
    (env : ScanEnv) (excludePatterns : List String) (limit : Option ℕ)
    (items : List WalkItem) (state : ScanState) :
    items.foldlM (collectStep env excludePatterns limit) state.collected =
      (items.foldlM (scanStep env excludePatterns limit) state).map
        ScanState.collected :=
  FallibleLoop.foldlM_view (collectStep_collected env excludePatterns limit)
    items state

theorem scan_eq_scanPathsProgress
    (env : ScanEnv) (opts : ScanOptions) (disk : Disk) :
    scan env opts disk = (scanPathsProgress env opts disk).map Prod.fst := by
  unfold scan scanPathsProgress
  cases maxBytes env.overflowChecks opts.maxFileSizeMb with
  | error fault => rfl
  | ok limit =>
      have hfold := collectFold_collected env opts.excludePatterns limit
        (walkRoots env opts disk) ScanState.initial
      simp only [bind, Except.bind]
      rw [show (⟨[], 0⟩ : Collected) = ScanState.initial.collected from rfl,
        hfold]
      cases (walkRoots env opts disk).foldlM
          (scanStep env opts.excludePatterns limit) ScanState.initial with
      | error fault => rfl
      | ok final => rfl

/-! ## What a scan returns -/

def admittedPaths (env : ScanEnv) (opts : ScanOptions) (limit : Option ℕ)
    (disk : Disk) (root : String) : List String :=
  ((env.walkDir.walk disk root opts.followSymlinks).filterMap
    (admitEntry opts.excludePatterns limit)).map Prod.fst

theorem admitEntry_eq_some
    {excludePatterns : List String} {limit : Option ℕ} {item : WalkItem}
    {path : String} {md : Metadata}
    (hfound : admitEntry excludePatterns limit item = some (path, md)) :
    ∃ entry, item = some entry ∧ entry.isFile = true ∧
      entry.path = some path ∧ entry.metadata = some md := by
  unfold admitEntry at hfound
  cases item with
  | none => simp at hfound
  | some entry =>
      refine ⟨entry, rfl, ?_⟩
      simp only at hfound
      split at hfound
      next hfile =>
        cases hpath : entry.path with
        | none => simp [hpath] at hfound
        | some text =>
            simp only [hpath] at hfound
            split at hfound
            next => simp at hfound
            next =>
              cases hmd : entry.metadata with
              | none => simp [hmd] at hfound
              | some found =>
                  simp only [hmd] at hfound
                  refine ⟨hfile, ?_⟩
                  cases limit with
                  | none => simpa [and_comm] using hfound
                  | some bytes =>
                      by_cases hlarge : found.len > bytes
                      · simp [hlarge] at hfound
                      · simpa [hlarge, and_comm] using hfound
      next => simp at hfound

theorem filterMap_sublist_of_imp
    {α β : Type*} {f g : α → Option β}
    (himp : ∀ a b, f a = some b → g a = some b) (items : List α) :
    (items.filterMap f).Sublist (items.filterMap g) := by
  induction items with
  | nil => simp
  | cons item items ih =>
      cases hf : f item with
      | some b =>
          rw [List.filterMap_cons_some hf,
            List.filterMap_cons_some (himp item b hf)]
          exact ih.cons_cons b
      | none =>
          rw [List.filterMap_cons_none hf]
          refine ih.trans ?_
          exact List.Sublist.filterMap g (List.sublist_cons_self item items)

theorem admittedPaths_nodup
    (env : ScanEnv) (opts : ScanOptions) (limit : Option ℕ)
    (disk : Disk) (root : String) :
    (admittedPaths env opts limit disk root).Nodup := by
  unfold admittedPaths
  rw [List.map_filterMap]
  refine (env.walkDir.nodup disk root opts.followSymlinks).sublist ?_
  apply filterMap_sublist_of_imp
  intro item path hitem
  obtain ⟨found, hfound, hfst⟩ := Option.map_eq_some_iff.mp hitem
  obtain ⟨entry, hentry, _, hpath, _⟩ := admitEntry_eq_some hfound
  simp [hentry, WalkItem.pathText, hpath, hfst]

theorem hasFile_of_mem_admittedPaths
    {env : ScanEnv} {opts : ScanOptions} {limit : Option ℕ}
    {disk : Disk} {root path : String}
    (hmem : path ∈ admittedPaths env opts limit disk root) :
    Disk.HasFile disk path := by
  obtain ⟨found, hfound, heq⟩ := List.mem_map.mp hmem
  obtain ⟨item, hitem, hfound⟩ := List.mem_filterMap.mp hfound
  obtain ⟨entry, rfl, hfile, hpath, _⟩ := admitEntry_eq_some hfound
  exact env.walkDir.present disk root opts.followSymlinks entry path hitem
    hfile (heq ▸ hpath)

theorem not_excluded_of_admitEntry
    {excludePatterns : List String} {limit : Option ℕ} {item : WalkItem}
    {path : String} {md : Metadata}
    (hfound : admitEntry excludePatterns limit item = some (path, md)) :
    ∀ pattern ∈ excludePatterns, strContains path pattern = false := by
  obtain ⟨entry, rfl, hfile, hpath, _⟩ := admitEntry_eq_some hfound
  unfold admitEntry at hfound
  simp only [hfile, hpath, if_true] at hfound
  split at hfound
  next => simp at hfound
  next hclean =>
    intro pattern hpattern
    by_contra hcontains
    exact hclean (List.any_eq_true.mpr
      ⟨pattern, hpattern, by simpa using hcontains⟩)

/-- What a result says about its file, the modification time apart. -/
def FileMeta.entry (file : FileMeta) : String × String × String × ℕ :=
  (file.path, file.fileName, file.ext, file.size)

def entryOf (tables : CharTables) (platform : Platform)
    (found : String × Metadata) : String × String × String × ℕ :=
  (fileMetaOf tables platform found.1 found.2 0).entry

/-- What one turn of the loop does when it goes on. -/
theorem scanStep_cases
    {env : ScanEnv} {excludePatterns : List String} {limit : Option ℕ}
    {state next : ScanState} {item : WalkItem}
    (hstep : scanStep env excludePatterns limit state item = .ok next) :
    (admitEntry excludePatterns limit item = none ∧ next = state) ∨
      ∃ found, admitEntry excludePatterns limit item = some found ∧
        env.sampleEvery ≠ 0 ∧
        next = state.push env found
          (scanModifiedTs (env.clock state.scannedFiles).1
            (env.clock state.scannedFiles).2 found.2.modified,
          state.scannedFiles + 1) := by
  unfold scanStep at hstep
  cases hfound : admitEntry excludePatterns limit item with
  | none =>
      simp only [hfound, Except.ok.injEq] at hstep
      exact .inl ⟨rfl, hstep.symm⟩
  | some found =>
      simp only [hfound] at hstep
      split at hstep
      next => simp at hstep
      next hsample =>
        rw [Except.ok.injEq] at hstep
        exact .inr ⟨found, rfl, hsample, hstep.symm⟩

theorem scanStep_entries
    {env : ScanEnv} {excludePatterns : List String} {limit : Option ℕ}
    {state next : ScanState} {item : WalkItem}
    (hstep : scanStep env excludePatterns limit state item = .ok next) :
    next.results.map FileMeta.entry =
      state.results.map FileMeta.entry ++
        ((admitEntry excludePatterns limit item).map
          (entryOf env.tables env.platform)).toList := by
  rcases scanStep_cases hstep with
    ⟨hnone, rfl⟩ | ⟨found, hfound, _, rfl⟩
  · simp [hnone]
  · simp [hfound, ScanState.push, fileMetaOf, entryOf, FileMeta.entry]

theorem scanFold_entries
    {env : ScanEnv} {excludePatterns : List String} {limit : Option ℕ}
    {items : List WalkItem} {state final : ScanState}
    (hfold : items.foldlM (scanStep env excludePatterns limit) state =
      .ok final) :
    final.results.map FileMeta.entry =
      state.results.map FileMeta.entry ++
        (items.filterMap (admitEntry excludePatterns limit)).map
          (entryOf env.tables env.platform) := by
  induction items generalizing state with
  | nil =>
      rw [FallibleLoop.foldlM_nil_eq_ok hfold]
      simp
  | cons item items ih =>
      obtain ⟨next, hstep, hrest⟩ := FallibleLoop.foldlM_cons_eq_ok hfold
      rw [ih hrest, scanStep_entries hstep]
      cases hfound : admitEntry excludePatterns limit item with
      | none => simp [hfound]
      | some found => simp [hfound]

theorem scanFold_paths
    {env : ScanEnv} {excludePatterns : List String} {limit : Option ℕ}
    {items : List WalkItem} {state final : ScanState}
    (hfold : items.foldlM (scanStep env excludePatterns limit) state =
      .ok final) :
    final.results.map FileMeta.path =
      state.results.map FileMeta.path ++
        (items.filterMap (admitEntry excludePatterns limit)).map Prod.fst := by
  have hpaths := congrArg (List.map Prod.fst) (scanFold_entries hfold)
  rw [List.map_append, List.map_map, List.map_map, List.map_map] at hpaths
  exact hpaths

theorem scanFold_ok
    {env : ScanEnv} (hsample : env.sampleEvery ≠ 0)
    (excludePatterns : List String) (limit : Option ℕ)
    (items : List WalkItem) (state : ScanState) :
    ∃ final,
      items.foldlM (scanStep env excludePatterns limit) state = .ok final := by
  induction items generalizing state with
  | nil => exact ⟨state, rfl⟩
  | cons item items ih =>
      have hstep :
          ∃ next, scanStep env excludePatterns limit state item = .ok next := by
        unfold scanStep
        cases admitEntry excludePatterns limit item with
        | none => exact ⟨state, rfl⟩
        | some found =>
            simp only [if_neg hsample]
            exact ⟨_, rfl⟩
      obtain ⟨next, hnext⟩ := hstep
      obtain ⟨final, hfinal⟩ := ih next
      refine ⟨final, ?_⟩
      rw [List.foldlM_cons, hnext]
      exact hfinal

theorem scanFold_of_sampleEvery_zero
    {env : ScanEnv} (hzero : env.sampleEvery = 0)
    {excludePatterns : List String} {limit : Option ℕ}
    {items : List WalkItem} {state final : ScanState}
    (hfold : items.foldlM (scanStep env excludePatterns limit) state =
      .ok final) :
    final = state := by
  induction items generalizing state with
  | nil => exact FallibleLoop.foldlM_nil_eq_ok hfold
  | cons item items ih =>
      obtain ⟨next, hstep, hrest⟩ := FallibleLoop.foldlM_cons_eq_ok hfold
      rcases scanStep_cases hstep with ⟨_, rfl⟩ | ⟨_, _, hsample, _⟩
      · exact ih hrest
      · exact (hsample hzero).elim

theorem scanFold_of_scanPathsProgress
    {env : ScanEnv} {opts : ScanOptions} {disk : Disk} {limit : Option ℕ}
    {files : List FileMeta} {events : List ScanEvent}
    (hlimit : maxBytes env.overflowChecks opts.maxFileSizeMb = .ok limit)
    (hscan : scanPathsProgress env opts disk = .ok (files, events)) :
    ∃ final, (walkRoots env opts disk).foldlM
        (scanStep env opts.excludePatterns limit) ScanState.initial =
          .ok final ∧ files = final.results := by
  unfold scanPathsProgress at hscan
  simp only [hlimit, bind, Except.bind] at hscan
  cases hfold : (walkRoots env opts disk).foldlM
      (scanStep env opts.excludePatterns limit) ScanState.initial with
  | error fault => simp [hfold] at hscan
  | ok final =>
      simp only [hfold, pure, Except.pure, Except.ok.injEq,
        Prod.mk.injEq] at hscan
      exact ⟨final, rfl, hscan.1.symm⟩

theorem scanPathsProgress_entries
    {env : ScanEnv} {opts : ScanOptions} {disk : Disk} {limit : Option ℕ}
    {files : List FileMeta} {events : List ScanEvent}
    (hlimit : maxBytes env.overflowChecks opts.maxFileSizeMb = .ok limit)
    (hscan : scanPathsProgress env opts disk = .ok (files, events)) :
    files.map FileMeta.entry =
      ((walkRoots env opts disk).filterMap
        (admitEntry opts.excludePatterns limit)).map
          (entryOf env.tables env.platform) := by
  obtain ⟨final, hfold, rfl⟩ := scanFold_of_scanPathsProgress hlimit hscan
  rw [scanFold_entries hfold]
  rfl

/-- The paths a scan returns are those its roots contribute, root by root. -/
theorem scanPathsProgress_paths
    {env : ScanEnv} {opts : ScanOptions} {disk : Disk} {limit : Option ℕ}
    {files : List FileMeta} {events : List ScanEvent}
    (hlimit : maxBytes env.overflowChecks opts.maxFileSizeMb = .ok limit)
    (hscan : scanPathsProgress env opts disk = .ok (files, events)) :
    files.map FileMeta.path =
      opts.roots.flatMap (admittedPaths env opts limit disk) := by
  obtain ⟨final, hfold, rfl⟩ := scanFold_of_scanPathsProgress hlimit hscan
  have hroot :
      admittedPaths env opts limit disk = fun root =>
        ((env.walkDir.walk disk root opts.followSymlinks).filterMap
          (admitEntry opts.excludePatterns limit)).map Prod.fst := rfl
  rw [scanFold_paths hfold, hroot, walkRoots, List.filterMap_flatMap,
    List.map_flatMap]
  simp [ScanState.initial]

theorem scanPathsProgress_of_sampleEvery_zero
    {env : ScanEnv} {opts : ScanOptions} {disk : Disk} {limit : Option ℕ}
    {files : List FileMeta} {events : List ScanEvent}
    (hzero : env.sampleEvery = 0)
    (hlimit : maxBytes env.overflowChecks opts.maxFileSizeMb = .ok limit)
    (hscan : scanPathsProgress env opts disk = .ok (files, events)) :
    files = [] := by
  obtain ⟨final, hfold, rfl⟩ := scanFold_of_scanPathsProgress hlimit hscan
  rw [scanFold_of_sampleEvery_zero hzero hfold]
  rfl

theorem scanPathsProgress_ok
    {env : ScanEnv} {opts : ScanOptions} {limit : Option ℕ}
    (hsample : env.sampleEvery ≠ 0)
    (hlimit : maxBytes env.overflowChecks opts.maxFileSizeMb = .ok limit)
    (disk : Disk) :
    ∃ files events, scanPathsProgress env opts disk = .ok (files, events) := by
  obtain ⟨final, hfinal⟩ := scanFold_ok hsample opts.excludePatterns limit
    (walkRoots env opts disk) ScanState.initial
  refine ⟨final.results, final.events ++ [.done final.results.length], ?_⟩
  unfold scanPathsProgress
  simp only [hlimit, bind, Except.bind, hfinal]
  rfl

theorem exists_scanPathsProgress_of_scan
    {env : ScanEnv} {opts : ScanOptions} {disk : Disk}
    {files : List FileMeta} (hscan : scan env opts disk = .ok files) :
    ∃ limit events, maxBytes env.overflowChecks opts.maxFileSizeMb = .ok limit ∧
      scanPathsProgress env opts disk = .ok (files, events) := by
  rw [scan_eq_scanPathsProgress] at hscan
  cases hprogress : scanPathsProgress env opts disk with
  | error fault => simp [hprogress, Except.map] at hscan
  | ok answer =>
      simp only [hprogress, Except.map, Except.ok.injEq] at hscan
      cases hlimit : maxBytes env.overflowChecks opts.maxFileSizeMb with
      | error fault =>
          simp [scanPathsProgress, hlimit, bind, Except.bind] at hprogress
      | ok limit => exact ⟨limit, answer.2, rfl, by rw [← hscan]⟩

theorem scan_entries
    {env : ScanEnv} {opts : ScanOptions} {disk : Disk} {limit : Option ℕ}
    {files : List FileMeta}
    (hlimit : maxBytes env.overflowChecks opts.maxFileSizeMb = .ok limit)
    (hscan : scan env opts disk = .ok files) :
    files.map FileMeta.entry =
      ((walkRoots env opts disk).filterMap
        (admitEntry opts.excludePatterns limit)).map
          (entryOf env.tables env.platform) := by
  obtain ⟨_, events, _, hprogress⟩ := exists_scanPathsProgress_of_scan hscan
  exact scanPathsProgress_entries hlimit hprogress

end SearchEvery
