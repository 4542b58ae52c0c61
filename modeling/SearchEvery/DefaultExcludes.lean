import SearchEvery.ConfigStore
import Mathlib.Tactic

/-!
# What the default exclusions exclude

On Windows the default roots are spelled `X:/` and the default patterns start
with a backslash.  The walk joins an entry's name to the path of its directory
and adds no separator after the slash of the root, so no backslash stands
before a name directly under a root.  A file below a system directory is
therefore excluded only through a further name below it.
-/

namespace SearchEvery

/-- The path of an entry: the root extended by one name at a time. -/
def walkedPath (platform : Platform) (root : String) (names : List String) :
    String :=
  names.foldl platform.join root

def ExcludedByDefault (path : String) : Prop :=
  ∃ pattern ∈ defaultExcludePatterns, strContains path pattern = true

instance (path : String) : Decidable (ExcludedByDefault path) :=
  inferInstanceAs (Decidable (∃ pattern ∈ defaultExcludePatterns,
    strContains path pattern = true))

/-- A path which contains a default pattern, which no scan with the default
patterns returns, and which no pipeline run with them submits or adds to the
index. -/
structure Protected (path : String) : Prop where
  excluded : ExcludedByDefault path
  not_scanned :
    ∀ (env : ScanEnv) (opts : ScanOptions) (disk : Disk)
      (files : List FileMeta),
      opts.excludePatterns = defaultExcludePatterns →
        scan env opts disk = .ok files → ∀ file ∈ files, file.path ≠ path
  not_indexed :
    ∀ (env : PipelineEnv) (args : RunArgs) (items : List WalkItem)
      (docs : List Doc) (locked : Bool) (stateFile : StateFile)
      (actions : List RunAction) (final : RunState),
      args.excludePatterns = defaultExcludePatterns →
        ActionSystem.exec (runStep env args items)
          (RunState.start docs locked stateFile) actions = some final →
        (∀ worker ∈ final.workers, worker.file.path ≠ path) ∧
          ∀ doc ∈ final.docs, doc.path = path → doc ∈ docs

/-! ## Excluded paths are protected -/

theorem ExcludedByDefault.ne_of_admitEntry
    {path : String} (hexcluded : ExcludedByDefault path)
    {limit : Option ℕ} {item : WalkItem} {found : String × Metadata}
    (hfound : admitEntry defaultExcludePatterns limit item = some found) :
    found.1 ≠ path := by
  obtain ⟨pattern, hmem, hcontains⟩ := hexcluded
  intro heq
  have hclean := not_excluded_of_admitEntry hfound pattern hmem
  rw [heq, hcontains] at hclean
  contradiction

theorem ExcludedByDefault.not_scanned
    {path : String} (hexcluded : ExcludedByDefault path)
    {env : ScanEnv} {opts : ScanOptions} {disk : Disk}
    {files : List FileMeta}
    (hpatterns : opts.excludePatterns = defaultExcludePatterns)
    (hscan : scan env opts disk = .ok files) :
    ∀ file ∈ files, file.path ≠ path := by
  obtain ⟨limit, _, hlimit, _⟩ := exists_scanPathsProgress_of_scan hscan
  intro file hfile
  have hentry := List.mem_map_of_mem (f := FileMeta.entry) hfile
  rw [scan_entries hlimit hscan, hpatterns] at hentry
  obtain ⟨found, hfound, heq⟩ := List.mem_map.mp hentry
  obtain ⟨item, _, hadmit⟩ := List.mem_filterMap.mp hfound
  have hpath : found.1 = file.path := congrArg Prod.fst heq
  exact hpath ▸ hexcluded.ne_of_admitEntry hadmit

theorem ExcludedByDefault.not_submitted
    {path : String} (hexcluded : ExcludedByDefault path)
    {env : PipelineEnv} {args : RunArgs} {items : List WalkItem}
    (hpatterns : args.excludePatterns = defaultExcludePatterns)
    {file : FileMeta} (hfile : file ∈ items.filterMap (pipelineFile env args)) :
    file.path ≠ path := by
  obtain ⟨item, _, hitem⟩ := List.mem_filterMap.mp hfile
  obtain ⟨found, hfound, rfl⟩ := Option.map_eq_some_iff.mp hitem
  rw [hpatterns] at hfound
  exact hexcluded.ne_of_admitEntry hfound

theorem protected_iff
    (path : String) : Protected path ↔ ExcludedByDefault path := by
  refine ⟨Protected.excluded, ?_⟩
  intro hexcluded
  refine ⟨hexcluded, ?_, ?_⟩
  · intro env opts disk files hpatterns hscan
    exact hexcluded.not_scanned hpatterns hscan
  · intro env args items docs locked stateFile actions final hpatterns hexec
    have hgood := (RunState.start_coherent env args items docs locked
      stateFile).exec hexec
    have hsourced := RunState.Sourced.of_exec hexec
    constructor
    · intro worker hworker
      exact hexcluded.not_submitted hpatterns (hgood.file_mem hworker)
    · intro doc hdoc hpath
      rcases hsourced.docs doc hdoc with hold | ⟨file, hfile, heq⟩
      · exact hold
      · exact (hexcluded.not_submitted hpatterns hfile
          (heq.symm.trans hpath)).elim

/-! ## The walked path -/

/-- A file or directory name of Windows. -/
structure IsName (name : String) : Prop where
  ne_nil : name.toList ≠ []
  no_separator : ∀ c ∈ name.toList, Platform.windows.isSeparator c = false

theorem join_drive_root
    {letter : Char} (hletter : letter.isAlpha = true) (name : String) :
    (Platform.windows.join (driveRoot letter) name).toList =
      letter :: ':' :: '/' :: name.toList := by
  have hroot : (driveRoot letter).toList = [letter, ':', '/'] := by
    simp [driveRoot]
  simp [Platform.join, Platform.withoutDrive, hroot, hletter,
    Platform.isSeparator]

theorem join_below_drive
    {letter : Char} (hletter : letter.isAlpha = true) {base : String}
    {rest : List Char} {last : Char}
    (hbase : base.toList = letter :: ':' :: (rest ++ [last]))
    (hlast : Platform.windows.isSeparator last = false) (name : String) :
    (Platform.windows.join base name).toList =
      base.toList ++ '\\' :: name.toList := by
  simp [Platform.join, Platform.withoutDrive, hbase, hletter, hlast,
    Platform.mainSeparator]

theorem IsName.last
    {name : String} (hname : IsName name) :
    ∃ front last, name.toList = front ++ [last] ∧
      Platform.windows.isSeparator last = false := by
  obtain ⟨front, last, hsplit⟩ :=
    List.eq_nil_or_concat'  name.toList |>.resolve_left hname.ne_nil
  exact ⟨front, last, hsplit, hname.no_separator last (by simp [hsplit])⟩

theorem foldl_join_below_drive
    {letter : Char} (hletter : letter.isAlpha = true)
    {names : List String} (hnames : ∀ name ∈ names, IsName name)
    {base : String} {rest : List Char} {last : Char}
    (hbase : base.toList = letter :: ':' :: (rest ++ [last]))
    (hlast : Platform.windows.isSeparator last = false) :
    (names.foldl Platform.windows.join base).toList =
      base.toList ++ (names.map String.toList).flatMap ('\\' :: ·) := by
  induction names generalizing base rest last with
  | nil => simp
  | cons name names ih =>
      rw [List.forall_mem_cons] at hnames
      have hjoin := join_below_drive hletter hbase hlast name
      obtain ⟨front, next, hsplit, hnext⟩ := hnames.1.last
      have hshape :
          (Platform.windows.join base name).toList =
            letter :: ':' :: ((rest ++ last :: '\\' :: front) ++ [next]) := by
        simp [hjoin, hbase, hsplit]
      rw [List.foldl_cons, ih hnames.2 hshape hnext, hjoin]
      simp

/-- The walked path of a file under a directory of a drive root. -/
theorem walkedPath_drive
    {letter : Char} (hletter : letter.isAlpha = true) {dir : String}
    (hdir : IsName dir) {names : List String}
    (hnames : ∀ name ∈ names, IsName name) :
    (walkedPath .windows (driveRoot letter) (dir :: names)).toList =
      (letter :: ':' :: '/' :: dir.toList) ++
        (names.map String.toList).flatMap ('\\' :: ·) := by
  have hroot := join_drive_root hletter dir
  obtain ⟨front, last, hsplit, hlast⟩ := hdir.last
  have hshape :
      (Platform.windows.join (driveRoot letter) dir).toList =
        letter :: ':' :: (('/' :: front) ++ [last]) := by
    simp [hroot, hsplit]
  rw [walkedPath, List.foldl_cons,
    foldl_join_below_drive hletter hnames hshape hlast, hroot]

/-! ## The default roots and patterns -/

theorem drive_of_mem_defaultScanRoots
    {env : HostEnv} (hwindows : env.platform = .windows) {root : String}
    (hroot : root ∈ env.defaultScanRoots) :
    ∃ letter, letter.isAlpha = true ∧ root = driveRoot letter := by
  have hletters : driveLetters.all Char.isAlpha = true := by decide
  unfold HostEnv.defaultScanRoots at hroot
  simp only [hwindows] at hroot
  split at hroot
  next =>
    rw [List.mem_singleton] at hroot
    exact ⟨'C', by decide, hroot⟩
  next =>
    obtain ⟨hdrive, _⟩ := List.mem_filter.mp hroot
    obtain ⟨letter, hmem, rfl⟩ := List.mem_map.mp hdrive
    exact ⟨letter, List.all_eq_true.mp hletters letter hmem, rfl⟩

theorem defaultExcludePatterns_shape :
    ∀ pattern ∈ defaultExcludePatterns,
      pattern.toList.head? = some '\\' ∧ pattern.toList.tail ≠ [] ∧
        pattern.toList.tail.all
          (fun c => !Platform.windows.isSeparator c) = true := by
  decide

theorem isName_of_default
    {name : String} (hpattern : "\\" ++ name ∈ defaultExcludePatterns) :
    IsName name := by
  obtain ⟨_, hne, hall⟩ := defaultExcludePatterns_shape _ hpattern
  simp only [String.toList_append] at hne hall
  refine ⟨by simpa using hne, ?_⟩
  intro c hc
  simpa using List.all_eq_true.mp hall c (by simpa using hc)

theorem exists_name_of_default
    {pattern : String} (hpattern : pattern ∈ defaultExcludePatterns) :
    ∃ name, pattern = "\\" ++ name := by
  obtain ⟨hhead, _, _⟩ := defaultExcludePatterns_shape _ hpattern
  refine ⟨String.ofList pattern.toList.tail, ?_⟩
  apply String.toList_injective
  simpa using (List.cons_head?_tail hhead).symm

theorem IsName.not_mem
    {name : String} (hname : IsName name) : '\\' ∉ name.toList := by
  intro hmem
  have hclean := hname.no_separator _ hmem
  simp [Platform.isSeparator] at hclean

theorem excludedByDefault_iff
    {path : String} {base : List Char} {names : List String}
    (hbase : '\\' ∉ base) (hnames : ∀ name ∈ names, IsName name)
    (hpath : path.toList =
      base ++ (names.map String.toList).flatMap ('\\' :: ·)) :
    ExcludedByDefault path ↔
      ∃ name ∈ names, ∃ word, "\\" ++ word ∈ defaultExcludePatterns ∧
        word.toList <+: name.toList := by
  have hclean : ∀ name ∈ names.map String.toList, '\\' ∉ name := by
    intro text hmem
    obtain ⟨name, hname, rfl⟩ := List.mem_map.mp hmem
    exact (hnames name hname).not_mem
  have hcontains {word : String} (hword : IsName word) :
      strContains path ("\\" ++ word) = true ↔
        ∃ name ∈ names, word.toList <+: name.toList := by
    have hoccurs := Delimited.cons_infix_path_iff hword.not_mem hbase hclean
    rw [← hpath] at hoccurs
    simpa [strContains] using hoccurs
  constructor
  · rintro ⟨pattern, hpattern, hfound⟩
    obtain ⟨word, rfl⟩ := exists_name_of_default hpattern
    obtain ⟨name, hname, hstarts⟩ :=
      (hcontains (isName_of_default hpattern)).mp hfound
    exact ⟨name, hname, word, hpattern, hstarts⟩
  · rintro ⟨name, hname, word, hpattern, hstarts⟩
    exact ⟨"\\" ++ word, hpattern,
      (hcontains (isName_of_default hpattern)).mpr ⟨name, hname, hstarts⟩⟩

/-- A file below a system directory of a default root is protected exactly
when a name below that directory starts with the name of a default pattern. -/
theorem systemFile_protected_iff
    {env : HostEnv} (hwindows : env.platform = .windows) {root dir : String}
    (hroot : root ∈ env.defaultScanRoots)
    (hdir : "\\" ++ dir ∈ defaultExcludePatterns) {names : List String}
    (hnames : ∀ name ∈ names, IsName name) :
    Protected (walkedPath .windows root (dir :: names)) ↔
      ∃ name ∈ names, ∃ word, "\\" ++ word ∈ defaultExcludePatterns ∧
        word.toList <+: name.toList := by
  obtain ⟨letter, hletter, rfl⟩ := drive_of_mem_defaultScanRoots hwindows hroot
  have hname := isName_of_default hdir
  have hbase : '\\' ∉ letter :: ':' :: '/' :: dir.toList := by
    have hne : '\\' ≠ letter := by
      rintro rfl
      exact absurd hletter (by decide)
    simp [hne, hname.not_mem]
  rw [protected_iff]
  exact excludedByDefault_iff hbase hnames
    (walkedPath_drive hletter hname hnames)

def windowsHost : HostEnv :=
  ⟨asciiTables, .windows, some "C:\\Users\\u", fun path => path == "C:/"⟩

theorem isName_iff
    (name : String) :
    IsName name ↔ name.toList ≠ [] ∧
      name.toList.all (fun c => !Platform.windows.isSeparator c) = true := by
  rw [List.all_eq_true]
  simp only [Bool.not_eq_true']
  exact ⟨fun hname => ⟨hname.1, hname.2⟩, fun hname => ⟨hname.1, hname.2⟩⟩

instance (name : String) : Decidable (IsName name) :=
  decidable_of_iff _ (isName_iff name).symm

theorem systemFile_protected_below_temp :
    Protected (walkedPath .windows "C:/" ["Windows", "Temp", "a.log"]) :=
  (@systemFile_protected_iff windowsHost rfl "C:/" "Windows" (by decide)
    (by decide) ["Temp", "a.log"] (by decide)).mpr
    ⟨"Temp", by decide, "Temp", by decide, by decide⟩

def explorerWalk : WalkDir :=
  oneEntryWalkDir
    (fun root => walkedPath .windows root ["Windows", "explorer.exe"])
    (fun _ => true) ⟨1, none⟩

def explorerScan : ScanEnv :=
  ⟨asciiTables, .windows, explorerWalk, true, none, fun _ => (0, 0)⟩

/-- A file directly in `C:/Windows`: no default pattern occurs in its path, a
scan with the default roots and patterns returns it and the pipeline admits
it. -/
theorem systemFile_scanned :
    "C:/" ∈ windowsHost.defaultScanRoots ∧
    "\\" ++ "Windows" ∈ defaultExcludePatterns ∧ IsName "explorer.exe" ∧
    ¬ Protected (walkedPath .windows "C:/" ["Windows", "explorer.exe"]) ∧
    (scan explorerScan
      ⟨windowsHost.defaultScanRoots, defaultExcludePatterns, some 500, false⟩
      (fun _ => .file ⟨[0], true, true⟩)).map (List.map FileMeta.path) =
        .ok ["C:/Windows\\explorer.exe"] ∧
    ((explorerWalk.walk (fun _ => .file ⟨[0], true, true⟩) "C:/" false).filterMap
      (pipelineFile ⟨asciiTables, .windows, 15000000⟩
        windowsHost.defaultConfig.runArgs)).map FileMeta.path =
        ["C:/Windows\\explorer.exe"] := by
  refine ⟨by decide, by decide, by decide, ?_, by decide, by decide⟩
  rw [protected_iff]
  decide

end SearchEvery
