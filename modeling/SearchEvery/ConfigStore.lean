import SearchEvery.PipelineSystem
import Mathlib.Tactic

/-!
# The configuration file

`read_config`, `write_config` and `reset_config` on the one configuration file.
A missing file is created with the defaults by the first read, the writer
repairs one field before it stores a configuration, and the reader repairs six
after it has loaded one.  `normalize` says in one line per field what these
repairs amount to; the calls are compared with it over every sequence of
calls.
-/

namespace SearchEvery

/-- The configuration as it is stored: what the pipeline reads of it, and the
two fields for the user interface. -/
structure SavedConfig extends AppConfig where
  searchMode : String
  pathMaxLen : UInt32
  deriving DecidableEq

/-- What the defaults depend on: the home directory, as text, and the paths
which exist. -/
structure HostEnv where
  tables : CharTables
  platform : Platform
  homeDir : Option String
  pathExists : String → Bool

/-! ## Defaults -/

def defaultSearchMode : String := "inverted"

def driveLetters : List Char := "ABCDEFGHIJKLMNOPQRSTUVWXYZ".toList

def driveRoot (letter : Char) : String := String.ofList [letter, ':', '/']

def HostEnv.defaultScanRoots (env : HostEnv) : List String :=
  match env.platform with
  | .windows =>
      let drives := (driveLetters.map driveRoot).filter env.pathExists
      if drives.isEmpty then ["C:/"] else drives
  | .unix => [env.homeDir.getD "~/"]

def defaultExcludePatterns : List String :=
  ["\\Windows", "\\Program Files", "\\Program Files (x86)", "\\AppData",
    "\\ProgramData", "\\Temp", "\\$Recycle.Bin",
    "\\System Volume Information", "\\node_modules"]

def HostEnv.defaultIndexDir (env : HostEnv) : String :=
  env.platform.join
    (env.platform.join (env.homeDir.getD "./") ".searchevery") "indexs"

def defaultPathMaxLen : UInt32 := 80

def defaultAutoScanEnabled : Bool := true

def HostEnv.defaultConfig (env : HostEnv) : SavedConfig where
  searchMode := defaultSearchMode
  scanRoots := env.defaultScanRoots
  excludePatterns := defaultExcludePatterns
  indexDir := env.defaultIndexDir
  pathMaxLen := defaultPathMaxLen
  autoScanEnabled := defaultAutoScanEnabled

/-! ## The three calls -/

def HostEnv.inSrcTauri (env : HostEnv) (dir : String) : Bool :=
  strContains (env.tables.strToLowercase dir) "src-tauri"

def fillSearchMode (cfg : SavedConfig) : SavedConfig :=
  if isBlank cfg.searchMode then
    { cfg with searchMode := defaultSearchMode } else cfg

def HostEnv.fillScanRoots (env : HostEnv) (cfg : SavedConfig) : SavedConfig :=
  if cfg.scanRoots.isEmpty then
    { cfg with scanRoots := env.defaultScanRoots } else cfg

def fillExcludePatterns (cfg : SavedConfig) : SavedConfig :=
  if cfg.excludePatterns.isEmpty then
    { cfg with excludePatterns := defaultExcludePatterns } else cfg

def HostEnv.fillIndexDir (env : HostEnv) (cfg : SavedConfig) : SavedConfig :=
  if isBlank cfg.indexDir then
    { cfg with indexDir := env.defaultIndexDir } else cfg

def fillPathMaxLen (cfg : SavedConfig) : SavedConfig :=
  if cfg.pathMaxLen = 0 then
    { cfg with pathMaxLen := defaultPathMaxLen } else cfg

/-- The redirection out of `src-tauri`, which both the reader and the writer
apply. -/
def HostEnv.redirect (env : HostEnv) (cfg : SavedConfig) : SavedConfig :=
  if env.inSrcTauri cfg.indexDir then
    { cfg with indexDir := env.defaultIndexDir } else cfg

/-- What `read_config` does to a configuration it has loaded. -/
def HostEnv.repair (env : HostEnv) (loaded : SavedConfig) : SavedConfig :=
  let cfg := fillSearchMode loaded
  let cfg := env.fillScanRoots cfg
  let cfg := fillExcludePatterns cfg
  let cfg := env.fillIndexDir cfg
  let cfg := fillPathMaxLen cfg
  env.redirect cfg

/-- The configuration file.  A stored configuration is what the JSON parser
makes of the text, missing fields filled in with their defaults. -/
inductive ConfigFile
  | missing
  | malformed
  | stored (cfg : SavedConfig)
  deriving DecidableEq

inductive ConfigAnswer
  | config (cfg : SavedConfig)
  | written
  | failed
  deriving DecidableEq

def writeConfig (env : HostEnv) (cfg : SavedConfig) :
    ConfigAnswer × ConfigFile :=
  (.written, .stored (env.redirect cfg))

def readConfig (env : HostEnv) (file : ConfigFile) :
    ConfigAnswer × ConfigFile :=
  match file with
  | .missing => (.config env.defaultConfig, (writeConfig env env.defaultConfig).2)
  | .malformed => (.failed, .malformed)
  | .stored cfg => (.config (env.repair cfg), .stored cfg)

def resetConfig (env : HostEnv) (file : ConfigFile) :
    ConfigAnswer × ConfigFile :=
  if file = .missing then readConfig env file else readConfig env .missing

inductive ConfigCall
  | read
  | write (cfg : SavedConfig)
  | reset
  deriving DecidableEq

def configCall (env : HostEnv) (file : ConfigFile) :
    ConfigCall → ConfigAnswer × ConfigFile
  | .read => readConfig env file
  | .write cfg => writeConfig env cfg
  | .reset => resetConfig env file

def fileAfter (env : HostEnv) (file : ConfigFile)
    (calls : List ConfigCall) : ConfigFile :=
  calls.foldl (fun file call => (configCall env file call).2) file

def configAnswers (env : HostEnv) : ConfigFile → List ConfigCall →
    List ConfigAnswer
  | _, [] => []
  | file, call :: rest =>
      (configCall env file call).1 ::
        configAnswers env (configCall env file call).2 rest

/-! ## What the repairs amount to -/

/-- Every field which is missing or unusable is replaced by its default. -/
def HostEnv.normalize (env : HostEnv) (cfg : SavedConfig) : SavedConfig where
  searchMode := if isBlank cfg.searchMode then defaultSearchMode
    else cfg.searchMode
  scanRoots := if cfg.scanRoots = [] then env.defaultScanRoots
    else cfg.scanRoots
  excludePatterns := if cfg.excludePatterns = [] then defaultExcludePatterns
    else cfg.excludePatterns
  indexDir := if isBlank cfg.indexDir || env.inSrcTauri cfg.indexDir then
    env.defaultIndexDir else cfg.indexDir
  pathMaxLen := if cfg.pathMaxLen = 0 then defaultPathMaxLen
    else cfg.pathMaxLen
  autoScanEnabled := cfg.autoScanEnabled

/-- The six conditions the repairs establish. -/
structure HostEnv.Usable (env : HostEnv) (cfg : SavedConfig) : Prop where
  searchMode : isBlank cfg.searchMode = false
  indexDir : isBlank cfg.indexDir = false
  scanRoots : cfg.scanRoots ≠ []
  excludePatterns : cfg.excludePatterns ≠ []
  pathMaxLen : cfg.pathMaxLen ≠ 0
  outside : env.inSrcTauri env.defaultIndexDir = false →
    env.inSrcTauri cfg.indexDir = false

variable (env : HostEnv)

theorem fillSearchMode_eq
    (cfg : SavedConfig) :
    fillSearchMode cfg = { cfg with
      searchMode := if isBlank cfg.searchMode then defaultSearchMode
        else cfg.searchMode } := by
  unfold fillSearchMode
  split <;> rfl

theorem HostEnv.fillScanRoots_eq
    (cfg : SavedConfig) :
    env.fillScanRoots cfg = { cfg with
      scanRoots := if cfg.scanRoots = [] then env.defaultScanRoots
        else cfg.scanRoots } := by
  unfold HostEnv.fillScanRoots
  simp only [List.isEmpty_iff]
  split <;> rfl

theorem fillExcludePatterns_eq
    (cfg : SavedConfig) :
    fillExcludePatterns cfg = { cfg with
      excludePatterns := if cfg.excludePatterns = [] then
        defaultExcludePatterns else cfg.excludePatterns } := by
  unfold fillExcludePatterns
  simp only [List.isEmpty_iff]
  split <;> rfl

theorem HostEnv.fillIndexDir_eq
    (cfg : SavedConfig) :
    env.fillIndexDir cfg = { cfg with
      indexDir := if isBlank cfg.indexDir then env.defaultIndexDir
        else cfg.indexDir } := by
  unfold HostEnv.fillIndexDir
  split <;> rfl

theorem fillPathMaxLen_eq
    (cfg : SavedConfig) :
    fillPathMaxLen cfg = { cfg with
      pathMaxLen := if cfg.pathMaxLen = 0 then defaultPathMaxLen
        else cfg.pathMaxLen } := by
  unfold fillPathMaxLen
  split <;> rfl

theorem HostEnv.redirect_eq
    (cfg : SavedConfig) :
    env.redirect cfg = { cfg with
      indexDir := if env.inSrcTauri cfg.indexDir then env.defaultIndexDir
        else cfg.indexDir } := by
  unfold HostEnv.redirect
  split <;> rfl

theorem HostEnv.repair_eq_normalize
    (cfg : SavedConfig) : env.repair cfg = env.normalize cfg := by
  unfold HostEnv.repair HostEnv.normalize
  dsimp only
  rw [fillSearchMode_eq, env.fillScanRoots_eq, fillExcludePatterns_eq,
    env.fillIndexDir_eq, fillPathMaxLen_eq, env.redirect_eq]
  by_cases hblank : isBlank cfg.indexDir <;> simp [hblank]

/-- The writer's redirection is lost in the reader's repairs. -/
theorem HostEnv.repair_redirect
    (cfg : SavedConfig) :
    env.repair (env.redirect cfg) = env.normalize cfg := by
  rw [env.repair_eq_normalize, env.redirect_eq]
  unfold HostEnv.normalize
  by_cases htauri : env.inSrcTauri cfg.indexDir
  · simp [htauri]
  · simp [htauri]

/-! ## Defaults are usable -/

theorem isBlank_eq_false_of_mem
    {text : String} {c : Char} (hmem : c ∈ text.toList)
    (hc : isWhitespace c = false) : isBlank text = false := by
  by_contra hblank
  rw [Bool.not_eq_false, isBlank_iff] at hblank
  rw [hblank c hmem] at hc
  contradiction

theorem HostEnv.defaultIndexDir_not_blank :
    isBlank env.defaultIndexDir = false := by
  have hmem : 'x' ∈ env.defaultIndexDir.toList := by
    unfold HostEnv.defaultIndexDir
    rw [Platform.join]
    split <;> simp
  exact isBlank_eq_false_of_mem hmem (by decide)

theorem HostEnv.defaultScanRoots_ne_nil : env.defaultScanRoots ≠ [] := by
  unfold HostEnv.defaultScanRoots
  split
  next =>
    dsimp only
    split
    next => simp
    next hdrives => simpa using hdrives
  next => simp

theorem HostEnv.normalize_usable
    (cfg : SavedConfig) : env.Usable (env.normalize cfg) where
  searchMode := by
    simp only [HostEnv.normalize]
    split
    next => decide
    next hmode => simpa using hmode
  indexDir := by
    simp only [HostEnv.normalize]
    split
    next => exact env.defaultIndexDir_not_blank
    next hdir => simp_all
  scanRoots := by
    simp only [HostEnv.normalize]
    split
    next => exact env.defaultScanRoots_ne_nil
    next hroots => exact hroots
  excludePatterns := by
    simp only [HostEnv.normalize]
    split
    next => simp [defaultExcludePatterns]
    next hpatterns => exact hpatterns
  pathMaxLen := by
    simp only [HostEnv.normalize]
    split
    next => decide
    next hlen => exact hlen
  outside hdefault := by
    simp only [HostEnv.normalize]
    split
    next => exact hdefault
    next hdir => simp_all

theorem HostEnv.normalize_normalize
    (cfg : SavedConfig) :
    env.normalize (env.normalize cfg) = env.normalize cfg := by
  have husable := env.normalize_usable cfg
  have hdir :
      (if env.inSrcTauri (env.normalize cfg).indexDir then
          env.defaultIndexDir else (env.normalize cfg).indexDir) =
        (env.normalize cfg).indexDir := by
    by_cases hkeep : isBlank cfg.indexDir || env.inSrcTauri cfg.indexDir
    · simp [HostEnv.normalize, hkeep]
    · simp_all [HostEnv.normalize]
  rw [HostEnv.normalize.eq_def env (env.normalize cfg)]
  simp only [husable.searchMode, husable.indexDir, husable.scanRoots,
    husable.excludePatterns, husable.pathMaxLen, Bool.false_or, if_false,
    Bool.false_eq_true, hdir]

theorem HostEnv.exists_normalize_eq_defaultConfig :
    ∃ cfg, env.normalize cfg = env.defaultConfig := by
  refine ⟨⟨⟨[], [], "", true⟩, "", 0⟩, ?_⟩
  have hempty : isBlank "" = true := by decide
  simp [HostEnv.normalize, HostEnv.defaultConfig, hempty,
    defaultAutoScanEnabled]

theorem HostEnv.normalize_defaultConfig :
    env.normalize env.defaultConfig = env.defaultConfig := by
  obtain ⟨cfg, hcfg⟩ := env.exists_normalize_eq_defaultConfig
  rw [← hcfg, env.normalize_normalize]

/-! ## Sequences of calls -/

theorem configCall_config
    {file : ConfigFile} {call : ConfigCall} {cfg : SavedConfig}
    (hanswer : (configCall env file call).1 = .config cfg) :
    ∃ loaded, env.normalize loaded = cfg := by
  have hread (file : ConfigFile)
      (hconfig : (readConfig env file).1 = .config cfg) :
      ∃ loaded, env.normalize loaded = cfg := by
    cases file with
    | missing =>
        simp only [readConfig, ConfigAnswer.config.injEq] at hconfig
        exact hconfig ▸ env.exists_normalize_eq_defaultConfig
    | malformed => simp [readConfig] at hconfig
    | stored loaded =>
        simp only [readConfig, ConfigAnswer.config.injEq] at hconfig
        exact ⟨loaded, env.repair_eq_normalize loaded ▸ hconfig⟩
  cases call with
  | read => exact hread file hanswer
  | write written => simp [configCall, writeConfig] at hanswer
  | reset =>
      simp only [configCall, resetConfig] at hanswer
      split at hanswer
      next => exact hread file hanswer
      next => exact hread .missing hanswer

theorem config_of_mem_configAnswers
    {file : ConfigFile} {calls : List ConfigCall} {cfg : SavedConfig}
    (hmem : .config cfg ∈ configAnswers env file calls) :
    ∃ loaded, env.normalize loaded = cfg := by
  induction calls generalizing file with
  | nil => simp [configAnswers] at hmem
  | cons call rest ih =>
      rw [configAnswers, List.mem_cons] at hmem
      rcases hmem with hfirst | hrest
      · exact configCall_config env hfirst.symm
      · exact ih hrest

theorem fileAfter_append_cons
    (file : ConfigFile) (before : List ConfigCall) (call : ConfigCall)
    (after : List ConfigCall) :
    fileAfter env file (before ++ call :: after) =
      fileAfter env (configCall env (fileAfter env file before) call).2
        after := by
  simp [fileAfter]

theorem fileAfter_eq_of_forall
    {file : ConfigFile} {calls : List ConfigCall}
    (hkeep : ∀ call ∈ calls, (configCall env file call).2 = file) :
    fileAfter env file calls = file := by
  induction calls with
  | nil => rfl
  | cons call rest ih =>
      rw [List.forall_mem_cons] at hkeep
      rw [fileAfter, List.foldl_cons, hkeep.1]
      exact ih hkeep.2

theorem read_after_write
    (file : ConfigFile) (before : List ConfigCall) (cfg : SavedConfig)
    {after : List ConfigCall} (hafter : ∀ call ∈ after, call = .read) :
    (readConfig env
      (fileAfter env file (before ++ .write cfg :: after))).1 =
      .config (env.normalize cfg) := by
  have hfile :
      fileAfter env file (before ++ .write cfg :: after) =
        .stored (env.redirect cfg) := by
    rw [fileAfter_append_cons]
    apply fileAfter_eq_of_forall
    intro call hcall
    rw [hafter call hcall]
    rfl
  rw [hfile, readConfig, env.repair_redirect]

theorem resetConfig_eq
    (file : ConfigFile) :
    resetConfig env file = readConfig env .missing := by
  unfold resetConfig
  split
  next hmissing => rw [hmissing]
  next => rfl

theorem answer_after_reset
    (file : ConfigFile) (before : List ConfigCall)
    {after : List ConfigCall}
    (hafter : ∀ call ∈ after, call = .read ∨ call = .reset)
    {call : ConfigCall} (hcall : call = .read ∨ call = .reset) :
    (configCall env
      (fileAfter env file (before ++ .reset :: after)) call).1 =
      .config (env.normalize env.defaultConfig) := by
  have hreset (file : ConfigFile) :
      (configCall env file .reset).2 =
        .stored (env.redirect env.defaultConfig) := by
    rw [configCall, resetConfig_eq]
    rfl
  have hfile :
      fileAfter env file (before ++ .reset :: after) =
        .stored (env.redirect env.defaultConfig) := by
    rw [fileAfter_append_cons, hreset]
    apply fileAfter_eq_of_forall
    intro later hlater
    rcases hafter later hlater with rfl | rfl
    · rfl
    · exact hreset _
  rw [hfile]
  rcases hcall with rfl | rfl
  · rw [configCall, readConfig, env.repair_redirect]
  · rw [configCall, resetConfig_eq, env.normalize_defaultConfig]
    rfl

/-- The laws of the configuration file, over every sequence of calls from
every file: a read after a write gives the normalized configuration, writing
back what was read changes nothing, every answered configuration is usable,
and after a reset the defaults are answered until the next write. -/
theorem configStore_laws
    (file : ConfigFile) (before : List ConfigCall) :
    (∀ cfg after, (∀ call ∈ after, call = ConfigCall.read) →
      (readConfig env
        (fileAfter env file (before ++ .write cfg :: after))).1 =
        .config (env.normalize cfg)) ∧
    ((∀ cfg, env.normalize (env.normalize cfg) = env.normalize cfg) ∧
      ∀ cfg after, .config cfg ∈ configAnswers env file before →
        (∀ call ∈ after, call = ConfigCall.read) →
        (readConfig env
          (fileAfter env file (before ++ .write cfg :: after))).1 =
          .config cfg) ∧
    (∀ cfg, .config cfg ∈ configAnswers env file before → env.Usable cfg) ∧
    (∀ after call,
      (∀ call ∈ after, call = ConfigCall.read ∨ call = ConfigCall.reset) →
      (call = ConfigCall.read ∨ call = ConfigCall.reset) →
      (configCall env
        (fileAfter env file (before ++ .reset :: after)) call).1 =
        .config (env.normalize env.defaultConfig)) := by
  refine ⟨?_, ⟨env.normalize_normalize, ?_⟩, ?_, ?_⟩
  · intro cfg after hafter
    exact read_after_write env file before cfg hafter
  · intro cfg after hanswered hafter
    obtain ⟨loaded, rfl⟩ := config_of_mem_configAnswers env hanswered
    rw [read_after_write env file before _ hafter, env.normalize_normalize]
  · intro cfg hanswered
    obtain ⟨loaded, rfl⟩ := config_of_mem_configAnswers env hanswered
    exact env.normalize_usable loaded
  · intro after call hafter hcall
    exact answer_after_reset env file before hafter hcall

def sampleHost : HostEnv :=
  ⟨asciiTables, .unix, some "/home/u", fun _ => true⟩

example :
    sampleHost.defaultIndexDir = "/home/u/.searchevery/indexs" ∧
      sampleHost.normalize ⟨⟨["/d"], ["/tmp"], "/w/SRC-tauri/x", false⟩,
        "\u3000", 0⟩ =
        ⟨⟨["/d"], ["/tmp"], "/home/u/.searchevery/indexs", false⟩,
          "inverted", 80⟩ := by decide

end SearchEvery
