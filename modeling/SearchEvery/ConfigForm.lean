import SearchEvery.ConfigStore
import SearchEvery.DupPage
import Mathlib.Tactic

/-!
# The configuration in the text boxes

The page loads a configuration into five form fields and saves the form as a
new configuration.  A list of texts is shown joined by a comma and a blank, and
is read back by `parseCSV`; the search mode has no field at all.  The file
says which configurations survive a load followed by a save.
-/

namespace SearchEvery

/-- The fields of the page which a saved configuration is made of. -/
structure ConfigForm where
  indexDir : String
  roots : String
  exclude : String
  pathMaxLen : UInt32
  autoScanEnabled : Bool
  deriving DecidableEq

/-- The mount effect, once `read_config` has answered. -/
def loadForm (cfg : SavedConfig) : ConfigForm where
  indexDir := if cfg.indexDir = "" then "indexes/main" else cfg.indexDir
  roots := ", ".intercalate cfg.scanRoots
  exclude := ", ".intercalate cfg.excludePatterns
  pathMaxLen := cfg.pathMaxLen
  autoScanEnabled := cfg.autoScanEnabled

/-- The configuration `doSaveConfig` sends to `write_config`. -/
def ConfigForm.toSave (form : ConfigForm) : SavedConfig where
  searchMode := "inverted"
  scanRoots := parseCSV form.roots
  excludePatterns := parseCSV form.exclude
  indexDir := form.indexDir
  pathMaxLen := form.pathMaxLen
  autoScanEnabled := form.autoScanEnabled

/-- A text which the comma-separated box gives back: not empty, without a
comma, and without white space at either end. -/
def IsCSVField (text : String) : Prop :=
  Delimited.IsField (· == ',') jsWhitespace text.toList

/-! ## The text boxes -/

theorem parseCSV_eq_fields
    (input : String) :
    parseCSV input =
      (Delimited.fields (· == ',') jsWhitespace input.toList).map
        String.ofList := rfl

theorem map_ofList_eq_iff
    {texts : List (List Char)} {parts : List String} :
    texts.map String.ofList = parts ↔ texts = parts.map String.toList := by
  constructor
  · rintro rfl
    simp
  · rintro rfl
    simp

theorem fields_join
    (parts : List String) :
    Delimited.fields (· == ',') jsWhitespace (", ".intercalate parts).toList =
      (parts.map String.toList).flatMap
        (Delimited.fields (· == ',') jsWhitespace) := by
  rw [String.toList_intercalate]
  exact Delimited.fields_intercalate (by decide) (by decide) (by decide) _

theorem parseCSV_join_eq_self_iff
    (parts : List String) :
    parseCSV (", ".intercalate parts) = parts ↔
      ∀ part ∈ parts, IsCSVField part := by
  rw [parseCSV_eq_fields, map_ofList_eq_iff, fields_join,
    Delimited.flatMap_fields_eq_self_iff, List.forall_mem_map]
  rfl

theorem isCSVField_iff
    (text : String) : IsCSVField text ↔ parseCSV text = [text] := by
  simpa using (parseCSV_join_eq_self_iff [text]).symm

instance (text : String) : Decidable (IsCSVField text) :=
  decidable_of_iff _ (isCSVField_iff text).symm

theorem parseCSV_join_eq_nil_iff
    (parts : List String) :
    parseCSV (", ".intercalate parts) = [] ↔
      ∀ part ∈ parts, parseCSV part = [] := by
  rw [parseCSV_eq_fields, List.map_eq_nil_iff, fields_join]
  simp [parseCSV_eq_fields]

theorem restored_list_iff
    {parts : List String} (hparts : parts ≠ []) (default : List String) :
    (if parseCSV (", ".intercalate parts) = [] then default
        else parseCSV (", ".intercalate parts)) = parts ↔
      (∀ part ∈ parts, IsCSVField part) ∨
        (parts = default ∧ ∀ part ∈ parts, parseCSV part = []) := by
  rw [← parseCSV_join_eq_self_iff, ← parseCSV_join_eq_nil_iff]
  by_cases hnil : parseCSV (", ".intercalate parts) = []
  · rw [if_pos hnil, hnil]
    constructor
    · intro hdefault
      exact Or.inr ⟨hdefault.symm, rfl⟩
    · rintro (hempty | ⟨hdefault, _⟩)
      · exact (hparts hempty.symm).elim
      · exact hdefault.symm
  · rw [if_neg hnil]
    simp [hnil]

theorem not_all_parse_nil_of_default
    {parts : List String} (hdefault : parts = defaultExcludePatterns) :
    ¬ ∀ part ∈ parts, parseCSV part = [] := by
  rw [hdefault]
  decide

/-! ## Load, then save -/

theorem isBlank_empty : isBlank "" = true := by decide

theorem HostEnv.normalize_toSave_loadForm
    (env : HostEnv) {cfg : SavedConfig}
    (hstable : env.normalize cfg = cfg) (hdir : isBlank cfg.indexDir = false) :
    env.normalize (loadForm cfg).toSave = { cfg with
      searchMode := "inverted"
      scanRoots :=
        if parseCSV (", ".intercalate cfg.scanRoots) = [] then
          env.defaultScanRoots else parseCSV (", ".intercalate cfg.scanRoots)
      excludePatterns :=
        if parseCSV (", ".intercalate cfg.excludePatterns) = [] then
          defaultExcludePatterns
        else parseCSV (", ".intercalate cfg.excludePatterns) } := by
  have hne : cfg.indexDir ≠ "" := by
    intro hempty
    rw [hempty, isBlank_empty] at hdir
    contradiction
  have hindexDir := congrArg (fun cfg => cfg.indexDir) hstable
  have hlen := congrArg (fun cfg => cfg.pathMaxLen) hstable
  have hmode : isBlank "inverted" = false := by decide
  simp only [HostEnv.normalize] at hindexDir hlen
  simp only [HostEnv.normalize, loadForm, ConfigForm.toSave, if_neg hne, hmode,
    hindexDir, hlen]
  simp

theorem replaced_eq_iff
    {cfg : SavedConfig} {mode : String} {roots patterns : List String} :
    ({ cfg with
        searchMode := mode
        scanRoots := roots
        excludePatterns := patterns } : SavedConfig) = cfg ↔
      cfg.searchMode = mode ∧ roots = cfg.scanRoots ∧
        patterns = cfg.excludePatterns := by
  obtain ⟨⟨_, _, _, _⟩, _, _⟩ := cfg
  simp only [SavedConfig.mk.injEq, AppConfig.mk.injEq]
  tauto

/-- A configuration which `read_config` has returned survives a load followed
by a save exactly when its mode is the one the page writes and every text of
its lists is a field of the comma-separated box. -/
theorem load_then_save_iff
    (env : HostEnv) {file : ConfigFile} {cfg : SavedConfig}
    (hread : (readConfig env file).1 = .config cfg) :
    (readConfig env (writeConfig env (loadForm cfg).toSave).2).1 =
        .config cfg ↔
      cfg.searchMode = "inverted" ∧
      ((∀ root ∈ cfg.scanRoots, IsCSVField root) ∨
        (cfg.scanRoots = env.defaultScanRoots ∧
          ∀ root ∈ cfg.scanRoots, parseCSV root = [])) ∧
      ∀ pattern ∈ cfg.excludePatterns, IsCSVField pattern := by
  obtain ⟨loaded, hloaded⟩ := @configCall_config env file .read cfg hread
  have hstable : env.normalize cfg = cfg := by
    rw [← hloaded, env.normalize_normalize]
  have husable : env.Usable cfg := hloaded ▸ env.normalize_usable loaded
  have hpatterns := restored_list_iff husable.excludePatterns
    defaultExcludePatterns
  rw [or_iff_left (fun hdefault =>
    not_all_parse_nil_of_default hdefault.1 hdefault.2)] at hpatterns
  rw [← restored_list_iff husable.scanRoots env.defaultScanRoots, ← hpatterns,
    writeConfig, readConfig, env.repair_redirect, ConfigAnswer.config.injEq,
    env.normalize_toSave_loadForm hstable husable.indexDir, replaced_eq_iff]

def sampleSaved : SavedConfig :=
  ⟨⟨["/d", "/e/my files"], ["/tmp", ".git", "/e/old"], "/idx", true⟩,
    "inverted", 80⟩

theorem load_then_save_sample :
    (readConfig sampleHost
      (writeConfig sampleHost (loadForm sampleSaved).toSave).2).1 =
      .config sampleSaved :=
  (@load_then_save_iff sampleHost (.stored sampleSaved) sampleSaved
    (by decide)).mpr ⟨by decide, Or.inl (by decide), by decide⟩

def commaSaved : SavedConfig :=
  ⟨⟨["/d"], ["/d/a,b"], "/idx", true⟩, "hybrid", 80⟩

/-- A pattern with a comma comes back as two, and the mode `hybrid` as
`inverted`. -/
theorem load_then_save_changes :
    (readConfig sampleHost (.stored commaSaved)).1 = .config commaSaved ∧
    (readConfig sampleHost
      (writeConfig sampleHost (loadForm commaSaved).toSave).2).1 =
      .config ⟨⟨["/d"], ["/d/a", "b"], "/idx", true⟩, "inverted", 80⟩ ∧
    (readConfig sampleHost
      (writeConfig sampleHost (loadForm commaSaved).toSave).2).1 ≠
      .config commaSaved := by decide

end SearchEvery
