import SearchEvery.ConfigStore
import SearchEvery.JsonFields
import Mathlib.Tactic

/-!
# A configuration as a JSON text

The JSON object of a configuration in the indented notation, and a reader of
such objects: known members come in any order among unknown ones, none of them
twice, and every missing one has its default.  The two meet the laws which the
results on the configuration file ask of a printer and a reader.
-/

namespace SearchEvery

open JsonParse

def configEntries (cfg : SavedConfig) : List (String × List Char) :=
  [("search_mode", JsonText.literal cfg.searchMode),
    ("scan_roots", JsonText.array 1 (cfg.scanRoots.map JsonText.literal)),
    ("exclude_patterns",
      JsonText.array 1 (cfg.excludePatterns.map JsonText.literal)),
    ("index_dir", JsonText.literal cfg.indexDir),
    ("path_max_len", JsonText.number cfg.pathMaxLen.toNat),
    ("auto_scan_enabled", JsonText.bool cfg.autoScanEnabled)]

/-- The fields which have been read so far. -/
structure ConfigFields where
  searchMode : Option String
  scanRoots : Option (List String)
  excludePatterns : Option (List String)
  indexDir : Option String
  pathMaxLen : Option UInt32
  autoScanEnabled : Option Bool

def ConfigFields.none : ConfigFields :=
  ⟨Option.none, Option.none, Option.none, Option.none, Option.none, Option.none⟩

def visitConfig (fields : ConfigFields) (key : String) (v : Json) :
    Option ConfigFields :=
  if key = "search_mode" then
    (once fields.searchMode asText v).map fun read =>
      { fields with searchMode := read }
  else if key = "scan_roots" then
    (once fields.scanRoots (asList asText) v).map fun read =>
      { fields with scanRoots := read }
  else if key = "exclude_patterns" then
    (once fields.excludePatterns (asList asText) v).map fun read =>
      { fields with excludePatterns := read }
  else if key = "index_dir" then
    (once fields.indexDir asText v).map fun read =>
      { fields with indexDir := read }
  else if key = "path_max_len" then
    (once fields.pathMaxLen asWord v).map fun read =>
      { fields with pathMaxLen := read }
  else if key = "auto_scan_enabled" then
    (once fields.autoScanEnabled asBool v).map fun read =>
      { fields with autoScanEnabled := read }
  else some fields

/-- The `serde(default)` of every field. -/
def HostEnv.fillDefaults (env : HostEnv) (fields : ConfigFields) :
    SavedConfig where
  searchMode := fields.searchMode.getD defaultSearchMode
  scanRoots := fields.scanRoots.getD env.defaultScanRoots
  excludePatterns := fields.excludePatterns.getD defaultExcludePatterns
  indexDir := fields.indexDir.getD env.defaultIndexDir
  pathMaxLen := fields.pathMaxLen.getD defaultPathMaxLen
  autoScanEnabled := fields.autoScanEnabled.getD defaultAutoScanEnabled

def HostEnv.configFromJson (env : HostEnv) : Json → Option SavedConfig
  | .object members =>
      (visitMembers visitConfig ConfigFields.none members).map env.fillDefaults
  | _ => Option.none

def HostEnv.configJson (env : HostEnv) : SerdeJson SavedConfig where
  toStringPretty cfg := String.ofList (JsonText.object 0 (configEntries cfg))
  fromStr text := (parse text.toList).bind env.configFromJson

/-! ## The laws -/

variable {cfg : SavedConfig}

theorem exists_reads_configEntry
    {entry : String × List Char} (hentry : entry ∈ configEntries cfg) :
    ∃ v, Reads readValue entry.2 v := by
  simp only [configEntries, List.mem_cons, List.not_mem_nil, or_false] at hentry
  rcases hentry with rfl | rfl | rfl | rfl | rfl | rfl
  · exact ⟨_, reads_literal cfg.searchMode⟩
  · exact ⟨_, (exists_reads_texts 1 cfg.scanRoots).choose_spec.1⟩
  · exact ⟨_, (exists_reads_texts 1 cfg.excludePatterns).choose_spec.1⟩
  · exact ⟨_, reads_literal cfg.indexDir⟩
  · exact ⟨_, reads_number cfg.pathMaxLen.toNat⟩
  · exact ⟨_, reads_bool cfg.autoScanEnabled⟩

theorem stays_configEntry
    {entry : String × List Char} (hentry : entry ∈ configEntries cfg) :
    JsonText.Stays .outside entry.2 := by
  have hstrings (texts : List String) :
      JsonText.Stays .outside (JsonText.array 1 (texts.map JsonText.literal)) := by
    apply JsonText.stays_array
    intro item hitem
    obtain ⟨text, _, rfl⟩ := List.mem_map.mp hitem
    exact JsonText.stays_literal text
  simp only [configEntries, List.mem_cons, List.not_mem_nil, or_false] at hentry
  rcases hentry with rfl | rfl | rfl | rfl | rfl | rfl
  · exact JsonText.stays_literal _
  · exact hstrings _
  · exact hstrings _
  · exact JsonText.stays_literal _
  · exact JsonText.stays_number _
  · exact JsonText.stays_bool _

/-- Each member in turn fills its field. -/
theorem visitMembers_configEntries
    {members : List (List Char × Json)}
    (hmembers : List.Forall₂ ReadsMember (configEntries cfg) members) :
    visitMembers visitConfig ConfigFields.none members =
      some ⟨some cfg.searchMode, some cfg.scanRoots, some cfg.excludePatterns,
        some cfg.indexDir, some cfg.pathMaxLen, some cfg.autoScanEnabled⟩ := by
  unfold configEntries at hmembers
  obtain _ | ⟨hmode, _ | ⟨hroots, _ | ⟨hpatterns, _ | ⟨hdir, _ | ⟨hlength,
    _ | ⟨hauto, _ | _⟩⟩⟩⟩⟩⟩ := hmembers
  simp [visitMembers, visitMember_of_reads _ _ hmode,
    visitMember_of_reads _ _ hroots, visitMember_of_reads _ _ hpatterns,
    visitMember_of_reads _ _ hdir, visitMember_of_reads _ _ hlength,
    visitMember_of_reads _ _ hauto, visitConfig, ConfigFields.none, once,
    asText_of_reads hmode.2, asList_of_reads hroots.2,
    asList_of_reads hpatterns.2, asText_of_reads hdir.2,
    asWord_of_reads hlength.2, asBool_of_reads hauto.2]

theorem HostEnv.configJson_lawful (env : HostEnv) : env.configJson.Lawful := by
  refine lawful_of_entries (fun _ => rfl) (fun _ => rfl)
    (fun _ _ => stays_configEntry) (fun _ _ => exists_reads_configEntry) ?_
  intro cfg members hmembers
  rw [HostEnv.configFromJson, visitMembers_configEntries hmembers]
  rfl

def storedSample : SavedConfig :=
  ⟨⟨["/d"], ["/tmp"], "/idx", true⟩, "inverted", 80⟩

def enteredSample : SavedConfig :=
  ⟨⟨["/d", "/e"], ["/tmp"], "/idx", false⟩, "inverted", 60⟩

set_option maxRecDepth 4000 in
example : sampleHost.configJson.toStringPretty storedSample = "\x7b
  \"search_mode\": \"inverted\",
  \"scan_roots\": [
    \"/d\"
  ],
  \"exclude_patterns\": [
    \"/tmp\"
  ],
  \"index_dir\": \"/idx\",
  \"path_max_len\": 80,
  \"auto_scan_enabled\": true
\x7d" := by rfl

end SearchEvery
