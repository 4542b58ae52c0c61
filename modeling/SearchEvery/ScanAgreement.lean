import SearchEvery.PipelineSystem
import Mathlib.Tactic

/-!
# Three scanners, one set of options

`scanner::scan`, `scan_paths_progress` and the pipeline walk the roots in the
same way, but the command which starts a pipeline hands on only the roots and
the patterns of its options; the pipeline never follows links and has a size
limit of its own.  The file says for which options the three agree on every
tree.
-/

namespace SearchEvery

/-- Every listed path extends the text of the root, as `walkdir` documents. -/
def WalkDir.Rooted (walkDir : WalkDir) : Prop :=
  ∀ disk root follow entry path,
    some entry ∈ walkDir.walk disk root follow → entry.path = some path →
      root.toList <+: path.toList

/-- What the pipeline walks: links are never followed. -/
def pipelineItems (walkDir : WalkDir) (args : RunArgs) (disk : Disk) :
    List WalkItem :=
  args.roots.flatMap fun root => walkDir.walk disk root false

def ScanEnv.pipelineEnv (env : ScanEnv) (minBudget : ℕ) : PipelineEnv :=
  ⟨env.tables, env.platform, minBudget⟩

/-- The files `scan_and_index_pipeline` submits, in walk order. -/
def pipelineSubmits (env : ScanEnv) (minBudget : ℕ) (opts : ScanOptions)
    (indexOpts : IndexOptions) (disk : Disk) : List FileMeta :=
  (pipelineItems env.walkDir (commandArgs opts indexOpts) disk).filterMap
    (pipelineFile (env.pipelineEnv minBudget) (commandArgs opts indexOpts))

/-- Both scans return, and the three lists agree on path, name, extension and
size, entry for entry. -/
def ScannersAgree (env : ScanEnv) (minBudget : ℕ) (opts : ScanOptions)
    (indexOpts : IndexOptions) (disk : Disk) : Prop :=
  ∃ files progressFiles events,
    scan env opts disk = .ok files ∧
    scanPathsProgress env opts disk = .ok (progressFiles, events) ∧
    progressFiles.map FileMeta.entry = files.map FileMeta.entry ∧
    (pipelineSubmits env minBudget opts indexOpts disk).map FileMeta.entry =
      files.map FileMeta.entry

/-- Every root contains a pattern, so that nothing is listed at all; or the
options are those of the pipeline and the sampled log divides by no zero. -/
def OptionsOfPipeline (env : ScanEnv) (opts : ScanOptions) : Prop :=
  ∃ limit, maxBytes env.overflowChecks opts.maxFileSizeMb = .ok limit ∧
    ((∀ root ∈ opts.roots,
        ∃ pattern ∈ opts.excludePatterns, strContains root pattern = true) ∨
      (opts.followSymlinks = false ∧ limit = some pipelineMaxBytes ∧
        env.sampleEvery ≠ 0))

/-! ## Entries of a walk -/

/-- The entries the walk of the roots contributes under a limit. -/
def walkedEntries (env : ScanEnv) (opts : ScanOptions) (disk : Disk)
    (follow : Bool) (limit : Option ℕ) : List (String × Metadata) :=
  (opts.roots.flatMap fun root => env.walkDir.walk disk root follow).filterMap
    (admitEntry opts.excludePatterns limit)

theorem pipelineSubmits_entries
    (env : ScanEnv) (minBudget : ℕ) (opts : ScanOptions)
    (indexOpts : IndexOptions) (disk : Disk) :
    (pipelineSubmits env minBudget opts indexOpts disk).map FileMeta.entry =
      (walkedEntries env opts disk false (some pipelineMaxBytes)).map
        (entryOf env.tables env.platform) := by
  rw [pipelineSubmits, walkedEntries, List.map_filterMap, List.map_filterMap]
  have hitem (item : WalkItem) :
      (pipelineFile (env.pipelineEnv minBudget) (commandArgs opts indexOpts)
          item).map FileMeta.entry =
        (admitEntry opts.excludePatterns (some pipelineMaxBytes) item).map
          (entryOf env.tables env.platform) := by
    rw [pipelineFile, Option.map_map]
    rfl
  rw [funext hitem]
  rfl

/-! ## The condition is enough -/

theorem scanFold_of_forall_none
    {env : ScanEnv} {excludePatterns : List String} {limit : Option ℕ}
    {items : List WalkItem}
    (hnone : ∀ item ∈ items, admitEntry excludePatterns limit item = none)
    (state : ScanState) :
    items.foldlM (scanStep env excludePatterns limit) state = .ok state := by
  induction items with
  | nil => rfl
  | cons item items ih =>
      rw [List.forall_mem_cons] at hnone
      have hstep :
          scanStep env excludePatterns limit state item = .ok state := by
        simp [scanStep, hnone.1]
      rw [List.foldlM_cons, hstep]
      exact ih hnone.2

theorem admitEntry_eq_none_of_root
    {env : ScanEnv} (hrooted : env.walkDir.Rooted) {opts : ScanOptions}
    (hroots : ∀ root ∈ opts.roots,
      ∃ pattern ∈ opts.excludePatterns, strContains root pattern = true)
    {disk : Disk} {follow : Bool} {limit : Option ℕ} {item : WalkItem}
    (hitem : item ∈ opts.roots.flatMap fun root =>
      env.walkDir.walk disk root follow) :
    admitEntry opts.excludePatterns limit item = none := by
  obtain ⟨root, hroot, hwalk⟩ := List.mem_flatMap.mp hitem
  obtain ⟨pattern, hpattern, hcontains⟩ := hroots root hroot
  rw [Option.eq_none_iff_forall_ne_some]
  rintro ⟨path, md⟩ hfound
  obtain ⟨entry, rfl, _, hpath, _⟩ := admitEntry_eq_some hfound
  have hclean := not_excluded_of_admitEntry hfound pattern hpattern
  have hstarts := hrooted disk root follow entry path hwalk hpath
  simp only [strContains, decide_eq_true_eq, decide_eq_false_iff_not] at *
  exact hclean (hcontains.trans hstarts.isInfix)

theorem scannersAgree_of_files
    {env : ScanEnv} {minBudget : ℕ} {opts : ScanOptions}
    {indexOpts : IndexOptions} {disk : Disk} {limit : Option ℕ}
    {files : List FileMeta} {events : List ScanEvent}
    (hlimit : maxBytes env.overflowChecks opts.maxFileSizeMb = .ok limit)
    (hscan : scanPathsProgress env opts disk = .ok (files, events))
    (hsame : walkedEntries env opts disk false (some pipelineMaxBytes) =
      walkedEntries env opts disk opts.followSymlinks limit) :
    ScannersAgree env minBudget opts indexOpts disk := by
  refine ⟨files, files, events, ?_, hscan, rfl, ?_⟩
  · rw [scan_eq_scanPathsProgress, hscan]
    rfl
  · rw [pipelineSubmits_entries, hsame, scanPathsProgress_entries hlimit hscan]
    rfl

theorem OptionsOfPipeline.agree
    {env : ScanEnv} {opts : ScanOptions} (hopts : OptionsOfPipeline env opts)
    (hrooted : env.walkDir.Rooted) (minBudget : ℕ)
    (indexOpts : IndexOptions) (disk : Disk) :
    ScannersAgree env minBudget opts indexOpts disk := by
  obtain ⟨limit, hlimit, hroots | ⟨hfollow, rfl, hsample⟩⟩ := hopts
  · have hnone (follow : Bool) (limit : Option ℕ) :
        ∀ item ∈ opts.roots.flatMap fun root =>
          env.walkDir.walk disk root follow,
        admitEntry opts.excludePatterns limit item = none :=
      fun _ hitem => admitEntry_eq_none_of_root hrooted hroots hitem
    have hempty (follow : Bool) (limit : Option ℕ) :
        walkedEntries env opts disk follow limit = [] :=
      List.filterMap_eq_nil_iff.mpr (hnone follow limit)
    have hscan :
        scanPathsProgress env opts disk = .ok ([], [.done 0]) := by
      unfold scanPathsProgress
      simp only [hlimit, bind, Except.bind, walkRoots,
        scanFold_of_forall_none (hnone opts.followSymlinks limit)]
      rfl
    exact scannersAgree_of_files hlimit hscan (by rw [hempty, hempty])
  · obtain ⟨files, events, hscan⟩ := scanPathsProgress_ok hsample hlimit disk
    exact scannersAgree_of_files hlimit hscan (by rw [hfollow])

/-! ## The condition is needed -/

theorem admitEntry_listed_eq_none_iff
    {excludePatterns : List String} {limit : Option ℕ} {isFile : Bool}
    {path : String} {md : Metadata} :
    admitEntry excludePatterns limit (some ⟨isFile, some path, some md⟩) =
        none ↔
      ¬ (isFile = true ∧
        (∀ pattern ∈ excludePatterns, strContains path pattern = false) ∧
        ∀ bytes ∈ limit, md.len ≤ bytes) := by
  have hany :
      excludePatterns.any (fun pattern => strContains path pattern) = true ↔
        ¬ ∀ pattern ∈ excludePatterns, strContains path pattern = false := by
    simp
  unfold admitEntry
  by_cases hfile : isFile = true
  · by_cases hclean :
        ∀ pattern ∈ excludePatterns, strContains path pattern = false
    · have hpass :
          ¬ excludePatterns.any (fun pattern => strContains path pattern) =
            true := by
        rw [hany, not_not]
        exact hclean
      simp only [hfile, hpass, if_true]
      cases limit with
      | none => simpa using hclean
      | some bytes =>
          by_cases hlarge : md.len > bytes
          · simp [hlarge]
          · simpa [hlarge, Nat.le_of_not_lt hlarge] using hclean
    · simp only [hfile, hany.mpr hclean, if_true]
      simp [hclean]
  · simp [hfile]

theorem admitEntry_eq_some_iff
    {excludePatterns : List String} {limit : Option ℕ} {item : WalkItem}
    {path : String} {md : Metadata} :
    admitEntry excludePatterns limit item = some (path, md) ↔
      item = some ⟨true, some path, some md⟩ ∧
        (∀ pattern ∈ excludePatterns, strContains path pattern = false) ∧
        ∀ bytes ∈ limit, md.len ≤ bytes := by
  constructor
  · intro hfound
    obtain ⟨⟨isFile, text, metadata⟩, rfl, hisFile, htext, hmetadata⟩ :=
      admitEntry_eq_some hfound
    simp only at hisFile htext hmetadata
    subst hisFile htext hmetadata
    refine ⟨rfl, not_excluded_of_admitEntry hfound, ?_⟩
    by_contra hlarge
    have hnone := (@admitEntry_listed_eq_none_iff excludePatterns limit true path
      md).mpr fun hpass => hlarge hpass.2.2
    rw [hnone] at hfound
    contradiction
  · rintro ⟨rfl, hclean, hsmall⟩
    cases hfound : admitEntry excludePatterns limit
        (some ⟨true, some path, some md⟩) with
    | none =>
        exact (admitEntry_listed_eq_none_iff.mp hfound
          ⟨rfl, hclean, hsmall⟩).elim
    | some found =>
        obtain ⟨_, hentry, _, hpath, hmd⟩ := admitEntry_eq_some hfound
        rw [← Option.some.inj hentry] at hpath hmd
        exact congrArg some (Prod.ext (Option.some.inj hpath).symm
          (Option.some.inj hmd).symm)

/-- The tree in which every root is one entry: a regular file, or a link to
one which counts as a file only where links are followed. -/
def rootEntryEnv (env : ScanEnv) (isFile : Bool → Bool) (len : ℕ) : ScanEnv :=
  { env with walkDir := oneEntryWalkDir id isFile ⟨len, none⟩ }

def everyFile : Disk := fun _ => .file ⟨[], true, true⟩

theorem oneEntryWalkDir_rooted
    (isFile : Bool → Bool) (md : Metadata) :
    (oneEntryWalkDir id isFile md).Rooted := by
  intro disk root follow entry path hmem hpath
  simp only [oneEntryWalkDir] at hmem
  split at hmem
  next =>
    simp only [List.mem_singleton, Option.some.injEq] at hmem
    subst hmem
    simp only [id, Option.some.injEq] at hpath
    rw [hpath]
  next => simp at hmem

theorem walkedEntries_rootEntry_eq_nil_iff
    {env : ScanEnv} {opts : ScanOptions} {root : String}
    (hroot : root ∈ opts.roots)
    (hclean : ∀ pattern ∈ opts.excludePatterns,
      strContains root pattern = false)
    (isFile : Bool → Bool) (len : ℕ) (follow : Bool) (limit : Option ℕ) :
    walkedEntries (rootEntryEnv env isFile len) opts everyFile follow limit =
        [] ↔
      ¬ (isFile follow = true ∧ ∀ bytes ∈ limit, len ≤ bytes) := by
  have hwalk (root : String) :
      (rootEntryEnv env isFile len).walkDir.walk everyFile root follow =
        [some ⟨isFile follow, some root, some ⟨len, none⟩⟩] := by
    simp [rootEntryEnv, oneEntryWalkDir, everyFile, isRegular]
  simp only [walkedEntries, hwalk, List.filterMap_eq_nil_iff,
    List.mem_flatMap, List.mem_singleton]
  constructor
  · intro hnone hadmits
    refine admitEntry_listed_eq_none_iff.mp (hnone _ ⟨root, hroot, rfl⟩) ?_
    exact ⟨hadmits.1, hclean, hadmits.2⟩
  · rintro hrejects item ⟨other, _, rfl⟩
    rw [admitEntry_listed_eq_none_iff]
    rintro ⟨hfile, _, hbytes⟩
    exact hrejects ⟨hfile, hbytes⟩

theorem ScannersAgree.walkedEntries_nil_iff
    {env : ScanEnv} {minBudget : ℕ} {opts : ScanOptions}
    {indexOpts : IndexOptions} {disk : Disk} {limit : Option ℕ}
    (hagree : ScannersAgree env minBudget opts indexOpts disk)
    (hlimit : maxBytes env.overflowChecks opts.maxFileSizeMb = .ok limit) :
    walkedEntries env opts disk opts.followSymlinks limit = [] ↔
      walkedEntries env opts disk false (some pipelineMaxBytes) = [] := by
  obtain ⟨files, _, _, hscan, _, _, hsubmits⟩ := hagree
  rw [pipelineSubmits_entries, scan_entries hlimit hscan] at hsubmits
  have hsame :
      (walkedEntries env opts disk opts.followSymlinks limit).map
          (entryOf env.tables env.platform) =
        (walkedEntries env opts disk false (some pipelineMaxBytes)).map
          (entryOf env.tables env.platform) := hsubmits.symm
  have hlength := congrArg List.length hsame
  rw [List.length_map, List.length_map] at hlength
  rw [← List.length_eq_zero_iff, hlength, List.length_eq_zero_iff]

theorem ScannersAgree.sampleEvery_ne_zero
    {env : ScanEnv} {minBudget : ℕ} {opts : ScanOptions}
    {indexOpts : IndexOptions} {disk : Disk} {limit : Option ℕ}
    (hagree : ScannersAgree env minBudget opts indexOpts disk)
    (hlimit : maxBytes env.overflowChecks opts.maxFileSizeMb = .ok limit)
    (hsome : walkedEntries env opts disk opts.followSymlinks limit ≠ []) :
    env.sampleEvery ≠ 0 := by
  intro hzero
  obtain ⟨_, files, events, _, hscan, _, _⟩ := hagree
  have hfiles := scanPathsProgress_of_sampleEvery_zero hzero hlimit hscan
  have hentries := scanPathsProgress_entries hlimit hscan
  rw [hfiles, List.map_nil, eq_comm, List.map_eq_nil_iff] at hentries
  exact hsome hentries

theorem limit_eq_of_forall
    {limit : Option ℕ} {cap : ℕ}
    (hsame : ∀ len, (∀ bytes ∈ limit, len ≤ bytes) ↔ len ≤ cap) :
    limit = some cap := by
  cases limit with
  | none => simpa using hsame (cap + 1)
  | some bytes =>
      have hcap : cap ≤ bytes := by simpa using (hsame cap).mpr le_rfl
      have hbytes : bytes ≤ cap := by simpa using hsame bytes
      rw [Nat.le_antisymm hbytes hcap]

/-! ## One tree -/

/-- A regular file in the walk of the roots which no pattern excludes. -/
def CleanFile (env : ScanEnv) (opts : ScanOptions) (disk : Disk)
    (path : String) (md : Metadata) : Prop :=
  some ⟨true, some path, some md⟩ ∈ walkRoots env opts disk ∧
    ∀ pattern ∈ opts.excludePatterns, strContains path pattern = false

/-- The condition on one tree: no file has a size which only one of the two
limits admits, and a log which divides by zero has no file to come upon. -/
def TreeOfPipeline (env : ScanEnv) (opts : ScanOptions) (disk : Disk) : Prop :=
  ∃ limit, maxBytes env.overflowChecks opts.maxFileSizeMb = .ok limit ∧
    ∀ path md, CleanFile env opts disk path md →
      ((∀ bytes ∈ limit, md.len ≤ bytes) ↔ md.len ≤ pipelineMaxBytes) ∧
        (env.sampleEvery = 0 → pipelineMaxBytes < md.len)

/-- When one test lets through what the other one does, and as much, they let
through the same. -/
theorem filterMap_agree
    {α β : Type} {f g : α → Option β}
    (himp : ∀ a b, f a = some b → g a = some b) {items : List α}
    (hlength : (items.filterMap g).length ≤ (items.filterMap f).length) :
    ∀ item ∈ items, f item = g item := by
  induction items with
  | nil => simp
  | cons item items ih =>
      have hrest := (filterMap_sublist_of_imp himp items).length_le
      rw [List.forall_mem_cons]
      cases hf : f item with
      | some b =>
          have hg := himp item b hf
          rw [List.filterMap_cons_some hf, List.filterMap_cons_some hg,
            List.length_cons, List.length_cons] at hlength
          exact ⟨hg.symm, ih (by omega)⟩
      | none =>
          rw [List.filterMap_cons_none hf] at hlength
          cases hg : g item with
          | none =>
              rw [List.filterMap_cons_none hg] at hlength
              exact ⟨rfl, ih hlength⟩
          | some b =>
              rw [List.filterMap_cons_some hg, List.length_cons] at hlength
              omega

/-- A size within the smaller limit is within the larger one. -/
theorem limit_total
    (limit : Option ℕ) (cap : ℕ) :
    (∀ len, (∀ bytes ∈ limit, len ≤ bytes) → len ≤ cap) ∨
      ∀ len, len ≤ cap → ∀ bytes ∈ limit, len ≤ bytes := by
  cases limit with
  | none => exact Or.inr fun _ _ => by simp
  | some bytes =>
      rcases Nat.le_total bytes cap with hle | hle
      · exact Or.inl fun len hlen => (hlen bytes rfl).trans hle
      · refine Or.inr fun len hlen other hother => ?_
        rw [← Option.some.inj hother]
        exact hlen.trans hle

/-- Two limits admit equally many files of a tree only when they admit the
same. -/
theorem admits_iff_of_length
    {env : ScanEnv} {opts : ScanOptions} {disk : Disk} {limit : Option ℕ}
    {cap : ℕ}
    (hlength : ((walkRoots env opts disk).filterMap
        (admitEntry opts.excludePatterns limit)).length =
      ((walkRoots env opts disk).filterMap
        (admitEntry opts.excludePatterns (some cap))).length)
    {path : String} {md : Metadata} (hfile : CleanFile env opts disk path md) :
    (∀ bytes ∈ limit, md.len ≤ bytes) ↔ md.len ≤ cap := by
  obtain ⟨hwalk, hclean⟩ := hfile
  have himp {one other : Option ℕ}
      (hle : ∀ len, (∀ bytes ∈ one, len ≤ bytes) → ∀ bytes ∈ other, len ≤ bytes)
      (item : WalkItem) (found : String × Metadata)
      (hfound : admitEntry opts.excludePatterns one item = some found) :
      admitEntry opts.excludePatterns other item = some found := by
    obtain ⟨hitem, hpass, hsmall⟩ := admitEntry_eq_some_iff.mp hfound
    exact admitEntry_eq_some_iff.mpr ⟨hitem, hpass, hle _ hsmall⟩
  have hsame : admitEntry opts.excludePatterns limit
      (some ⟨true, some path, some md⟩) =
        admitEntry opts.excludePatterns (some cap)
          (some ⟨true, some path, some md⟩) := by
    rcases limit_total limit cap with hle | hle
    · exact filterMap_agree (himp fun len hlen => by simpa using hle len hlen)
        hlength.ge _ hwalk
    · refine (filterMap_agree (himp fun len hlen => ?_) hlength.le _ hwalk).symm
      exact hle len (hlen cap rfl)
  have hadmits (limit : Option ℕ) :
      admitEntry opts.excludePatterns limit (some ⟨true, some path, some md⟩) =
          some (path, md) ↔ ∀ bytes ∈ limit, md.len ≤ bytes := by
    rw [admitEntry_eq_some_iff]
    exact ⟨fun hpass => hpass.2.2, fun hsmall => ⟨rfl, hclean, hsmall⟩⟩
  rw [← hadmits, hsame, hadmits]
  simp

/-- When links are not followed, the scanners agree on a tree exactly when it
has no file between the two limits. -/
theorem scannersAgree_iff
    {env : ScanEnv} {minBudget : ℕ} {opts : ScanOptions}
    {indexOpts : IndexOptions} (hfollow : opts.followSymlinks = false)
    (disk : Disk) :
    ScannersAgree env minBudget opts indexOpts disk ↔
      TreeOfPipeline env opts disk := by
  have hwalked (limit : Option ℕ) :
      walkedEntries env opts disk false limit =
        (walkRoots env opts disk).filterMap
          (admitEntry opts.excludePatterns limit) := by
    rw [walkedEntries, walkRoots, hfollow]
  constructor
  · intro hagree
    obtain ⟨files, _, _, hscan, _, _, hsubmits⟩ := id hagree
    obtain ⟨limit, _, hlimit, _⟩ := exists_scanPathsProgress_of_scan hscan
    rw [pipelineSubmits_entries, scan_entries hlimit hscan, hwalked] at hsubmits
    have hlength := congrArg List.length hsubmits
    rw [List.length_map, List.length_map] at hlength
    refine ⟨limit, hlimit, fun path md hfile => ?_⟩
    have hlimits := admits_iff_of_length hlength.symm hfile
    refine ⟨hlimits, fun hzero => ?_⟩
    by_contra hsmall
    have hadmit : admitEntry opts.excludePatterns limit
        (some ⟨true, some path, some md⟩) = some (path, md) :=
      admitEntry_eq_some_iff.mpr
        ⟨rfl, hfile.2, hlimits.mpr (Nat.le_of_not_lt hsmall)⟩
    refine hagree.sampleEvery_ne_zero hlimit ?_ hzero
    rw [hfollow, hwalked]
    exact List.ne_nil_of_mem (List.mem_filterMap.mpr ⟨_, hfile.1, hadmit⟩)
  · rintro ⟨limit, hlimit, hfiles⟩
    have hadmit : ∀ item ∈ walkRoots env opts disk,
        admitEntry opts.excludePatterns (some pipelineMaxBytes) item =
          admitEntry opts.excludePatterns limit item := by
      intro item hitem
      refine Option.ext fun found => ?_
      rw [admitEntry_eq_some_iff, admitEntry_eq_some_iff]
      refine and_congr_right fun heq => and_congr_right fun hclean => ?_
      rw [(hfiles found.1 found.2 ⟨heq ▸ hitem, hclean⟩).1]
      simp
    have hsame : walkedEntries env opts disk false (some pipelineMaxBytes) =
        walkedEntries env opts disk opts.followSymlinks limit := by
      rw [hfollow, hwalked, hwalked]
      exact List.filterMap_congr hadmit
    by_cases hsample : env.sampleEvery = 0
    · have hnone : ∀ item ∈ walkRoots env opts disk,
          admitEntry opts.excludePatterns limit item = none := by
        intro item hitem
        rw [Option.eq_none_iff_forall_ne_some]
        intro found hfound
        obtain ⟨heq, hclean, hsmall⟩ := admitEntry_eq_some_iff.mp hfound
        obtain ⟨hlimits, hlarge⟩ := hfiles found.1 found.2 ⟨heq ▸ hitem, hclean⟩
        exact absurd (hlimits.mp hsmall) (Nat.not_le.mpr (hlarge hsample))
      have hscan :
          scanPathsProgress env opts disk = .ok ([], [.done 0]) := by
        unfold scanPathsProgress
        simp only [hlimit, bind, Except.bind,
          scanFold_of_forall_none hnone]
        rfl
      exact scannersAgree_of_files hlimit hscan hsame
    · obtain ⟨files, events, hscan⟩ := scanPathsProgress_ok hsample hlimit disk
      exact scannersAgree_of_files hlimit hscan hsame

/-- The three scanners agree on every tree exactly under the options of the
pipeline, and on one tree, when links are not followed, exactly when no file of
it is between the two limits; what they are compared with is what every returned
run has submitted. -/
theorem scanners_agree_iff
    (env : ScanEnv) (minBudget : ℕ) (opts : ScanOptions)
    (indexOpts : IndexOptions) :
    (∀ disk docs locked stateFile actions final,
      ActionSystem.exec
          (runStep (env.pipelineEnv minBudget) (commandArgs opts indexOpts)
            (pipelineItems env.walkDir (commandArgs opts indexOpts) disk))
          (RunState.start docs locked stateFile) actions = some final →
        final.task = .returned →
        final.workers.map Worker.file =
          pipelineSubmits env minBudget opts indexOpts disk) ∧
    ((∀ walkDir : WalkDir, walkDir.Rooted → ∀ disk,
        ScannersAgree { env with walkDir := walkDir } minBudget opts indexOpts
          disk) ↔
      OptionsOfPipeline env opts) ∧
    (opts.followSymlinks = false → ∀ disk,
      (ScannersAgree env minBudget opts indexOpts disk ↔
        TreeOfPipeline env opts disk)) := by
  refine ⟨?_, ⟨?_, ?_⟩, fun hfollow disk => scannersAgree_iff hfollow disk⟩
  · intro disk docs locked stateFile actions final hexec hreturned
    exact returned_submits hexec hreturned
  · intro hagree
    have hagreeAt (isFile : Bool → Bool) (len : ℕ) :
        ScannersAgree (rootEntryEnv env isFile len) minBudget opts indexOpts
          everyFile :=
      hagree _ (oneEntryWalkDir_rooted isFile ⟨len, none⟩) everyFile
    obtain ⟨_, _, _, hscan, _⟩ := hagreeAt (fun _ => true) 0
    obtain ⟨limit, _, hlimit, _⟩ := exists_scanPathsProgress_of_scan hscan
    refine ⟨limit, hlimit, ?_⟩
    by_cases hroots : ∀ root ∈ opts.roots,
        ∃ pattern ∈ opts.excludePatterns, strContains root pattern = true
    · exact Or.inl hroots
    · push Not at hroots
      obtain ⟨root, hroot, hclean⟩ := hroots
      have hclean : ∀ pattern ∈ opts.excludePatterns,
          strContains root pattern = false := by simpa using hclean
      have hnil (isFile : Bool → Bool) (len : ℕ) (follow : Bool)
          (limit : Option ℕ) :=
        @walkedEntries_rootEntry_eq_nil_iff env opts root hroot hclean isFile
          len follow limit
      have hadmits (isFile : Bool → Bool) (len : ℕ) :
          (isFile opts.followSymlinks = true ∧ ∀ bytes ∈ limit, len ≤ bytes) ↔
            (isFile false = true ∧ len ≤ pipelineMaxBytes) := by
        have hsame := (hagreeAt isFile len).walkedEntries_nil_iff hlimit
        rw [hnil, hnil, not_iff_not] at hsame
        simpa using hsame
      have hlimitEq : limit = some pipelineMaxBytes :=
        limit_eq_of_forall fun len => by simpa using hadmits (fun _ => true) len
      refine Or.inr ⟨?_, hlimitEq, ?_⟩
      · have hlink := hadmits id 0
        simpa using hlink
      · refine (hagreeAt (fun _ => true) 0).sampleEvery_ne_zero hlimit ?_
        rw [Ne, hnil]
        simp
  · intro hopts walkDir hrooted disk
    exact @OptionsOfPipeline.agree { env with walkDir := walkDir } opts hopts
      hrooted minBudget indexOpts disk

def largeFileScan : ScanEnv :=
  ⟨asciiTables, .unix,
    oneEntryWalkDir (fun root => root ++ "/a.iso") (fun _ => true)
      ⟨2097152, none⟩,
    true, none, fun _ => (0, 0)⟩

/-- A file of 2 MiB under a limit of 1 MiB: the two scans leave it out and the
pipeline submits it. -/
theorem scanners_disagree :
    ¬ ScannersAgree largeFileScan 15000000 ⟨["/d"], [], some 1, false⟩
        ⟨"idx", false⟩ everyFile ∧
    scan largeFileScan ⟨["/d"], [], some 1, false⟩ everyFile = .ok [] ∧
    scanPathsProgress largeFileScan ⟨["/d"], [], some 1, false⟩ everyFile =
      .ok ([], [.done 0]) ∧
    (pipelineSubmits largeFileScan 15000000 ⟨["/d"], [], some 1, false⟩
      ⟨"idx", false⟩ everyFile).map FileMeta.path = ["/d/a.iso"] := by
  have hscan :
      scan largeFileScan ⟨["/d"], [], some 1, false⟩ everyFile = .ok [] := by
    decide
  have hsubmits :
      (pipelineSubmits largeFileScan 15000000 ⟨["/d"], [], some 1, false⟩
        ⟨"idx", false⟩ everyFile).map FileMeta.path = ["/d/a.iso"] := by
    decide
  refine ⟨?_, hscan, by decide, hsubmits⟩
  rintro ⟨files, _, _, hfiles, _, _, hentries⟩
  rw [hscan, Except.ok.injEq] at hfiles
  rw [← hfiles, List.map_nil, List.map_eq_nil_iff] at hentries
  rw [hentries] at hsubmits
  simp at hsubmits

end SearchEvery
