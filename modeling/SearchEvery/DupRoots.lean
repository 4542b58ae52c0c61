import SearchEvery.DupPage
import Mathlib.Tactic

/-!
# Overlapping roots

A scan lists a file once for every root above it, and the detector counts
list entries.  The groups of a detection over a scan name different files
exactly when no path is listed under two of the entered roots, apart from the
calls in which the scan or the detection does not return.
-/

namespace SearchEvery

def rootPaths (senv : ScanEnv) (roots exclude : String) (disk : Disk)
    (root : String) : List String :=
  admittedPaths senv (detectOptions roots exclude) (some 524288000) disk root

/-- Every group found among the scanned paths names different files. -/
def DistinctFiles (senv : ScanEnv) (env : DedupEnv) (call : DetectCall)
    (roots exclude : String) (disk : Disk) : Prop :=
  ∀ files events groups,
    scanPathsProgress senv (detectOptions roots exclude) disk =
        .ok (files, events) →
      detect env call disk (files.map FileMeta.path) = .ok groups →
        ∀ group ∈ groups, group.files.Nodup

theorem scan_paths_eq
    {senv : ScanEnv} {roots exclude : String} {disk : Disk}
    {files : List FileMeta} {events : List ScanEvent}
    (hscan : scanPathsProgress senv (detectOptions roots exclude) disk =
      .ok (files, events)) :
    files.map FileMeta.path =
      (parseCSV roots).flatMap (rootPaths senv roots exclude disk) :=
  scanPathsProgress_paths
    (detectOptions_limit senv.overflowChecks roots exclude) hscan

theorem nodup_flatMap_rootPaths_iff
    (senv : ScanEnv) (roots exclude : String) (disk : Disk) :
    ((parseCSV roots).flatMap (rootPaths senv roots exclude disk)).Nodup ↔
      ((parseCSV roots).map (rootPaths senv roots exclude disk)).Pairwise
        List.Disjoint := by
  rw [List.nodup_flatMap, List.pairwise_map]
  constructor
  · intro hnodup
    exact hnodup.2
  · intro hdisjoint
    exact ⟨fun root _ => admittedPaths_nodup _ _ _ _ _, hdisjoint⟩

theorem IsDupGroup.nodup
    {env : DedupEnv} {disk : Disk} {paths : List String} {group : DupGroup}
    (hgroup : IsDupGroup env disk paths group) (hnodup : paths.Nodup) :
    group.files.Nodup := by
  rw [hgroup.2]
  exact hnodup.sublist List.filter_sublist

theorem exists_dupGroup_of_repeated
    (env : DedupEnv) {disk : Disk} {paths : List String} {path : String}
    (hfile : Disk.HasFile disk path) (htwice : [path, path].Sublist paths) :
    ∃ group, IsDupGroup env disk paths group ∧ ¬ group.files.Nodup := by
  obtain ⟨node, hnode⟩ := hfile
  have hkey : env.hashKey disk path = some (env.contentKey node.content) := by
    simp [DedupEnv.hashKey, hnode]
  have hfiles :
      [path, path].Sublist
        (EntryMap.valuesOf (env.hashKey disk) paths
          (env.contentKey node.content)) := by
    have hfilter := htwice.filter
      fun value => env.hashKey disk value = some (env.contentKey node.content)
    simpa [hkey, EntryMap.valuesOf] using hfilter
  refine ⟨⟨.hash, env.contentKey node.content,
    EntryMap.valuesOf (env.hashKey disk) paths (env.contentKey node.content)⟩,
    ⟨?_, rfl⟩, ?_⟩
  · exact hfiles.length_le
  · intro hnodup
    have hpair := hnodup.sublist hfiles
    simp at hpair

/-- The groups name different files exactly when the scan or the detection
fails or the roots list no path twice. -/
theorem distinctFiles_iff
    (senv : ScanEnv) (env : DedupEnv) (call : DetectCall)
    (roots exclude : String) (disk : Disk) :
    DistinctFiles senv env call roots exclude disk ↔
      senv.sampleEvery = 0 ∨
      (∃ root ∈ parseCSV roots,
        ∃ path ∈ rootPaths senv roots exclude disk root,
          Unreadable disk path) ∨
      ((parseCSV roots).map (rootPaths senv roots exclude disk)).Pairwise
        List.Disjoint := by
  constructor
  · intro hdistinct
    by_contra hnone
    rw [not_or, not_or] at hnone
    obtain ⟨hsample, hreadable, hoverlap⟩ := hnone
    obtain ⟨files, events, hscan⟩ := scanPathsProgress_ok hsample
      (detectOptions_limit senv.overflowChecks roots exclude) disk
    have hpaths := scan_paths_eq hscan
    have hopens :
        ∀ path ∈ files.map FileMeta.path, ¬ Unreadable disk path := by
      intro path hmem hclosed
      rw [hpaths, List.mem_flatMap] at hmem
      obtain ⟨root, hroot, hpath⟩ := hmem
      exact hreadable ⟨root, hroot, path, hpath, hclosed⟩
    obtain ⟨groups, hdetect, hmem⟩ := detect_ok env call hopens
    rw [← nodup_flatMap_rootPaths_iff, ← hpaths, List.nodup_iff_sublist] at hoverlap
    push Not at hoverlap
    obtain ⟨path, htwice⟩ := hoverlap
    have hlisted : path ∈ files.map FileMeta.path :=
      htwice.subset List.mem_cons_self
    rw [hpaths, List.mem_flatMap] at hlisted
    obtain ⟨root, _, hpath⟩ := hlisted
    obtain ⟨group, hgroup, hrepeats⟩ := exists_dupGroup_of_repeated env
      (hasFile_of_mem_admittedPaths hpath) htwice
    exact hrepeats (hdistinct files events groups hscan hdetect group
      ((hmem group).mpr hgroup))
  · intro hcases files events groups hscan hdetect group hmem
    have hgroup := (mem_detect hdetect group).mp hmem
    have hpaths := scan_paths_eq hscan
    rcases hcases with hzero | ⟨root, hroot, path, hpath, hclosed⟩ | hdisjoint
    · have hnil := scanPathsProgress_of_sampleEvery_zero hzero
        (detectOptions_limit senv.overflowChecks roots exclude) hscan
      rw [hnil] at hgroup
      exact hgroup.nodup List.nodup_nil
    · have hlisted : path ∈ files.map FileMeta.path := by
        rw [hpaths, List.mem_flatMap]
        exact ⟨root, hroot, hpath⟩
      exact (readable_of_detect hdetect path hlisted hclosed).elim
    · apply hgroup.nodup
      rw [hpaths]
      exact (nodup_flatMap_rootPaths_iff senv roots exclude disk).mpr hdisjoint

/-- A root entered twice: the one file of the disk makes a group of two. -/
theorem distinctFiles_repeated_root :
    ¬ DistinctFiles
        ⟨asciiTables, .unix, listedWalkDir [("/d/a", ⟨2, none⟩)] (by decide),
          true, none, fun _ => (0, 0)⟩
        sampleDedup sampleCall "/d, /d" "" (sampleDisk ["/d/a"]) := by
  intro hdistinct
  have hnodup := hdistinct
    [⟨"/d/a", "a", "", 2, 0⟩, ⟨"/d/a", "a", "", 2, 0⟩]
    [.progress 1 "/d/a" "a", .progress 2 "/d/a" "a", .done 2]
    [⟨.hash, sampleHash, ["/d/a", "/d/a"]⟩, ⟨.name, "a", ["/d/a", "/d/a"]⟩]
    rfl rfl ⟨.hash, sampleHash, ["/d/a", "/d/a"]⟩ List.mem_cons_self
  exact absurd hnodup (by decide)

end SearchEvery
