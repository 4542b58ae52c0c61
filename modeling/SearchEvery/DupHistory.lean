import SearchEvery.DupPage
import Mathlib.Tactic

/-!
# Removed files on the duplicate page

A page may list a file which one of its own deletions has removed, for two
reasons.  A deletion whose index step fails leaves the groups as they were,
and a detection over the cached scan groups the names of files which are gone.
In every history without these two no listed file has been removed.
-/

namespace SearchEvery

inductive PageAction
  | runDetect (request : DetectRequest)
  | handleDelete (request : DeleteRequest)

def pageStep (env : DedupEnv) (tables : CharTables) (page : DupPage) :
    PageAction → Option DupPage
  | .runDetect request => some (runDetect env request page)
  | .handleDelete request => some (handleDelete tables request page)

def DupPage.Lists (page : DupPage) (path : String) : Prop :=
  ∃ group ∈ page.dupGroups, path ∈ group.files

instance (page : DupPage) (path : String) : Decidable (page.Lists path) :=
  inferInstanceAs (Decidable (∃ group ∈ page.dupGroups, path ∈ group.files))

/-- No removed file of the cached scan shares its name with another entry. -/
def DupPage.CacheClean (env : DedupEnv) (page : DupPage) : Prop :=
  ∀ file ∈ page.scanned, file.path ∈ page.removed →
    ∀ name ∈ env.platform.fileName file.path,
      (EntryMap.valuesOf env.platform.fileName
        (page.scanned.map FileMeta.path) name).length ≤ 1

instance (env : DedupEnv) (page : DupPage) : Decidable (page.CacheClean env) :=
  inferInstanceAs (Decidable (∀ file ∈ page.scanned, _ → ∀ name ∈ _, _))

/-- The condition on an action under which no removed file gets listed. -/
def PageGuard (env : DedupEnv) (page : DupPage) : PageAction → Prop
  | .runDetect _ =>
      (∃ file ∈ page.scanned, Unreadable page.disk file.path) ∨
        page.CacheClean env
  | .handleDelete request =>
      IndexStepsOk request.writer page.index ∨ ¬ page.Lists request.path ∨
        request.confirmed = false ∨
        request.writer.remove page.disk request.path = none

instance (env : DedupEnv) (page : DupPage) (action : PageAction) :
    Decidable (PageGuard env page action) :=
  match action with
  | .runDetect _ => inferInstanceAs (Decidable ((∃ file ∈ page.scanned, _) ∨ _))
  | .handleDelete request =>
      have : Decidable (request.writer.remove page.disk request.path = none) :=
        decidable_of_iff _ Option.isNone_iff_eq_none
      inferInstanceAs (Decidable (_ ∨ ¬ _ ∨ _ ∨ _))

structure DupPage.Fresh (page : DupPage) : Prop where
  gone : ∀ path ∈ page.removed, ¬ Disk.HasFile page.disk path
  listed : ∀ path, page.Lists path → path ∉ page.removed

variable {env : DedupEnv} {tables : CharTables}

theorem IsDupGroup.subset
    {disk : Disk} {paths : List String} {group : DupGroup}
    (hgroup : IsDupGroup env disk paths group) {path : String}
    (hmem : path ∈ group.files) :
    path ∈ paths ∧ env.keyOf disk group.kind path = some group.key := by
  rw [hgroup.2] at hmem
  simpa [EntryMap.valuesOf] using hmem

theorem hasFile_of_hashKey
    {disk : Disk} {path key : String}
    (hkey : env.hashKey disk path = some key) : Disk.HasFile disk path := by
  unfold DedupEnv.hashKey at hkey
  split at hkey
  next node hentry => exact ⟨node, hentry⟩
  next => simp at hkey

theorem DupPage.Fresh.analyse
    {page : DupPage} (hfresh : page.Fresh) (call : DetectCall)
    (hclean : (∃ file ∈ page.scanned, Unreadable page.disk file.path) ∨
      page.CacheClean env) :
    (SearchEvery.analyse env call page).Fresh := by
  unfold SearchEvery.analyse
  cases hdetect : detect env call page.disk
      (page.scanned.map FileMeta.path) with
  | error error => exact ⟨hfresh.gone, hfresh.listed⟩
  | ok groups =>
      have hreadable := readable_of_detect hdetect
      have hcache : page.CacheClean env := by
        rcases hclean with ⟨file, hmem, hclosed⟩ | hcache
        · exact (hreadable file.path (List.mem_map_of_mem hmem) hclosed).elim
        · exact hcache
      refine ⟨hfresh.gone, ?_⟩
      rintro path ⟨group, hgroup, hpath⟩ hremoved
      have hdup := (mem_detect hdetect group).mp hgroup
      have hsubset := hdup.subset hpath
      cases hkind : group.kind with
      | hash =>
          have hkey := hsubset.2
          rw [hkind] at hkey
          exact hfresh.gone path hremoved (hasFile_of_hashKey hkey)
      | name =>
          obtain ⟨file, hfile, rfl⟩ := List.mem_map.mp hsubset.1
          have hname := hsubset.2
          have hfiles := hdup.2
          have hlength := hdup.1
          rw [hkind] at hname hfiles
          have hsingle := hcache file hfile hremoved group.key hname
          rw [hfiles] at hlength
          simp only [DedupEnv.keyOf] at hlength
          omega

theorem hasFile_of_scan
    {senv : ScanEnv} {roots exclude : String} {disk : Disk}
    {files : List FileMeta} {events : List ScanEvent}
    (hscan : scanPathsProgress senv (detectOptions roots exclude) disk =
      .ok (files, events)) :
    ∀ file ∈ files, Disk.HasFile disk file.path := by
  intro file hmem
  have hpaths := scanPathsProgress_paths
    (detectOptions_limit senv.overflowChecks roots exclude) hscan
  have hpath : file.path ∈ files.map FileMeta.path := List.mem_map_of_mem hmem
  rw [hpaths, List.mem_flatMap] at hpath
  obtain ⟨root, _, hroot⟩ := hpath
  exact hasFile_of_mem_admittedPaths hroot

theorem DupPage.Fresh.runDetect
    {page : DupPage} (hfresh : page.Fresh) {request : DetectRequest}
    (hguard : PageGuard env page (.runDetect request)) :
    (SearchEvery.runDetect env request page).Fresh := by
  unfold SearchEvery.runDetect
  split
  next =>
    split
    next => exact ⟨hfresh.gone, hfresh.listed⟩
    next files events hscan =>
      have hstart : DupPage.Fresh { page with scanned := files } :=
        ⟨hfresh.gone, hfresh.listed⟩
      apply hstart.analyse
      right
      intro file hmem hremoved
      exact (hfresh.gone file.path hremoved
        (hasFile_of_scan hscan file hmem)).elim
  next => exact hfresh.analyse request.call hguard

theorem lists_dropPath
    {page : DupPage} {path other : String}
    (hlists : ∃ group ∈ dropPath path page.dupGroups, other ∈ group.files) :
    page.Lists other ∧ other ≠ path := by
  obtain ⟨group, hgroup, hmem⟩ := hlists
  unfold dropPath at hgroup
  obtain ⟨before, hbefore, rfl⟩ := List.mem_map.mp (List.mem_filter.mp hgroup).1
  have hfile := List.mem_filter.mp hmem
  exact ⟨⟨before, hbefore, hfile.1⟩, by simpa using hfile.2⟩

theorem DupPage.Fresh.handleDelete
    {page : DupPage} (hfresh : page.Fresh) {request : DeleteRequest}
    (hguard : PageGuard env page (.handleDelete request)) :
    (SearchEvery.handleDelete tables request page).Fresh := by
  unfold SearchEvery.handleDelete
  by_cases hconfirmed : request.confirmed = true
  · rw [if_pos hconfirmed]
    cases hremove : request.writer.remove page.disk request.path with
    | none =>
        rw [deleteFileAndIndex_not_removed hremove]
        exact ⟨hfresh.gone, hfresh.listed⟩
    | some removed =>
        have hfile := request.writer.removeFile_of_remove hremove
        have hgone :
            ∀ path ∈ request.path :: page.removed,
              ¬ Disk.HasFile removed path := by
          intro path hmem
          by_cases heq : path = request.path
          · subst heq
            exact not_hasFile_of_removeFile hfile
          · have hold := (List.mem_cons.mp hmem).resolve_left heq
            unfold Disk.HasFile
            rw [removeFile_ne hfile heq]
            exact hfresh.gone path hold
        rcases deleteFileAndIndex_removed hremove tables page.index with
          ⟨_, hout⟩ | ⟨hfail, error, hout⟩
        · rw [hout]
          refine ⟨hgone, ?_⟩
          intro path hlists hmem
          have hdropped := lists_dropPath hlists
          have hold := (List.mem_cons.mp hmem).resolve_left hdropped.2
          exact hfresh.listed path hdropped.1 hold
        · rw [hout]
          refine ⟨hgone, ?_⟩
          intro path hlists hmem
          rcases List.mem_cons.mp hmem with rfl | hold
          · rcases hguard with hok | hnot | hunconfirmed | hnone
            · exact hfail hok
            · exact hnot hlists
            · rw [hconfirmed] at hunconfirmed
              contradiction
            · rw [hremove] at hnone
              contradiction
          · exact hfresh.listed path hlists hold
  · rw [if_neg hconfirmed]
    exact hfresh

/-- In a history whose actions all satisfy the guard, after every action no
listed path is a file which an earlier deletion has removed. -/
theorem dupPage_lists_no_removed
    {page final : DupPage} {actions : List PageAction}
    (hnone : page.removed = [])
    (hguard : ActionSystem.Guarded (pageStep env tables) (PageGuard env) page
      actions)
    (hexec : ActionSystem.exec (pageStep env tables) page actions =
      some final) :
    ∀ group ∈ final.dupGroups, ∀ path ∈ group.files, path ∉ final.removed := by
  have hkeep :
      ∀ page action next,
        page.Fresh → PageGuard env page action →
          pageStep env tables page action = some next → next.Fresh := by
    intro page action next hfresh hguard hstep
    cases action with
    | runDetect request =>
        simp only [pageStep, Option.some.injEq] at hstep
        subst hstep
        exact hfresh.runDetect hguard
    | handleDelete request =>
        simp only [pageStep, Option.some.injEq] at hstep
        subst hstep
        exact hfresh.handleDelete hguard
  have hstart : page.Fresh := by
    constructor <;> simp [hnone]
  have hfinal :=
    ActionSystem.exec_invariant_of_guarded hkeep hstart hguard hexec
  intro group hgroup path hpath
  exact hfinal.listed path ⟨group, hgroup, hpath⟩

def sampleScan : ScanEnv where
  tables := asciiTables
  platform := .unix
  walkDir := listedWalkDir
    [("/d/a", ⟨2, none⟩), ("/d/b", ⟨2, none⟩), ("/e/a", ⟨2, none⟩)] (by decide)
  overflowChecks := true
  sampleEveryVar := none
  clock _ := (0, 0)

def blankPage : DupPage where
  disk := sampleDisk ["/d/a", "/d/b", "/e/a"]
  index := none
  scanned := []
  dupGroups := []
  msg := ""
  removed := []

def sampleDetect : PageAction :=
  .runDetect ⟨sampleScan, "/d,/e", "", sampleCall⟩

def detectThenDelete : List PageAction :=
  [sampleDetect, .handleDelete (sampleRequest "/d/a")]

theorem dupPage_lists_no_removed_once :
    ∃ final,
      ActionSystem.exec (pageStep sampleDedup asciiTables) blankPage
          detectThenDelete = some final ∧
        final.removed = ["/d/a"] ∧
        final.dupGroups = [⟨.hash, sampleHash, ["/d/b", "/e/a"]⟩] ∧
        ∀ group ∈ final.dupGroups, ∀ path ∈ group.files,
          path ∉ final.removed := by
  have hexec := (Option.some_get (x := ActionSystem.exec
    (pageStep sampleDedup asciiTables) blankPage detectThenDelete)
    (by decide)).symm
  exact ⟨_, hexec, by decide, by decide,
    dupPage_lists_no_removed rfl (by decide) hexec⟩

/-- A second detection lists the removed file again, by its name. -/
theorem dupPage_lists_removed :
    ∃ final,
      ActionSystem.exec (pageStep sampleDedup asciiTables) blankPage
          (detectThenDelete ++ [sampleDetect]) = some final ∧
        "/d/a" ∈ final.removed ∧
        ⟨.name, "a", ["/d/a", "/e/a"]⟩ ∈ final.dupGroups := by
  have hexec := (Option.some_get (x := ActionSystem.exec
    (pageStep sampleDedup asciiTables) blankPage
    (detectThenDelete ++ [sampleDetect])) (by decide)).symm
  exact ⟨_, hexec, by decide, by decide⟩

end SearchEvery
