import SearchEvery.ActionSystem
import SearchEvery.Dedup
import SearchEvery.DeleteFile
import SearchEvery.ScanListeners
import Mathlib.Tactic

/-!
# The duplicate page

The page keeps the scanned files and the duplicate groups; `runDetect` fills
both and `handleDelete` asks the back end to delete one file and takes it out
of the groups when the back end says so.  The last section shows that the
groups kept after successful deletions are those a new detection would find.
-/

namespace SearchEvery

def jsWhitespace (c : Char) : Bool :=
  c ∈ ['\t', '\n', '\x0b', '\x0c', '\r', ' ', '\u00a0', '\u1680', '\u2000',
    '\u2001', '\u2002', '\u2003', '\u2004', '\u2005', '\u2006', '\u2007',
    '\u2008', '\u2009', '\u200a', '\u2028', '\u2029', '\u202f', '\u205f',
    '\u3000', '\ufeff']

def jsTrim (text : List Char) : List Char :=
  ((text.dropWhile jsWhitespace).reverse.dropWhile jsWhitespace).reverse

def parseCSV (input : String) : List String :=
  (((input.toList.splitOnP (· == ',')).map jsTrim).filter
    fun part => !part.isEmpty).map String.ofList

example : parseCSV " /d , ,/e/f" = ["/d", "/e/f"] := by decide

/-- The options `runDetect` passes to `scan_paths_progress`. -/
def detectOptions (roots exclude : String) : ScanOptions where
  roots := parseCSV roots
  excludePatterns := parseCSV exclude
  maxFileSizeMb := some 500
  followSymlinks := false

theorem detectOptions_limit
    (overflowChecks : Bool) (roots exclude : String) :
    maxBytes overflowChecks (detectOptions roots exclude).maxFileSizeMb =
      .ok (some 524288000) := rfl

/-- The page with the two stores behind it.  The last field is a history: the
paths whose files a `handleDelete` has removed. -/
structure DupPage where
  disk : Disk
  index : Option Index
  scanned : List FileMeta
  dupGroups : List DupGroup
  msg : String
  removed : List String

structure DetectRequest where
  scan : ScanEnv
  roots : String
  exclude : String
  call : DetectCall

structure DeleteRequest where
  path : String
  confirmed : Bool
  writer : DeleteEnv

def analyse (env : DedupEnv) (call : DetectCall) (page : DupPage) : DupPage :=
  match detect env call page.disk (page.scanned.map FileMeta.path) with
  | .ok groups =>
      { page with
        dupGroups := groups
        msg := "检测完成：发现 " ++ toString groups.length ++ " 组重复" }
  | .error error => { page with msg := error }

/-- `runDetect`; a scan which panics gives no answer, and the page waits for its
timeout. -/
def runDetect (env : DedupEnv) (request : DetectRequest) (page : DupPage) :
    DupPage :=
  if page.scanned.isEmpty then
    match scanPathsProgress request.scan
        (detectOptions request.roots request.exclude) page.disk with
    | .error _ => { page with
        msg := (.timedOut : InvokeOutcome (List FileMeta)).errorText
          "scan_paths_progress" scanPathsTimeout }
    | .ok (files, _) =>
        analyse env request.call { page with scanned := files }
  else analyse env request.call page

/-- Take a path out of every group and drop the groups left with one file. -/
def dropPath (path : String) (groups : List DupGroup) : List DupGroup :=
  (groups.map fun group =>
    { group with files := group.files.filter (· ≠ path) }).filter
      fun group => 1 < group.files.length

def handleDelete (tables : CharTables) (request : DeleteRequest)
    (page : DupPage) : DupPage :=
  if request.confirmed then
    let outcome := deleteFileAndIndex tables request.writer request.path
      page.disk page.index
    let after := { page with
      disk := outcome.disk
      index := outcome.index
      removed :=
        if (request.writer.remove page.disk request.path).isSome then
          request.path :: page.removed else page.removed }
    match outcome.result with
    | .ok _ =>
        { after with
          dupGroups := dropPath request.path page.dupGroups
          msg := "已删除并移除索引记录" }
    | .error error => { after with msg := error }
  else page

/-! ## Successful deletions -/

def deleteStep (tables : CharTables) (page : DupPage)
    (request : DeleteRequest) : Option DupPage :=
  match request.confirmed,
      (deleteFileAndIndex tables request.writer request.path page.disk
        page.index).result with
  | true, .ok _ => some (handleDelete tables request page)
  | _, _ => none

variable {tables : CharTables}

theorem deleteStep_spec
    {page next : DupPage} {request : DeleteRequest}
    (hstep : deleteStep tables page request = some next) :
    next.dupGroups = dropPath request.path page.dupGroups ∧
      ∀ path, path ≠ request.path → next.disk path = page.disk path := by
  unfold deleteStep at hstep
  split at hstep
  next hconfirmed hresult =>
    rw [Option.some.injEq] at hstep
    subst hstep
    unfold handleDelete
    rw [if_pos hconfirmed]
    cases hremove : request.writer.remove page.disk request.path with
    | none =>
        rw [deleteFileAndIndex_not_removed hremove] at hresult
        contradiction
    | some removed =>
        have hfile := request.writer.removeFile_of_remove hremove
        rcases deleteFileAndIndex_removed hremove tables page.index with
          ⟨_, hout⟩ | ⟨_, error, hout⟩
        · rw [hout]
          exact ⟨rfl, fun path hne => removeFile_ne hfile hne⟩
        · rw [hout] at hresult
          contradiction
  next => simp at hstep

theorem exec_deleteStep
    {page final : DupPage} {requests : List DeleteRequest}
    (hexec : ActionSystem.exec (deleteStep tables) page requests = some final) :
    final.dupGroups =
        (requests.map DeleteRequest.path).foldl
          (fun groups path => dropPath path groups) page.dupGroups ∧
      ∀ path, path ∉ requests.map DeleteRequest.path →
        final.disk path = page.disk path := by
  induction requests generalizing page with
  | nil =>
      rw [ActionSystem.exec_nil, Option.some.injEq] at hexec
      subst hexec
      exact ⟨rfl, fun _ _ => rfl⟩
  | cons request rest ih =>
      obtain ⟨next, hstep, hrest⟩ :=
        ActionSystem.exec_cons_eq_some_iff.mp hexec
      have hspec := deleteStep_spec hstep
      have htail := ih hrest
      constructor
      · rw [htail.1, hspec.1]
        rfl
      · intro path hpath
        rw [List.map_cons, List.mem_cons, not_or] at hpath
        rw [htail.2 path hpath.2, hspec.2 path hpath.1]

/-! ## The closed form of a sequence of deletions -/

def DupGroup.without (paths : List String) (group : DupGroup) :
    Option DupGroup :=
  if 1 < (group.files.filter (· ∉ paths)).length then
    some { group with files := group.files.filter (· ∉ paths) }
  else none

theorem dropPath_eq_filterMap
    (path : String) (groups : List DupGroup) :
    dropPath path groups = groups.filterMap (DupGroup.without [path]) := by
  induction groups with
  | nil => rfl
  | cons group rest ih =>
      have hsingle :
          group.files.filter (· ∉ [path]) = group.files.filter (· ≠ path) := by
        simp
      unfold dropPath at ih ⊢
      rw [List.map_cons]
      by_cases hlength : 1 < (group.files.filter (· ≠ path)).length
      · have hkept : group.without [path] =
            some { group with files := group.files.filter (· ≠ path) } := by
          rw [DupGroup.without, hsingle, if_pos hlength]
        rw [List.filter_cons_of_pos (by exact decide_eq_true hlength), ih,
          List.filterMap_cons_some hkept]
      · have hdropped : group.without [path] = none := by
          rw [DupGroup.without, hsingle, if_neg hlength]
        rw [List.filter_cons_of_neg (by simpa using hlength), ih,
          List.filterMap_cons_none hdropped]

theorem DupGroup.without_bind
    (path : String) (paths : List String) (group : DupGroup) :
    (group.without [path]).bind (DupGroup.without paths) =
      group.without (path :: paths) := by
  have hfiles :
      (group.files.filter (· ∉ [path])).filter (· ∉ paths) =
        group.files.filter (· ∉ path :: paths) := by
    rw [List.filter_filter]
    apply List.filter_congr
    intro file _
    by_cases hfile : file = path <;> simp [hfile]
  unfold DupGroup.without
  by_cases hfirst : 1 < (group.files.filter (· ∉ [path])).length
  · rw [if_pos hfirst, Option.bind_some]
    simp only [hfiles]
  · have hlength :
        (group.files.filter (· ∉ path :: paths)).length ≤
          (group.files.filter (· ∉ [path])).length := by
      rw [← hfiles]
      exact List.length_filter_le _ _
    rw [if_neg hfirst, Option.bind_none, if_neg (by omega)]

theorem foldl_dropPath
    (paths : List String) {groups : List DupGroup}
    (hgroups : ∀ group ∈ groups, 1 < group.files.length) :
    paths.foldl (fun groups path => dropPath path groups) groups =
      groups.filterMap (DupGroup.without paths) := by
  induction paths generalizing groups with
  | nil =>
      have hsame :
          ∀ group ∈ groups, DupGroup.without [] group = some group := by
        intro group hmem
        simp [DupGroup.without, hgroups group hmem]
      rw [List.filterMap_congr hsame, List.filterMap_some]
      rfl
  | cons path rest ih =>
      have hdropped :
          ∀ group ∈ dropPath path groups, 1 < group.files.length := by
        intro group hmem
        unfold dropPath at hmem
        simpa using (List.mem_filter.mp hmem).2
      rw [List.foldl_cons, ih hdropped, dropPath_eq_filterMap,
        List.filterMap_filterMap]
      simp only [DupGroup.without_bind]

/-! ## Simulation -/

theorem valuesOf_without
    {env : DedupEnv} {disk disk' : Disk} {deleted : List String}
    (hdisk : ∀ path, path ∉ deleted → disk' path = disk path)
    (paths : List String) (kind : DupKind) (key : String) :
    EntryMap.valuesOf (env.keyOf disk' kind) (paths.filter (· ∉ deleted)) key =
      (EntryMap.valuesOf (env.keyOf disk kind) paths key).filter
        (· ∉ deleted) := by
  rw [← EntryMap.valuesOf_filter]
  apply EntryMap.valuesOf_congr
  intro path hmem
  have hpath : path ∉ deleted := by
    simpa using (List.mem_filter.mp hmem).2
  cases kind with
  | hash => simp only [DedupEnv.keyOf, DedupEnv.hashKey, hdisk path hpath]
  | name => rfl

theorem mem_filterMap_without_iff
    {env : DedupEnv} {disk disk' : Disk} {paths deleted : List String}
    {groups : List DupGroup}
    (hgroups : ∀ group, group ∈ groups ↔ IsDupGroup env disk paths group)
    (hdisk : ∀ path, path ∉ deleted → disk' path = disk path)
    (group : DupGroup) :
    group ∈ groups.filterMap (DupGroup.without deleted) ↔
      IsDupGroup env disk' (paths.filter (· ∉ deleted)) group := by
  rw [List.mem_filterMap]
  constructor
  · rintro ⟨before, hbefore, hwithout⟩
    have hfiles := ((hgroups before).mp hbefore).2
    unfold DupGroup.without at hwithout
    split at hwithout
    next hlength =>
      rw [Option.some.injEq] at hwithout
      subst hwithout
      refine ⟨hlength, ?_⟩
      simp only
      rw [valuesOf_without hdisk, ← hfiles]
    next => simp at hwithout
  · rintro ⟨hlength, hfiles⟩
    rw [valuesOf_without hdisk] at hfiles
    let before : DupGroup :=
      ⟨group.kind, group.key,
        EntryMap.valuesOf (env.keyOf disk group.kind) paths group.key⟩
    have hmore : group.files.length ≤ before.files.length := by
      rw [hfiles]
      exact List.length_filter_le _ _
    have hbefore : before ∈ groups :=
      (hgroups before).mpr ⟨by omega, rfl⟩
    refine ⟨before, hbefore, ?_⟩
    unfold DupGroup.without
    rw [← hfiles, if_pos hlength]

/-- Sequences of successful deletions simulate a new detection: the groups on
the page are those which `detect` returns for the paths which are left, each
with at least two files, whatever the order of the deletions. -/
theorem handleDelete_simulates_detect
    {env : DedupEnv} {call : DetectCall} {page final : DupPage}
    {paths : List String} {requests : List DeleteRequest}
    (hdetect : detect env call page.disk paths = .ok page.dupGroups)
    (hexec : ActionSystem.exec (deleteStep tables) page requests =
      some final) :
    (∀ call' disk',
      (disk' = page.disk ∨ disk' = final.disk) →
        ∃ groups,
          detect env call' disk'
              (paths.filter (· ∉ requests.map DeleteRequest.path)) =
            .ok groups ∧
          ∀ group, group ∈ final.dupGroups ↔ group ∈ groups) ∧
    (∀ group ∈ final.dupGroups, 2 ≤ group.files.length) ∧
    (∀ requests' final',
      (requests'.map DeleteRequest.path).Perm
          (requests.map DeleteRequest.path) →
        ActionSystem.exec (deleteStep tables) page requests' = some final' →
          final'.dupGroups = final.dupGroups) := by
  have hgroups := mem_detect hdetect
  have hreadable := readable_of_detect hdetect
  have hlarge :
      ∀ group ∈ page.dupGroups, 1 < group.files.length :=
    fun group hmem => ((hgroups group).mp hmem).1
  obtain ⟨hfold, hdisk⟩ := exec_deleteStep hexec
  rw [foldl_dropPath _ hlarge] at hfold
  refine ⟨?_, ?_, ?_⟩
  · intro call' disk' heq
    have hsame :
        ∀ path, path ∉ requests.map DeleteRequest.path →
          disk' path = page.disk path := by
      rcases heq with rfl | rfl
      · exact fun _ _ => rfl
      · exact hdisk
    have hstill :
        ∀ path ∈ paths.filter (· ∉ requests.map DeleteRequest.path),
          ¬ Unreadable disk' path := by
      intro path hmem
      have hpath := List.mem_filter.mp hmem
      unfold Unreadable
      rw [hsame path (by simpa using hpath.2)]
      exact hreadable path hpath.1
    obtain ⟨groups, hagain, hmem⟩ := detect_ok env call' hstill
    refine ⟨groups, hagain, ?_⟩
    intro group
    rw [hfold, hmem group]
    exact mem_filterMap_without_iff hgroups hsame group
  · intro group hmem
    rw [hfold] at hmem
    have hdup := (mem_filterMap_without_iff hgroups hdisk group).mp hmem
    exact hdup.1
  · intro requests' final' hperm hexec'
    have hfold' := (exec_deleteStep hexec').1
    rw [foldl_dropPath _ hlarge] at hfold'
    rw [hfold, hfold']
    have hwithout :
        DupGroup.without (requests'.map DeleteRequest.path) =
          DupGroup.without (requests.map DeleteRequest.path) := by
      funext group
      simp only [DupGroup.without, hperm.mem_iff]
    rw [hwithout]

/-- A digest which agrees with SHA-256 on the two bytes of the sample file. -/
def sampleDigest : Digest where
  State := List UInt8
  new := []
  update hasher bytes := hasher ++ bytes
  finalize hasher :=
    if hasher = [104, 105] then
      [143, 67, 67, 70, 100, 143, 107, 150, 223, 137, 221, 169, 1,
        197, 23, 107, 16, 166, 216, 57, 97, 221, 60, 26, 200, 139, 89,
        178, 220, 50, 122, 164]
    else hasher
  update_nil := List.append_nil
  update_append := List.append_assoc

def sampleCall : DetectCall where
  reader := ⟨fun _ left => min left readBuffer, fun _ _ => le_rfl,
    fun _ _ hleft => lt_min hleft (by decide)⟩
  hashOrder := ⟨id, fun _ => List.Perm.refl _⟩
  nameOrder := ⟨id, fun _ => List.Perm.refl _⟩
  ioError := id

def sampleDedup : DedupEnv := ⟨.unix, sampleDigest⟩

def sampleDisk (paths : List String) : Disk := fun path =>
  if path ∈ paths then .file ⟨[104, 105], true, true⟩ else .absent

def sampleHash : String :=
  "8f434346648f6b96df89dda901c5176b10a6d83961dd3c1ac88b59b2dc327aa4"

def samplePage : DupPage where
  disk := sampleDisk ["/d/a", "/d/b", "/e/a"]
  index := none
  scanned := []
  dupGroups :=
    [⟨.hash, sampleHash, ["/d/a", "/d/b", "/e/a"]⟩,
      ⟨.name, "a", ["/d/a", "/e/a"]⟩]
  msg := ""
  removed := []

def sampleRequest (path : String) : DeleteRequest :=
  ⟨path, true, ⟨true, 15000000, false, true, "", "", ""⟩⟩

theorem handleDelete_simulates_detect_one :
    ∃ final groups,
      ActionSystem.exec (deleteStep asciiTables) samplePage
          [sampleRequest "/d/a"] = some final ∧
        final.dupGroups = [⟨.hash, sampleHash, ["/d/b", "/e/a"]⟩] ∧
        detect sampleDedup sampleCall final.disk ["/d/b", "/e/a"] =
          .ok groups ∧
        ∀ group, group ∈ final.dupGroups ↔ group ∈ groups := by
  have hexec := (Option.some_get (x := ActionSystem.exec
    (deleteStep asciiTables) samplePage [sampleRequest "/d/a"])
    (by decide)).symm
  have hdetect : detect sampleDedup sampleCall samplePage.disk
      ["/d/a", "/d/b", "/e/a"] = .ok samplePage.dupGroups := by
    rfl
  obtain ⟨groups, hgroups, hmem⟩ :=
    (handleDelete_simulates_detect hdetect hexec).1 sampleCall _ (Or.inr rfl)
  exact ⟨_, groups, hexec, by decide, hgroups, hmem⟩

end SearchEvery
