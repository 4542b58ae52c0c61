import SearchEvery.DiskWalk
import SearchEvery.EntryMap
import Mathlib.Tactic

/-!
# Duplicate detection

`dedup::detect` groups a list of paths twice, by file name without looking at
the disk and by content hash, and returns the groups with at least two
entries.  The hash function and the sizes of the single reads are parameters.
The main fact says which groups a call returns: exactly the entries of the
path list under one key, in list order, if there are at least two of them.
-/

namespace SearchEvery

/-- An incremental digest such as `Sha256`: feeding two pieces one after the
other is feeding their concatenation. -/
structure Digest where
  State : Type
  new : State
  update : State → List UInt8 → State
  finalize : State → List UInt8
  update_nil : ∀ s, update s [] = s
  update_append : ∀ s a b, update (update s a) b = update s (a ++ b)

def readBuffer : ℕ := 8192

/-- How many bytes `File::read` returns when a number of them is left. -/
structure Reader where
  readLen : String → ℕ → ℕ
  readLen_le : ∀ path left, readLen path left ≤ min left readBuffer
  readLen_pos : ∀ path left, 0 < left → 0 < readLen path left

structure DedupEnv where
  platform : Platform
  digest : Digest

/-- What may differ from one call of `detect` to the next. -/
structure DetectCall where
  reader : Reader
  hashOrder : EntryMap.IterOrder String String
  nameOrder : EntryMap.IterOrder String String
  ioError : String → String

inductive DupKind
  | hash
  | name
  deriving DecidableEq

structure DupGroup where
  kind : DupKind
  key : String
  files : List String
  deriving DecidableEq

def hexEncode (bytes : List UInt8) : String :=
  String.ofList (bytes.flatMap fun byte =>
    [Nat.digitChar (byte.toNat / 16), Nat.digitChar (byte.toNat % 16)])

def hashLoop (digest : Digest) (readLen : ℕ → ℕ) :
    ℕ → List UInt8 → digest.State → digest.State
  | 0, _, hasher => hasher
  | fuel + 1, rest, hasher =>
      let n := readLen rest.length
      if n = 0 then hasher
      else
        hashLoop digest readLen fuel (rest.drop n)
          (digest.update hasher (rest.take n))

def hashFile (env : DedupEnv) (call : DetectCall) (disk : Disk)
    (path : String) : Except String (Option String) :=
  match disk path with
  | .file node =>
      if node.readable then
        .ok (some (hexEncode (env.digest.finalize
          (hashLoop env.digest (call.reader.readLen path)
            (node.content.length + 1) node.content env.digest.new))))
      else .error (call.ioError path)
  | _ => .ok none

def dupGroupsOf (kind : DupKind)
    (entries : List (Sigma fun _ : String => List String)) : List DupGroup :=
  (entries.filter fun entry => 1 < entry.2.length).map
    fun entry => ⟨kind, entry.1, entry.2⟩

def detect (env : DedupEnv) (call : DetectCall) (disk : Disk)
    (paths : List String) : Except String (List DupGroup) := do
  let nameMap := EntryMap.group env.platform.fileName paths
  let hashMap ← paths.foldlM
    (fun map path => do
      match ← hashFile env call disk path with
      | some hash => return EntryMap.pushEntry map hash path
      | none => return map)
    (∅ : EntryMap.Map String String)
  return dupGroupsOf .hash (call.hashOrder.intoIter hashMap) ++
    dupGroupsOf .name (call.nameOrder.intoIter nameMap)

/-! ## The hash of a file -/

def DedupEnv.contentKey (env : DedupEnv) (content : List UInt8) : String :=
  hexEncode (env.digest.finalize (env.digest.update env.digest.new content))

def DedupEnv.hashKey (env : DedupEnv) (disk : Disk) (path : String) :
    Option String :=
  match disk path with
  | .file node => some (env.contentKey node.content)
  | _ => none

def Unreadable (disk : Disk) (path : String) : Prop :=
  ∃ node, disk path = .file node ∧ node.readable = false

instance (disk : Disk) (path : String) : Decidable (Unreadable disk path) :=
  match hentry : disk path with
  | .absent => .isFalse (by simp [Unreadable, hentry])
  | .directory => .isFalse (by simp [Unreadable, hentry])
  | .file node =>
      decidable_of_iff (node.readable = false) (by simp [Unreadable, hentry])

/-- With enough fuel the loop hashes all the bytes, however they are read. -/
theorem hashLoop_eq
    (digest : Digest) {readLen : ℕ → ℕ} (hle : ∀ left, readLen left ≤ left)
    (hpos : ∀ left, 0 < left → 0 < readLen left)
    (fuel : ℕ) (rest : List UInt8) (hasher : digest.State)
    (hfuel : rest.length < fuel) :
    hashLoop digest readLen fuel rest hasher = digest.update hasher rest := by
  induction fuel generalizing rest hasher with
  | zero => omega
  | succ fuel ih =>
      unfold hashLoop
      by_cases hzero : readLen rest.length = 0
      · have hempty : rest.length = 0 := by
          by_contra hlength
          have hread := hpos rest.length (Nat.pos_of_ne_zero hlength)
          omega
        simp only [hzero, if_true]
        rw [List.eq_nil_of_length_eq_zero hempty, digest.update_nil]
      · have hbound := hle rest.length
        have hdrop :
            (rest.drop (readLen rest.length)).length < fuel := by
          rw [List.length_drop]
          omega
        simp only [hzero, if_false]
        rw [ih _ _ hdrop, digest.update_append, List.take_append_drop]

theorem hashFile_eq_ok
    (env : DedupEnv) (call : DetectCall) {disk : Disk} {path : String}
    (hreadable : ¬ Unreadable disk path) :
    hashFile env call disk path = .ok (env.hashKey disk path) := by
  unfold hashFile DedupEnv.hashKey
  cases hentry : disk path with
  | absent => rfl
  | directory => rfl
  | file node =>
      have hopens : node.readable = true := by
        by_contra hclosed
        exact hreadable ⟨node, hentry, by simpa using hclosed⟩
      have hle : ∀ left, call.reader.readLen path left ≤ left :=
        fun left => (call.reader.readLen_le path left).trans (min_le_left _ _)
      have hloop := hashLoop_eq env.digest hle (call.reader.readLen_pos path)
        (node.content.length + 1) node.content env.digest.new (by omega)
      simp only [hopens, if_true, hloop]
      rfl

theorem hashFile_eq_error
    (env : DedupEnv) (call : DetectCall) {disk : Disk} {path : String}
    (hclosed : Unreadable disk path) :
    hashFile env call disk path = .error (call.ioError path) := by
  obtain ⟨node, hentry, hreadable⟩ := hclosed
  simp [hashFile, hentry, hreadable]

/-! ## The groups of a call -/

def DedupEnv.keyOf (env : DedupEnv) (disk : Disk) :
    DupKind → String → Option String
  | .hash => env.hashKey disk
  | .name => env.platform.fileName

theorem hashFold_eq_ok
    (env : DedupEnv) (call : DetectCall) {disk : Disk} {paths : List String}
    (hreadable : ∀ path ∈ paths, ¬ Unreadable disk path)
    (map : EntryMap.Map String String) :
    paths.foldlM
        (fun map path => do
          match ← hashFile env call disk path with
          | some hash => return EntryMap.pushEntry map hash path
          | none => return map) map =
      (.ok (paths.foldl (EntryMap.pushKeyed (env.hashKey disk)) map) :
        Except String (EntryMap.Map String String)) := by
  induction paths generalizing map with
  | nil => rfl
  | cons path rest ih =>
      rw [List.forall_mem_cons] at hreadable
      have hrest := ih hreadable.2
      rw [List.foldlM_cons, hashFile_eq_ok env call hreadable.1,
        List.foldl_cons, EntryMap.pushKeyed]
      cases env.hashKey disk path with
      | none => exact hrest map
      | some key => exact hrest (EntryMap.pushEntry map key path)

theorem hashFold_eq_error
    (env : DedupEnv) (call : DetectCall) {disk : Disk} {paths : List String}
    (hclosed : ∃ path ∈ paths, Unreadable disk path)
    (map : EntryMap.Map String String) :
    ∃ error,
      paths.foldlM
        (fun map path => do
          match ← hashFile env call disk path with
          | some hash => return EntryMap.pushEntry map hash path
          | none => return map) map = .error error := by
  induction paths generalizing map with
  | nil => simp at hclosed
  | cons path rest ih =>
      rw [List.foldlM_cons]
      by_cases hhead : Unreadable disk path
      · rw [hashFile_eq_error env call hhead]
        exact ⟨_, rfl⟩
      · have hrest : ∃ path ∈ rest, Unreadable disk path := by
          simpa [hhead] using hclosed
        rw [hashFile_eq_ok env call hhead]
        cases env.hashKey disk path with
        | none => exact ih hrest map
        | some key => exact ih hrest (EntryMap.pushEntry map key path)

theorem mem_dupGroupsOf
    (iter : EntryMap.IterOrder String String) (key : String → Option String)
    (kind : DupKind) (paths : List String) (group : DupGroup) :
    group ∈ dupGroupsOf kind (iter.intoIter (EntryMap.group key paths)) ↔
      group.kind = kind ∧ 1 < group.files.length ∧
        group.files = EntryMap.valuesOf key paths group.key := by
  unfold dupGroupsOf
  simp only [List.mem_map, List.mem_filter, decide_eq_true_eq]
  constructor
  · rintro ⟨⟨k, files⟩, ⟨hentry, hlength⟩, rfl⟩
    have hvalues := (iter.mem_intoIter_group key paths k files).mp hentry
    exact ⟨rfl, hlength, hvalues.1⟩
  · rintro ⟨rfl, hlength, hfiles⟩
    have hne : group.files ≠ [] := by
      intro hnil
      simp [hnil] at hlength
    have hentry := (iter.mem_intoIter_group key paths group.key
      group.files).mpr ⟨hfiles, hne⟩
    exact ⟨⟨group.key, group.files⟩, ⟨hentry, hlength⟩, rfl⟩

/-- The groups which a call over these paths reports. -/
def IsDupGroup (env : DedupEnv) (disk : Disk) (paths : List String)
    (group : DupGroup) : Prop :=
  1 < group.files.length ∧
    group.files =
      EntryMap.valuesOf (env.keyOf disk group.kind) paths group.key

theorem detect_ok
    (env : DedupEnv) (call : DetectCall) {disk : Disk} {paths : List String}
    (hreadable : ∀ path ∈ paths, ¬ Unreadable disk path) :
    ∃ groups, detect env call disk paths = .ok groups ∧
      ∀ group, group ∈ groups ↔ IsDupGroup env disk paths group := by
  unfold detect
  rw [hashFold_eq_ok env call hreadable]
  refine ⟨_, rfl, ?_⟩
  intro group
  have hhash := mem_dupGroupsOf call.hashOrder (env.hashKey disk) .hash paths
    group
  have hname := mem_dupGroupsOf call.nameOrder env.platform.fileName .name
    paths group
  rw [List.mem_append]
  refine (or_congr hhash hname).trans ?_
  unfold IsDupGroup
  cases hkind : group.kind with
  | hash => simp [DedupEnv.keyOf]
  | name => simp [DedupEnv.keyOf]

theorem detect_error
    (env : DedupEnv) (call : DetectCall) {disk : Disk} {paths : List String}
    (hclosed : ∃ path ∈ paths, Unreadable disk path) :
    ∃ error, detect env call disk paths = .error error := by
  obtain ⟨error, herror⟩ := hashFold_eq_error env call hclosed ∅
  refine ⟨error, ?_⟩
  unfold detect
  rw [herror]
  rfl

theorem readable_of_detect
    {env : DedupEnv} {call : DetectCall} {disk : Disk} {paths : List String}
    {groups : List DupGroup} (hdetect : detect env call disk paths = .ok groups) :
    ∀ path ∈ paths, ¬ Unreadable disk path := by
  intro path hmem hclosed
  obtain ⟨error, herror⟩ := detect_error env call ⟨path, hmem, hclosed⟩
  rw [hdetect] at herror
  contradiction

theorem mem_detect
    {env : DedupEnv} {call : DetectCall} {disk : Disk} {paths : List String}
    {groups : List DupGroup} (hdetect : detect env call disk paths = .ok groups)
    (group : DupGroup) :
    group ∈ groups ↔ IsDupGroup env disk paths group := by
  obtain ⟨found, hfound, hmem⟩ :=
    detect_ok env call (readable_of_detect hdetect)
  rw [hdetect, Except.ok.injEq] at hfound
  rw [hfound]
  exact hmem group

end SearchEvery
