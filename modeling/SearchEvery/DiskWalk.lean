import SearchEvery.RustText
import Mathlib.Data.List.Nodup
import Mathlib.Tactic

/-!
# The disk and the directory walk

A disk says what stands at each path text.  `WalkDir` is the directory walk of
the `walkdir` crate: what it lists for a root is a parameter, with the two
documented facts the program relies on.  One walk lists no path twice, and an
entry it reports as a regular file is one.
-/

namespace SearchEvery

/-- A regular file.  The two flags say whether `File::open` and every read
succeed on it, and whether `fs::remove_file` does. -/
structure FileNode where
  content : List UInt8
  readable : Bool
  deletable : Bool
  deriving DecidableEq

inductive DiskEntry
  | absent
  | directory
  | file (node : FileNode)
  deriving DecidableEq

abbrev Disk := String → DiskEntry

def Disk.HasFile (disk : Disk) (path : String) : Prop :=
  ∃ node, disk path = .file node

def removeFile (disk : Disk) (path : String) : Option Disk :=
  match disk path with
  | .file node =>
      if node.deletable then some (Function.update disk path .absent) else none
  | _ => none

theorem removeFile_eq_some_iff
    {disk after : Disk} {path : String} :
    removeFile disk path = some after ↔
      (∃ node, disk path = .file node ∧ node.deletable = true) ∧
        after = Function.update disk path .absent := by
  unfold removeFile
  cases hentry : disk path with
  | absent => simp
  | directory => simp
  | file node =>
      cases hdel : node.deletable with
      | false => simp [hdel]
      | true =>
          simp only [hdel, if_true, Option.some.injEq, DiskEntry.file.injEq,
            exists_eq_left', true_and]
          exact eq_comm

theorem removeFile_absent
    {disk after : Disk} {path : String}
    (hremove : removeFile disk path = some after) :
    after path = .absent := by
  rw [(removeFile_eq_some_iff.mp hremove).2]
  simp

theorem removeFile_ne
    {disk after : Disk} {path other : String}
    (hremove : removeFile disk path = some after) (hne : other ≠ path) :
    after other = disk other := by
  rw [(removeFile_eq_some_iff.mp hremove).2]
  simp [hne]

theorem removeFile_changes
    {disk after : Disk} {path : String}
    (hremove : removeFile disk path = some after) : after ≠ disk := by
  obtain ⟨⟨node, hnode, _⟩, _⟩ := removeFile_eq_some_iff.mp hremove
  intro heq
  have habsent := removeFile_absent hremove
  rw [heq, hnode] at habsent
  contradiction

/-! ## The walk -/

/-- `fs::Metadata`: the length in bytes, and the modification time in
nanoseconds since the epoch where the platform gives one. -/
structure Metadata where
  len : ℕ
  modified : Option ℤ
  deriving DecidableEq

/-- A walk entry: whether its file type is a regular file, its path when that
is valid Unicode, and what `metadata()` answers for it. -/
structure WalkEntry where
  isFile : Bool
  path : Option String
  metadata : Option Metadata
  deriving DecidableEq

/-- One item of a walk; `none` is an error of the iterator. -/
abbrev WalkItem := Option WalkEntry

def WalkItem.pathText (item : WalkItem) : Option String :=
  item.bind WalkEntry.path

structure WalkDir where
  walk : Disk → String → Bool → List WalkItem
  nodup :
    ∀ disk root follow,
      ((walk disk root follow).filterMap WalkItem.pathText).Nodup
  present :
    ∀ disk root follow entry path,
      some entry ∈ walk disk root follow → entry.isFile = true →
        entry.path = some path → Disk.HasFile disk path

def isBelow (root path : String) : Bool :=
  path == root || (root ++ "/").toList.isPrefixOf path.toList

def isRegular : DiskEntry → Bool
  | .file _ => true
  | _ => false

def listedWalkDir (listing : List (String × Metadata))
    (hnodup : (listing.map Prod.fst).Nodup) : WalkDir where
  walk disk root _ :=
    (listing.filter fun row => isBelow root row.1 && isRegular (disk row.1)).map
      fun row => some ⟨true, some row.1, some row.2⟩
  nodup disk root _ := by
    rw [List.filterMap_map]
    have hpath :
        (WalkItem.pathText ∘ fun row : String × Metadata =>
          (some ⟨true, some row.1, some row.2⟩ : WalkItem)) =
          fun row => some row.1 := rfl
    rw [hpath, List.filterMap_eq_map']
    exact hnodup.sublist (List.filter_sublist.map _)
  present disk root _ entry path hmem _ hpath := by
    obtain ⟨row, hrow, heq⟩ := List.mem_map.mp hmem
    have hreg := (List.mem_filter.mp hrow).2
    simp only [Option.some.injEq] at heq
    subst heq
    simp only [Option.some.injEq] at hpath
    subst hpath
    unfold Disk.HasFile
    cases hentry : disk row.1 <;> simp [hentry, isRegular] at hreg ⊢

/-- The walk of a tree with one entry, whose path and file type depend on the
root and on whether links are followed. -/
def oneEntryWalkDir (pathOf : String → String) (isFile : Bool → Bool)
    (md : Metadata) : WalkDir where
  walk disk root follow :=
    if isRegular (disk (pathOf root)) then
      [some ⟨isFile follow, some (pathOf root), some md⟩]
    else []
  nodup disk root follow := by
    split <;> simp [WalkItem.pathText]
  present disk root follow entry path hmem _ hpath := by
    split at hmem
    next hreg =>
      simp only [List.mem_singleton, Option.some.injEq] at hmem
      subst hmem
      simp only [Option.some.injEq] at hpath
      subst hpath
      unfold Disk.HasFile
      cases hentry : disk (pathOf root) <;> simp [hentry, isRegular] at hreg ⊢
    next => simp at hmem

end SearchEvery
