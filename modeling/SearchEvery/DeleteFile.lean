import SearchEvery.TantivyIndex
import Mathlib.Tactic

/-!
# Deleting a file together with its index record

`delete_file_and_index` removes the file first and then deletes the raw path as
a term of the path field.  The file says exactly when the pair of stores ends
as an all-or-nothing deletion would leave it.
-/

namespace SearchEvery

/-- What the file system and the index writer do for one request: whether a
file which can be removed is removed this time, the smallest memory budget of
the writer, whether another writer holds the directory's lock, whether a commit
succeeds, and the texts of the errors. -/
structure DeleteEnv where
  removeOk : Bool
  minBudget : ℕ
  lockHeld : Bool
  commitOk : Bool
  removeError : String
  writerError : String
  commitError : String

def DeleteEnv.opensWriter (env : DeleteEnv) (budget : ℕ) : Bool :=
  !env.lockHeld && decide (env.minBudget ≤ budget)

/-- `fs::remove_file`. -/
def DeleteEnv.remove (env : DeleteEnv) (disk : Disk) (path : String) :
    Option Disk :=
  if env.removeOk then removeFile disk path else none

theorem DeleteEnv.removeFile_of_remove
    {env : DeleteEnv} {disk removed : Disk} {path : String}
    (hremove : env.remove disk path = some removed) :
    removeFile disk path = some removed := by
  unfold DeleteEnv.remove at hremove
  split at hremove
  next => exact hremove
  next => simp at hremove

def deleteBudget : ℕ := 10000000

structure DeleteOutcome where
  result : Except String Unit
  disk : Disk
  index : Option Index

/-- `delete_file_and_index`; `index` is `none` when the directory does not
open as an index. -/
def deleteFileAndIndex (tables : CharTables) (env : DeleteEnv)
    (path : String) (disk : Disk) (index : Option Index) : DeleteOutcome :=
  match env.remove disk path with
  | none => ⟨.error ("删除文件失败: " ++ env.removeError), disk, index⟩
  | some removed =>
      match index with
      | none => ⟨.ok (), removed, none⟩
      | some idx =>
          if idx.HasField "path" then
            if env.opensWriter deleteBudget then
              let pending := deleteTerm tables path idx.docs
              if env.commitOk then
                ⟨.ok (), removed, some { idx with docs := pending }⟩
              else ⟨.error env.commitError, removed, some idx⟩
            else ⟨.error env.writerError, removed, some idx⟩
          else ⟨.error "schema missing field 'path'", removed, some idx⟩

def IndexStepsOk (env : DeleteEnv) (index : Option Index) : Prop :=
  ∀ idx, index = some idx →
    idx.HasField "path" ∧ env.opensWriter deleteBudget = true ∧
      env.commitOk = true

instance (env : DeleteEnv) (index : Option Index) :
    Decidable (IndexStepsOk env index) :=
  decidable_of_iff
    (∀ idx ∈ index, idx.HasField "path" ∧
      env.opensWriter deleteBudget = true ∧ env.commitOk = true)
    Iff.rfl

theorem deleteFileAndIndex_not_removed
    {env : DeleteEnv} {disk : Disk} {path : String}
    (hremove : env.remove disk path = none) (tables : CharTables)
    (index : Option Index) :
    deleteFileAndIndex tables env path disk index =
      ⟨.error ("删除文件失败: " ++ env.removeError), disk, index⟩ := by
  simp [deleteFileAndIndex, hremove]

/-- Once the file is removed, the result says whether the index steps were
taken, and the index changes only when they were. -/
theorem deleteFileAndIndex_removed
    {env : DeleteEnv} {disk removed : Disk} {path : String}
    (hremove : env.remove disk path = some removed)
    (tables : CharTables) (index : Option Index) :
    (IndexStepsOk env index ∧
      deleteFileAndIndex tables env path disk index =
        ⟨.ok (), removed, index.map fun idx =>
          { idx with docs := deleteTerm tables path idx.docs }⟩) ∨
    (¬ IndexStepsOk env index ∧
      ∃ error, deleteFileAndIndex tables env path disk index =
        ⟨.error error, removed, index⟩) := by
  unfold deleteFileAndIndex
  rw [hremove]
  cases index with
  | none => exact Or.inl ⟨by simp [IndexStepsOk], rfl⟩
  | some idx =>
      by_cases hfield : idx.HasField "path"
      · by_cases hwriter : env.opensWriter deleteBudget = true
        · by_cases hcommit : env.commitOk = true
          · refine Or.inl ⟨?_, by simp [hfield, hwriter, hcommit]⟩
            intro other hother
            rw [Option.some.injEq] at hother
            exact ⟨hother ▸ hfield, hwriter, hcommit⟩
          · refine Or.inr ⟨fun hok => hcommit (hok idx rfl).2.2, ?_⟩
            exact ⟨env.commitError, by simp [hfield, hwriter, hcommit]⟩
        · refine Or.inr ⟨fun hok => hwriter (hok idx rfl).2.1, ?_⟩
          exact ⟨env.writerError, by simp [hfield, hwriter]⟩
      · refine Or.inr ⟨fun hok => hfield (hok idx rfl).1, ?_⟩
        exact ⟨"schema missing field 'path'", by simp [hfield]⟩

/-! ## All or nothing -/

/-- A deletion is all-or-nothing and exact: success on an index which opens
means the file is gone and exactly the documents of the path are gone with it;
an error means that neither store has changed. -/
def AllOrNothing (path : String) (disk : Disk) (index : Option Index)
    (outcome : DeleteOutcome) : Prop :=
  (outcome.result = .ok () → ∀ idx, index = some idx →
    ¬ Disk.HasFile outcome.disk path ∧
      outcome.index = some
        { idx with docs := idx.docs.filter fun doc => doc.path ≠ path }) ∧
  (∀ error, outcome.result = .error error →
    outcome.disk = disk ∧ outcome.index = index)

/-- The raw path is a token of exactly the documents stored under it. -/
def PathTermExact (tables : CharTables) (path : String) (docs : List Doc) :
    Prop :=
  ∀ doc ∈ docs, path ∈ tables.defaultTokens doc.path ↔ doc.path = path

theorem filter_eq_filter_iff
    {α : Type*} {p q : α → Bool} {values : List α} :
    values.filter p = values.filter q ↔ ∀ a ∈ values, p a = q a := by
  constructor
  · intro heq a ha
    have hmem : a ∈ values.filter p ↔ a ∈ values.filter q := by rw [heq]
    simp only [List.mem_filter, ha, true_and] at hmem
    exact Bool.eq_iff_iff.mpr hmem
  · exact List.filter_congr

theorem deleteTerm_eq_filter_iff
    {tables : CharTables} {path : String} {docs : List Doc} :
    (deleteTerm tables path docs = docs.filter fun doc => doc.path ≠ path) ↔
      PathTermExact tables path docs := by
  unfold deleteTerm PathTermExact
  rw [filter_eq_filter_iff]
  refine forall₂_congr fun doc _ => ?_
  unfold hasPathToken
  by_cases htoken : path ∈ tables.defaultTokens doc.path <;>
    by_cases hpath : doc.path = path <;> simp [htoken, hpath]

theorem not_hasFile_of_removeFile
    {disk removed : Disk} {path : String}
    (hremove : removeFile disk path = some removed) :
    ¬ Disk.HasFile removed path := by
  rintro ⟨node, hnode⟩
  rw [removeFile_absent hremove] at hnode
  contradiction

/-- The deletion is all-or-nothing exactly when the file could not be removed,
or there is no index to keep in step, or every index step succeeds and the raw
path is a token of exactly its own documents. -/
theorem deleteFileAndIndex_allOrNothing_iff
    (tables : CharTables) (env : DeleteEnv) (path : String) (disk : Disk)
    (index : Option Index) :
    AllOrNothing path disk index
        (deleteFileAndIndex tables env path disk index) ↔
      env.remove disk path = none ∨ index = none ∨
        (IndexStepsOk env index ∧
          ∀ idx, index = some idx → PathTermExact tables path idx.docs) := by
  cases hremove : env.remove disk path with
  | none =>
      rw [deleteFileAndIndex_not_removed hremove]
      simp [AllOrNothing]
  | some removed =>
      have hfile := env.removeFile_of_remove hremove
      have hgone := not_hasFile_of_removeFile hfile
      rcases deleteFileAndIndex_removed hremove tables index with
        ⟨hok, hout⟩ | ⟨hfail, error, hout⟩
      · rw [hout]
        cases index with
        | none => simp [AllOrNothing]
        | some idx =>
            simp only [AllOrNothing, hgone, hok, Option.map_some,
              Option.some.injEq, Index.mk.injEq, reduceCtorEq,
              not_false_eq_true, true_and, false_or, forall_eq',
              forall_true_left, false_implies, implies_true, and_true]
            exact deleteTerm_eq_filter_iff
      · rw [hout]
        have hchanged := removeFile_changes hfile
        have hindex : index ≠ none := by
          intro hnone
          apply hfail
          simp [IndexStepsOk, hnone]
        simp [AllOrNothing, hchanged, hfail, hindex]

/-- With the writer lock taken, as during a pipeline run, the file is gone, the
request fails and the record stays. -/
theorem deleteFileAndIndex_half_done :
    ¬ AllOrNothing "/d/a.txt"
        (fun path =>
          if path = "/d/a.txt" then .file ⟨[104, 105], true, true⟩ else .absent)
        (some ⟨programSchema,
          [⟨"/d/a.txt", "a.txt", "txt", 2, 0, none, none⟩]⟩)
        (deleteFileAndIndex asciiTables
          ⟨true, 15000000, true, true, "", "LockBusy", ""⟩ "/d/a.txt"
          (fun path =>
            if path = "/d/a.txt" then .file ⟨[104, 105], true, true⟩
            else .absent)
          (some ⟨programSchema,
            [⟨"/d/a.txt", "a.txt", "txt", 2, 0, none, none⟩]⟩)) := by
  intro hall
  have hdisk := (hall.2 "LockBusy" (by decide)).1
  have hat := congrFun hdisk "/d/a.txt"
  exact absurd hat (by decide)

end SearchEvery
