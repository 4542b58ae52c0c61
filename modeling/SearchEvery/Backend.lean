import SearchEvery.BatchIndex
import SearchEvery.DeleteFile
import SearchEvery.IndexBuild
import SearchEvery.PipelineUpsert
import Mathlib.Tactic

/-!
# All writers of the index together

The runs of the pipeline, the two list indexers and the deletion of a file
share the index directories and the disk.  A command takes its effect on a
directory at one point, while it holds the writer's lock; a run publishes at
its commits.  A file which is removed or changed can belong to an index, which
then opens no more or lacks documents.  Over paths with a separator, which no
deletion of a term reaches, and while the files of the indexes are left alone,
the documents of a directory only ever grow.
-/

namespace SearchEvery

structure Backend where
  sys : Sys
  opened : String → Bool
  disk : Disk

/-- The committed documents, or `none` when the directory holds no index. -/
def Backend.index (b : Backend) (dir : String) : Option (List Doc) :=
  if b.opened dir then some (b.sys.docs dir) else none

/-- What a command leaves in a directory; it never removes an index. -/
def Backend.put (b : Backend) (dir : String) :
    Option (List Doc) → Backend
  | none => b
  | some docs =>
      { b with
        sys := { b.sys with docs := Function.update b.sys.docs dir docs }
        opened := Function.update b.opened dir true }

/-- What is left of an index when some of its files are removed or changed:
whether it still opens, and which documents it still has. -/
structure Damage where
  opens : Bool
  keeps : Doc → Bool

/-- A run which writes to the directory keeps the documents which its writer
has; its next commit leaves an index again. -/
def Backend.damage (b : Backend) (hit : String × Damage) : Backend :=
  { b with
    sys := { b.sys with
      docs := Function.update b.sys.docs hit.1
        (if hit.2.opens then (b.sys.docs hit.1).filter hit.2.keeps else []) }
    opened := Function.update b.opened hit.1 (b.opened hit.1 && hit.2.opens) }

def Backend.damaged (b : Backend) (hits : List (String × Damage)) : Backend :=
  hits.foldl Backend.damage b

inductive BackendAction
  | sys (action : SysAction)
  | build (dir : String) (env : BuildEnv) (enableContentParse : Bool)
      (files : List FileMeta)
  | buildInvertedIndexProgress (dir : String) (env : BatchEnv)
      (enableContentParse : Bool) (files : List FileMeta)
  | deleteFileAndIndex (path dir : String) (env : DeleteEnv)
      (hits : List (String × Damage))
  | changeDisk (disk : Disk) (hits : List (String × Damage))

/-- A run which opens its directory or commits leaves an index there. -/
def Backend.openedAfter (b : Backend) : SysAction → String → Bool
  | .run r (.openIndex true) | .run r (.commit _ true) =>
      match b.sys.runs[r]? with
      | some run => Function.update b.opened run.args.indexDir true
      | none => b.opened
  | _ => b.opened

/-- One step.  While a run holds the lock of a directory, no command gets a
writer for it.  The file of a deletion is gone before the index is opened. -/
def backendStep (env : PipelineEnv) (b : Backend) :
    BackendAction → Option Backend
  | .sys action =>
      (sysStep env b.sys action).map fun sys =>
        { b with sys := sys, opened := b.openedAfter action }
  | .build dir benv enableContentParse files =>
      if b.sys.locked dir && benv.openWriter.isOk then none
      else some (b.put dir
        (SearchEvery.build benv enableContentParse files (b.index dir)).index)
  | .buildInvertedIndexProgress dir benv enableContentParse files =>
      if b.sys.locked dir && benv.openWriter.isOk then none
      else some (b.put dir
        (SearchEvery.buildInvertedIndexProgress env.tables benv
          enableContentParse files (b.index dir)).index)
  | .deleteFileAndIndex path dir wenv hits =>
      if b.sys.locked dir && !wenv.lockHeld then none
      else
        let left :=
          if (wenv.remove b.disk path).isSome then b.damaged hits else b
        let outcome := SearchEvery.deleteFileAndIndex env.tables wenv path
          b.disk ((left.index dir).map fun docs => ⟨programSchema, docs⟩)
        some ({ left with disk := outcome.disk }.put dir
          (outcome.index.map Index.docs))
  | .changeDisk disk hits => some { b.damaged hits with disk := disk }

/-- None of the damage is done to an index. -/
def Backend.Spared (b : Backend) (hits : List (String × Damage)) : Prop :=
  ∀ hit ∈ hits, b.opened hit.1 = false

/-- Whatever the step deletes by has a separator, and no file of an index is
removed or changed. -/
def Harmless (b : Backend) : BackendAction → Prop
  | .sys (.run r (.deleteTerm i)) =>
      ∀ run ∈ b.sys.runs[r]?, ∀ worker ∈ run.frame.workers[i]?,
        HasSeparator worker.file.path
  | .buildInvertedIndexProgress _ _ _ files =>
      ∀ file ∈ files, HasSeparator file.path
  | .deleteFileAndIndex path _ _ hits => HasSeparator path ∧ b.Spared hits
  | .changeDisk _ hits => b.Spared hits
  | _ => True

instance (b : Backend) (hits : List (String × Damage)) :
    Decidable (b.Spared hits) :=
  inferInstanceAs (Decidable (∀ hit ∈ hits, b.opened hit.1 = false))

instance (b : Backend) (action : BackendAction) :
    Decidable (Harmless b action) :=
  match action with
  | .sys (.run r (.deleteTerm i)) =>
      inferInstanceAs (Decidable (∀ run ∈ b.sys.runs[r]?,
        ∀ worker ∈ run.frame.workers[i]?, HasSeparator worker.file.path))
  | .buildInvertedIndexProgress _ _ _ files =>
      inferInstanceAs (Decidable (∀ file ∈ files, HasSeparator file.path))
  | .deleteFileAndIndex path _ _ hits =>
      inferInstanceAs (Decidable (HasSeparator path ∧ b.Spared hits))
  | .changeDisk _ hits => inferInstanceAs (Decidable (b.Spared hits))
  | .sys (.run _ (.createDir _)) | .sys (.run _ (.openIndex _))
  | .sys (.run _ (.buildPool _)) | .sys (.run _ (.openWriter _ _))
  | .sys (.run _ (.markStarted _ _)) | .sys (.run _ .visit)
  | .sys (.run _ .emitScanDone) | .sys (.run _ (.markCompleted _ _))
  | .sys (.run _ .emitIndexDone) | .sys (.run _ .returnOk)
  | .sys (.run _ (.buildDoc _ _)) | .sys (.run _ (.lock _ _))
  | .sys (.run _ (.addDocument _ _)) | .sys (.run _ (.commit _ _))
  | .sys (.run _ (.unlock _)) | .sys (.run _ (.fetchAdd _))
  | .sys (.run _ (.emitProgress _)) | .sys (.run _ (.finish _))
  | .sys (.poll _ _ _) | .sys (.spawnScheduled _)
  | .sys (.scanAndIndexPipeline _ _ _) | .sys (.startAutoScanNow _ _)
  | .build _ _ _ _ => .isTrue trivial

variable {env : PipelineEnv}

/-! ## What a command does to its directory -/

theorem Backend.docs_put
    (b : Backend) (dir : String) (index : Option (List Doc)) :
    (b.put dir index).sys.docs =
      Function.update b.sys.docs dir (index.getD (b.sys.docs dir)) := by
  cases index with
  | none => exact (Function.update_eq_self dir b.sys.docs).symm
  | some docs => rfl

theorem Backend.opened_put
    (b : Backend) (dir : String) (index : Option (List Doc)) {other : String}
    (hopened : b.opened other = true) :
    (b.put dir index).opened other = true := by
  cases index with
  | none => exact hopened
  | some docs =>
      simp only [Backend.put, Function.update_apply]
      split
      · rfl
      · exact hopened

/-- A directory without an index has no documents. -/
def Backend.NoStray (b : Backend) : Prop :=
  ∀ dir, b.opened dir = false → b.sys.docs dir = []

theorem Backend.NoStray.getD_index
    {b : Backend} (hstray : b.NoStray) (dir : String) :
    (b.index dir).getD [] = b.sys.docs dir := by
  unfold Backend.index
  split
  next => rfl
  next hclosed => exact (hstray dir (by simpa using hclosed)).symm

theorem Backend.NoStray.put
    {b : Backend} (hstray : b.NoStray) (dir : String)
    (index : Option (List Doc)) : (b.put dir index).NoStray := by
  cases index with
  | none => exact hstray
  | some docs =>
      intro other hclosed
      simp only [Backend.put] at hclosed ⊢
      by_cases hother : other = dir
      · rw [hother, Function.update_self] at hclosed
        contradiction
      · rw [Function.update_of_ne hother] at hclosed ⊢
        exact hstray other hclosed

/-- What is not an index has nothing to lose. -/
theorem Backend.NoStray.damaged_eq
    {b : Backend} (hstray : b.NoStray) {hits : List (String × Damage)}
    (hspared : b.Spared hits) : b.damaged hits = b := by
  induction hits with
  | nil => rfl
  | cons hit hits ih =>
      rw [Backend.Spared, List.forall_mem_cons] at hspared
      have hdocs := hstray hit.1 hspared.1
      have hsame : b.damage hit = b := by
        have hkept : (if hit.2.opens then
            (b.sys.docs hit.1).filter hit.2.keeps else []) =
              b.sys.docs hit.1 := by
          rw [hdocs, List.filter_nil, ite_self]
        have hclosed : (b.opened hit.1 && hit.2.opens) = b.opened hit.1 := by
          rw [hspared.1, Bool.false_and]
        rw [Backend.damage, hkept, hclosed, Function.update_eq_self,
          Function.update_eq_self]
      rw [Backend.damaged, List.foldl_cons, hsame]
      exact ih hspared.2

theorem build_extends
    (benv : BuildEnv) (enableContentParse : Bool) (files : List FileMeta)
    (index : Option (List Doc)) :
    index.getD [] <+:
      (build benv enableContentParse files index).index.getD (index.getD []) := by
  cases index with
  | none => exact List.nil_prefix
  | some docs =>
      rw [(build_existing benv enableContentParse files docs).2]
      exact List.prefix_refl docs

/-- Without a writer no document is added. -/
theorem build_without_writer
    {benv : BuildEnv} (hwriter : benv.openWriter.isOk = false)
    (enableContentParse : Bool) (files : List FileMeta)
    (index : Option (List Doc)) :
    (build benv enableContentParse files index).index.getD (index.getD []) =
      index.getD [] := by
  cases index with
  | some docs => rw [(build_existing benv enableContentParse files docs).2]; rfl
  | none =>
      unfold build
      cases benv.createDirAll with
      | error message => rfl
      | ok _ =>
      simp only [Option.isSome_none, Bool.false_eq_true, if_false]
      cases benv.createInDir with
      | error message => rfl
      | ok _ =>
      cases hopen : benv.openWriter with
      | error message => rfl
      | ok _ =>
          rw [hopen] at hwriter
          simp [Except.isOk, Except.toBool] at hwriter

theorem applySteps_of_add
    {tables : CharTables} {steps : List BatchStep}
    (hadd : ∀ step ∈ steps, step.decision = .add) (docs : List Doc) :
    applySteps tables steps docs = docs ++ steps.map BatchStep.doc := by
  induction steps generalizing docs with
  | nil => simp [applySteps]
  | cons step steps ih =>
      rw [List.forall_mem_cons] at hadd
      have hstep : step.apply tables docs = docs ++ [step.doc] := by
        simp [BatchStep.apply, hadd.1]
      have hrest : applySteps tables (step :: steps) docs =
          applySteps tables steps (step.apply tables docs) := rfl
      rw [hrest, hstep, ih hadd.2]
      simp

/-- Over paths with a separator every entry of the list is added. -/
theorem applySteps_of_hasSeparator
    {tables : CharTables} (benv : BatchEnv) (enableContentParse : Bool)
    {files : List FileMeta} (hsep : ∀ file ∈ files, HasSeparator file.path)
    (snapshot docs : List Doc) :
    applySteps tables
        (batchSteps tables benv enableContentParse snapshot files) docs =
      docs ++ files.zipIdx.map fun entry =>
        progressDoc enableContentParse entry.1
          (benv.disk entry.2 entry.1.path) := by
  rw [applySteps_of_add, batchSteps, List.map_map]
  · rfl
  · intro step hstep
    obtain ⟨entry, hentry, rfl⟩ := List.mem_map.mp hstep
    exact entryDecision_eq_add_iff.mpr (lookupEntry_of_hasSeparator
      (hsep entry.1 (List.fst_mem_of_mem_zipIdx hentry)) snapshot entry.2)

/-! ## What a run does to its directory -/

section OneRun

variable {args : RunArgs} {items : List WalkItem}

/-- The writer of a run which holds a handle starts with the committed
documents; then a step leaves them in front. -/
theorem runStep_extends
    {s next : RunState} {action : RunAction}
    (hgood : s.Coherent env args items)
    (hpending : 0 < s.handles → s.docs <+: s.pending)
    (hsep : ∀ i, action = .deleteTerm i → ∀ worker ∈ s.workers[i]?,
      HasSeparator worker.file.path)
    (hstep : runStep env args items s action = some next) :
    s.docs <+: next.docs ∧ (0 < next.handles → next.docs <+: next.pending) := by
  cases haction : action.isSetup with
  | true =>
      cases runStep_spec hstep with
      | setup _ _ _ => exact ⟨List.prefix_refl _, hpending⟩
      | openWriter _ _ => exact ⟨List.prefix_refl _, fun _ => List.prefix_refl _⟩
      | _ => simp [RunAction.isSetup] at haction
  | false =>
      have hfront := hpending (runStep_handles_pos hgood haction hstep)
      cases runStep_docStep hgood hstep with
      | task _ hdocs hsame _ =>
          rw [hdocs, hsame]
          exact ⟨List.prefix_refl _, fun _ => hfront⟩
      | openWriter _ _ hdocs hsame =>
          rw [hdocs, hsame]
          exact ⟨List.prefix_refl _, fun _ => List.prefix_refl _⟩
      | spawn _ hdocs hsame _ =>
          rw [hdocs, hsame]
          exact ⟨List.prefix_refl _, fun _ => hfront⟩
      | quiet _ _ hdocs hsame _ _ _ =>
          rw [hdocs, hsame]
          exact ⟨List.prefix_refl _, fun _ => hfront⟩
      | giveUp _ _ _ hdocs hsame =>
          rw [hdocs, hsame]
          exact ⟨List.prefix_refl _, fun _ => hfront⟩
      | deleteTerm hrow _ _ hdocs hdeleted =>
          rw [hdocs, hdeleted, deleteTerm_of_hasSeparator (hsep _ rfl _ hrow)]
          exact ⟨List.prefix_refl _, fun _ => hfront⟩
      | @addDocument _ _ ok _ _ _ _ hdocs hadded =>
          rw [hdocs, hadded]
          refine ⟨List.prefix_refl _, fun _ => ?_⟩
          split
          · exact hfront.trans (List.prefix_append _ _)
          · exact hfront
      | @commit _ _ ok _ _ _ _ hpublished hsame =>
          rw [hpublished, hsame]
          cases ok with
          | true => exact ⟨hfront, fun _ => List.prefix_refl _⟩
          | false => exact ⟨List.prefix_refl _, fun _ => hfront⟩

end OneRun

/-! ## The invariant -/

/-- The run has opened or created the index of its directory. -/
def TaskPhase.hasIndex : TaskPhase → Bool
  | .indexOpened | .poolBuilt => true
  | task => task.hasOpened

theorem runStep_hasIndex
    {args : RunArgs} {items : List WalkItem} {s next : RunState}
    {action : RunAction} (hgood : s.Coherent env args items)
    (hstep : runStep env args items s action = some next)
    (hindex : next.task.hasIndex = true) :
    action = .openIndex true ∨ s.task.hasIndex = true := by
  cases haction : action.isSetup with
  | false =>
      right
      have hopened := hasOpened_of_not_isSetup hgood haction hstep
      cases htask : s.task <;>
        simp [htask, TaskPhase.hasOpened, TaskPhase.hasIndex] at hopened ⊢
  | true =>
      cases action with
      | createDir ok =>
          simp only [runStep] at hstep
          split at hstep
          · rw [← Option.some.inj hstep] at hindex
            cases ok <;> simp [TaskPhase.hasIndex, TaskPhase.hasOpened] at hindex
          · simp at hstep
      | openIndex ok =>
          simp only [runStep] at hstep
          split at hstep
          · rw [← Option.some.inj hstep] at hindex
            cases ok with
            | true => exact Or.inl rfl
            | false => simp [TaskPhase.hasIndex, TaskPhase.hasOpened] at hindex
          · simp at hstep
      | buildPool ok =>
          simp only [runStep] at hstep
          split at hstep
          next htask => exact Or.inr (by rw [htask]; rfl)
          next => simp at hstep
      | openWriter totalMemory ioOk =>
          simp only [runStep] at hstep
          split at hstep
          next htask => exact Or.inr (by rw [htask]; rfl)
          next => simp at hstep
      | _ => simp [RunAction.isSetup] at haction

structure Backend.Sound (env : PipelineEnv) (b : Backend) : Prop where
  coherent : b.sys.Coherent env
  stray : b.NoStray
  indexed :
    ∀ run ∈ b.sys.runs, run.frame.task.hasIndex = true →
      b.opened run.args.indexDir = true
  pending :
    ∀ (r : ℕ) (run : Run), b.sys.runs[r]? = some run →
      0 < run.frame.handles →
      b.sys.docs run.args.indexDir <+: run.frame.pending

theorem Sys.Coherent.withDocs
    {sys : Sys} (hgood : sys.Coherent env) (docs : String → List Doc) :
    { sys with docs := docs }.Coherent env where
  runs := fun run hrun => (hgood.runs run hrun).of_frame rfl
  locked := hgood.locked
  unique := hgood.unique

/-- A command may add documents to a directory which no run has locked, and
must leave the others as they are. -/
theorem Backend.Sound.put
    {b : Backend} (hsound : b.Sound env) {dir : String}
    {index : Option (List Doc)}
    (hkeep : b.sys.locked dir = true →
      index.getD (b.sys.docs dir) = b.sys.docs dir) :
    (b.put dir index).Sound env := by
  have hruns : (b.put dir index).sys.runs = b.sys.runs := by
    cases index <;> rfl
  refine ⟨?_, hsound.stray.put dir index, ?_, ?_⟩
  · cases index with
    | none => exact hsound.coherent
    | some docs => exact hsound.coherent.withDocs _
  · intro run hrun hindex
    rw [hruns] at hrun
    exact b.opened_put dir index (hsound.indexed run hrun hindex)
  · intro r run hrow hhandles
    rw [hruns] at hrow
    have hold := hsound.pending r run hrow hhandles
    rw [b.docs_put]
    by_cases hdir : run.args.indexDir = dir
    · have hlocked := hsound.coherent.locked dir r ⟨run, hrow, hdir, hhandles⟩
      rw [hdir, Function.update_self, hkeep hlocked, ← hdir]
      exact hold
    · rw [Function.update_of_ne hdir]
      exact hold

theorem Backend.prefix_put
    (b : Backend) {dir : String} {index : Option (List Doc)}
    (hextends : b.sys.docs dir <+: index.getD (b.sys.docs dir))
    (other : String) :
    b.sys.docs other <+: (b.put dir index).sys.docs other := by
  rw [b.docs_put]
  by_cases hother : other = dir
  · rw [hother, Function.update_self]
    exact hextends
  · rw [Function.update_of_ne hother]

theorem Backend.openedAfter_eq
    (b : Backend) (action : SysAction) :
    b.openedAfter action = b.opened ∨
      ∃ dir, b.openedAfter action = Function.update b.opened dir true := by
  match action with
  | .run r (.openIndex true) | .run r (.commit _ true) =>
      cases hrow : b.sys.runs[r]? with
      | none => exact Or.inl (by simp [Backend.openedAfter, hrow])
      | some run =>
          exact Or.inr ⟨run.args.indexDir, by simp [Backend.openedAfter, hrow]⟩
  | .run r (.openIndex false) | .run r (.commit _ false) => exact Or.inl rfl
  | .run r (.createDir _) | .run r (.buildPool _) | .run r (.openWriter _ _)
  | .run r (.markStarted _ _) | .run r .visit | .run r .emitScanDone
  | .run r (.markCompleted _ _) | .run r .emitIndexDone | .run r .returnOk
  | .run r (.buildDoc _ _) | .run r (.lock _ _) | .run r (.deleteTerm _)
  | .run r (.addDocument _ _) | .run r (.unlock _)
  | .run r (.fetchAdd _) | .run r (.emitProgress _) | .run r (.finish _) =>
      exact Or.inl rfl
  | .poll _ _ _ | .spawnScheduled _ | .scanAndIndexPipeline _ _ _
  | .startAutoScanNow _ _ => exact Or.inl rfl

theorem Backend.openedAfter_of_opened
    {b : Backend} {dir : String} (hopened : b.opened dir = true)
    (action : SysAction) : b.openedAfter action dir = true := by
  rcases b.openedAfter_eq action with hsame | ⟨other, hupdate⟩
  · rw [hsame, hopened]
  · rw [hupdate, Function.update_apply]
    split
    · rfl
    · exact hopened

theorem Backend.opened_of_openedAfter
    {b : Backend} {action : SysAction} {dir : String}
    (hclosed : b.openedAfter action dir = false) : b.opened dir = false := by
  by_contra hopened
  rw [Bool.not_eq_false] at hopened
  rw [openedAfter_of_opened hopened action] at hclosed
  contradiction

/-! ## Steps -/

/-- One step keeps the invariant, and every document stays where it is. -/
def Backend.Extends (env : PipelineEnv) (b next : Backend) : Prop :=
  next.Sound env ∧ ∀ dir, b.sys.docs dir <+: next.sys.docs dir

theorem Backend.Sound.extends_put
    {b : Backend} (hsound : b.Sound env) {dir : String}
    {index : Option (List Doc)}
    (hextends : b.sys.docs dir <+: index.getD (b.sys.docs dir))
    (hkeep : b.sys.locked dir = true →
      index.getD (b.sys.docs dir) = b.sys.docs dir) :
    b.Extends env (b.put dir index) :=
  ⟨hsound.put hkeep, b.prefix_put hextends⟩

theorem Backend.Sound.sysRun
    {b : Backend} (hsound : b.Sound env) {r : ℕ} {run : Run}
    {after : RunState} {action : RunAction}
    (hrow : b.sys.runs[r]? = some run)
    (hsep : Harmless b (.sys (.run r action)))
    (hstep : runStep env run.args run.items (b.sys.view run) action =
      some after) :
    (∀ dir, b.sys.docs dir <+: (b.sys.store r run after).docs dir) ∧
      ∀ (r' : ℕ) (other : Run),
        (b.sys.store r run after).runs[r']? = some other →
          0 < other.frame.handles →
            (b.sys.store r run after).docs other.args.indexDir <+:
              other.frame.pending := by
  have hgood := hsound.coherent.row hrow
  have hdeletes : ∀ i, action = .deleteTerm i →
      ∀ worker ∈ (b.sys.view run).workers[i]?, HasSeparator worker.file.path := by
    rintro i rfl worker hworker
    exact hsep run hrow worker hworker
  obtain ⟨hdocs, hpending⟩ := runStep_extends hgood
    (hsound.pending r run hrow) hdeletes hstep
  refine ⟨?_, ?_⟩
  · intro dir
    simp only [Sys.store]
    by_cases hdir : dir = run.args.indexDir
    · rw [hdir, Function.update_self]
      exact hdocs
    · rw [Function.update_of_ne hdir]
  · intro r' other hother hhandles
    simp only [Sys.store] at hother ⊢
    rcases TableUpdate.getElem?_set_cases hother with ⟨rfl, rfl⟩ | ⟨hne, hold⟩
    · rw [Function.update_self]
      exact hpending hhandles
    · have hfront := hsound.pending r' other hold hhandles
      by_cases hdir : other.args.indexDir = run.args.indexDir
      · -- Another run holds the directory, so this one is still setting up.
        have hidle : (b.sys.view run).handles = 0 := by
          by_contra hpos
          exact hne (hsound.coherent.unique _ r' r ⟨other, hold, rfl, hhandles⟩
            ⟨run, hrow, hdir.symm, Nat.pos_of_ne_zero hpos⟩)
        have hsetup : action.isSetup = true := by
          by_contra hnot
          rw [Bool.not_eq_true] at hnot
          have hpos := runStep_handles_pos hgood hnot hstep
          omega
        rw [hdir, Function.update_self, (runStep_setup hsetup hstep).1]
        rw [hdir] at hfront
        exact hfront
      · rw [Function.update_of_ne hdir]
        exact hfront

theorem Backend.Sound.sysStep
    {b : Backend} (hsound : b.Sound env) {sys : Sys} {action : SysAction}
    (hsep : Harmless b (.sys action))
    (hstep : SearchEvery.sysStep env b.sys action = some sys) :
    b.Extends env { b with sys := sys, opened := b.openedAfter action } := by
  have hcoherent := hsound.coherent.step hstep
  have hstray (docs : String → List Doc)
      (hdocs : ∀ dir, b.opened dir = false → docs dir = b.sys.docs dir) :
      ∀ dir, b.openedAfter action dir = false → docs dir = [] := by
    intro dir hclosed
    have hbefore := opened_of_openedAfter hclosed
    rw [hdocs dir hbefore, hsound.stray dir hbefore]
  cases sysStep_spec hstep with
  | schedule scheduled =>
      refine ⟨⟨hcoherent, hstray _ fun _ _ => rfl, ?_, hsound.pending⟩,
        fun _ => List.prefix_refl _⟩
      exact fun run hrun hindex =>
        openedAfter_of_opened (hsound.indexed run hrun hindex) action
  | launch scheduled args items =>
      refine ⟨⟨hcoherent, hstray _ fun _ _ => rfl, ?_, ?_⟩,
        fun _ => List.prefix_refl _⟩
      · intro run hrun hindex
        rcases List.mem_append.mp hrun with hold | hnew
        · exact openedAfter_of_opened (hsound.indexed run hold hindex) action
        · rw [List.mem_singleton.mp hnew] at hindex
          simp [RunFrame.initial, TaskPhase.hasIndex, TaskPhase.hasOpened]
            at hindex
      · intro r run hrow hhandles
        rcases TableUpdate.getElem?_append_cases hrow with ⟨_, rfl⟩ | hold
        · simp [RunFrame.initial] at hhandles
        · exact hsound.pending r run hold hhandles
  | @run r action run after hrow hrun =>
      have hgood := hsound.coherent.row hrow
      have hmem := List.mem_of_getElem? hrow
      obtain ⟨hdocs, hpending⟩ := hsound.sysRun hrow hsep hrun
      refine ⟨⟨hcoherent, hstray _ ?_, ?_, hpending⟩, hdocs⟩
      · intro dir hclosed
        simp only [Sys.store]
        by_cases hdir : dir = run.args.indexDir
        · have hsetup : action.isSetup = true := by
            by_contra hnot
            rw [Bool.not_eq_true] at hnot
            have hopened := hasOpened_of_not_isSetup hgood hnot hrun
            have hindex : run.frame.task.hasIndex = true := by
              change (b.sys.view run).task.hasIndex = true
              cases htask : (b.sys.view run).task <;>
                simp [htask, TaskPhase.hasOpened, TaskPhase.hasIndex]
                  at hopened ⊢
            rw [hdir, hsound.indexed run hmem hindex] at hclosed
            contradiction
          rw [hdir, Function.update_self, (runStep_setup hsetup hrun).1]
          rfl
        · rw [Function.update_of_ne hdir]
      · intro other hother hindex
        simp only [Sys.store] at hother
        rcases List.mem_or_eq_of_mem_set hother with hold | rfl
        · exact openedAfter_of_opened (hsound.indexed other hold hindex) _
        · rcases runStep_hasIndex hgood hrun hindex with rfl | hbefore
          · simp [Backend.openedAfter, hrow]
          · exact openedAfter_of_opened (hsound.indexed run hmem hbefore) _

theorem buildInvertedIndexProgress_without_writer
    {tables : CharTables} {benv : BatchEnv}
    (hwriter : benv.openWriter.isOk = false) (enableContentParse : Bool)
    (files : List FileMeta) (index : Option (List Doc)) :
    (buildInvertedIndexProgress tables benv enableContentParse files
      index).index.getD (index.getD []) = index.getD [] := by
  unfold buildInvertedIndexProgress
  cases benv.createDirAll with
  | error error => cases index <;> rfl
  | ok _ =>
  simp only
  split
  next => cases index <;> rfl
  next =>
  cases hopen : benv.openWriter with
  | error error => rfl
  | ok _ =>
      rw [hopen] at hwriter
      simp [Except.isOk, Except.toBool] at hwriter

theorem buildInvertedIndexProgress_extends
    {tables : CharTables} (benv : BatchEnv) (enableContentParse : Bool)
    {files : List FileMeta} (hsep : ∀ file ∈ files, HasSeparator file.path)
    (index : Option (List Doc)) :
    index.getD [] <+:
      (buildInvertedIndexProgress tables benv enableContentParse files
        index).index.getD (index.getD []) := by
  rcases buildInvertedIndexProgress_cases tables benv enableContentParse files
      index with ⟨error, kept, events, houtcome, hkept⟩ | houtcome
  · rw [houtcome]
    cases kept with
    | none => exact List.prefix_refl _
    | some docs =>
        rw [← hkept]
        exact List.prefix_refl _
  · rw [houtcome, Option.getD_some,
      applySteps_of_hasSeparator benv enableContentParse hsep]
    exact List.prefix_append _ _

/-- The deletion of a path with a separator deletes no document. -/
theorem deleteFileAndIndex_index
    {tables : CharTables} {path : String} (hsep : HasSeparator path)
    (wenv : DeleteEnv) (disk : Disk) (index : Option Index) :
    (deleteFileAndIndex tables wenv path disk index).index = index := by
  cases hremove : wenv.remove disk path with
  | none => rw [deleteFileAndIndex_not_removed hremove]
  | some removed =>
      rcases deleteFileAndIndex_removed hremove tables index with
        ⟨_, houtcome⟩ | ⟨_, error, houtcome⟩
      · rw [houtcome]
        cases index with
        | none => rfl
        | some idx =>
            rw [Option.map_some, deleteTerm_of_hasSeparator hsep]
      · rw [houtcome]

theorem Backend.Sound.changeDisk
    {b : Backend} (hsound : b.Sound env) (disk : Disk) :
    { b with disk := disk }.Sound env :=
  ⟨hsound.coherent, hsound.stray, hsound.indexed, hsound.pending⟩

/-- What the deletion of a path leaves of the directory. -/
theorem Backend.getD_deleteFileAndIndex
    (b : Backend) {tables : CharTables} {path : String}
    (hsep : HasSeparator path) (dir : String) (wenv : DeleteEnv) :
    ((deleteFileAndIndex tables wenv path b.disk ((b.index dir).map
      fun docs => ⟨programSchema, docs⟩)).index.map Index.docs).getD
        (b.sys.docs dir) = b.sys.docs dir := by
  rw [deleteFileAndIndex_index hsep, Option.map_map]
  unfold Backend.index
  split <;> rfl

theorem Backend.Sound.step
    {b next : Backend} {action : BackendAction} (hsound : b.Sound env)
    (hsep : Harmless b action)
    (hstep : backendStep env b action = some next) :
    b.Extends env next := by
  cases action with
  | sys action =>
      obtain ⟨sys, hsys, rfl⟩ := Option.map_eq_some_iff.mp hstep
      exact hsound.sysStep hsep hsys
  | build dir benv enableContentParse files =>
      simp only [backendStep] at hstep
      split at hstep
      next => simp at hstep
      next hguard =>
        rw [← Option.some.inj hstep]
        have hdocs := hsound.stray.getD_index dir
        refine hsound.extends_put ?_ ?_
        · rw [← hdocs]
          exact build_extends benv enableContentParse files (b.index dir)
        · intro hlocked
          rw [← hdocs]
          exact build_without_writer (by simpa [hlocked] using hguard)
            enableContentParse files (b.index dir)
  | buildInvertedIndexProgress dir benv enableContentParse files =>
      simp only [backendStep] at hstep
      split at hstep
      next => simp at hstep
      next hguard =>
        rw [← Option.some.inj hstep]
        have hdocs := hsound.stray.getD_index dir
        refine hsound.extends_put ?_ ?_
        · rw [← hdocs]
          exact buildInvertedIndexProgress_extends benv enableContentParse hsep
            (b.index dir)
        · intro hlocked
          rw [← hdocs]
          exact buildInvertedIndexProgress_without_writer
            (by simpa [hlocked] using hguard) enableContentParse files
            (b.index dir)
  | deleteFileAndIndex path dir wenv hits =>
      simp only [backendStep, hsound.stray.damaged_eq hsep.2, ite_self] at hstep
      split at hstep
      next => simp at hstep
      next =>
        rw [← Option.some.inj hstep]
        have hkeep := @getD_deleteFileAndIndex b env.tables path hsep.1 dir wenv
        exact (hsound.changeDisk _).extends_put (by rw [hkeep])
          fun _ => hkeep
  | changeDisk disk hits =>
      simp only [backendStep, hsound.stray.damaged_eq hsep] at hstep
      rw [← Option.some.inj hstep]
      exact ⟨hsound.changeDisk disk, fun _ => List.prefix_refl _⟩

/-- The program starts without runs, and a directory without an index holds no
documents. -/
theorem Backend.sound_of_no_runs
    {b : Backend} (hruns : b.sys.runs = []) (hstray : b.NoStray) :
    b.Sound env where
  coherent := Sys.coherent_of_no_runs env hruns
  stray := hstray
  indexed := by simp [hruns]
  pending := by simp [hruns]

/-- The documents of the first state are still there, in front. -/
def Backend.Grown (env : PipelineEnv) (init b : Backend) : Prop :=
  b.Sound env ∧ ∀ dir, init.sys.docs dir <+: b.sys.docs dir

theorem Backend.Grown.step
    {init b next : Backend} {action : BackendAction}
    (hgrown : init.Grown env b) (hsep : Harmless b action)
    (hstep : backendStep env b action = some next) : init.Grown env next := by
  obtain ⟨hsound, hextends⟩ := hgrown.1.step hsep hstep
  exact ⟨hsound, fun dir => (hgrown.2 dir).trans (hextends dir)⟩

/-- The documents of a sound state stay in front over every run of steps. -/
theorem Backend.Sound.grown_of_exec
    {b final : Backend} {actions : List BackendAction} (hsound : b.Sound env)
    (hguard : ActionSystem.Guarded (backendStep env) Harmless b actions)
    (hexec : ActionSystem.exec (backendStep env) b actions = some final) :
    b.Grown env final :=
  ActionSystem.exec_invariant_of_guarded
    (fun _ _ _ hgrown hsep hstep => Backend.Grown.step hgrown hsep hstep)
    ⟨hsound, fun _ => List.prefix_refl _⟩ hguard hexec

theorem Backend.NoStray.docs_of_delete
    {b next : Backend} (hstray : b.NoStray) {path dir : String}
    {wenv : DeleteEnv} {hits : List (String × Damage)}
    (hsep : HasSeparator path) (hspared : b.Spared hits)
    (hstep : backendStep env b (.deleteFileAndIndex path dir wenv hits) =
      some next) : next.sys.docs = b.sys.docs := by
  simp only [backendStep, hstray.damaged_eq hspared, ite_self] at hstep
  split at hstep
  next => simp at hstep
  next =>
    rw [← Option.some.inj hstep, Backend.docs_put]
    exact (congrArg (Function.update b.sys.docs dir)
      (b.getD_deleteFileAndIndex hsep dir wenv)).trans
        (Function.update_eq_self dir b.sys.docs)

theorem Backend.NoStray.docs_of_progress
    {b next : Backend} (hstray : b.NoStray) {dir : String} {benv : BatchEnv}
    {enableContentParse : Bool} {files : List FileMeta}
    (hsep : ∀ file ∈ files, HasSeparator file.path)
    (hstep : backendStep env b (.buildInvertedIndexProgress dir benv
      enableContentParse files) = some next)
    (hok : (buildInvertedIndexProgress env.tables benv enableContentParse files
      (b.index dir)).result = .ok ()) :
    next.sys.docs dir = b.sys.docs dir ++ files.zipIdx.map fun entry =>
      progressDoc enableContentParse entry.1
        (benv.disk entry.2 entry.1.path) := by
  simp only [backendStep] at hstep
  split at hstep
  next => simp at hstep
  next =>
    rw [← Option.some.inj hstep, Backend.docs_put, Function.update_self,
      buildInvertedIndexProgress_ok hok, Option.getD_some,
      applySteps_of_hasSeparator benv enableContentParse hsep,
      hstray.getD_index]

/-- Over paths with a separator, and while the files of the indexes are left
alone, the index is append-only under every interleaving of its writers: each
document keeps its place, a deleted file keeps its document, and a list which is
indexed again is stored again. -/
theorem backend_append_only
    {init final : Backend} {actions : List BackendAction}
    (hruns : init.sys.runs = []) (hstray : init.NoStray)
    (hguard : ActionSystem.Guarded (backendStep env) Harmless init
      actions)
    (hexec : ActionSystem.exec (backendStep env) init actions = some final) :
    (∀ dir, init.sys.docs dir <+: final.sys.docs dir) ∧
    (∀ path dir wenv hits next, HasSeparator path → final.Spared hits →
      backendStep env final (.deleteFileAndIndex path dir wenv hits) =
        some next → next.sys.docs = final.sys.docs) ∧
    ∀ dir benv enableContentParse files next,
      (∀ file ∈ files, HasSeparator file.path) →
      backendStep env final (.buildInvertedIndexProgress dir benv
        enableContentParse files) = some next →
      (buildInvertedIndexProgress env.tables benv enableContentParse files
        (final.index dir)).result = .ok () →
      next.sys.docs dir = final.sys.docs dir ++ files.zipIdx.map fun entry =>
        progressDoc enableContentParse entry.1
          (benv.disk entry.2 entry.1.path) := by
  have hfinal : init.Grown env final :=
    (Backend.sound_of_no_runs hruns hstray).grown_of_exec hguard hexec
  refine ⟨hfinal.2, ?_, ?_⟩
  · exact fun path dir wenv hits next hsep hspared hstep =>
      hfinal.1.stray.docs_of_delete hsep hspared hstep
  · exact fun dir benv enableContentParse files next hsep hstep hok =>
      hfinal.1.stray.docs_of_progress hsep hstep hok

def emptyBackend : Backend := ⟨emptySys, fun _ => false, fun _ => .absent⟩

/-- A run of the pipeline, the same file again as a list, and its deletion. -/
def storedTwice : List BackendAction :=
  (wholeRunSteps 0 "/d/a.txt").map BackendAction.sys ++
    [.buildInvertedIndexProgress "idx" quietEnv false [sampleMeta],
      .changeDisk (fun path =>
        if path = "/d/a.txt" then .file ⟨[104], true, true⟩ else .absent) [],
      .deleteFileAndIndex "/d/a.txt" "idx" ⟨true, 15000000, false, true, "", "", ""⟩
        [("old", ⟨false, fun _ => false⟩)]]

theorem backend_append_only_deleted :
    ∃ final,
      ActionSystem.exec (backendStep sampleEnv) emptyBackend storedTwice =
        some final ∧
      (final.sys.docs "idx").map Doc.path = ["/d/a.txt", "/d/a.txt"] ∧
      final.disk "/d/a.txt" = .absent ∧
      ∀ dir, emptyBackend.sys.docs dir <+: final.sys.docs dir := by
  have hexec := (Option.some_get (x := ActionSystem.exec
    (backendStep sampleEnv) emptyBackend storedTwice)
    (by decide +kernel)).symm
  have hgrown := (@backend_append_only sampleEnv emptyBackend _ _ rfl
    (fun _ _ => rfl) (by decide +kernel) hexec).1
  exact ⟨_, hexec, by decide +kernel, by decide +kernel, hgrown⟩

end SearchEvery
