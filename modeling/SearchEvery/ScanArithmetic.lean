import SearchEvery.Scanner
import SearchEvery.FallibleLoop
import Mathlib.Tactic

/-!
# The arithmetic of the scans

The scans multiply the size limit in `u64`, subtract seconds in `i64`, count
accepted files in `usize` and divide the count by the sampling interval of the
log.  The file gives the two loops with these widths.  An operation which
leaves its width is a fault in a build with overflow checks and wraps in the
other builds, so a run overflows nowhere exactly when the build with the checks
shows no fault.
-/

namespace SearchEvery

/-! ## Operations of fixed width -/

def InI64 (n : ℤ) : Prop := -2 ^ 63 ≤ n ∧ n < 2 ^ 63

instance (n : ℤ) : Decidable (InI64 n) :=
  inferInstanceAs (Decidable (_ ∧ _))

/-- The cast `n as i64`, which never faults. -/
def asI64 (n : ℤ) : ℤ := n.bmod (2 ^ 64)

def subI64 (overflowChecks : Bool) (a b : ℤ) : Except Fault ℤ :=
  if InI64 (a - b) then .ok (a - b)
  else if overflowChecks then .error .overflow
  else .ok (asI64 (a - b))

def addUsize (overflowChecks : Bool) (a b : ℕ) : Except Fault ℕ :=
  if a + b < 2 ^ 64 then .ok (a + b)
  else if overflowChecks then .error .overflow
  else .ok ((a + b) % 2 ^ 64)

def remUsize (a b : ℕ) : Except Fault ℕ :=
  if b = 0 then .error .divideByZero else .ok (a % b)

theorem subI64_of_fits
    {a b : ℤ} (hfits : InI64 (a - b)) (overflowChecks : Bool) :
    subI64 overflowChecks a b = .ok (a - b) :=
  if_pos hfits

theorem subI64_checked
    {a b : ℤ} (hfits : ¬ InI64 (a - b)) :
    subI64 true a b = .error .overflow := by
  rw [subI64, if_neg hfits]
  rfl

theorem addUsize_of_fits
    {a b : ℕ} (hfits : a + b < 2 ^ 64) (overflowChecks : Bool) :
    addUsize overflowChecks a b = .ok (a + b) :=
  if_pos hfits

theorem addUsize_checked
    {a b : ℕ} (hfits : ¬ a + b < 2 ^ 64) :
    addUsize true a b = .error .overflow := by
  rw [addUsize, if_neg hfits]
  rfl

theorem remUsize_of_ne
    {b : ℕ} (hb : b ≠ 0) (a : ℕ) : remUsize a b = .ok (a % b) :=
  if_neg hb

/-! ## The two loops -/

/-- `Utc::now().timestamp() - elapsed.as_secs() as i64`. -/
def machineModifiedTs (overflowChecks : Bool) (elapsedAt nowAt : ℤ)
    (modified : Option ℤ) : Except Fault ℤ :=
  match modified with
  | none => .ok 0
  | some t =>
      if t ≤ elapsedAt then
        subI64 overflowChecks (nowAt / nanosPerSecond)
          (asI64 ((elapsedAt - t) / nanosPerSecond))
      else .ok 0

/-- The arithmetic for one accepted file, the same in both loops: its
modification time, the count after it, and the remainder for the log. -/
def countFile (env : ScanEnv) (index scannedFiles : ℕ) (md : Metadata) :
    Except Fault (ℤ × ℕ) := do
  let reading := env.clock index
  let modifiedTs ←
    machineModifiedTs env.overflowChecks reading.1 reading.2 md.modified
  let scannedFiles ← addUsize env.overflowChecks scannedFiles 1
  let _ ← remUsize scannedFiles env.sampleEvery
  return (modifiedTs, scannedFiles)

def acceptFile (env : ScanEnv) (state : ScanState)
    (found : String × Metadata) : Except Fault ScanState := do
  let counted ←
    countFile env state.results.length state.scannedFiles found.2
  return state.push env found counted

def machineStep (env : ScanEnv) (excludePatterns : List String)
    (limit : Option ℕ) (state : ScanState) (item : WalkItem) :
    Except Fault ScanState :=
  match admitEntry excludePatterns limit item with
  | some found => acceptFile env state found
  | none => pure state

/-- `scan_paths_progress` with the widths of its integers. -/
def machineScanPathsProgress (env : ScanEnv) (opts : ScanOptions)
    (disk : Disk) : Except Fault (List FileMeta × List ScanEvent) := do
  let limit ← maxBytes env.overflowChecks opts.maxFileSizeMb
  let final ← (walkRoots env opts disk).foldlM
    (machineStep env opts.excludePatterns limit) ScanState.initial
  return (final.results, final.events ++ [.done final.results.length])

def machineCollectStep (env : ScanEnv) (excludePatterns : List String)
    (limit : Option ℕ) (state : Collected) (item : WalkItem) :
    Except Fault Collected :=
  match admitEntry excludePatterns limit item with
  | none => .ok state
  | some (path, md) => do
      let counted ← countFile env state.results.length state.scannedFiles md
      let file := fileMetaOf env.tables env.platform path md counted.1
      return ⟨state.results ++ [file], counted.2⟩

/-- `scanner::scan` with the widths of its integers. -/
def machineScan (env : ScanEnv) (opts : ScanOptions) (disk : Disk) :
    Except Fault (List FileMeta) := do
  let limit ← maxBytes env.overflowChecks opts.maxFileSizeMb
  let final ← (walkRoots env opts disk).foldlM
    (machineCollectStep env opts.excludePatterns limit) ⟨[], 0⟩
  return final.results

/-- The same program built with overflow checks. -/
def ScanEnv.checked (env : ScanEnv) : ScanEnv :=
  { env with overflowChecks := true }

theorem machineCollectStep_collected
    (env : ScanEnv) (excludePatterns : List String) (limit : Option ℕ)
    (state : ScanState) (item : WalkItem) :
    machineCollectStep env excludePatterns limit state.collected item =
      (machineStep env excludePatterns limit state item).map
        ScanState.collected := by
  unfold machineCollectStep machineStep
  cases admitEntry excludePatterns limit item with
  | none => rfl
  | some found =>
      simp only [acceptFile, ScanState.collected]
      cases countFile env state.results.length state.scannedFiles found.2 with
      | error fault => rfl
      | ok counted => rfl

theorem machineScan_eq
    (env : ScanEnv) (opts : ScanOptions) (disk : Disk) :
    machineScan env opts disk =
      (machineScanPathsProgress env opts disk).map Prod.fst := by
  unfold machineScan machineScanPathsProgress
  cases maxBytes env.overflowChecks opts.maxFileSizeMb with
  | error fault => rfl
  | ok limit =>
      have hfold := FallibleLoop.foldlM_view
        (machineCollectStep_collected env opts.excludePatterns limit)
        (walkRoots env opts disk) ScanState.initial
      simp only [bind, Except.bind]
      rw [show (⟨[], 0⟩ : Collected) = ScanState.initial.collected from rfl,
        hfold]
      cases (walkRoots env opts disk).foldlM
          (machineStep env opts.excludePatterns limit) ScanState.initial with
      | error fault => rfl
      | ok final => rfl

/-! ## What one accepted file needs -/

/-- The subtraction of seconds for a file stays inside `i64`. -/
def TimeFits (reading : ℤ × ℤ) (modified : Option ℤ) : Prop :=
  ∀ t ∈ modified, t ≤ reading.1 →
    InI64 (reading.2 / nanosPerSecond -
      asI64 ((reading.1 - t) / nanosPerSecond))

structure FileFits (env : ScanEnv) (index scannedFiles : ℕ) (md : Metadata) :
    Prop where
  time : TimeFits (env.clock index) md.modified
  count : scannedFiles + 1 < 2 ^ 64
  sample : env.sampleEvery ≠ 0

theorem machineModifiedTs_of_fits
    {reading : ℤ × ℤ} {modified : Option ℤ}
    (hfits : TimeFits reading modified) :
    ∃ modifiedTs, ∀ overflowChecks,
      machineModifiedTs overflowChecks reading.1 reading.2 modified =
        .ok modifiedTs := by
  cases modified with
  | none => exact ⟨0, fun _ => rfl⟩
  | some t =>
      by_cases hpast : t ≤ reading.1
      · have hin := hfits t rfl hpast
        exact ⟨_, fun overflowChecks =>
          (if_pos hpast).trans (subI64_of_fits hin overflowChecks)⟩
      · exact ⟨0, fun _ => if_neg hpast⟩

theorem machineModifiedTs_checked
    {reading : ℤ × ℤ} {modified : Option ℤ}
    (hfits : ¬ TimeFits reading modified) :
    machineModifiedTs true reading.1 reading.2 modified =
      .error .overflow := by
  unfold TimeFits at hfits
  push Not at hfits
  obtain ⟨t, ht, hpast, hout⟩ := hfits
  obtain rfl := Option.mem_def.mp ht
  rw [machineModifiedTs, if_pos hpast, subI64_checked hout]

theorem countFile_of_fits
    {env : ScanEnv} {index scannedFiles : ℕ} {md : Metadata}
    (hfits : FileFits env index scannedFiles md) :
    ∃ modifiedTs, ∀ overflowChecks,
      countFile { env with overflowChecks := overflowChecks } index
        scannedFiles md = .ok (modifiedTs, scannedFiles + 1) := by
  obtain ⟨modifiedTs, htime⟩ := machineModifiedTs_of_fits hfits.time
  refine ⟨modifiedTs, fun overflowChecks => ?_⟩
  have hsample :
      ({ env with overflowChecks := overflowChecks } : ScanEnv).sampleEvery ≠
        0 := hfits.sample
  simp only [countFile, htime, addUsize_of_fits hfits.count,
    remUsize_of_ne hsample, bind, Except.bind]
  rfl

@[simp] theorem ScanEnv.checked_overflowChecks (env : ScanEnv) :
    env.checked.overflowChecks = true := rfl

@[simp] theorem ScanEnv.checked_clock (env : ScanEnv) :
    env.checked.clock = env.clock := rfl

@[simp] theorem ScanEnv.checked_sampleEvery (env : ScanEnv) :
    env.checked.sampleEvery = env.sampleEvery := rfl

theorem countFile_checked
    {env : ScanEnv} {index scannedFiles : ℕ} {md : Metadata}
    (hfits : ¬ FileFits env index scannedFiles md) :
    ∃ fault, countFile env.checked index scannedFiles md = .error fault := by
  unfold countFile
  simp only [ScanEnv.checked_overflowChecks, ScanEnv.checked_clock,
    ScanEnv.checked_sampleEvery]
  by_cases htime : TimeFits (env.clock index) md.modified
  · obtain ⟨modifiedTs, hts⟩ := machineModifiedTs_of_fits htime
    by_cases hcount : scannedFiles + 1 < 2 ^ 64
    · have hsample : env.sampleEvery = 0 := by
        by_contra hsample
        exact hfits ⟨htime, hcount, hsample⟩
      rw [hts, addUsize_of_fits hcount, hsample]
      exact ⟨.divideByZero, rfl⟩
    · rw [hts, addUsize_checked hcount]
      exact ⟨.overflow, rfl⟩
  · rw [machineModifiedTs_checked htime]
    exact ⟨.overflow, rfl⟩

theorem acceptFile_of_fits
    {env : ScanEnv} {state : ScanState} {found : String × Metadata}
    (hfits : FileFits env state.results.length state.scannedFiles found.2) :
    ∃ modifiedTs, ∀ overflowChecks,
      acceptFile { env with overflowChecks := overflowChecks } state found =
        .ok (state.push env found (modifiedTs, state.scannedFiles + 1)) := by
  obtain ⟨modifiedTs, hcounted⟩ := countFile_of_fits hfits
  refine ⟨modifiedTs, fun overflowChecks => ?_⟩
  rw [acceptFile, hcounted]
  rfl

theorem acceptFile_checked
    {env : ScanEnv} {state : ScanState} {found : String × Metadata}
    (hfits : ¬ FileFits env state.results.length state.scannedFiles found.2) :
    ∃ fault, acceptFile env.checked state found = .error fault := by
  obtain ⟨fault, hfault⟩ := countFile_checked hfits
  refine ⟨fault, ?_⟩
  rw [acceptFile, hfault]
  rfl

/-! ## Whole scans -/

def ScanState.Counted (state : ScanState) : Prop :=
  state.scannedFiles = state.results.length

theorem ScanState.Counted.push
    {state : ScanState} (hcounted : state.Counted) (env : ScanEnv)
    (found : String × Metadata) (modifiedTs : ℤ) :
    (state.push env found (modifiedTs, state.scannedFiles + 1)).Counted := by
  unfold ScanState.Counted at hcounted ⊢
  simp [ScanState.push, hcounted]

theorem acceptFile_turns
    (env : ScanEnv) :
    FallibleLoop.Turns (acceptFile env.checked) ScanState.Counted
      (fun state => state.results.length) (fun _ _ => False)
      (fun k found => ¬ FileFits env k k found.2) (fun _ => True) := by
  intro state found hcounted
  right
  by_cases hfits : FileFits env state.results.length state.scannedFiles found.2
  · obtain ⟨modifiedTs, haccept⟩ := acceptFile_of_fits hfits
    rw [hcounted] at hfits
    refine .inr ⟨not_false, not_not_intro hfits, _,
      hcounted.push env found modifiedTs, ?_, haccept true⟩
    simp [ScanState.push]
  · obtain ⟨fault, hfault⟩ := acceptFile_checked hfits
    rw [hcounted] at hfits
    exact .inl ⟨not_false, hfits, fault, trivial, hfault⟩

theorem machineFold_eq
    (env : ScanEnv) (excludePatterns : List String) (limit : Option ℕ)
    (items : List WalkItem) (state : ScanState) :
    items.foldlM (machineStep env excludePatterns limit) state =
      (items.filterMap (admitEntry excludePatterns limit)).foldlM
        (acceptFile env) state := by
  rw [List.foldlM_filterMap]
  congr 1
  funext state item
  unfold machineStep
  cases admitEntry excludePatterns limit item with
  | none => rfl
  | some found => rfl

theorem machineFold_faultless_iff
    (env : ScanEnv) (excludePatterns : List String) (limit : Option ℕ)
    (items : List WalkItem) :
    (∀ fault, items.foldlM (machineStep env.checked excludePatterns limit)
        ScanState.initial ≠ .error fault) ↔
      ∀ k found,
        (items.filterMap (admitEntry excludePatterns limit))[k]? =
          some found →
        FileFits env k k found.2 := by
  have hturns := (acceptFile_turns env).foldlM_iff (s := ScanState.initial)
    rfl (items.filterMap (admitEntry excludePatterns limit))
  simp only [machineFold_eq]
  simpa [FallibleLoop.Harmless, ScanState.initial] using hturns

/-! ## The loops without widths -/

/-- A modification time which lies less than `2 ^ 63` seconds back. -/
def PlainTime (reading : ℤ × ℤ) (modified : Option ℤ) : Prop :=
  ∀ t ∈ modified, t ≤ reading.1 →
    (reading.1 - t) / nanosPerSecond < 2 ^ 63 ∧
      InI64 (reading.2 / nanosPerSecond - (reading.1 - t) / nanosPerSecond)

theorem asI64_of_small
    {n : ℤ} (hpos : 0 ≤ n) (hsmall : n < 2 ^ 63) : asI64 n = n := by
  unfold asI64
  rw [Int.bmod_eq_of_le] <;> omega

theorem asI64_of_large
    {n : ℤ} (hlarge : 2 ^ 63 ≤ n) (hsmall : n < 2 ^ 64) :
    asI64 n = n - 2 ^ 64 := by
  have hshift : (n - 2 ^ 64).bmod (2 ^ 64) = n.bmod (2 ^ 64) :=
    Int.sub_bmod_right n (2 ^ 64)
  rw [asI64, ← hshift, Int.bmod_eq_of_le] <;> omega

/-- For a clock which shows a positive `i64`, and a time which is an `i64`
itself, the subtraction fits exactly when less than `2 ^ 63` seconds have
gone by. -/
theorem timeFits_some_iff
    {reading : ℤ × ℤ} {t : ℤ} (hpast : t ≤ reading.1)
    (hpos : 0 ≤ reading.2 / nanosPerSecond)
    (hnow : reading.2 / nanosPerSecond < 2 ^ 63)
    (hold : (reading.1 - t) / nanosPerSecond ≤
      reading.2 / nanosPerSecond + 2 ^ 63) :
    TimeFits reading (some t) ↔
      (reading.1 - t) / nanosPerSecond < 2 ^ 63 := by
  have helapsed : 0 ≤ (reading.1 - t) / nanosPerSecond :=
    Int.ediv_nonneg (by omega) (by decide)
  have hone : TimeFits reading (some t) ↔
      InI64 (reading.2 / nanosPerSecond -
        asI64 ((reading.1 - t) / nanosPerSecond)) := by
    simp [TimeFits, hpast]
  rw [hone, InI64]
  by_cases hsmall : (reading.1 - t) / nanosPerSecond < 2 ^ 63
  · rw [asI64_of_small helapsed hsmall]
    omega
  · rw [asI64_of_large (not_lt.mp hsmall) (by omega)]
    omega

theorem machineModifiedTs_of_plain
    {reading : ℤ × ℤ} {modified : Option ℤ}
    (hplain : PlainTime reading modified) (overflowChecks : Bool) :
    machineModifiedTs overflowChecks reading.1 reading.2 modified =
      .ok (scanModifiedTs reading.1 reading.2 modified) := by
  cases modified with
  | none => rfl
  | some t =>
      unfold machineModifiedTs scanModifiedTs
      by_cases hpast : t ≤ reading.1
      · obtain ⟨hsmall, hin⟩ := hplain t rfl hpast
        have hpos : 0 ≤ (reading.1 - t) / nanosPerSecond :=
          Int.ediv_nonneg (by omega) (by decide)
        simp only [if_pos hpast]
        rw [asI64_of_small hpos hsmall, subI64_of_fits hin]
      · simp only [if_neg hpast]

theorem machineStep_eq_scanStep
    {env : ScanEnv} {excludePatterns : List String} {limit : Option ℕ}
    {state : ScanState} {item : WalkItem} (hcounted : state.Counted)
    (hcount : state.scannedFiles + 1 < 2 ^ 64)
    (hplain : ∀ found, admitEntry excludePatterns limit item = some found →
      PlainTime (env.clock state.scannedFiles) found.2.modified) :
    machineStep env excludePatterns limit state item =
      scanStep env excludePatterns limit state item := by
  unfold machineStep scanStep
  cases hfound : admitEntry excludePatterns limit item with
  | none => rfl
  | some found =>
      have htime := machineModifiedTs_of_plain (hplain found hfound)
        env.overflowChecks
      simp only [acceptFile, countFile]
      rw [← hcounted, htime, addUsize_of_fits hcount]
      by_cases hzero : env.sampleEvery = 0
      · rw [if_pos hzero, hzero]
        rfl
      · rw [if_neg hzero]
        simp only [remUsize_of_ne hzero, bind, Except.bind]
        rfl

theorem ScanState.Counted.scanStep
    {env : ScanEnv} {excludePatterns : List String} {limit : Option ℕ}
    {state next : ScanState} {item : WalkItem} (hcounted : state.Counted)
    (hstep : scanStep env excludePatterns limit state item = .ok next) :
    next.Counted ∧ next.scannedFiles ≤ state.scannedFiles + 1 := by
  rcases scanStep_cases hstep with ⟨_, rfl⟩ | ⟨found, _, _, rfl⟩
  · exact ⟨hcounted, by omega⟩
  · exact ⟨hcounted.push env found _, le_rfl⟩

theorem machineFold_eq_scanFold
    {env : ScanEnv} {excludePatterns : List String} {limit : Option ℕ}
    {items : List WalkItem} {state : ScanState} (hcounted : state.Counted)
    (hcount : state.scannedFiles + items.length < 2 ^ 64)
    (hplain : ∀ item ∈ items, ∀ found,
      admitEntry excludePatterns limit item = some found →
        ∀ k, PlainTime (env.clock k) found.2.modified) :
    items.foldlM (machineStep env excludePatterns limit) state =
      items.foldlM (scanStep env excludePatterns limit) state := by
  induction items generalizing state with
  | nil => rfl
  | cons item items ih =>
      rw [List.length_cons] at hcount
      rw [List.forall_mem_cons] at hplain
      rw [List.foldlM_cons, List.foldlM_cons,
        machineStep_eq_scanStep hcounted (by omega)
          (fun found hfound => hplain.1 found hfound _)]
      cases hstep : scanStep env excludePatterns limit state item with
      | error fault => rfl
      | ok next =>
          obtain ⟨hnext, hle⟩ := hcounted.scanStep hstep
          exact ih hnext (by omega) hplain.2

/-! ## The limit -/

/-- The limit in bytes, as an exact integer. -/
def ScanOptions.exactLimit (opts : ScanOptions) : Option ℕ :=
  opts.maxFileSizeMb.map (· * 2 ^ 20)

theorem maxBytes_of_fits
    {mb : Option ℕ} (hfits : ∀ n ∈ mb, n * 2 ^ 20 < 2 ^ 64)
    (overflowChecks : Bool) :
    maxBytes overflowChecks mb = .ok (mb.map (· * 2 ^ 20)) := by
  cases mb with
  | none => rfl
  | some n =>
      have hbytes : n * 1024 * 1024 < 2 ^ 64 := by
        rw [mul_assoc]
        exact hfits n rfl
      have hkib : n * 1024 < 2 ^ 64 :=
        (Nat.le_mul_of_pos_right (n * 1024) (by decide)).trans_lt hbytes
      simp only [maxBytes, mulU64, if_pos hkib, if_pos hbytes, bind,
        Except.bind, pure, Except.pure, Option.map_some]
      rw [mul_assoc, show 1024 * 1024 = 2 ^ 20 from rfl]

theorem maxBytes_checked
    {mb : Option ℕ} (hfits : ¬ ∀ n ∈ mb, n * 2 ^ 20 < 2 ^ 64) :
    maxBytes true mb = .error .overflow := by
  push Not at hfits
  obtain ⟨n, hn, hlarge⟩ := hfits
  obtain rfl := Option.mem_def.mp hn
  by_cases hkib : n * 1024 < 2 ^ 64
  · have hbytes : ¬ n * 1024 * 1024 < 2 ^ 64 := by
      omega
    simp only [maxBytes, mulU64, if_pos hkib, if_neg hbytes, bind,
      Except.bind]
    rfl
  · simp only [maxBytes, mulU64, if_neg hkib, bind, Except.bind]
    rfl

theorem admitEntry_limit
    (excludePatterns : List String) (limit : Option ℕ) (item : WalkItem) :
    admitEntry excludePatterns limit item =
      (admitEntry excludePatterns none item).filter fun found =>
        limit.all fun bytes => decide (found.2.len ≤ bytes) := by
  cases item with
  | none => rfl
  | some entry =>
      obtain ⟨isFile, entryPath, metadata⟩ := entry
      cases isFile with
      | false => rfl
      | true =>
          cases entryPath with
          | none => rfl
          | some path =>
              by_cases hexcluded : excludePatterns.any
                  (fun pattern => strContains path pattern) = true
              · simp [admitEntry, hexcluded]
              · cases metadata with
                | none => simp [admitEntry, hexcluded]
                | some md =>
                    cases limit with
                    | none => simp [admitEntry, hexcluded, Option.filter]
                    | some bytes =>
                        by_cases hlarge : md.len > bytes
                        · simp [admitEntry, hexcluded, Option.filter, hlarge]
                        · simp [admitEntry, hexcluded, Option.filter, hlarge,
                            not_lt.mp hlarge]

theorem admitEntry_limit_iff
    (excludePatterns : List String) (limit : Option ℕ) (item : WalkItem)
    (path : String) (md : Metadata) :
    admitEntry excludePatterns limit item = some (path, md) ↔
      admitEntry excludePatterns none item = some (path, md) ∧
        ∀ bytes ∈ limit, md.len ≤ bytes := by
  rw [admitEntry_limit, Option.filter_eq_some_iff]
  simp [Option.all_eq_true]

/-- Where times lie less than `2 ^ 63` seconds back and walks are shorter than
`2 ^ 64` entries, the loops without widths are the loops of the program. -/
theorem machineScanPathsProgress_eq
    {env : ScanEnv} {opts : ScanOptions} {disk : Disk}
    (hcount : (walkRoots env opts disk).length < 2 ^ 64)
    (hplain : ∀ item ∈ walkRoots env opts disk, ∀ found,
      admitEntry opts.excludePatterns none item = some found →
        ∀ k, PlainTime (env.clock k) found.2.modified) :
    machineScanPathsProgress env opts disk =
      scanPathsProgress env opts disk := by
  unfold machineScanPathsProgress scanPathsProgress
  cases maxBytes env.overflowChecks opts.maxFileSizeMb with
  | error fault => rfl
  | ok limit =>
      have hfold :
          (walkRoots env opts disk).foldlM
              (machineStep env opts.excludePatterns limit) ScanState.initial =
            (walkRoots env opts disk).foldlM
              (scanStep env opts.excludePatterns limit) ScanState.initial := by
        apply machineFold_eq_scanFold
        · rfl
        · simpa [ScanState.initial] using hcount
        · intro item hitem found hfound
          exact hplain item hitem found
            ((admitEntry_limit_iff _ _ _ _ _).mp hfound).1
      simp only [bind, Except.bind, hfold]

theorem machineScan_eq_scan
    {env : ScanEnv} {opts : ScanOptions} {disk : Disk}
    (hcount : (walkRoots env opts disk).length < 2 ^ 64)
    (hplain : ∀ item ∈ walkRoots env opts disk, ∀ found,
      admitEntry opts.excludePatterns none item = some found →
        ∀ k, PlainTime (env.clock k) found.2.modified) :
    machineScan env opts disk = scan env opts disk := by
  rw [machineScan_eq, scan_eq_scanPathsProgress,
    machineScanPathsProgress_eq hcount hplain]

/-! ## When the arithmetic is safe -/

/-- No operation of a scan divides by zero or leaves its width, and the size
check compares with the exact number of bytes. -/
structure ScanArithmeticSafe (env : ScanEnv) (opts : ScanOptions)
    (disk : Disk) : Prop where
  scan : ∀ fault, machineScan env.checked opts disk ≠ .error fault
  progress :
    ∀ fault, machineScanPathsProgress env.checked opts disk ≠ .error fault
  sizeCheck : ∃ limit,
    maxBytes env.overflowChecks opts.maxFileSizeMb = .ok limit ∧
      ∀ item path md,
        admitEntry opts.excludePatterns limit item = some (path, md) ↔
          admitEntry opts.excludePatterns none item = some (path, md) ∧
            ∀ mb ∈ opts.maxFileSizeMb, md.len ≤ mb * 2 ^ 20

/-- The files of a walk which pass the tests of the loop under the exact
limit. -/
def acceptedFiles (env : ScanEnv) (opts : ScanOptions) (disk : Disk) :
    List (String × Metadata) :=
  (walkRoots env opts disk).filterMap
    (admitEntry opts.excludePatterns opts.exactLimit)

structure ScanInputsFit (env : ScanEnv) (opts : ScanOptions) (disk : Disk) :
    Prop where
  limit : ∀ mb ∈ opts.maxFileSizeMb, mb * 2 ^ 20 < 2 ^ 64
  sample : env.sampleEvery = 0 → acceptedFiles env opts disk = []
  count : (acceptedFiles env opts disk).length < 2 ^ 64
  times : ∀ k found, (acceptedFiles env opts disk)[k]? = some found →
    TimeFits (env.clock k) found.2.modified

theorem fileFits_iff
    (env : ScanEnv) (files : List (String × Metadata)) :
    (∀ k found, files[k]? = some found → FileFits env k k found.2) ↔
      (env.sampleEvery = 0 → files = []) ∧ files.length < 2 ^ 64 ∧
        ∀ k found, files[k]? = some found →
          TimeFits (env.clock k) found.2.modified := by
  constructor
  · intro hfits
    refine ⟨?_, ?_, fun k found hk => (hfits k found hk).time⟩
    · intro hzero
      cases files with
      | nil => rfl
      | cons found files => exact ((hfits 0 found rfl).sample hzero).elim
    · cases hlast : files.getLast? with
      | none =>
          rw [List.getLast?_eq_none_iff.mp hlast]
          decide
      | some found =>
          rw [List.getLast?_eq_getElem?] at hlast
          have hcount := (hfits _ found hlast).count
          omega
  · rintro ⟨hsample, hlength, htimes⟩ k found hk
    obtain ⟨hlt, _⟩ := List.getElem?_eq_some_iff.mp hk
    refine ⟨htimes k found hk, by omega, ?_⟩
    intro hzero
    rw [hsample hzero] at hlt
    simp at hlt

theorem machineScanPathsProgress_eq_map
    {env : ScanEnv} {opts : ScanOptions} {limit : Option ℕ}
    (hlimit : maxBytes env.overflowChecks opts.maxFileSizeMb = .ok limit)
    (disk : Disk) :
    machineScanPathsProgress env opts disk =
      ((walkRoots env opts disk).foldlM
        (machineStep env opts.excludePatterns limit) ScanState.initial).map
        fun final =>
          (final.results, final.events ++ [.done final.results.length]) := by
  unfold machineScanPathsProgress
  rw [hlimit]
  cases hfold : (walkRoots env opts disk).foldlM
      (machineStep env opts.excludePatterns limit) ScanState.initial with
  | error fault => simp [bind, Except.bind, Except.map, hfold]
  | ok final => simp [bind, Except.bind, Except.map, pure, Except.pure, hfold]

theorem machineScanPathsProgress_faultless_iff
    (env : ScanEnv) (opts : ScanOptions) (disk : Disk) :
    (∀ fault, machineScanPathsProgress env.checked opts disk ≠
        .error fault) ↔
      ScanInputsFit env opts disk := by
  by_cases hlimit : ∀ mb ∈ opts.maxFileSizeMb, mb * 2 ^ 20 < 2 ^ 64
  · have hfold := machineFold_faultless_iff env opts.excludePatterns
      opts.exactLimit (walkRoots env opts disk)
    rw [fileFits_iff] at hfold
    have hrun : (∀ fault, machineScanPathsProgress env.checked opts disk ≠
        .error fault) ↔
        ∀ fault, (walkRoots env opts disk).foldlM
          (machineStep env.checked opts.excludePatterns opts.exactLimit)
          ScanState.initial ≠ .error fault := by
      rw [machineScanPathsProgress_eq_map
        (maxBytes_of_fits hlimit env.checked.overflowChecks)]
      exact FallibleLoop.forall_map_ne_error_iff
    rw [hrun, hfold]
    exact ⟨fun ⟨hsample, hcount, htimes⟩ => ⟨hlimit, hsample, hcount, htimes⟩,
      fun hfit => ⟨hfit.sample, hfit.count, hfit.times⟩⟩
  · refine iff_of_false ?_ fun hfit => hlimit hfit.limit
    intro hfaultless
    apply hfaultless .overflow
    rw [machineScanPathsProgress, ScanEnv.checked_overflowChecks,
      maxBytes_checked hlimit]
    rfl

theorem acceptFile_of_checked
    {env : ScanEnv} {state next : ScanState} {found : String × Metadata}
    (hchecked : acceptFile env.checked state found = .ok next) :
    acceptFile env state found = .ok next := by
  by_cases hfits : FileFits env state.results.length state.scannedFiles found.2
  · obtain ⟨modifiedTs, haccept⟩ := acceptFile_of_fits hfits
    exact (haccept env.overflowChecks).trans
      ((haccept true).symm.trans hchecked)
  · obtain ⟨fault, hfault⟩ := acceptFile_checked hfits
    simp [hfault] at hchecked

/-- A run which passes the overflow checks wraps nowhere without them. -/
theorem machineScanPathsProgress_of_checked
    {env : ScanEnv} {opts : ScanOptions} {disk : Disk}
    {answer : List FileMeta × List ScanEvent}
    (hchecked : machineScanPathsProgress env.checked opts disk = .ok answer) :
    machineScanPathsProgress env opts disk = .ok answer := by
  have hfit : ScanInputsFit env opts disk := by
    rw [← machineScanPathsProgress_faultless_iff, hchecked]
    simp
  rw [machineScanPathsProgress_eq_map
    (maxBytes_of_fits hfit.limit env.checked.overflowChecks)] at hchecked
  rw [machineScanPathsProgress_eq_map (maxBytes_of_fits hfit.limit _)]
  obtain ⟨final, hfinal, rfl⟩ := FallibleLoop.map_eq_ok hchecked
  rw [machineFold_eq] at hfinal ⊢
  have hsame := FallibleLoop.foldlM_ok_of_step
    (fun _ _ _ hstep => acceptFile_of_checked hstep) hfinal
  exact congrArg (Except.map _) hsame

theorem scanArithmeticSafe_iff
    (env : ScanEnv) (opts : ScanOptions) (disk : Disk) :
    ScanArithmeticSafe env opts disk ↔ ScanInputsFit env opts disk := by
  rw [← machineScanPathsProgress_faultless_iff]
  refine ⟨ScanArithmeticSafe.progress, fun hprogress => ⟨?_, hprogress, ?_⟩⟩
  · rw [machineScan_eq, FallibleLoop.forall_map_ne_error_iff]
    exact hprogress
  · have hfit :=
      (machineScanPathsProgress_faultless_iff env opts disk).mp hprogress
    refine ⟨_, maxBytes_of_fits hfit.limit _, ?_⟩
    intro item path md
    rw [admitEntry_limit_iff]
    simp

end SearchEvery
