import SearchEvery.FallibleLoop
import SearchEvery.StateJson
import Mathlib.Tactic

/-!
# The bytes of the state file

`mark_started` and `mark_completed` truncate the state file and write its JSON
text over it; `load_state` reads it again.  A mark can fail before the file is
opened, a write can stop on the way, and a file which is there need not be
readable.  On every sequence of such marks the scheduler leaves a day out only
behind a completion of that day which has been written in full.  The printer
and the reader of JSON texts are parameters.
-/

namespace SearchEvery

section Calls

variable (serde : SerdeJson PipelineState)

/-- `load_state`; a missing file holds the default state. -/
def loadState (readable : Bool) (file : Option (List UInt8)) :
    Option PipelineState :=
  match file with
  | none => some ⟨none, false⟩
  | some bytes => if readable then serde.load bytes else none

/-- How the write of a mark fails: before the file is truncated, or after so
many bytes. -/
inductive MarkFault
  | notOpened
  | stopped (written : ℕ)
  deriving DecidableEq

def writeStateBytes (fault : Option MarkFault) (file : Option (List UInt8))
    (state : PipelineState) : Option (List UInt8) :=
  match fault with
  | some .notOpened => file
  | some (.stopped written) => some ((serde.bytes state).take written)
  | none => some (serde.bytes state)

inductive Mark
  | started (today : String) (fault : Option MarkFault)
  | completed (today : String) (fault : Option MarkFault)
  deriving DecidableEq

def Mark.fault : Mark → Option MarkFault
  | .started _ fault | .completed _ fault => fault

def Mark.state : Mark → PipelineState
  | .started today _ => ⟨some today, false⟩
  | .completed today _ => ⟨some today, true⟩

def Mark.apply (file : Option (List UInt8)) (mark : Mark) :
    Option (List UInt8) :=
  writeStateBytes serde mark.fault file mark.state

/-- The scheduler's test on the bytes of the file. -/
def needRunBytes (readable : Bool) (file : Option (List UInt8))
    (today : String) : Bool :=
  let state := (loadState serde readable file).getD ⟨none, false⟩
  !state.completed || state.lastDay != some today

/-- The file as the runs of the pipeline see it. -/
def stateFileOf : Option (List UInt8) → StateFile
  | none => none
  | some bytes => serde.load bytes

/-- How the write of a mark ends. -/
def markOutcome (state : PipelineState) : Option MarkFault → WriteOutcome
  | none => .ok
  | some .notOpened => .failed
  | some (.stopped written) =>
      if written < (serde.bytes state).length then .truncated else .ok

/-- The mark is a completion of the day, and all its bytes are written. -/
def Mark.Completes (mark : Mark) (today : String) : Prop :=
  mark.state = ⟨some today, true⟩ ∧ markOutcome serde mark.state mark.fault = .ok

def marksAfter (file : Option (List UInt8)) (marks : List Mark) :
    Option (List UInt8) :=
  marks.foldl (Mark.apply serde) file

end Calls

variable {serde : SerdeJson PipelineState}

theorem loadState_getD
    (file : Option (List UInt8)) :
    (loadState serde true file).getD ⟨none, false⟩ =
      (stateFileOf serde file).getD ⟨none, false⟩ := by
  cases file <;> rfl

/-- A file which cannot be read stands for no state. -/
theorem loadState_unreadable
    (file : Option (List UInt8)) :
    (loadState serde false file).getD ⟨none, false⟩ = ⟨none, false⟩ := by
  cases file <;> rfl

theorem needRunBytes_eq_false_iff
    {readable : Bool} {file : Option (List UInt8)} {today : String} :
    needRunBytes serde readable file today = false ↔
      readable = true ∧ stateFileOf serde file = some ⟨some today, true⟩ := by
  cases readable with
  | false => simp [needRunBytes, loadState_unreadable]
  | true =>
      rw [needRunBytes, loadState_getD]
      exact (needRun_eq_false_iff _ today).trans (by simp)

/-! ## Sequences of marks -/

/-- A mark on the bytes is a mark on the state file. -/
theorem stateFileOf_apply
    (hserde : serde.Lawful) (file : Option (List UInt8)) (mark : Mark) :
    stateFileOf serde (mark.apply serde file) =
      writeState (stateFileOf serde file) mark.state
        (markOutcome serde mark.state mark.fault) := by
  rw [Mark.apply]
  match mark.fault with
  | some .notOpened => rfl
  | some (.stopped written) =>
      rw [writeStateBytes, stateFileOf, hserde.load_take, markOutcome]
      split <;> rfl
  | none => exact hserde.load_bytes mark.state

theorem stateFileOf_apply_iff
    (hserde : serde.Lawful) (file : Option (List UInt8)) (mark : Mark)
    (state : PipelineState) :
    stateFileOf serde (mark.apply serde file) = some state ↔
      (mark.state = state ∧ markOutcome serde mark.state mark.fault = .ok) ∨
        mark.fault = some .notOpened ∧ stateFileOf serde file = some state := by
  rw [stateFileOf_apply hserde]
  unfold markOutcome
  match mark.fault with
  | some .notOpened => simp [writeState]
  | none => simp [writeState]
  | some (.stopped written) =>
      by_cases hcut : written < (serde.bytes mark.state).length
      · simp [hcut, writeState]
      · simp [hcut, writeState]

/-- The file holds a state exactly when the last mark which reached it has
written all bytes of that state, or none has reached it and it held the state
before. -/
theorem stateFileOf_marksAfter_iff
    (hserde : serde.Lawful) (file : Option (List UInt8)) (marks : List Mark)
    (state : PipelineState) :
    stateFileOf serde (marksAfter serde file marks) = some state ↔
      (∃ before mark after, marks = before ++ mark :: after ∧
        (mark.state = state ∧ markOutcome serde mark.state mark.fault = .ok) ∧
        ∀ later ∈ after, later.fault = some .notOpened) ∨
      (∀ mark ∈ marks, mark.fault = some .notOpened) ∧
        stateFileOf serde file = some state :=
  @FallibleLoop.foldl_last_iff _ _ (Mark.apply serde)
    (fun file => stateFileOf serde file = some state)
    (fun mark => mark.state = state ∧
      markOutcome serde mark.state mark.fault = .ok)
    (fun mark => mark.fault = some .notOpened)
    (fun file mark => stateFileOf_apply_iff hserde file mark state) file marks

/-- The scheduler leaves a day out exactly when it can read the file and the
last mark which reached the file is a completion of that day with all its bytes,
or no mark has reached the file and it held such a completion before. -/
theorem needRunBytes_marksAfter
    (hserde : serde.Lawful) (readable : Bool) (file : Option (List UInt8))
    (marks : List Mark) (today : String) :
    needRunBytes serde readable (marksAfter serde file marks) today = false ↔
      readable = true ∧
      ((∃ before mark after, marks = before ++ mark :: after ∧
        mark.Completes serde today ∧
        ∀ later ∈ after, later.fault = some .notOpened) ∨
      (∀ mark ∈ marks, mark.fault = some .notOpened) ∧
        stateFileOf serde file = some ⟨some today, true⟩) := by
  rw [needRunBytes_eq_false_iff, stateFileOf_marksAfter_iff hserde]
  rfl

/-- The run of a day is completed, and the start of the next one does not reach
the file. -/
theorem needRunBytes_marksAfter_completed :
    needRunBytes stateJson true
      (marksAfter stateJson none
        [.started "2024-05-01" none, .completed "2024-05-01" none,
          .started "2024-05-02" (some .notOpened)]) "2024-05-01" = false :=
  (needRunBytes_marksAfter stateJson_lawful true none _ _).mpr
    ⟨rfl, Or.inl ⟨[.started "2024-05-01" none],
      .completed "2024-05-01" none, [.started "2024-05-02" (some .notOpened)],
      rfl, ⟨rfl, rfl⟩, by simp [Mark.fault]⟩⟩

end SearchEvery
