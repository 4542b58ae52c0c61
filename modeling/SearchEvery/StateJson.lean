import SearchEvery.DailySkip
import SearchEvery.JsonFields
import Mathlib.Tactic

/-!
# A pipeline state as a JSON text

The JSON object of a pipeline state, and a reader of such objects in which a
missing day is no day.  The two meet the laws which the results on the state
file ask of a printer and a reader.
-/

namespace SearchEvery

open JsonParse

def optionalLiteral : Option String → List Char
  | none => "null".toList
  | some text => JsonText.literal text

def stateEntries (state : PipelineState) : List (String × List Char) :=
  [("last_day", optionalLiteral state.lastDay),
    ("completed", JsonText.bool state.completed)]

structure StateFields where
  lastDay : Option (Option String)
  completed : Option Bool

def visitState (fields : StateFields) (key : String) (v : Json) :
    Option StateFields :=
  if key = "last_day" then
    (once fields.lastDay (asOptional asText) v).map fun read =>
      { fields with lastDay := read }
  else if key = "completed" then
    (once fields.completed asBool v).map fun read =>
      { fields with completed := read }
  else some fields

/-- A missing day is no day; without `completed` there is no state. -/
def StateFields.build (fields : StateFields) : Option PipelineState :=
  fields.completed.map fun completed => ⟨fields.lastDay.getD none, completed⟩

def stateFromJson : Json → Option PipelineState
  | .object members =>
      (visitMembers visitState ⟨none, none⟩ members).bind StateFields.build
  | _ => none

def stateJson : SerdeJson PipelineState where
  toStringPretty state := String.ofList (JsonText.object 0 (stateEntries state))
  fromStr text := (parse text.toList).bind stateFromJson

/-! ## The laws -/

theorem exists_reads_optionalLiteral
    (text : Option String) :
    ∃ v, Reads readValue (optionalLiteral text) v ∧
      asOptional asText v = some text := by
  cases text with
  | none => exact ⟨_, reads_null, rfl⟩
  | some text =>
      have htext := asText_of_reads (reads_literal text)
      refine ⟨_, reads_literal text, ?_⟩
      rw [asOptional, htext, Option.map_some]
      simp

theorem asOptional_of_reads
    {text : Option String} {v : Json}
    (hreads : Reads readValue (optionalLiteral text) v) :
    asOptional asText v = some text := by
  obtain ⟨other, hother, hread⟩ := exists_reads_optionalLiteral text
  rw [hreads.eq hother, hread]

variable {state : PipelineState}

theorem exists_reads_stateEntry
    {entry : String × List Char} (hentry : entry ∈ stateEntries state) :
    ∃ v, Reads readValue entry.2 v := by
  simp only [stateEntries, List.mem_cons, List.not_mem_nil, or_false] at hentry
  rcases hentry with rfl | rfl
  · obtain ⟨v, hv, _⟩ := exists_reads_optionalLiteral state.lastDay
    exact ⟨v, hv⟩
  · exact ⟨_, reads_bool state.completed⟩

theorem stays_stateEntry
    {entry : String × List Char} (hentry : entry ∈ stateEntries state) :
    JsonText.Stays .outside entry.2 := by
  simp only [stateEntries, List.mem_cons, List.not_mem_nil, or_false] at hentry
  rcases hentry with rfl | rfl
  · cases state.lastDay with
    | none => exact JsonText.stays_of_plain (by decide)
    | some text => exact JsonText.stays_literal text
  · exact JsonText.stays_bool _

theorem visitMembers_stateEntries
    {members : List (List Char × Json)}
    (hmembers : List.Forall₂ ReadsMember (stateEntries state) members) :
    visitMembers visitState ⟨none, none⟩ members =
      some ⟨some state.lastDay, some state.completed⟩ := by
  unfold stateEntries at hmembers
  obtain _ | ⟨hday, _ | ⟨hcompleted, _ | _⟩⟩ := hmembers
  simp [visitMembers, visitMember_of_reads _ _ hday,
    visitMember_of_reads _ _ hcompleted, visitState, once,
    asOptional_of_reads hday.2, asBool_of_reads hcompleted.2]

theorem stateJson_lawful : stateJson.Lawful := by
  refine lawful_of_entries (fun _ => rfl) (fun _ => rfl)
    (fun _ _ => stays_stateEntry) (fun _ _ => exists_reads_stateEntry) ?_
  intro state members hmembers
  rw [stateFromJson, visitMembers_stateEntries hmembers]
  rfl

end SearchEvery
