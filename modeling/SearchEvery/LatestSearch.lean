import SearchEvery.AppSession
import SearchEvery.TableUpdate
import Mathlib.Tactic

/-!
# The latest search

Several searches can be in flight, and each of them writes its answer into the
results when it succeeds.  The results are those of the most recently started
search, once it has succeeded, as long as no other answer comes in after it.
-/

namespace SearchEvery

variable {Row : Type}

/-- The search which was started last. -/
def latestSearch (calls : List (AppCall Row)) : Option (AppCall Row) :=
  (calls.filter AppCall.isSearch).getLast?

def AppCall.answer? (call : AppCall Row) : Option (List Row) :=
  match call.status with
  | .succeeded rows => some rows
  | _ => none

/-- If the search which was started last has succeeded, the page shows its
answer. -/
def App.ShowsLatest (app : App Row) : Prop :=
  ∀ call ∈ latestSearch app.calls, ∀ rows ∈ call.answer?, app.results = rows

/-- The call is a search, and an answer completes it. -/
def AppCall.awaitsAnswer (call : AppCall Row) : Bool :=
  call.isSearch && match call.status with
    | .pending _ [] => true
    | _ => false

/-- An answer which completes a search when the search which was started last
has already succeeded is the same as the answer to that one. -/
def NoStaleAnswer (app : App Row) : AppAction Row → Prop
  | .settle k (.resolved rows) =>
      ∀ call ∈ app.calls[k]?, call.awaitsAnswer = true →
        ∀ latest ∈ latestSearch app.calls, ∀ shown ∈ latest.answer?,
          rows = shown
  | _ => True

instance [DecidableEq Row] (app : App Row) (action : AppAction Row) :
    Decidable (NoStaleAnswer app action) :=
  match action with
  | .settle k (.resolved rows) =>
      inferInstanceAs (Decidable (∀ call ∈ app.calls[k]?,
        call.awaitsAnswer = true → ∀ latest ∈ latestSearch app.calls,
          ∀ shown ∈ latest.answer?, rows = shown))
  | .settle _ .rejected => .isTrue trivial
  | .edit _ _ _ _ | .setIndexDir _ | .setPage _ | .fireTimer | .pressEnter
  | .clickSearch | .clickScanAndIndex | .clickSave | .clickReset
  | .clickDetect _ | .confirmDelete _ => .isTrue trivial

/-! ## The latest search through one step -/

theorem latestSearch_set
    {calls : List (AppCall Row)} {k : ℕ} {old new : AppCall Row}
    (hrow : calls[k]? = some old) (hsame : new.isSearch = old.isSearch) :
    (latestSearch calls = some old ∧
        latestSearch (calls.set k new) = some new) ∨
      latestSearch (calls.set k new) = latestSearch calls := by
  obtain ⟨before, after, hcalls, hset⟩ := TableUpdate.exists_split hrow
  rw [hset, hcalls]
  unfold latestSearch
  cases hsearch : old.isSearch with
  | false =>
      right
      simp [hsame, hsearch]
  | true =>
      rw [List.filter_append, List.filter_append,
        List.filter_cons_of_pos hsearch,
        List.filter_cons_of_pos (hsame.trans hsearch)]
      cases after.filter AppCall.isSearch with
      | nil => exact Or.inl ⟨by simp, by simp⟩
      | cons last rest => exact Or.inr (by simp [List.getLast?_append])

theorem latestSearch_append
    (calls : List (AppCall Row)) (call : AppCall Row) :
    latestSearch (calls ++ [call]) =
      if call.isSearch then some call else latestSearch calls := by
  unfold latestSearch
  by_cases hsearch : call.isSearch = true <;> simp [hsearch]

theorem isSearch_of_latestSearch
    {calls : List (AppCall Row)} {call : AppCall Row}
    (hlatest : latestSearch calls = some call) : call.isSearch = true :=
  (List.mem_filter.mp (List.mem_of_getLast? hlatest)).2

theorem AppCall.isSearch_congr
    (op : Operation) (before after : CallStatus Row) :
    (⟨op, after⟩ : AppCall Row).isSearch = (⟨op, before⟩ : AppCall Row).isSearch :=
  rfl

/-- A call which gets a status without an answer leaves the page as it is. -/
theorem App.ShowsLatest.of_set
    {app next : App Row} {k : ℕ} {op : Operation}
    {before after : CallStatus Row} (hshows : app.ShowsLatest)
    (hrow : app.calls[k]? = some ⟨op, before⟩)
    (hcalls : next.calls = app.calls.set k ⟨op, after⟩)
    (hresults : next.results = app.results)
    (hnew : (⟨op, after⟩ : AppCall Row).answer? = none) : next.ShowsLatest := by
  intro call hcall rows hrows
  rw [hcalls] at hcall
  rcases latestSearch_set hrow (AppCall.isSearch_congr op before after) with
    ⟨_, hlatest⟩ | hlatest
  · rw [hlatest, Option.mem_some_iff] at hcall
    rw [← hcall, hnew] at hrows
    contradiction
  · rw [hlatest] at hcall
    rw [hresults]
    exact hshows call hcall rows hrows

theorem noStaleAnswer_of_not_settle
    {app : App Row} {action : AppAction Row}
    (hkind : action.isSettle = false) : NoStaleAnswer app action := by
  cases action with
  | settle k outcome => simp [AppAction.isSettle] at hkind
  | edit | setIndexDir | setPage | fireTimer | pressEnter | clickSearch
  | clickScanAndIndex | clickSave | clickReset | clickDetect
  | confirmDelete => trivial

theorem App.ShowsLatest.succeed_iff
    {app next : App Row} {k : ℕ} {op : Operation} {retries : ℕ}
    {rows : List Row} (hshows : app.ShowsLatest)
    (hrow : app.calls[k]? = some ⟨op, .pending retries []⟩)
    (hcalls : next.calls = app.calls.set k ⟨op, .succeeded rows⟩)
    (hresults : next.results =
      if (⟨op, .succeeded rows⟩ : AppCall Row).isSearch then rows
      else app.results) :
    NoStaleAnswer app (.settle k (.resolved rows)) ↔ next.ShowsLatest := by
  have hguard :
      NoStaleAnswer app (.settle k (.resolved rows)) ↔
        ((⟨op, .pending retries []⟩ : AppCall Row).awaitsAnswer = true →
          ∀ latest ∈ latestSearch app.calls, ∀ shown ∈ latest.answer?,
            rows = shown) := by
    simp [NoStaleAnswer, hrow]
  rw [hguard, App.ShowsLatest, hcalls, hresults]
  rcases latestSearch_set hrow (AppCall.isSearch_congr op _ (.succeeded rows))
    with ⟨hbefore, hlatest⟩ | hlatest
  · have hsearch := isSearch_of_latestSearch hbefore
    rw [hbefore, hlatest, AppCall.isSearch_congr op (.pending retries []),
      if_pos hsearch]
    simp [AppCall.answer?]
  · rw [hlatest]
    cases hsearch : (⟨op, .succeeded rows⟩ : AppCall Row).isSearch with
    | true =>
        have hawaits :
            (⟨op, .pending retries []⟩ : AppCall Row).awaitsAnswer = true := by
          rw [AppCall.awaitsAnswer, AppCall.isSearch_congr op (.succeeded rows),
            hsearch]
          rfl
        simp [hawaits]
    | false =>
        have hawaits :
            (⟨op, .pending retries []⟩ : AppCall Row).awaitsAnswer = false := by
          rw [AppCall.awaitsAnswer, AppCall.isSearch_congr op (.succeeded rows),
            hsearch]
          rfl
        simpa [hawaits, App.ShowsLatest] using hshows

theorem App.ShowsLatest.step_iff
    {invokeRetries : ℕ} {app next : App Row} {action : AppAction Row}
    (hshows : app.ShowsLatest)
    (hstep : appStep invokeRetries app action = some next) :
    NoStaleAnswer app action ↔ next.ShowsLatest := by
  cases appStep_spec hstep with
  | quiet hkind _ hcalls _ hresults =>
      refine iff_of_true (noStaleAnswer_of_not_settle hkind) ?_
      rw [App.ShowsLatest, hcalls, hresults]
      exact hshows
  | start hkind _ hcalls _ hresults =>
      refine iff_of_true (noStaleAnswer_of_not_settle hkind) ?_
      rw [App.ShowsLatest, hcalls, hresults, latestSearch_append]
      split
      · simp [AppCall.answer?]
      · exact hshows
  | @wait k outcome _ op retries rest _ _ hrow hwait hcalls _ hresults =>
      refine iff_of_true ?_ (hshows.of_set hrow hcalls hresults rfl)
      cases outcome with
      | rejected => trivial
      | resolved rows =>
          rcases hwait with hrejected | hmore
          · simp at hrejected
          · intro call hcall hawaits
            rw [hrow, Option.mem_some_iff] at hcall
            subst hcall
            cases rest with
            | nil => exact (hmore rfl).elim
            | cons next rest => simp [AppCall.awaitsAnswer] at hawaits
  | succeed hrow hcalls _ hresults =>
      exact hshows.succeed_iff hrow hcalls hresults
  | fail hrow hcalls _ hresults =>
      exact iff_of_true trivial (hshows.of_set hrow hcalls hresults rfl)

/-- Along a run of the page, in every state it reaches the search which was
started last shows its answer once it has succeeded, exactly when no other
answer completes a search after it. -/
theorem latest_search_wins_iff
    {invokeRetries : ℕ} {indexDir : String} {actions : List (AppAction Row)}
    {final : App Row}
    (hexec : ActionSystem.exec (appStep invokeRetries) (App.mount indexDir)
      actions = some final) :
    (∀ before after mid, actions = before ++ after →
        ActionSystem.exec (appStep invokeRetries) (App.mount indexDir) before =
          some mid → mid.ShowsLatest) ↔
      ActionSystem.Guarded (appStep invokeRetries) NoStaleAnswer
        (App.mount indexDir) actions := by
  have hmount : (App.mount indexDir : App Row).ShowsLatest := by
    intro call hcall
    simp [App.mount, App.rearm, latestSearch] at hcall
  exact (ActionSystem.guarded_iff_forall_reached
    (fun _ _ _ hshows hstep => App.ShowsLatest.step_iff hshows hstep) hmount
    hexec).symm

/-! ## Two searches -/

def typedForm (query : String) : SearchForm := ⟨query, "", "", "", "idx"⟩

def twoSearches : List (AppAction String) :=
  [.edit "a" "" "" "", .fireTimer, .edit "ab" "" "" "", .fireTimer]

theorem latest_search_wins_in_order :
    ∃ final,
      ActionSystem.exec (appStep 0) (App.mount "idx")
        (twoSearches ++ [.settle 0 (.resolved ["a"]), .settle 1 .rejected,
          .settle 1 (.resolved ["ab"])]) = some final ∧
      final.results = ["ab"] ∧ final.ShowsLatest := by
  have hexec :
      ActionSystem.exec (appStep 0) (App.mount "idx")
        (twoSearches ++ [.settle 0 (.resolved ["a"]), .settle 1 .rejected,
          .settle 1 (.resolved ["ab"])]) =
        some ⟨typedForm "ab", .search, none, false, ["ab"],
          [⟨.search (typedForm "a"), .succeeded ["a"]⟩,
            ⟨.search (typedForm "ab"), .succeeded ["ab"]⟩]⟩ := by decide
  exact ⟨_, hexec, rfl, (latest_search_wins_iff hexec).mpr (by decide) _ []
    _ (List.append_nil _).symm hexec⟩

/-- The answer to the first of two searches comes in last: nothing is in
flight, the second search has succeeded, and the page shows the answer to the
first. -/
theorem stale_answer_shown :
    ∃ final,
      ActionSystem.exec (appStep 0) (App.mount "idx")
        (twoSearches ++ [.settle 1 (.resolved ["ab"]),
          .settle 0 (.resolved ["a"])]) = some final ∧
      final.Idle ∧
      latestSearch final.calls =
        some ⟨.search (typedForm "ab"), .succeeded ["ab"]⟩ ∧
      final.results = ["a"] :=
  ⟨⟨typedForm "ab", .search, none, false, ["a"],
    [⟨.search (typedForm "a"), .succeeded ["a"]⟩,
      ⟨.search (typedForm "ab"), .succeeded ["ab"]⟩]⟩, by decide, by decide, rfl,
    rfl⟩

end SearchEvery
