import SearchEvery.AppSession
import SearchEvery.TableUpdate
import Mathlib.Tactic

/-!
# The busy flag

The flag is set when an operation starts and cleared when any operation ends.
It tells whether something is in flight as long as at most one operation is.
The buttons keep to that because the flag disables them; the timer, the Enter
key and the deletion do not look at it, so a run is sound exactly when they
start an operation only while nothing is in flight.
-/

namespace SearchEvery

variable {Row : Type}

/-- The flag is clear only when nothing is in flight, and the button which
starts a pass over the files cannot be clicked before the last pass has been
answered. -/
structure App.BusySound (invokeRetries : ℕ) (app : App Row) : Prop where
  idle : app.busy = false → app.Idle
  single : ∀ next, appStep invokeRetries app .clickScanAndIndex = some next →
    ∀ call ∈ app.calls, call.op = .scanAndIndex → call.isInFlight = false

/-- An operation which does not look at the flag is started only while nothing
is in flight. -/
def BusyGuard (app : App Row) (action : AppAction Row) : Prop :=
  app.StartsUnguarded action → app.Idle

instance (app : App Row) (action : AppAction Row) :
    Decidable (app.StartsUnguarded action) :=
  match action with
  | .fireTimer =>
      inferInstanceAs (Decidable (∃ form ∈ app.timer,
        (jsTrim form.query.toList).isEmpty = false))
  | .pressEnter | .confirmDelete _ => .isTrue trivial
  | .edit _ _ _ _ | .setIndexDir _ | .setPage _ | .clickSearch
  | .clickScanAndIndex | .clickSave | .clickReset | .clickDetect _
  | .settle _ _ => .isFalse not_false

instance (app : App Row) (action : AppAction Row) :
    Decidable (BusyGuard app action) :=
  inferInstanceAs (Decidable (app.StartsUnguarded action → app.Idle))

/-! ## One operation at a time -/

def App.inFlight (app : App Row) : ℕ :=
  app.calls.countP AppCall.isInFlight

/-- The flag counts the operations in flight. -/
def App.Sequential (app : App Row) : Prop :=
  app.inFlight = app.busy.toNat

theorem App.inFlight_eq_zero_iff (app : App Row) :
    app.inFlight = 0 ↔ app.Idle := by
  simp [App.inFlight, App.Idle]

theorem App.Sequential.idle
    {app : App Row} (hseq : app.Sequential) (hbusy : app.busy = false) :
    app.Idle := by
  rw [← App.inFlight_eq_zero_iff, hseq, hbusy]
  rfl

theorem busy_of_clickScanAndIndex
    {invokeRetries : ℕ} {app next : App Row}
    (hclick : appStep invokeRetries app .clickScanAndIndex = some next) :
    app.busy = false := by
  simp only [appStep] at hclick
  split at hclick
  next henabled => exact henabled.2
  next => simp at hclick

theorem App.Sequential.busySound
    {app : App Row} (hseq : app.Sequential) (invokeRetries : ℕ) :
    app.BusySound invokeRetries where
  idle := hseq.idle
  single := by
    intro next hclick call hcall _
    exact hseq.idle (busy_of_clickScanAndIndex hclick) call hcall

/-- An operation which ends was the only one. -/
theorem App.Sequential.of_end
    {app next : App Row} {k retries : ℕ} {rest : List ℕ} {op : Operation}
    {status : CallStatus Row} (hseq : app.Sequential)
    (hrow : app.calls[k]? = some ⟨op, .pending retries rest⟩)
    (hcalls : next.calls = app.calls.set k ⟨op, status⟩)
    (hended : (⟨op, status⟩ : AppCall Row).isInFlight = false)
    (hbusy : next.busy = false) : next.Sequential := by
  have hdrop : next.inFlight + 1 = app.inFlight := by
    rw [App.inFlight, hcalls]
    exact TableUpdate.countP_set_drop AppCall.isInFlight _ hrow rfl hended
  have hone : app.busy.toNat ≤ 1 := Bool.toNat_le app.busy
  rw [App.Sequential, hbusy, Bool.toNat_false]
  rw [App.Sequential] at hseq
  omega

theorem App.Sequential.step
    {invokeRetries : ℕ} {app next : App Row} {action : AppAction Row}
    (hseq : app.Sequential) (hguard : BusyGuard app action)
    (hstep : appStep invokeRetries app action = some next) :
    next.Sequential := by
  cases appStep_spec hstep with
  | quiet _ _ hcalls hbusy _ =>
      rw [App.Sequential, App.inFlight, hcalls, hbusy]
      exact hseq
  | start _ hentry hcalls hbusy _ =>
      have hidle : app.Idle := by
        rcases hentry with hclear | hunguarded
        · exact hseq.idle hclear
        · exact hguard hunguarded
      have hzero : app.calls.countP AppCall.isInFlight = 0 :=
        app.inFlight_eq_zero_iff.mpr hidle
      rw [App.Sequential, App.inFlight, hcalls, hbusy, List.countP_append, hzero]
      rfl
  | wait hrow _ hcalls hbusy _ =>
      rw [App.Sequential, App.inFlight, hcalls, hbusy]
      apply Eq.trans (TableUpdate.countP_set_of_eq hrow ?_) hseq
      rfl
  | succeed hrow hcalls hbusy _ => exact hseq.of_end hrow hcalls rfl hbusy
  | fail hrow hcalls hbusy _ => exact hseq.of_end hrow hcalls rfl hbusy

/-! ## Two operations at once -/

theorem exists_calls_of_startsUnguarded
    {invokeRetries : ℕ} {app next : App Row} {action : AppAction Row}
    (hstep : appStep invokeRetries app action = some next)
    (hstarts : app.StartsUnguarded action) :
    ∃ op retries rest,
      next.calls = app.calls ++ [⟨op, .pending retries rest⟩] := by
  cases appStep_spec hstep with
  | quiet _ hquiet _ _ _ => exact (hquiet hstarts).elim
  | start _ _ hcalls _ _ => exact ⟨_, _, _, hcalls⟩
  | wait | succeed | fail => exact hstarts.elim

/-- An operation in flight can fail next, whatever else is in flight, and then
the flag is clear. -/
theorem exists_exec_fail
    (invokeRetries : ℕ) {app : App Row} {k retries : ℕ} {rest : List ℕ}
    {op : Operation}
    (hrow : app.calls[k]? = some ⟨op, .pending retries rest⟩) :
    ∃ final,
      ActionSystem.exec (appStep invokeRetries) app
        (List.replicate (retries + 1) (.settle k .rejected)) = some final ∧
      final.busy = false ∧ final.calls = app.calls.set k ⟨op, .failed⟩ := by
  induction retries generalizing app with
  | zero =>
      refine ⟨app.finish k op .failed, ?_, rfl, rfl⟩
      simp [ActionSystem.exec_cons, appStep, hrow, App.settle]
  | succ retries ih =>
      have hbound : k < app.calls.length := by
        rw [List.getElem?_eq_some_iff] at hrow
        exact hrow.1
      obtain ⟨final, hexec, hbusy, hcalls⟩ :=
        @ih { app with calls := app.calls.set k ⟨op, .pending retries rest⟩ }
          (by simp [hbound])
      refine ⟨final, ?_, hbusy, ?_⟩
      · rw [List.replicate_succ, ActionSystem.exec_cons_eq_some_iff]
        exact ⟨_, by simp [appStep, hrow, App.settle], hexec⟩
      · simpa using hcalls

theorem AppCall.eq_pending_of_isInFlight
    {call : AppCall Row} (hflight : call.isInFlight = true) :
    ∃ op retries rest, call = ⟨op, .pending retries rest⟩ := by
  obtain ⟨op, status⟩ := call
  cases status with
  | pending retries rest => exact ⟨op, retries, rest, rfl⟩
  | succeeded | failed => simp [AppCall.isInFlight] at hflight

/-- After a start against the guard, answers can clear the flag while the new
operation is in flight. -/
theorem exists_unsound_of_not_busyGuard
    {invokeRetries : ℕ} {app next : App Row} {action : AppAction Row}
    (hstep : appStep invokeRetries app action = some next)
    (hbad : ¬ BusyGuard app action) :
    ∃ answers final, (∀ answer ∈ answers, answer.isSettle = true) ∧
      ActionSystem.exec (appStep invokeRetries) next answers = some final ∧
      final.busy = false ∧ ¬ final.Idle := by
  obtain ⟨hstarts, hflying⟩ := Classical.not_imp.mp hbad
  obtain ⟨op, retries, rest, hcalls⟩ :=
    exists_calls_of_startsUnguarded hstep hstarts
  simp only [App.Idle, not_forall, Bool.not_eq_false] at hflying
  obtain ⟨call, hmem, hflight⟩ := hflying
  obtain ⟨other, left, more, rfl⟩ := AppCall.eq_pending_of_isInFlight hflight
  obtain ⟨k, hrow⟩ := List.mem_iff_getElem?.mp hmem
  have hbound : k < app.calls.length := by
    rw [List.getElem?_eq_some_iff] at hrow
    exact hrow.1
  have hrow' : next.calls[k]? = some ⟨other, .pending left more⟩ := by
    rw [hcalls]
    exact TableUpdate.getElem?_append_of_eq hrow _
  obtain ⟨final, hexec, hbusy, hended⟩ := exists_exec_fail invokeRetries hrow'
  refine ⟨_, final, ?_, hexec, hbusy, ?_⟩
  · intro answer hanswer
    rw [List.eq_of_mem_replicate hanswer]
    rfl
  · intro hidle
    have hnew : (⟨op, .pending retries rest⟩ : AppCall Row) ∈ final.calls := by
      rw [hended, hcalls, List.set_append_left _ _ hbound]
      simp
    simpa [AppCall.isInFlight] using hidle _ hnew

/-! ## Runs -/

theorem busyGuard_of_isSettle
    {app : App Row} {action : AppAction Row}
    (hkind : action.isSettle = true) : BusyGuard app action := by
  cases action with
  | settle k outcome => exact fun hstarts => hstarts.elim
  | edit | setIndexDir | setPage | fireTimer | pressEnter | clickSearch
  | clickScanAndIndex | clickSave | clickReset | clickDetect
  | confirmDelete => simp [AppAction.isSettle] at hkind

/-- Along a guarded run, and whatever is answered after it, one operation at
most is in flight. -/
theorem sequential_of_guarded
    {invokeRetries : ℕ} {indexDir : String}
    {actions answers : List (AppAction Row)} {final : App Row}
    (hguard : ActionSystem.Guarded (appStep invokeRetries) BusyGuard
      (App.mount indexDir) actions)
    (hanswers : ∀ answer ∈ answers, answer.isSettle = true)
    (hexec : ActionSystem.exec (appStep invokeRetries) (App.mount indexDir)
      (actions ++ answers) = some final) :
    final.Sequential := by
  obtain ⟨mid, hmid, hrest⟩ := ActionSystem.exec_append_eq_some_iff.mp hexec
  have hmount : (App.mount indexDir : App Row).Sequential := rfl
  have hseq : mid.Sequential :=
    ActionSystem.exec_invariant_of_guarded
      (fun _ _ _ hseq hallowed hstep => App.Sequential.step hseq hallowed hstep)
      hmount hguard hmid
  have hkeep :
      ∀ (app : App Row) action next, app.Sequential → action.isSettle = true →
        appStep invokeRetries app action = some next → next.Sequential := by
    intro app action next hseq hkind hstep
    exact hseq.step (busyGuard_of_isSettle hkind) hstep
  exact ActionSystem.exec_invariant_of_guarded hkeep hseq
    (ActionSystem.guarded_of_forall hanswers) hrest

/-- The flag is sound in every state which a run of the page and the answers
to what it has in flight can reach, exactly when the timer, the Enter key and
the deletion start an operation only while nothing is in flight. -/
theorem busy_flag_sound_iff
    {invokeRetries : ℕ} {indexDir : String} {actions : List (AppAction Row)}
    {final : App Row}
    (hexec : ActionSystem.exec (appStep invokeRetries) (App.mount indexDir)
      actions = some final) :
    (∀ before after answers mid, actions = before ++ after →
        (∀ answer ∈ answers, answer.isSettle = true) →
        ActionSystem.exec (appStep invokeRetries) (App.mount indexDir)
          (before ++ answers) = some mid → mid.BusySound invokeRetries) ↔
      ActionSystem.Guarded (appStep invokeRetries) BusyGuard
        (App.mount indexDir) actions := by
  constructor
  · intro hsound
    by_contra hbad
    obtain ⟨before, action, after, mid, next, rfl, hbefore, hnext, _, hnot⟩ :=
      ActionSystem.exists_step_of_not_guarded hexec hbad
    obtain ⟨answers, last, hanswers, hlast, hbusy, hflying⟩ :=
      exists_unsound_of_not_busyGuard hnext hnot
    apply hflying
    refine (hsound (before ++ [action]) after answers last (by simp) hanswers
      ?_).idle hbusy
    rw [List.append_assoc, ActionSystem.exec_append_eq_some_iff]
    exact ⟨mid, hbefore,
      ActionSystem.exec_cons_eq_some_iff.mpr ⟨next, hnext, hlast⟩⟩
  · rintro hguard before after answers mid rfl hanswers hmid
    exact (sequential_of_guarded hguard.of_append_left hanswers
      hmid).busySound invokeRetries

/-! ## A save and a search -/

def startSave : List (AppAction String) := [.setPage .settings, .clickSave]

def startSearch : List (AppAction String) :=
  [.setPage .search, .edit "a" "" "" "", .fireTimer]

/-- The save is answered before the search starts, and a detection before the
deletion. -/
theorem busy_flag_sound_in_turn :
    ∃ final,
      ActionSystem.exec (appStep 0) (App.mount "idx")
        (startSave ++ .settle 0 (.resolved []) :: startSearch ++
          [.settle 1 (.resolved ["a"]), .setPage .dup, .clickDetect true,
            .settle 2 .rejected, .confirmDelete "/d/a"]) = some final ∧
      final.calls.map AppCall.op =
        [.saveConfig, .search ⟨"a", "", "", "", "idx"⟩, .detect,
          .delete "/d/a"] ∧
      final.busy = true ∧ final.BusySound 0 := by
  have hexec :
      ActionSystem.exec (appStep 0) (App.mount "idx")
        (startSave ++ .settle 0 (.resolved []) :: startSearch ++
          [.settle 1 (.resolved ["a"]), .setPage .dup, .clickDetect true,
            .settle 2 .rejected, .confirmDelete "/d/a"]) =
        some ⟨⟨"a", "", "", "", "idx"⟩, .dup, none, true, ["a"],
          [⟨.saveConfig, .succeeded []⟩,
            ⟨.search ⟨"a", "", "", "", "idx"⟩, .succeeded ["a"]⟩,
            ⟨.detect, .failed⟩, ⟨.delete "/d/a", .pending 0 []⟩]⟩ := by
    decide
  refine ⟨_, hexec, rfl, rfl, ?_⟩
  exact (busy_flag_sound_iff hexec).mpr (by decide) _ [] [] _
    (List.append_nil _).symm (by simp) (by rw [List.append_nil, hexec])

/-- The search starts while the save is in flight and is answered first: the
flag is clear although the save is still unanswered, and the button starts a
second one. -/
theorem second_save_started :
    ∃ mid final,
      ActionSystem.exec (appStep 0) (App.mount "idx")
        (startSave ++ startSearch ++
          [.settle 1 (.resolved ["a"]), .setPage .settings]) = some mid ∧
      mid.busy = false ∧ ¬ mid.Idle ∧ ¬ mid.BusySound 0 ∧
      mid.calls = [⟨.saveConfig, .pending 0 []⟩,
        ⟨.search ⟨"a", "", "", "", "idx"⟩, .succeeded ["a"]⟩] ∧
      appStep 0 mid .clickSave = some final ∧
      final.calls = mid.calls ++ [⟨.saveConfig, .pending 0 []⟩] := by
  have hflying :
      ¬ (⟨⟨"a", "", "", "", "idx"⟩, .settings, none, false, ["a"],
        [⟨.saveConfig, .pending 0 []⟩,
          ⟨.search ⟨"a", "", "", "", "idx"⟩, .succeeded ["a"]⟩]⟩ :
            App String).Idle := by
    decide
  exact ⟨⟨⟨"a", "", "", "", "idx"⟩, .settings, none, false, ["a"],
    [⟨.saveConfig, .pending 0 []⟩,
      ⟨.search ⟨"a", "", "", "", "idx"⟩, .succeeded ["a"]⟩]⟩, _, by decide, rfl,
    hflying, fun hsound => hflying (hsound.idle rfl), rfl, rfl, rfl⟩

end SearchEvery
