import SearchEvery.ActionSystem
import SearchEvery.DupPage
import Mathlib.Tactic

/-!
# A session of the page

The six operations of the page share one busy flag, and every search writes
the same list of results.  Some operations are started by buttons which are
disabled while the flag is set; a search is also started by the Enter key and
by a timer 250 ms after the last edit, and a deletion by a button which is
never disabled.  An action is one thing the user or the back end does.
-/

namespace SearchEvery

inductive PageKey
  | search
  | index
  | dup
  | settings
  | about
  deriving DecidableEq

/-- What a search request is built from. -/
structure SearchForm where
  query : String
  extFilter : String
  minSize : String
  maxSize : String
  indexDir : String
  deriving DecidableEq

inductive Operation
  | scanAndIndex
  | search (form : SearchForm)
  | saveConfig
  | resetConfig
  | detect
  | delete (path : String)
  deriving DecidableEq

/-- How far an operation is: the retries left to the promise it awaits and to
the promises after it, or how it ended.  The rows are those the back end
answered to a search. -/
inductive CallStatus (Row : Type)
  | pending (retries : ℕ) (rest : List ℕ)
  | succeeded (rows : List Row)
  | failed
  deriving DecidableEq

structure AppCall (Row : Type) where
  op : Operation
  status : CallStatus Row
  deriving DecidableEq

/-- The state of the page.  The timer holds the form of the render which set
it; the operations are listed in the order of their start. -/
structure App (Row : Type) where
  form : SearchForm
  page : PageKey
  timer : Option SearchForm
  busy : Bool
  results : List Row
  calls : List (AppCall Row)
  deriving DecidableEq

variable {Row : Type}

/-- The debounce effect, after a render in which its dependencies changed. -/
def App.rearm (app : App Row) : App Row :=
  { app with timer := if app.page = .search then some app.form else none }

def App.mount (indexDir : String) : App Row :=
  App.rearm ⟨⟨"", "", "", "", indexDir⟩, .search, none, false, [], []⟩

def App.setPage (app : App Row) (page : PageKey) : App Row :=
  if page = app.page then app else { app with page := page }.rearm

def App.start (app : App Row) (op : Operation) (retries : ℕ)
    (rest : List ℕ) : App Row :=
  { app with
    busy := true
    calls := app.calls ++ [⟨op, .pending retries rest⟩] }

/-- `doSearch`: `searchQuery` asks for one retry. -/
def App.doSearch (app : App Row) (form : SearchForm) : App Row :=
  app.start (.search form) 1 []

/-- `finally`: the flag is cleared whatever else is in flight. -/
def App.finish (app : App Row) (k : ℕ) (op : Operation)
    (status : CallStatus Row) : App Row :=
  { app with busy := false, calls := app.calls.set k ⟨op, status⟩ }

def App.succeed (app : App Row) (k : ℕ) (op : Operation)
    (rows : List Row) : App Row :=
  match op with
  | .search _ =>
      { app.finish k op (.succeeded rows) with results := rows }.setPage .search
  | _ => app.finish k op (.succeeded rows)

inductive Outcome (Row : Type)
  | resolved (rows : List Row)
  | rejected
  deriving DecidableEq

inductive AppAction (Row : Type)
  | edit (query extFilter minSize maxSize : String)
  | setIndexDir (dir : String)
  | setPage (page : PageKey)
  | fireTimer
  | pressEnter
  | clickSearch
  | clickScanAndIndex
  | clickSave
  | clickReset
  | clickDetect (scanned : Bool)
  | confirmDelete (path : String)
  | settle (k : ℕ) (outcome : Outcome Row)
  deriving DecidableEq

def App.settle (app : App Row) (k : ℕ) (op : Operation) (retries : ℕ)
    (rest : List ℕ) : Outcome Row → App Row
  | .resolved rows =>
      match rest with
      | [] => app.succeed k op rows
      | next :: rest =>
          { app with calls := app.calls.set k ⟨op, .pending next rest⟩ }
  | .rejected =>
      match retries with
      | 0 => app.finish k op .failed
      | retries + 1 =>
          { app with calls := app.calls.set k ⟨op, .pending retries rest⟩ }

/-- One step; `invokeRetries` is the configured default of `safeInvoke`, and
a timeout is a rejection.  The index page cannot be entered. -/
def appStep (invokeRetries : ℕ) (app : App Row) :
    AppAction Row → Option (App Row)
  | .edit query extFilter minSize maxSize =>
      if app.page = .search then
        let form := ⟨query, extFilter, minSize, maxSize, app.form.indexDir⟩
        if form = app.form then some app
        else some { app with form := form }.rearm
      else none
  | .setIndexDir dir =>
      some { app with form := { app.form with indexDir := dir } }
  | .setPage page =>
      -- `IndexPage()` is called as a function and has an effect of its own: the
      -- render has one hook more than the one before, React throws and takes
      -- the page away.
      if page = .index then none else some (app.setPage page)
  | .fireTimer =>
      match app.timer with
      | none => none
      | some form =>
          if (jsTrim form.query.toList).isEmpty then
            some { app with timer := none }
          else some ({ app with timer := none }.doSearch form)
  | .pressEnter =>
      if app.page = .search then some (app.doSearch app.form) else none
  | .clickSearch =>
      if app.page = .search ∧ app.busy = false then
        some (app.doSearch app.form)
      else none
  | .clickScanAndIndex =>
      if app.page = .index ∧ app.busy = false then
        some (app.start .scanAndIndex invokeRetries [])
      else none
  | .clickSave =>
      if (app.page = .index ∨ app.page = .settings) ∧ app.busy = false then
        some (app.start .saveConfig invokeRetries [])
      else none
  | .clickReset =>
      if app.page = .index ∧ app.busy = false then
        some (app.start .resetConfig invokeRetries [])
      else none
  | .clickDetect scanned =>
      if app.page = .dup ∧ app.busy = false then
        if scanned then some (app.start .detect invokeRetries [])
        else some (app.start .detect 0 [invokeRetries, invokeRetries])
      else none
  | .confirmDelete path =>
      if app.page = .dup then
        some (app.start (.delete path) invokeRetries [])
      else none
  | .settle k outcome =>
      match app.calls[k]? with
      | some ⟨op, .pending retries rest⟩ =>
          some (app.settle k op retries rest outcome)
      | _ => none

/-! ## What one step can do -/

def AppCall.isInFlight (call : AppCall Row) : Bool :=
  match call.status with
  | .pending _ _ => true
  | _ => false

def AppCall.isSearch (call : AppCall Row) : Bool :=
  match call.op with
  | .search _ => true
  | _ => false

/-- No operation is in flight. -/
def App.Idle (app : App Row) : Prop :=
  ∀ call ∈ app.calls, call.isInFlight = false

instance (app : App Row) : Decidable app.Idle :=
  inferInstanceAs (Decidable (∀ call ∈ app.calls, call.isInFlight = false))

def AppAction.isSettle : AppAction Row → Bool
  | .settle _ _ => true
  | _ => false

/-- The action starts an operation without looking at the busy flag. -/
def App.StartsUnguarded (app : App Row) : AppAction Row → Prop
  | .fireTimer =>
      ∃ form ∈ app.timer, (jsTrim form.query.toList).isEmpty = false
  | .pressEnter => True
  | .confirmDelete _ => True
  | _ => False

/-- The effect of every action on the operations, the flag and the results. -/
inductive AppStep (app : App Row) : AppAction Row → App Row → Prop
  | quiet {action next} (hkind : action.isSettle = false)
      (hquiet : ¬ app.StartsUnguarded action)
      (hcalls : next.calls = app.calls)
      (hbusy : next.busy = app.busy) (hresults : next.results = app.results) :
      AppStep app action next
  | start {action next op retries rest} (hkind : action.isSettle = false)
      (hentry : app.busy = false ∨ app.StartsUnguarded action)
      (hcalls : next.calls = app.calls ++ [⟨op, .pending retries rest⟩])
      (hbusy : next.busy = true) (hresults : next.results = app.results) :
      AppStep app action next
  | wait {k outcome next op retries rest left more}
      (hrow : app.calls[k]? = some ⟨op, .pending retries rest⟩)
      (hwait : outcome = .rejected ∨ rest ≠ [])
      (hcalls : next.calls = app.calls.set k ⟨op, .pending left more⟩)
      (hbusy : next.busy = app.busy) (hresults : next.results = app.results) :
      AppStep app (.settle k outcome) next
  | succeed {k rows next op retries}
      (hrow : app.calls[k]? = some ⟨op, .pending retries []⟩)
      (hcalls : next.calls = app.calls.set k ⟨op, .succeeded rows⟩)
      (hbusy : next.busy = false)
      (hresults : next.results =
        if (⟨op, .succeeded rows⟩ : AppCall Row).isSearch then rows
        else app.results) :
      AppStep app (.settle k (.resolved rows)) next
  | fail {k next op rest}
      (hrow : app.calls[k]? = some ⟨op, .pending 0 rest⟩)
      (hcalls : next.calls = app.calls.set k ⟨op, .failed⟩)
      (hbusy : next.busy = false) (hresults : next.results = app.results) :
      AppStep app (.settle k .rejected) next

@[simp] theorem App.setPage_calls (app : App Row) (page : PageKey) :
    (app.setPage page).calls = app.calls := by
  unfold App.setPage
  split <;> rfl

@[simp] theorem App.setPage_busy (app : App Row) (page : PageKey) :
    (app.setPage page).busy = app.busy := by
  unfold App.setPage
  split <;> rfl

@[simp] theorem App.setPage_results (app : App Row) (page : PageKey) :
    (app.setPage page).results = app.results := by
  unfold App.setPage
  split <;> rfl

theorem App.succeed_step
    {app : App Row} {k : ℕ} {op : Operation} {retries : ℕ}
    (hrow : app.calls[k]? = some ⟨op, .pending retries []⟩)
    (rows : List Row) :
    AppStep app (.settle k (.resolved rows)) (app.succeed k op rows) := by
  cases op with
  | search form =>
      refine .succeed hrow ?_ ?_ ?_ <;>
        simp [App.succeed, App.finish, AppCall.isSearch]
  | scanAndIndex | saveConfig | resetConfig | detect =>
      exact .succeed hrow rfl rfl rfl
  | delete path => exact .succeed hrow rfl rfl rfl

theorem App.settle_step
    {app : App Row} {k : ℕ} {op : Operation} {retries : ℕ} {rest : List ℕ}
    (hrow : app.calls[k]? = some ⟨op, .pending retries rest⟩)
    (outcome : Outcome Row) :
    AppStep app (.settle k outcome) (app.settle k op retries rest outcome) := by
  cases outcome with
  | resolved rows =>
      cases rest with
      | nil => exact App.succeed_step hrow rows
      | cons next rest => exact .wait hrow (Or.inr (by simp)) rfl rfl rfl
  | rejected =>
      cases retries with
      | zero => exact .fail hrow rfl rfl rfl
      | succ retries => exact .wait hrow (Or.inl rfl) rfl rfl rfl

/-- A start behind a condition, which gives a clear flag unless the action
does not look at the flag. -/
theorem AppStep.of_start
    {app next : App Row} {action : AppAction Row} {op : Operation}
    {retries : ℕ} {rest : List ℕ} {p : Prop} [Decidable p]
    (hkind : action.isSettle = false)
    (hentry : p → app.busy = false ∨ app.StartsUnguarded action)
    (hstep : (if p then some (app.start op retries rest) else none) =
      some next) :
    AppStep app action next := by
  split at hstep
  next henabled =>
    rw [Option.some.injEq] at hstep
    subst hstep
    exact .start hkind (hentry henabled) rfl rfl rfl
  next => simp at hstep

theorem AppStep.of_button
    {app next : App Row} {action : AppAction Row} {op : Operation}
    {retries : ℕ} {rest : List ℕ} {p : Prop} [Decidable p]
    (hkind : action.isSettle = false)
    (hstep : (if p ∧ app.busy = false then some (app.start op retries rest)
      else none) = some next) :
    AppStep app action next :=
  .of_start hkind (fun hclick => Or.inl hclick.2) hstep

theorem appStep_spec
    {invokeRetries : ℕ} {app next : App Row} {action : AppAction Row}
    (hstep : appStep invokeRetries app action = some next) :
    AppStep app action next := by
  cases action with
  | edit query extFilter minSize maxSize =>
      simp only [appStep] at hstep
      split at hstep
      next =>
        split at hstep
        next =>
          rw [Option.some.injEq] at hstep
          subst hstep
          exact .quiet rfl not_false rfl rfl rfl
        next =>
          rw [Option.some.injEq] at hstep
          subst hstep
          exact .quiet rfl not_false rfl rfl rfl
      next => simp at hstep
  | setIndexDir dir =>
      simp only [appStep, Option.some.injEq] at hstep
      subst hstep
      exact .quiet rfl not_false rfl rfl rfl
  | setPage page =>
      simp only [appStep] at hstep
      split at hstep
      next => simp at hstep
      next =>
        rw [Option.some.injEq] at hstep
        subst hstep
        exact .quiet rfl not_false (by simp) (by simp) (by simp)
  | fireTimer =>
      simp only [appStep] at hstep
      cases htimer : app.timer with
      | none => simp [htimer] at hstep
      | some form =>
          simp only [htimer] at hstep
          split at hstep
          next hblank =>
            rw [Option.some.injEq] at hstep
            subst hstep
            refine .quiet rfl ?_ rfl rfl rfl
            rintro ⟨armed, harmed, hquery⟩
            rw [htimer, Option.mem_some_iff] at harmed
            subst harmed
            rw [hblank] at hquery
            contradiction
          next hquery =>
            rw [Option.some.injEq] at hstep
            subst hstep
            exact .start rfl (Or.inr ⟨form, htimer, by simpa using hquery⟩) rfl
              rfl rfl
  | pressEnter => exact .of_start rfl (fun _ => Or.inr trivial) hstep
  | clickSearch => exact .of_button rfl hstep
  | clickScanAndIndex => exact .of_button rfl hstep
  | clickSave => exact .of_button rfl hstep
  | clickReset => exact .of_button rfl hstep
  | clickDetect scanned =>
      cases scanned with
      | true =>
          exact .of_button rfl (by simpa only [appStep, if_true] using hstep)
      | false =>
          exact .of_button rfl
            (by simpa only [appStep, Bool.false_eq_true, if_false] using hstep)
  | confirmDelete path => exact .of_start rfl (fun _ => Or.inr trivial) hstep
  | settle k outcome =>
      simp only [appStep] at hstep
      split at hstep
      next op retries rest hrow =>
        rw [Option.some.injEq] at hstep
        subst hstep
        exact App.settle_step hrow outcome
      next => simp at hstep

end SearchEvery
