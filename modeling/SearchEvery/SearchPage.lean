import SearchEvery.AppSession
import SearchEvery.JsNumber
import SearchEvery.SearchQuery
import SearchEvery.TableUpdate
import Mathlib.Tactic

/-!
# The search page

The page turns its form into a request, keeps the answer and one selected row,
and shows the answer sorted by one of three keys.  Answers of several searches
come in any order, and rows are clicked and the sort is changed in between.
The file says what the table and the detail pane show after every session.
-/

namespace SearchEvery

inductive SortBy
  | score
  | time
  | size
  deriving DecidableEq

inductive SortDir
  | asc
  | desc
  deriving DecidableEq

/-- The values of the file type menu. -/
def extOptions : List String :=
  ["", "pdf", "ofd", "doc,docx", "xls,xlsx", "ppt,pptx", "txt", "png,jpg,jpeg",
    "mp3,wav", "mp4,mkv", "gif,bmp,svg", "flac,m4a", "avi,mov,webm", "csv",
    "md,markdown", "rtf", "html,htm", "json", "xml", "zip,rar,7z", "log"]

/-! ## The request -/

structure RequestFilters where
  ext : Option (List String)
  minSize : Option ℤ
  maxSize : Option ℤ
  deriving DecidableEq

structure SearchRequest where
  query : String
  filters : Option RequestFilters
  indexDir : String
  deriving DecidableEq

def toBytesMb (mb : ℚ) : ℤ := JsNumber.mathRound (mb * 1024 * 1024)

/-- The bound of a size box; `number` is `Number`, with `none` for `NaN`. -/
def sizeBytes (number : String → Option ℚ) (text : String) : Option ℤ :=
  if (jsTrim text.toList).isEmpty then none else (number text).map toBytesMb

/-- What `doSearch` hands to `searchQuery`. -/
def SearchForm.request (number : String → Option ℚ) (form : SearchForm) :
    SearchRequest :=
  let extArr := parseCSV form.extFilter
  let minBytes := sizeBytes number form.minSize
  let maxBytes := sizeBytes number form.maxSize
  { query := form.query
    filters :=
      if extArr ≠ [] ∨ minBytes.isSome ∨ maxBytes.isSome then
        some ⟨if extArr = [] then none else some extArr, minBytes, maxBytes⟩
      else none
    indexDir := form.indexDir }

/-- A bound as the back end reads it; a negative one is rejected. -/
def receiveSize : Option ℤ → Option (Option ℕ)
  | none => some none
  | some n => if 0 ≤ n then some (some n.toNat) else none

def RequestFilters.receive (filters : RequestFilters) :
    Option SearchFilters := do
  let minSize ← receiveSize filters.minSize
  let maxSize ← receiveSize filters.maxSize
  return ⟨filters.ext, minSize, maxSize⟩

def SearchRequest.receive (req : SearchRequest) : Option QueryRequest :=
  match req.filters with
  | none => some ⟨req.query, none, req.indexDir⟩
  | some filters =>
      filters.receive.map fun filters => ⟨req.query, some filters, req.indexDir⟩

/-! ## The rows -/

def SortBy.key : SortBy → SearchResult ℚ → ℚ
  | .score, row => row.score
  | .time, row => row.modifiedTs.getD 0
  | .size, row => row.size.getD 0

def SortDir.factor : SortDir → ℚ
  | .asc => 1
  | .desc => -1

/-- The comparator of `arr.sort`. -/
def compareRows (sortBy : SortBy) (sortDir : SortDir)
    (a b : SearchResult ℚ) : ℚ :=
  (sortBy.key a - sortBy.key b) * sortDir.factor

/-- `sortedResults`; the sort of the language is stable. -/
def sortedResults (sortBy : SortBy) (sortDir : SortDir)
    (results : List (SearchResult ℚ)) : List (SearchResult ℚ) :=
  results.mergeSort fun a b => decide (compareRows sortBy sortDir a b ≤ 0)

/-! ## Sessions -/

structure SearchView where
  app : App (SearchResult ℚ)
  selected : Option (SearchResult ℚ)
  sortBy : SortBy
  sortDir : SortDir

def SearchView.mount (indexDir : String) : SearchView :=
  ⟨App.mount indexDir, none, .score, .desc⟩

def SearchView.rows (view : SearchView) : List (SearchResult ℚ) :=
  sortedResults view.sortBy view.sortDir view.app.results

inductive ViewAction
  | typeQuery (query : String)
  | chooseExt (option : String)
  | chooseSort (sortBy : SortBy)
  | toggleDir
  | clickRow (i : ℕ)
  | act (action : AppAction (SearchResult ℚ))

/-- The answer to a search selects its first row. -/
def SearchView.selectedAfter (view : SearchView) :
    AppAction (SearchResult ℚ) → Option (SearchResult ℚ)
  | .settle k (.resolved rows) =>
      match view.app.calls[k]? with
      | some ⟨.search _, .pending _ []⟩ => rows.head?
      | _ => view.selected
  | _ => view.selected

def SearchView.onSearchPage (view : SearchView) (next : SearchView) :
    Option SearchView :=
  if view.app.page = .search then some next else none

/-- One step.  The query box and the menu are the only inputs of the form; the
size boxes keep the texts they have. -/
def viewStep (invokeRetries : ℕ) (view : SearchView) :
    ViewAction → Option SearchView
  | .typeQuery query =>
      (appStep invokeRetries view.app (.edit query view.app.form.extFilter
        view.app.form.minSize view.app.form.maxSize)).map
          fun app => { view with app := app }
  | .chooseExt option =>
      if option ∈ extOptions then
        (appStep invokeRetries view.app (.edit view.app.form.query option
          view.app.form.minSize view.app.form.maxSize)).map
            fun app => { view with app := app }
      else none
  | .chooseSort sortBy => view.onSearchPage { view with sortBy := sortBy }
  | .toggleDir =>
      view.onSearchPage { view with
        sortDir := if view.sortDir = .asc then .desc else .asc }
  | .clickRow i =>
      match view.rows[i]? with
      | none => none
      | some row => view.onSearchPage { view with selected := some row }
  | .act (.edit _ _ _ _) => none
  | .act action =>
      (appStep invokeRetries view.app action).map fun app =>
        { view with app := app, selected := view.selectedAfter action }

/-! ## The sort -/

section Sorting

variable (sortBy : SortBy) (sortDir : SortDir)

theorem compareRows_nonpos_iff
    (a b : SearchResult ℚ) :
    compareRows sortBy sortDir a b ≤ 0 ↔
      match sortDir with
      | .asc => sortBy.key a ≤ sortBy.key b
      | .desc => sortBy.key b ≤ sortBy.key a := by
  cases sortDir with
  | asc => simp [compareRows, SortDir.factor]
  | desc =>
      simp only [compareRows, SortDir.factor]
      constructor <;> intro h <;> linarith

theorem compareRows_trans
    (a b c : SearchResult ℚ)
    (hab : decide (compareRows sortBy sortDir a b ≤ 0) = true)
    (hbc : decide (compareRows sortBy sortDir b c ≤ 0) = true) :
    decide (compareRows sortBy sortDir a c ≤ 0) = true := by
  rw [decide_eq_true_eq] at hab hbc ⊢
  unfold compareRows at hab hbc ⊢
  have hsum : (sortBy.key a - sortBy.key c) * sortDir.factor =
      (sortBy.key a - sortBy.key b) * sortDir.factor +
        (sortBy.key b - sortBy.key c) * sortDir.factor := by
    ring
  linarith

theorem compareRows_total
    (a b : SearchResult ℚ) :
    (decide (compareRows sortBy sortDir a b ≤ 0) ||
      decide (compareRows sortBy sortDir b a ≤ 0)) = true := by
  have hneg : compareRows sortBy sortDir b a =
      -compareRows sortBy sortDir a b := by
    unfold compareRows
    ring
  simp only [Bool.or_eq_true, decide_eq_true_eq, hneg, Left.neg_nonpos_iff]
  exact le_total _ _

theorem sortedResults_perm (results : List (SearchResult ℚ)) :
    (sortedResults sortBy sortDir results).Perm results :=
  List.mergeSort_perm _ _

theorem sortedResults_pairwise (results : List (SearchResult ℚ)) :
    (sortedResults sortBy sortDir results).Pairwise
      fun a b => compareRows sortBy sortDir a b ≤ 0 := by
  have hsorted := List.pairwise_mergeSort (compareRows_trans sortBy sortDir)
    (compareRows_total sortBy sortDir) results
  exact hsorted.imp fun h => of_decide_eq_true h

/-- Rows which are in order already, in particular rows with equal keys, stay
in that order. -/
theorem sublist_sortedResults
    {rows results : List (SearchResult ℚ)}
    (hrows : rows.Pairwise fun a b => compareRows sortBy sortDir a b ≤ 0)
    (hsub : rows.Sublist results) :
    rows.Sublist (sortedResults sortBy sortDir results) :=
  List.sublist_mergeSort (compareRows_trans sortBy sortDir)
    (compareRows_total sortBy sortDir)
    (hrows.imp fun h => decide_eq_true h) hsub

theorem sortedResults_eq_self
    {results : List (SearchResult ℚ)}
    (hrows : results.Pairwise fun a b => compareRows sortBy sortDir a b ≤ 0) :
    sortedResults sortBy sortDir results = results :=
  List.mergeSort_of_pairwise (hrows.imp fun h => decide_eq_true h)

end Sorting

/-! ## What one step does -/

variable {invokeRetries : ℕ}

def App.ops {Row : Type} (app : App Row) : List Operation :=
  app.calls.map AppCall.op

theorem map_op_set
    {Row : Type} {calls : List (AppCall Row)} {k : ℕ} {op : Operation}
    {before : CallStatus Row} (after : CallStatus Row)
    (hrow : calls[k]? = some ⟨op, before⟩) :
    (calls.set k ⟨op, after⟩).map AppCall.op = calls.map AppCall.op :=
  TableUpdate.map_set_of_eq hrow rfl

/-- The effect of a step on the results and the selected row: nothing, a
click on one of the rows, or the answer to a search. -/
inductive ViewStep (view next : SearchView) : ViewAction → Prop
  | keep {action} (hops : view.app.ops <+: next.app.ops)
      (hresults : next.app.results = view.app.results)
      (hselected : next.selected = view.selected) : ViewStep view next action
  | click {action row} (hops : view.app.ops <+: next.app.ops)
      (hrow : row ∈ view.app.results)
      (hresults : next.app.results = view.app.results)
      (hselected : next.selected = some row) : ViewStep view next action
  | answer {k form retries rows} (hops : view.app.ops <+: next.app.ops)
      (hrow : view.app.calls[k]? = some ⟨.search form, .pending retries []⟩)
      (hresults : next.app.results = rows)
      (hselected : next.selected = rows.head?) :
      ViewStep view next (.act (.settle k (.resolved rows)))

theorem SearchView.selectedAfter_of_not_settle
    (view : SearchView) {action : AppAction (SearchResult ℚ)}
    (hkind : action.isSettle = false) :
    view.selectedAfter action = view.selected := by
  cases action <;> first | rfl | simp [AppAction.isSettle] at hkind

theorem viewStep_app
    {view : SearchView} {app : App (SearchResult ℚ)}
    {action : AppAction (SearchResult ℚ)}
    (hstep : appStep invokeRetries view.app action = some app) :
    ViewStep view { view with
      app := app, selected := view.selectedAfter action } (.act action) := by
  cases appStep_spec hstep with
  | quiet hkind _ hcalls _ hresults =>
      refine .keep ?_ hresults (view.selectedAfter_of_not_settle hkind)
      rw [App.ops, App.ops, hcalls]
  | start hkind _ hcalls _ hresults =>
      refine .keep ?_ hresults (view.selectedAfter_of_not_settle hkind)
      rw [App.ops, App.ops, hcalls, List.map_append]
      exact List.prefix_append _ _
  | @wait k outcome _ op retries rest left more hrow hwait hcalls _ hresults =>
      refine .keep ?_ hresults ?_
      · rw [App.ops, App.ops, hcalls, map_op_set _ hrow]
      · cases outcome with
        | rejected => rfl
        | resolved rows =>
            cases rest with
            | nil => simp at hwait
            | cons first rest =>
                simp only [SearchView.selectedAfter, hrow]
  | @succeed k rows _ op retries hrow hcalls _ hresults =>
      have hops : view.app.ops <+: app.ops := by
        rw [App.ops, App.ops, hcalls, map_op_set _ hrow]
      cases op with
      | search form =>
          refine .answer hops hrow ?_ ?_
          · simpa [AppCall.isSearch] using hresults
          · simp [SearchView.selectedAfter, hrow]
      | scanAndIndex | saveConfig | resetConfig | detect =>
          refine .keep hops ?_ ?_
          · simpa [AppCall.isSearch] using hresults
          · simp [SearchView.selectedAfter, hrow]
      | delete path =>
          refine .keep hops ?_ ?_
          · simpa [AppCall.isSearch] using hresults
          · simp [SearchView.selectedAfter, hrow]
  | fail hrow hcalls _ hresults =>
      refine .keep ?_ hresults rfl
      rw [App.ops, App.ops, hcalls, map_op_set _ hrow]

/-- An edit of the form is no answer. -/
theorem viewStep_edit
    {view next : SearchView} {action : ViewAction}
    {query extFilter minSize maxSize : String}
    (hstep : (appStep invokeRetries view.app (.edit query extFilter minSize
      maxSize)).map (fun app => { view with app := app }) = some next) :
    ViewStep view next action := by
  obtain ⟨app, happ, rfl⟩ := Option.map_eq_some_iff.mp hstep
  cases viewStep_app happ with
  | keep hops hresults hselected => exact .keep hops hresults hselected
  | click hops _ hresults hselected => exact .keep hops hresults rfl

theorem SearchView.onSearchPage_eq
    {view after next : SearchView}
    (hstep : view.onSearchPage after = some next) : next = after := by
  unfold SearchView.onSearchPage at hstep
  split at hstep
  · exact (Option.some.inj hstep).symm
  · simp at hstep

theorem viewStep_spec
    {view next : SearchView} {action : ViewAction}
    (hstep : viewStep invokeRetries view action = some next) :
    ViewStep view next action := by
  cases action with
  | typeQuery query => exact viewStep_edit hstep
  | chooseExt option =>
      simp only [viewStep] at hstep
      split at hstep
      · exact viewStep_edit hstep
      · simp at hstep
  | chooseSort sortBy =>
      rw [SearchView.onSearchPage_eq hstep]
      exact .keep (List.prefix_refl _) rfl rfl
  | toggleDir =>
      rw [SearchView.onSearchPage_eq hstep]
      exact .keep (List.prefix_refl _) rfl rfl
  | clickRow i =>
      simp only [viewStep] at hstep
      split at hstep
      next => simp at hstep
      next row hrow =>
        rw [SearchView.onSearchPage_eq hstep]
        refine .click (List.prefix_refl _) ?_ rfl rfl
        exact (sortedResults_perm view.sortBy view.sortDir
          view.app.results).mem_iff.mp (List.mem_of_getElem? hrow)
  | act action =>
      cases action with
      | edit query extFilter minSize maxSize => simp [viewStep] at hstep
      | setIndexDir | setPage | fireTimer | pressEnter | clickSearch
      | clickScanAndIndex | clickSave | clickReset | clickDetect
      | confirmDelete | settle =>
          simp only [viewStep] at hstep
          obtain ⟨app, happ, rfl⟩ := Option.map_eq_some_iff.mp hstep
          exact viewStep_app happ

/-! ## The form -/

/-- The form as the menu and the query box leave it. -/
structure SearchForm.FromMenu (form : SearchForm) : Prop where
  ext : form.extFilter ∈ extOptions
  minSize : form.minSize = ""
  maxSize : form.maxSize = ""

/-- The form, the timer and the searches hold forms of the menu. -/
structure App.FromMenu {Row : Type} (app : App Row) : Prop where
  form : app.form.FromMenu
  timer : ∀ form ∈ app.timer, form.FromMenu
  ops : ∀ form, .search form ∈ app.ops → form.FromMenu

section Menu

variable {Row : Type} {app next : App Row}

theorem App.FromMenu.rearm
    (hmenu : app.FromMenu) : app.rearm.FromMenu where
  form := hmenu.form
  timer form hform := by
    simp only [App.rearm] at hform
    split at hform
    · rw [← Option.mem_some_iff.mp hform]
      exact hmenu.form
    · simp at hform
  ops := hmenu.ops

theorem App.FromMenu.setPage
    (hmenu : app.FromMenu) (page : PageKey) : (app.setPage page).FromMenu := by
  unfold App.setPage
  split
  · exact hmenu
  · exact App.FromMenu.rearm ⟨hmenu.form, hmenu.timer, hmenu.ops⟩

theorem App.FromMenu.start
    (hmenu : app.FromMenu) {op : Operation}
    (hop : ∀ form, op = .search form → form.FromMenu) (retries : ℕ)
    (rest : List ℕ) : (app.start op retries rest).FromMenu where
  form := hmenu.form
  timer := hmenu.timer
  ops form hform := by
    simp only [App.ops, App.start, List.map_append, List.mem_append,
      List.map_cons, List.map_nil, List.mem_singleton] at hform
    rcases hform with hold | hnew
    · exact hmenu.ops form hold
    · exact hop form hnew.symm

theorem App.FromMenu.settle
    (hmenu : app.FromMenu) {k : ℕ} {op : Operation} {retries : ℕ}
    {rest : List ℕ}
    (hrow : app.calls[k]? = some ⟨op, .pending retries rest⟩)
    (outcome : Outcome Row) :
    (app.settle k op retries rest outcome).FromMenu := by
  have hset (busy : Bool) (results : List Row) (after : CallStatus Row) :
      ({ app with
        busy := busy
        results := results
        calls := app.calls.set k ⟨op, after⟩ } : App Row).FromMenu := by
    refine ⟨hmenu.form, hmenu.timer, ?_⟩
    rw [App.ops, map_op_set _ hrow]
    exact hmenu.ops
  unfold App.settle
  split
  next rows =>
    split
    next =>
      cases op with
      | search form => exact (hset false rows (.succeeded rows)).setPage _
      | scanAndIndex | saveConfig | resetConfig | detect =>
          exact hset false app.results (.succeeded rows)
      | delete path => exact hset false app.results (.succeeded rows)
    next left more => exact hset app.busy app.results (.pending left more)
  next =>
    split
    next => exact hset false app.results .failed
    next left => exact hset app.busy app.results (.pending left rest)

theorem App.FromMenu.step
    {action : AppAction Row} (hmenu : app.FromMenu)
    (hedit : ∀ query extFilter minSize maxSize,
      action = .edit query extFilter minSize maxSize →
        extFilter ∈ extOptions ∧ minSize = "" ∧ maxSize = "")
    (hstep : appStep invokeRetries app action = some next) :
    next.FromMenu := by
  have hother {op : Operation} (hop : ∀ form, op ≠ .search form)
      (retries : ℕ) (rest : List ℕ) : (app.start op retries rest).FromMenu :=
    hmenu.start (fun form heq => (hop form heq).elim) retries rest
  cases action with
  | edit query extFilter minSize maxSize =>
      obtain ⟨hext, hmin, hmax⟩ := hedit _ _ _ _ rfl
      simp only [appStep] at hstep
      split at hstep
      next =>
        split at hstep
        next => exact Option.some.inj hstep ▸ hmenu
        next =>
          rw [← Option.some.inj hstep]
          exact App.FromMenu.rearm ⟨⟨hext, hmin, hmax⟩, hmenu.timer, hmenu.ops⟩
      next => simp at hstep
  | setIndexDir dir =>
      rw [← Option.some.inj hstep]
      exact ⟨⟨hmenu.form.ext, hmenu.form.minSize, hmenu.form.maxSize⟩,
        hmenu.timer, hmenu.ops⟩
  | setPage page =>
      simp only [appStep] at hstep
      split at hstep
      next => simp at hstep
      next =>
        rw [← Option.some.inj hstep]
        exact hmenu.setPage page
  | fireTimer =>
      simp only [appStep] at hstep
      split at hstep
      next => simp at hstep
      next form htimer =>
        have hquiet : ({ app with timer := none } : App Row).FromMenu :=
          ⟨hmenu.form, by simp, hmenu.ops⟩
        split at hstep
        next => exact Option.some.inj hstep ▸ hquiet
        next =>
          rw [← Option.some.inj hstep]
          refine hquiet.start ?_ 1 []
          rintro other ⟨⟩
          exact hmenu.timer form htimer
  | pressEnter =>
      simp only [appStep] at hstep
      split at hstep
      next =>
        rw [← Option.some.inj hstep]
        refine hmenu.start ?_ 1 []
        rintro other ⟨⟩
        exact hmenu.form
      next => simp at hstep
  | clickSearch =>
      simp only [appStep] at hstep
      split at hstep
      next =>
        rw [← Option.some.inj hstep]
        refine hmenu.start ?_ 1 []
        rintro other ⟨⟩
        exact hmenu.form
      next => simp at hstep
  | clickScanAndIndex | clickSave | clickReset | confirmDelete =>
      simp only [appStep] at hstep
      split at hstep
      next =>
        rw [← Option.some.inj hstep]
        exact hother (by simp) _ _
      next => simp at hstep
  | clickDetect scanned =>
      simp only [appStep] at hstep
      split at hstep
      next =>
        split at hstep
        all_goals
          rw [← Option.some.inj hstep]
          exact hother (by simp) _ _
      next => simp at hstep
  | settle k outcome =>
      simp only [appStep] at hstep
      split at hstep
      next hrow =>
        rw [← Option.some.inj hstep]
        exact hmenu.settle hrow outcome
      next => simp at hstep

end Menu

theorem viewStep_fromMenu
    {view next : SearchView} {action : ViewAction}
    (hmenu : view.app.FromMenu)
    (hstep : viewStep invokeRetries view action = some next) :
    next.app.FromMenu := by
  cases action with
  | typeQuery query =>
      obtain ⟨app, happ, rfl⟩ := Option.map_eq_some_iff.mp hstep
      refine hmenu.step ?_ happ
      rintro _ _ _ _ ⟨⟩
      exact ⟨hmenu.form.ext, hmenu.form.minSize, hmenu.form.maxSize⟩
  | chooseExt option =>
      simp only [viewStep] at hstep
      split at hstep
      next hoption =>
        obtain ⟨app, happ, rfl⟩ := Option.map_eq_some_iff.mp hstep
        refine hmenu.step ?_ happ
        rintro _ _ _ _ ⟨⟩
        exact ⟨hoption, hmenu.form.minSize, hmenu.form.maxSize⟩
      next => simp at hstep
  | chooseSort sortBy =>
      rw [SearchView.onSearchPage_eq hstep]
      exact hmenu
  | toggleDir =>
      rw [SearchView.onSearchPage_eq hstep]
      exact hmenu
  | clickRow i =>
      simp only [viewStep] at hstep
      split at hstep
      next => simp at hstep
      next =>
        rw [SearchView.onSearchPage_eq hstep]
        exact hmenu
  | act action =>
      cases action with
      | edit query extFilter minSize maxSize => simp [viewStep] at hstep
      | setIndexDir | setPage | fireTimer | pressEnter | clickSearch
      | clickScanAndIndex | clickSave | clickReset | clickDetect
      | confirmDelete | settle =>
          simp only [viewStep] at hstep
          obtain ⟨app, happ, rfl⟩ := Option.map_eq_some_iff.mp hstep
          exact hmenu.step (by simp) happ

/-! ## The selected row -/

/-- One of the rows is selected, unless there is none. -/
structure SearchView.Selects (view : SearchView) : Prop where
  row : ∀ row ∈ view.selected, row ∈ view.app.results
  empty : view.selected = none → view.app.results = []

theorem SearchView.Selects.step
    {view next : SearchView} {action : ViewAction} (hselects : view.Selects)
    (hstep : viewStep invokeRetries view action = some next) :
    next.Selects := by
  cases viewStep_spec hstep with
  | keep _ hresults hselected =>
      exact ⟨by rw [hresults, hselected]; exact hselects.row,
        by rw [hresults, hselected]; exact hselects.empty⟩
  | click _ hrow hresults hselected =>
      refine ⟨?_, by simp [hselected]⟩
      rw [hresults, hselected]
      rintro _ ⟨⟩
      exact hrow
  | answer _ _ hresults hselected =>
      refine ⟨?_, ?_⟩
      · rw [hresults, hselected]
        exact fun row hrow => List.mem_of_head? hrow
      · rw [hresults, hselected]
        exact List.head?_eq_none_iff.mp

/-- After every session the table is the answer in hand, sorted by the chosen
key with ties in the order of the answer, and the detail pane shows one of its
rows exactly when there is one. -/
theorem searchView_selection
    (indexDir : String) {actions : List ViewAction} {final : SearchView}
    (hexec : ActionSystem.exec (viewStep invokeRetries)
      (SearchView.mount indexDir) actions = some final) :
    final.rows.Perm final.app.results ∧
    final.rows.Pairwise (fun a b =>
      match final.sortDir with
      | .asc => final.sortBy.key a ≤ final.sortBy.key b
      | .desc => final.sortBy.key b ≤ final.sortBy.key a) ∧
    (∀ ties : List (SearchResult ℚ), ties.Sublist final.app.results →
      ties.Pairwise (fun a b => final.sortBy.key a = final.sortBy.key b) →
        ties.Sublist final.rows) ∧
    (∀ row ∈ final.selected, row ∈ final.rows) ∧
    (final.selected = none ↔ final.rows = []) := by
  have hperm : final.rows.Perm final.app.results :=
    sortedResults_perm final.sortBy final.sortDir final.app.results
  have hselects : final.Selects :=
    ActionSystem.exec_invariant
      (fun _ _ _ hselects hstep => SearchView.Selects.step hselects hstep)
      (⟨by simp [SearchView.mount], fun _ => rfl⟩ :
        (SearchView.mount indexDir).Selects) hexec
  refine ⟨hperm, ?_, ?_, ?_, ?_⟩
  · exact (sortedResults_pairwise final.sortBy final.sortDir
      final.app.results).imp fun h => (compareRows_nonpos_iff _ _ _ _).mp h
  · intro ties hsub hties
    refine sublist_sortedResults final.sortBy final.sortDir
      (hties.imp fun heq => ?_) hsub
    rw [compareRows, heq, sub_self, zero_mul]
  · exact fun row hrow => hperm.mem_iff.mpr (hselects.row row hrow)
  · constructor
    · intro hnone
      exact List.Perm.eq_nil (hselects.empty hnone ▸ hperm)
    · intro hrows
      have hresults : final.app.results = [] :=
        List.Perm.eq_nil (hrows ▸ hperm).symm
      rw [Option.eq_none_iff_forall_not_mem]
      intro row hrow
      have hmem := hselects.row row hrow
      rw [hresults] at hmem
      exact List.not_mem_nil hmem

def largeRow : SearchResult ℚ := ⟨"/d/a", "a", "", 1, some 9, some 5, none⟩

def smallRow : SearchResult ℚ := ⟨"/e/a", "a", "", 1, some 2, some 7, none⟩

/-- A search whose answer is then sorted by size, the smallest first. -/
def sortedSession : List ViewAction :=
  [.typeQuery "a", .act .pressEnter,
    .act (.settle 0 (.resolved [largeRow, smallRow])), .chooseSort .size,
    .toggleDir]

theorem searchView_selection_sorted :
    ∃ final,
      ActionSystem.exec (viewStep 0) (SearchView.mount "idx") sortedSession =
        some final ∧
      final.selected = some largeRow ∧ final.sortBy = .size ∧
      final.sortDir = .asc ∧ final.rows.Perm [largeRow, smallRow] ∧
      ∀ row ∈ final.selected, row ∈ final.rows := by
  have hexec := (Option.some_get (x := ActionSystem.exec (viewStep 0)
    (SearchView.mount "idx") sortedSession) (by decide +kernel)).symm
  have hshown := searchView_selection "idx" hexec
  exact ⟨_, hexec, by decide +kernel, by decide +kernel, by decide +kernel,
    hshown.1, hshown.2.2.2.1⟩

/-! ## Answers of the back end -/

/-- The rows are the back end's answer to the request of the form, on some
state of the directories. -/
def Answers (engine : SearchEngine ℚ) (number : String → Option ℚ)
    (form : SearchForm) (rows : List (SearchResult ℚ)) : Prop :=
  ∃ openInDir req, (form.request number).receive = some req ∧
    query engine openInDir req = .ok rows

/-- Every search is answered by the back end. -/
def OwnAnswer (engine : SearchEngine ℚ) (number : String → Option ℚ)
    (view : SearchView) : ViewAction → Prop
  | .act (.settle k (.resolved rows)) =>
      ∀ form retries,
        view.app.calls[k]? = some ⟨.search form, .pending retries []⟩ →
          Answers engine number form rows
  | _ => True

/-- The filters of a menu value: its extensions and no sizes. -/
def menuFilters (extFilter : String) : Option SearchFilters :=
  if extFilter = "" then none
  else some ⟨some (parseCSV extFilter), none, none⟩

theorem parseCSV_option :
    ∀ option ∈ extOptions, parseCSV option = [] ↔ option = "" := by
  decide +kernel

theorem SearchForm.FromMenu.receive_request
    {form : SearchForm} (hmenu : form.FromMenu) (number : String → Option ℚ) :
    (form.request number).receive =
      some ⟨form.query, menuFilters form.extFilter, form.indexDir⟩ := by
  have hsize : sizeBytes number "" = none := by
    simp [sizeBytes, jsTrim]
  have hext := parseCSV_option form.extFilter hmenu.ext
  unfold SearchForm.request SearchRequest.receive menuFilters
  rw [hmenu.minSize, hmenu.maxSize, hsize]
  by_cases hnone : form.extFilter = ""
  · rw [hext.mpr hnone]
    simp [hnone]
  · simp [hext, hnone, RequestFilters.receive, receiveSize]

theorem searchResult_eq_some
    {index : Index} {filters : Option SearchFilters} {hit : ℚ × Doc}
    {row : SearchResult ℚ} (hrow : searchResult index filters hit = some row) :
    row.score = hit.1 ∧
      ∀ f ∈ filters, ∀ exts ∈ f.ext, exts ≠ [] →
        ∃ e ∈ exts, eqIgnoreAsciiCase e row.ext = true := by
  unfold searchResult at hrow
  simp only at hrow
  generalize (if index.HasField "size" then some hit.2.size else none) = size
    at hrow
  split at hrow
  next => simp at hrow
  next hkept =>
    rw [← Option.some.inj hrow]
    refine ⟨rfl, ?_⟩
    intro f hf exts hexts hsome
    rw [Option.mem_def.mp hf] at hkept
    simp only [Option.any_some, Bool.not_eq_true, SearchFilters.skips,
      Option.mem_def.mp hexts, Bool.or_eq_false_iff, Bool.and_eq_false_iff,
      Bool.not_eq_false', List.isEmpty_iff, hsome, false_or,
      List.any_eq_true] at hkept
    exact hkept.1.1

theorem query_rows
    {engine : SearchEngine ℚ}
    (hranked : ∀ q docs,
      (engine.ranked q docs).Pairwise fun a b => b.1 ≤ a.1)
    {openInDir : String → Except String Index} {req : QueryRequest}
    {rows : List (SearchResult ℚ)}
    (hquery : query engine openInDir req = .ok rows) :
    rows.length ≤ 50 ∧ rows.Pairwise (fun a b => b.score ≤ a.score) ∧
      ∀ row ∈ rows, ∀ filters ∈ req.filters, ∀ exts ∈ filters.ext, exts ≠ [] →
        ∃ e ∈ exts, eqIgnoreAsciiCase e row.ext = true := by
  unfold query at hquery
  split at hquery
  next => simp at hquery
  next index _ =>
  split at hquery
  next =>
    split at hquery
    next => simp at hquery
    next q _ =>
      rw [Except.ok.injEq] at hquery
      subst hquery
      refine ⟨?_, ?_, ?_⟩
      · exact (List.length_filterMap_le _ _).trans (List.length_take_le _ _)
      · refine ((hranked q index.docs).sublist
          (List.take_sublist _ _)).filterMap _ ?_
        intro a b hscore row hrow other hother
        rw [(searchResult_eq_some hrow).1, (searchResult_eq_some hother).1]
        exact hscore
      · intro row hrow
        obtain ⟨hit, _, hhit⟩ := List.mem_filterMap.mp hrow
        exact (searchResult_eq_some hhit).2
  next => simp at hquery

/-- The forms are those of the menu, and the rows answer one of the searches
which were made. -/
structure SearchView.Sound (engine : SearchEngine ℚ)
    (number : String → Option ℚ) (view : SearchView) : Prop where
  menu : view.app.FromMenu
  answer :
    view.app.results = [] ∨
      ∃ form, .search form ∈ view.app.ops ∧
        Answers engine number form view.app.results

theorem SearchView.mount_sound
    (engine : SearchEngine ℚ) (number : String → Option ℚ)
    (indexDir : String) : (SearchView.mount indexDir).Sound engine number := by
  have hform : SearchForm.FromMenu ⟨"", "", "", "", indexDir⟩ :=
    ⟨List.mem_cons_self, rfl, rfl⟩
  refine ⟨App.FromMenu.rearm ⟨hform, ?_, ?_⟩, Or.inl rfl⟩
  · simp
  · simp [App.ops]

theorem SearchView.Sound.step
    {engine : SearchEngine ℚ} {number : String → Option ℚ}
    {view next : SearchView} {action : ViewAction}
    (hsound : view.Sound engine number) (hown : OwnAnswer engine number view action)
    (hstep : viewStep invokeRetries view action = some next) :
    next.Sound engine number := by
  refine ⟨viewStep_fromMenu hsound.menu hstep, ?_⟩
  have hlater (hops : view.app.ops <+: next.app.ops)
      (hresults : next.app.results = view.app.results) :
      next.app.results = [] ∨ ∃ form, .search form ∈ next.app.ops ∧
        Answers engine number form next.app.results := by
    rw [hresults]
    refine hsound.answer.imp_right ?_
    rintro ⟨form, hform, hanswers⟩
    exact ⟨form, hops.subset hform, hanswers⟩
  cases viewStep_spec hstep with
  | keep hops hresults _ => exact hlater hops hresults
  | click hops _ hresults _ => exact hlater hops hresults
  | @answer k form retries rows hops hrow hresults _ =>
      refine Or.inr ⟨form, hops.subset ?_, hresults ▸ hown form retries hrow⟩
      exact List.mem_map_of_mem (List.mem_of_getElem? hrow)

/-- After every session in which the searches are answered by the back end,
and however the answers overtake each other, the table has at most fifty rows.
They answer one of the searches made on the page; that search bounded no size,
and each row has one of the extensions of its menu value.  In the first sort
the rows stand as the back end ranked them. -/
theorem searchView_answers
    {engine : SearchEngine ℚ} {number : String → Option ℚ}
    (hranked : ∀ q docs,
      (engine.ranked q docs).Pairwise fun a b => b.1 ≤ a.1)
    (indexDir : String) {actions : List ViewAction} {final : SearchView}
    (hown : ActionSystem.Guarded (viewStep invokeRetries)
      (OwnAnswer engine number) (SearchView.mount indexDir) actions)
    (hexec : ActionSystem.exec (viewStep invokeRetries)
      (SearchView.mount indexDir) actions = some final) :
    (∀ form, .search form ∈ final.app.ops → (form.request number).receive =
      some ⟨form.query, menuFilters form.extFilter, form.indexDir⟩) ∧
    final.rows.length ≤ 50 ∧
    (final.sortBy = .score → final.sortDir = .desc →
      final.rows = final.app.results) ∧
    (final.rows ≠ [] → ∃ form, .search form ∈ final.app.ops ∧
      Answers engine number form final.app.results ∧
      (form.extFilter ≠ "" → ∀ row ∈ final.rows,
        ∃ e ∈ parseCSV form.extFilter,
          eqIgnoreAsciiCase e row.ext = true)) := by
  have hsound : final.Sound engine number :=
    ActionSystem.exec_invariant_of_guarded
      (fun _ _ _ hsound hown hstep => SearchView.Sound.step hsound hown hstep)
      (SearchView.mount_sound engine number indexDir) hown hexec
  have hperm : final.rows.Perm final.app.results :=
    sortedResults_perm final.sortBy final.sortDir final.app.results
  refine ⟨fun form hform =>
    (hsound.menu.ops form hform).receive_request number, ?_⟩
  rcases hsound.answer with hnil | ⟨form, hform, hanswers⟩
  · have hrows : final.rows = [] := List.Perm.eq_nil (hnil ▸ hperm)
    rw [hrows, hnil]
    simp
  · obtain ⟨openInDir, req, hreceive, hquery⟩ := id hanswers
    obtain ⟨hlength, hscores, hext⟩ := query_rows hranked hquery
    refine ⟨hperm.length_eq ▸ hlength, ?_, ?_⟩
    · intro hscore hdesc
      unfold SearchView.rows
      rw [hscore, hdesc]
      refine sortedResults_eq_self _ _ (hscores.imp fun h => ?_)
      exact (compareRows_nonpos_iff _ _ _ _).mpr h
    · intro _
      refine ⟨form, hform, hanswers, fun hoption row hrow => ?_⟩
      have hmenu := hsound.menu.ops form hform
      rw [hmenu.receive_request number, Option.some.injEq] at hreceive
      rw [← hreceive] at hext
      refine hext row (hperm.mem_iff.mp hrow) ⟨some (parseCSV form.extFilter),
        none, none⟩ (by simp [menuFilters, hoption]) _ rfl ?_
      exact fun hempty =>
        hoption ((parseCSV_option form.extFilter hmenu.ext).mp hempty)

/-- Single words with one score for all matches. -/
def evenWordEngine : SearchEngine ℚ where
  Query := wordEngine.Query
  parseQuery := wordEngine.parseQuery
  isMatch := wordEngine.isMatch
  ranked q docs := (docs.filter (wordEngine.isMatch q)).map fun doc => (1, doc)
  ranked_perm _ docs := by
    rw [List.map_map]
    exact List.Perm.of_eq (List.map_id _)

def reportIndex : String → Except String Index := fun _ =>
  .ok ⟨programSchema, [reportDoc 1 "txt", reportDoc 2 "md"]⟩

def reportRow : SearchResult ℚ := SearchResult.of (1, reportDoc 1 "txt")

/-- A search for text files, among a text file and a Markdown file. -/
def reportSession : List ViewAction :=
  [.chooseExt "txt", .typeQuery "report", .act .pressEnter,
    .act (.settle 0 (.resolved [reportRow]))]

theorem searchView_answers_report :
    ∃ final,
      ActionSystem.exec (viewStep 0) (SearchView.mount "idx") reportSession =
        some final ∧
      final.rows = [reportRow] ∧
      ∃ form, .search form ∈ final.app.ops ∧
        Answers evenWordEngine (fun _ => none) form final.app.results ∧
        (form.extFilter ≠ "" → ∀ row ∈ final.rows,
          ∃ e ∈ parseCSV form.extFilter,
            eqIgnoreAsciiCase e row.ext = true) := by
  have hexec := (Option.some_get (x := ActionSystem.exec (viewStep 0)
    (SearchView.mount "idx") reportSession) (by decide +kernel)).symm
  have hown : ActionSystem.Guarded (viewStep 0)
      (OwnAnswer evenWordEngine fun _ => none) (SearchView.mount "idx")
      reportSession := by
    refine ⟨trivial, fun first hfirst => ⟨trivial, fun second hsecond =>
      ⟨trivial, fun third hthird => ⟨?_, fun _ _ => trivial⟩⟩⟩⟩
    rw [← Option.some.inj hfirst] at hsecond
    rw [← Option.some.inj hsecond] at hthird
    rw [← Option.some.inj hthird]
    rintro form retries ⟨⟩
    exact ⟨reportIndex, ⟨"report", some ⟨some ["txt"], none, none⟩, "idx"⟩,
      rfl, rfl⟩
  have hshown := @searchView_answers 0 evenWordEngine (fun _ => none)
    (fun q docs => List.pairwise_map.mpr (List.pairwise_of_forall fun _ _ =>
      le_refl _)) "idx" _ _ hown hexec
  have hrows := hshown.2.2.1 rfl rfl
  have hsome := hrows.trans_ne (List.cons_ne_nil reportRow [])
  exact ⟨_, hexec, hrows, hshown.2.2.2 hsome⟩

end SearchEvery
