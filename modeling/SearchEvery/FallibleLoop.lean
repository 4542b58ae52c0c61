import Mathlib.Tactic

/-!
# Loops which may fail

A loop folds a fallible body over a list and ends at the first error.  The
first part takes such a fold apart, and also one which skips its failed turns.
In the second part the loop counts the turns it has finished, and the body says
by its count and its item alone whether it stops the loop for a good reason or
for a bad one.  Then so does the whole loop: it never ends badly exactly when no
turn that it reaches is a bad one.
-/

namespace FallibleLoop

variable {σ α ε : Type*}

/-! ## Folds of fallible steps -/

section Results

variable {β : Type*}

theorem forall_map_ne_error_iff
    {result : Except ε α} {f : α → β} :
    (∀ e, result.map f ≠ .error e) ↔ ∀ e, result ≠ .error e := by
  cases result with
  | error e => simp [Except.map]
  | ok a => simp [Except.map]

theorem map_eq_ok
    {result : Except ε α} {f : α → β} {b : β} (hmap : result.map f = .ok b) :
    ∃ a, result = .ok a ∧ f a = b := by
  cases result with
  | error e => simp [Except.map] at hmap
  | ok a => exact ⟨a, rfl, by simpa [Except.map] using hmap⟩

theorem bind_eq_ok
    {result : Except ε α} {f : α → Except ε β} {b : β}
    (hbind : result.bind f = .ok b) :
    ∃ a, result = .ok a ∧ f a = .ok b := by
  cases result with
  | error e => simp [Except.bind] at hbind
  | ok a => exact ⟨a, rfl, hbind⟩

theorem foldlM_nil_eq_ok
    {f : σ → α → Except ε σ} {s final : σ}
    (hfold : [].foldlM f s = .ok final) : final = s := by
  simpa [pure, Except.pure, eq_comm] using hfold

theorem foldlM_cons_eq_ok
    {f : σ → α → Except ε σ} {a : α} {items : List α} {s final : σ}
    (hfold : (a :: items).foldlM f s = .ok final) :
    ∃ next, f s a = .ok next ∧ items.foldlM f next = .ok final := by
  rw [List.foldlM_cons] at hfold
  exact bind_eq_ok hfold

theorem foldlM_ok_of_step
    {f g : σ → α → Except ε σ} {items : List α} {s final : σ}
    (hstep : ∀ s a next, f s a = .ok next → g s a = .ok next)
    (hfold : items.foldlM f s = .ok final) :
    items.foldlM g s = .ok final := by
  induction items generalizing s with
  | nil => exact hfold
  | cons a items ih =>
      obtain ⟨next, hnext, hrest⟩ := foldlM_cons_eq_ok hfold
      rw [List.foldlM_cons, hstep s a next hnext]
      exact ih hrest

/-- A loop over a view of the state is the view of the loop. -/
theorem foldlM_view
    {τ : Type*} {f : σ → α → Except ε σ} {g : τ → α → Except ε τ}
    {view : σ → τ} (hstep : ∀ s a, g (view s) a = (f s a).map view)
    (items : List α) (s : σ) :
    items.foldlM g (view s) = (items.foldlM f s).map view := by
  induction items generalizing s with
  | nil => rfl
  | cons a items ih =>
      rw [List.foldlM_cons, List.foldlM_cons, hstep]
      cases f s a with
      | error e => rfl
      | ok next => exact ih next

end Results

/-- When a turn either sets a property or, skipped, leaves it as it was, the
last turn which is not skipped decides. -/
theorem foldl_last_iff
    {step : σ → α → σ} {P : σ → Prop} {Sets Skips : α → Prop}
    (hstep : ∀ s a, P (step s a) ↔ Sets a ∨ Skips a ∧ P s) (s : σ)
    (items : List α) :
    P (items.foldl step s) ↔
      (∃ before a after, items = before ++ a :: after ∧ Sets a ∧
        ∀ later ∈ after, Skips later) ∨
      (∀ a ∈ items, Skips a) ∧ P s := by
  induction items generalizing s with
  | nil => simp
  | cons first rest ih =>
      rw [List.foldl_cons, ih, hstep, List.forall_mem_cons]
      constructor
      · rintro (⟨before, a, after, rfl, hsets, hafter⟩ | ⟨hrest, hfirst⟩)
        · exact Or.inl ⟨first :: before, a, after, rfl, hsets, hafter⟩
        · rcases hfirst with hsets | ⟨hskips, hold⟩
          · exact Or.inl ⟨[], first, rest, rfl, hsets, hrest⟩
          · exact Or.inr ⟨⟨hskips, hrest⟩, hold⟩
      · rintro (⟨before, a, after, hitems, hsets, hafter⟩ | ⟨hskip, hold⟩)
        · cases before with
          | nil =>
              obtain ⟨rfl, rfl⟩ := List.cons_eq_cons.mp hitems
              exact Or.inr ⟨hafter, Or.inl hsets⟩
          | cons other before =>
              obtain ⟨-, rfl⟩ := List.cons_eq_cons.mp hitems
              exact Or.inl ⟨before, a, after, rfl, hsets, hafter⟩
        · exact Or.inr ⟨hskip.2, Or.inr ⟨hskip.1, hold⟩⟩

/-! ## Turns -/

/-- One turn of a counted loop stops it for a good reason, stops it for a bad
one, or goes on to the next count. -/
def Turns (step : σ → α → Except ε σ) (inv : σ → Prop) (count : σ → ℕ)
    (stops faults : ℕ → α → Prop) (bad : ε → Prop) : Prop :=
  ∀ s a, inv s →
    (stops (count s) a ∧ ∃ e, ¬ bad e ∧ step s a = .error e) ∨
    (¬ stops (count s) a ∧ faults (count s) a ∧
      ∃ e, bad e ∧ step s a = .error e) ∨
    (¬ stops (count s) a ∧ ¬ faults (count s) a ∧
      ∃ next, inv next ∧ count next = count s + 1 ∧ step s a = .ok next)

/-- No turn is a bad one, from the given count on and as far as the loop
gets. -/
def Harmless (stops faults : ℕ → α → Prop) (start : ℕ) (items : List α) :
    Prop :=
  ∀ k a, items[k]? = some a →
    (∀ j ≤ k, ∀ b, items[j]? = some b → ¬ stops (start + j) b) →
      ¬ faults (start + k) a

variable {stops faults : ℕ → α → Prop}

theorem harmless_nil (start : ℕ) :
    Harmless stops faults start [] := by
  intro k a hk
  simp at hk

theorem harmless_cons_of_stops
    {start : ℕ} {a : α} (hstops : stops start a) (items : List α) :
    Harmless stops faults start (a :: items) := by
  intro k b _ hgoes
  exact (hgoes 0 (Nat.zero_le k) a rfl hstops).elim

theorem not_harmless_cons_of_faults
    {start : ℕ} {a : α} (hgoes : ¬ stops start a) (hfaults : faults start a)
    (items : List α) :
    ¬ Harmless stops faults start (a :: items) := by
  intro hharmless
  refine hharmless 0 a rfl ?_ hfaults
  intro j hj b hb
  obtain rfl : j = 0 := Nat.le_zero.mp hj
  obtain rfl : a = b := by
    simpa using hb
  exact hgoes

theorem harmless_cons_iff
    {start : ℕ} {a : α} (hgoes : ¬ stops start a)
    (hclean : ¬ faults start a) (items : List α) :
    Harmless stops faults start (a :: items) ↔
      Harmless stops faults (start + 1) items := by
  have hshift (j : ℕ) : start + (j + 1) = start + 1 + j := by
    omega
  constructor
  · intro hharmless k b hk hbefore
    rw [← hshift]
    refine hharmless (k + 1) b (by simpa using hk) ?_
    intro j hj c hc
    cases j with
    | zero =>
        obtain rfl : a = c := by
          simpa using hc
        exact hgoes
    | succ j =>
        rw [hshift]
        exact hbefore j (by omega) c (by simpa using hc)
  · intro hharmless k b hk hbefore
    cases k with
    | zero =>
        obtain rfl : a = b := by
          simpa using hk
        exact hclean
    | succ k =>
        rw [hshift]
        refine hharmless k b (by simpa using hk) ?_
        intro j hj c hc
        rw [← hshift]
        exact hbefore (j + 1) (by omega) c (by simpa using hc)

variable {step : σ → α → Except ε σ} {inv : σ → Prop} {count : σ → ℕ}
  {bad : ε → Prop}

theorem foldlM_cons_of_error
    {a : α} {items : List α} {s : σ} {e : ε} (hstep : step s a = .error e) :
    (a :: items).foldlM step s = .error e := by
  rw [List.foldlM_cons, hstep]
  rfl

theorem Turns.foldlM_iff
    (hturns : Turns step inv count stops faults bad) {s : σ} (hinv : inv s)
    (items : List α) :
    (∀ e, items.foldlM step s = .error e → ¬ bad e) ↔
      Harmless stops faults (count s) items := by
  induction items generalizing s with
  | nil => simp [harmless_nil, pure, Except.pure]
  | cons a items ih =>
      rcases hturns s a hinv with ⟨hstops, e, hgood, hstep⟩ |
        ⟨hgoes, hfaults, e, hbad, hstep⟩ |
        ⟨hgoes, hclean, next, hnext, hcount, hstep⟩
      · refine iff_of_true ?_ (harmless_cons_of_stops hstops items)
        intro e' hfold
        rw [foldlM_cons_of_error hstep, Except.error.injEq] at hfold
        rwa [← hfold]
      · refine iff_of_false ?_
          (not_harmless_cons_of_faults hgoes hfaults items)
        intro hnever
        exact hnever e (foldlM_cons_of_error hstep) hbad
      · rw [harmless_cons_iff hgoes hclean, ← hcount, List.foldlM_cons, hstep]
        exact ih hnext

end FallibleLoop
