import Mathlib.Tactic

/-!
# Executions of a partial action system

A system is a partial step function on states and actions.  An execution is a
list of actions, each enabled in the state its predecessors produced.  The
file packages the two inductions which every safety argument repeats: an
invariant kept by one step is kept by an execution, and the same when only
the steps satisfying a guard keep it.  Further rules are for an invariant which
speaks of the actions so far and for one which rests on another.
-/

namespace ActionSystem

variable {State Action : Type*}

/-- Run a list of actions from the left; `none` when one is not enabled. -/
def exec (step : State → Action → Option State) (s : State)
    (actions : List Action) : Option State :=
  actions.foldlM step s

/-- Every action of the list satisfies the guard in the state it is taken. -/
def Guarded (step : State → Action → Option State)
    (Guard : State → Action → Prop) : State → List Action → Prop
  | _, [] => True
  | s, action :: rest =>
      Guard s action ∧
        ∀ next, step s action = some next → Guarded step Guard next rest

variable {step : State → Action → Option State}

@[simp] theorem exec_nil (s : State) : exec step s [] = some s := rfl

theorem exec_cons
    (s : State) (action : Action) (rest : List Action) :
    exec step s (action :: rest) =
      (step s action).bind (fun next => exec step next rest) := by
  simp [exec, Option.bind_eq_bind]

theorem exec_cons_eq_some_iff
    {s final : State} {action : Action} {rest : List Action} :
    exec step s (action :: rest) = some final ↔
      ∃ next, step s action = some next ∧ exec step next rest = some final := by
  rw [exec_cons, Option.bind_eq_some_iff]

theorem exec_append
    (s : State) (before after : List Action) :
    exec step s (before ++ after) =
      (exec step s before).bind (fun mid => exec step mid after) := by
  simp [exec, List.foldlM_append, Option.bind_eq_bind]

theorem exec_append_eq_some_iff
    {s final : State} {before after : List Action} :
    exec step s (before ++ after) = some final ↔
      ∃ mid, exec step s before = some mid ∧ exec step mid after = some final := by
  rw [exec_append, Option.bind_eq_some_iff]

/-- A predicate kept by every enabled step holds at the end of every
execution which starts in it. -/
theorem exec_invariant
    {Inv : State → Prop}
    (hstep : ∀ s action next, Inv s → step s action = some next → Inv next)
    {s final : State} {actions : List Action}
    (hinit : Inv s) (hexec : exec step s actions = some final) :
    Inv final := by
  induction actions generalizing s with
  | nil =>
      simp only [exec_nil, Option.some.injEq] at hexec
      exact hexec ▸ hinit
  | cons action rest ih =>
      obtain ⟨next, hnext, hrest⟩ := exec_cons_eq_some_iff.mp hexec
      exact ih (hstep s action next hinit hnext) hrest

/-- The invariant rule for an invariant which speaks of the actions so far. -/
theorem exec_invariant_history
    {Inv : List Action → State → Prop}
    (hstep : ∀ past s action next,
      Inv past s → step s action = some next → Inv (past ++ [action]) next)
    {past : List Action} {s final : State} {actions : List Action}
    (hinit : Inv past s) (hexec : exec step s actions = some final) :
    Inv (past ++ actions) final := by
  induction actions generalizing past s with
  | nil =>
      simp only [exec_nil, Option.some.injEq] at hexec
      rw [List.append_nil]
      exact hexec ▸ hinit
  | cons action rest ih =>
      obtain ⟨next, hnext, hrest⟩ := exec_cons_eq_some_iff.mp hexec
      rw [List.append_cons]
      exact ih (hstep past s action next hinit hnext) hrest

/-- The invariant rule for executions whose steps all satisfy a guard. -/
theorem exec_invariant_of_guarded
    {Inv : State → Prop} {Guard : State → Action → Prop}
    (hstep : ∀ s action next,
      Inv s → Guard s action → step s action = some next → Inv next)
    {s final : State} {actions : List Action}
    (hinit : Inv s) (hguard : Guarded step Guard s actions)
    (hexec : exec step s actions = some final) :
    Inv final := by
  induction actions generalizing s with
  | nil =>
      simp only [exec_nil, Option.some.injEq] at hexec
      exact hexec ▸ hinit
  | cons action rest ih =>
      obtain ⟨next, hnext, hrest⟩ := exec_cons_eq_some_iff.mp hexec
      exact ih (hstep s action next hinit hguard.1 hnext)
        (hguard.2 next hnext) hrest

/-- The same for an invariant which is kept only where another one holds. -/
theorem exec_invariant_over
    {Base Inv : State → Prop} {Guard : State → Action → Prop}
    (hbase : ∀ s action next, Base s → step s action = some next → Base next)
    (hstep : ∀ s action next,
      Base s → Inv s → Guard s action → step s action = some next → Inv next)
    {s final : State} {actions : List Action}
    (hstart : Base s) (hinit : Inv s) (hguard : Guarded step Guard s actions)
    (hexec : exec step s actions = some final) :
    Inv final := by
  have hkeep :
      ∀ s action next, Base s ∧ Inv s → Guard s action →
        step s action = some next → Base next ∧ Inv next := by
    intro s action next hinv hallowed hnext
    exact ⟨hbase s action next hinv.1 hnext,
      hstep s action next hinv.1 hinv.2 hallowed hnext⟩
  exact (exec_invariant_of_guarded hkeep ⟨hstart, hinit⟩ hguard hexec).2

theorem guarded_of_forall
    {P : Action → Prop} {s : State} {actions : List Action}
    (hall : ∀ action ∈ actions, P action) :
    Guarded step (fun _ action => P action) s actions := by
  induction actions generalizing s with
  | nil => trivial
  | cons action rest ih =>
      rw [List.forall_mem_cons] at hall
      exact ⟨hall.1, fun _ _ => ih hall.2⟩

theorem Guarded.of_append
    {Guard : State → Action → Prop} {s mid : State}
    {before after : List Action}
    (hguard : Guarded step Guard s (before ++ after))
    (hexec : exec step s before = some mid) :
    Guarded step Guard mid after := by
  induction before generalizing s with
  | nil =>
      simp only [exec_nil, Option.some.injEq] at hexec
      exact hexec ▸ hguard
  | cons action rest ih =>
      obtain ⟨next, hnext, hrest⟩ := exec_cons_eq_some_iff.mp hexec
      exact ih (hguard.2 next hnext) hrest

theorem Guarded.of_append_left
    {Guard : State → Action → Prop} {s : State} {before after : List Action}
    (hguard : Guarded step Guard s (before ++ after)) :
    Guarded step Guard s before := by
  induction before generalizing s with
  | nil => trivial
  | cons action rest ih =>
      exact ⟨hguard.1, fun next hnext => ih (hguard.2 next hnext)⟩

/-- An execution which is not guarded takes a step against the guard. -/
theorem exists_step_of_not_guarded
    {Guard : State → Action → Prop} {s final : State} {actions : List Action}
    (hexec : exec step s actions = some final)
    (hbad : ¬ Guarded step Guard s actions) :
    ∃ before action after mid next, actions = before ++ action :: after ∧
      exec step s before = some mid ∧ step mid action = some next ∧
      exec step next after = some final ∧ ¬ Guard mid action := by
  induction actions generalizing s with
  | nil => exact (hbad trivial).elim
  | cons action rest ih =>
      obtain ⟨next, hnext, hrest⟩ := exec_cons_eq_some_iff.mp hexec
      by_cases hguard : Guard s action
      · have hlater : ¬ Guarded step Guard next rest := by
          intro hall
          apply hbad
          refine ⟨hguard, fun other hother => ?_⟩
          rw [hnext, Option.some.injEq] at hother
          exact hother ▸ hall
        obtain ⟨before, act, after, mid, following, rfl, hbefore, hstep, hafter,
          hnot⟩ := ih hrest hlater
        refine ⟨action :: before, act, after, mid, following, rfl, ?_, hstep,
          hafter, hnot⟩
        exact exec_cons_eq_some_iff.mpr ⟨next, hnext, hbefore⟩
      · exact ⟨[], action, rest, s, next, rfl, rfl, hnext, hrest, hguard⟩

/-- When one step keeps a predicate exactly under the guard, an execution is
guarded exactly when the predicate holds in every state it reaches. -/
theorem guarded_iff_forall_reached
    {Inv : State → Prop} {Guard : State → Action → Prop}
    (hstep : ∀ s action next, Inv s → step s action = some next →
      (Guard s action ↔ Inv next))
    {s final : State} {actions : List Action} (hinit : Inv s)
    (hexec : exec step s actions = some final) :
    Guarded step Guard s actions ↔
      ∀ before after mid, actions = before ++ after →
        exec step s before = some mid → Inv mid := by
  constructor
  · rintro hguard before after mid rfl hbefore
    exact exec_invariant_of_guarded
      (fun _ _ _ hinv hallowed hnext => (hstep _ _ _ hinv hnext).mp hallowed)
      hinit hguard.of_append_left hbefore
  · intro hreached
    by_contra hbad
    obtain ⟨before, action, after, mid, next, rfl, hbefore, hnext, _, hnot⟩ :=
      exists_step_of_not_guarded hexec hbad
    have hmid := hreached before (action :: after) mid rfl hbefore
    have hlater : Inv next := by
      apply hreached (before ++ [action]) after next (by simp)
      rw [exec_append_eq_some_iff]
      exact ⟨mid, hbefore, by simp [exec_cons, hnext]⟩
    exact hnot ((hstep mid action next hmid hnext).mpr hlater)

instance decidableGuarded
    (Guard : State → Action → Prop) [∀ s action, Decidable (Guard s action)] :
    ∀ s actions, Decidable (Guarded step Guard s actions)
  | _, [] => .isTrue trivial
  | s, action :: rest =>
      match hstep : step s action with
      | none => decidable_of_iff (Guard s action) (by simp [Guarded, hstep])
      | some next =>
          have := decidableGuarded Guard next rest
          decidable_of_iff (Guard s action ∧ Guarded step Guard next rest)
            (by simp [Guarded, hstep])

end ActionSystem
