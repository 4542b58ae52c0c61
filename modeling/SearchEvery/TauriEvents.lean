import SearchEvery.ActionSystem
import SearchEvery.TableUpdate
import Mathlib.Tactic

/-!
# The event subscription hook

`useTauriEvents` subscribes in an effect: it awaits one subscribe function
after the other, tries again after a pause when one fails, and keeps the
unlisten functions for the cleanup.  The cleanup runs on unmount and before
the effect runs again, which in the program is after every render, and does
not stop the loop.  An action is one outcome of the world: a render, an
unmount, a promise which settles or a timer which fires.
-/

namespace SearchEvery

/-- Where the loop of an effect stands: before the answer to the `i`-th
subscribe function, or in the pause before it is called again. -/
inductive EffectPhase
  | awaiting (i attempt : ℕ)
  | backoff (i attempt : ℕ)
  | done
  deriving DecidableEq

/-- A listener which an effect has obtained: the subscribe function it came
from, and how often its unlisten function was called. -/
structure Listener where
  index : ℕ
  unlistened : ℕ
  deriving DecidableEq

def Listener.unlisten (listener : Listener) : Listener :=
  { listener with unlistened := listener.unlistened + 1 }

/-- One run of the effect.  The unlisten functions are positions in the list
of listeners. -/
structure Effect where
  subscribeFns : ℕ
  retries : ℕ
  phase : EffectPhase
  cancelled : Bool
  listeners : List Listener
  unlisteners : List ℕ
  deriving DecidableEq

def enterLoop (subscribeFns i : ℕ) : EffectPhase :=
  if i < subscribeFns then .awaiting i 0 else .done

def Effect.start (subscribeFns retries : ℕ) : Effect :=
  ⟨subscribeFns, retries, enterLoop subscribeFns 0, false, [], []⟩

/-- The promise of the subscribe function resolves; after the cleanup its
unlisten function is dropped. -/
def Effect.resolve (effect : Effect) : Option Effect :=
  match effect.phase with
  | .awaiting i _ =>
      some { effect with
        phase := enterLoop effect.subscribeFns (i + 1)
        listeners := effect.listeners ++ [⟨i, 0⟩]
        unlisteners := if effect.cancelled then effect.unlisteners
          else effect.unlisteners ++ [effect.listeners.length] }
  | _ => none

def Effect.reject (effect : Effect) : Option Effect :=
  match effect.phase with
  | .awaiting i attempt =>
      some { effect with
        phase := if attempt + 1 > effect.retries then
          enterLoop effect.subscribeFns (i + 1)
        else .backoff i (attempt + 1) }
  | _ => none

def Effect.timer (effect : Effect) : Option Effect :=
  match effect.phase with
  | .backoff i attempt => some { effect with phase := .awaiting i attempt }
  | _ => none

def Effect.cleanup (effect : Effect) : Effect :=
  { effect with
    cancelled := true
    listeners := effect.unlisteners.foldl
      (fun listeners k => listeners.modify k Listener.unlisten)
      effect.listeners
    unlisteners := [] }

/-- The effects in the order of their start, and the one whose cleanup React
still has to call. -/
structure Hook where
  effects : List Effect
  current : Option ℕ
  deriving DecidableEq

def Hook.mount : Hook := ⟨[], none⟩

def Hook.cleanup (hook : Hook) : Hook :=
  match hook.current with
  | none => hook
  | some j => ⟨hook.effects.modify j Effect.cleanup, none⟩

def Hook.start (hook : Hook) (subscribeFns retries : ℕ) : Hook :=
  ⟨hook.effects ++ [Effect.start subscribeFns retries],
    some hook.effects.length⟩

def Hook.settle (hook : Hook) (j : ℕ) (outcome : Effect → Option Effect) :
    Option Hook :=
  match hook.effects[j]? with
  | none => none
  | some effect =>
      (outcome effect).map fun next =>
        { hook with effects := hook.effects.set j next }

inductive HookAction
  | render (active : Bool) (subscribeFns retries : ℕ)
  | unmount
  | resolve (j : ℕ)
  | reject (j : ℕ)
  | timer (j : ℕ)
  deriving DecidableEq

def hookStep (hook : Hook) : HookAction → Option Hook
  | .render active subscribeFns retries =>
      if active then some (hook.cleanup.start subscribeFns retries)
      else some hook.cleanup
  | .unmount => some hook.cleanup
  | .resolve j => hook.settle j Effect.resolve
  | .reject j => hook.settle j Effect.reject
  | .timer j => hook.settle j Effect.timer

/-! ## Leaks -/

/-- Every listener of a cleaned-up effect was unlistened exactly once. -/
def Hook.Unlistened (hook : Hook) : Prop :=
  ∀ effect ∈ hook.effects, effect.cancelled = true →
    ∀ listener ∈ effect.listeners, listener.unlistened = 1

/-- Two live listeners of one subscription are the same listener. -/
def Hook.OneLive (hook : Hook) : Prop :=
  ∀ (j k a b : ℕ) (effect other : Effect) (listener twin : Listener),
    hook.effects[j]? = some effect → hook.effects[k]? = some other →
    effect.listeners[a]? = some listener → other.listeners[b]? = some twin →
    listener.unlistened = 0 → twin.unlistened = 0 →
    listener.index = twin.index → j = k ∧ a = b

/-- No promise of an effect resolves after the cleanup of that effect. -/
def ResolvesInTime (hook : Hook) : HookAction → Prop
  | .resolve j => ∀ effect ∈ hook.effects[j]?, effect.cancelled = false
  | _ => True

instance (hook : Hook) (action : HookAction) :
    Decidable (ResolvesInTime hook action) :=
  match action with
  | .resolve j =>
      inferInstanceAs (Decidable (∀ effect ∈ hook.effects[j]?,
        effect.cancelled = false))
  | .render _ _ _ => inferInstanceAs (Decidable True)
  | .unmount => inferInstanceAs (Decidable True)
  | .reject _ => inferInstanceAs (Decidable True)
  | .timer _ => inferInstanceAs (Decidable True)

/-! ## What one outcome does to an effect -/

def EffectPhase.index? : EffectPhase → Option ℕ
  | .awaiting i _ => some i
  | .backoff i _ => some i
  | .done => none

/-- The listeners of an effect come from different subscribe functions, all
before the one which is being awaited; an effect which is not cleaned up can
unlisten each of them, and one which is can unlisten none. -/
structure Effect.Sound (effect : Effect) : Prop where
  nodup : (effect.listeners.map Listener.index).Nodup
  below : ∀ i ∈ effect.phase.index?, ∀ listener ∈ effect.listeners,
    listener.index < i
  live : effect.cancelled = false →
    effect.unlisteners = List.range effect.listeners.length ∧
      ∀ listener ∈ effect.listeners, listener.unlistened = 0
  cleaned : effect.cancelled = true → effect.unlisteners = []

theorem enterLoop_index?
    {subscribeFns i k : ℕ} (hk : k ∈ (enterLoop subscribeFns i).index?) :
    k = i := by
  unfold enterLoop at hk
  split at hk
  · simpa [EffectPhase.index?] using hk.symm
  · simp [EffectPhase.index?] at hk

theorem Effect.start_sound
    (subscribeFns retries : ℕ) : (Effect.start subscribeFns retries).Sound := by
  constructor <;> simp [Effect.start]

theorem Effect.Sound.resolve
    {effect next : Effect} (hsound : effect.Sound)
    (hresolve : effect.resolve = some next) : next.Sound := by
  unfold Effect.resolve at hresolve
  split at hresolve
  next i attempt hphase =>
    rw [Option.some.injEq] at hresolve
    subst hresolve
    have hbelow := hsound.below i (by simp [hphase, EffectPhase.index?])
    have hfresh : i ∉ effect.listeners.map Listener.index := by
      intro hmem
      obtain ⟨listener, hlistener, heq⟩ := List.mem_map.mp hmem
      exact absurd (hbelow listener hlistener) (by omega)
    refine ⟨?_, ?_, ?_, ?_⟩
    · rw [List.map_append, List.map_singleton]
      exact hsound.nodup.append (List.nodup_singleton i)
        (List.disjoint_singleton.mpr hfresh)
    · intro k hk listener hmem
      rw [enterLoop_index? hk]
      rcases List.mem_append.mp hmem with hold | hnew
      · exact Nat.lt_succ_of_lt (hbelow listener hold)
      · rw [List.mem_singleton.mp hnew]
        exact Nat.lt_succ_self i
    · intro hlive
      simp only at hlive
      obtain ⟨hunlisteners, hzero⟩ := hsound.live hlive
      refine ⟨?_, ?_⟩
      · simp [hlive, hunlisteners, List.range_succ]
      · intro listener hmem
        rcases List.mem_append.mp hmem with hold | hnew
        · exact hzero listener hold
        · rw [List.mem_singleton.mp hnew]
    · intro hcancelled
      simp only at hcancelled
      simp [hcancelled, hsound.cleaned hcancelled]
  next => simp at hresolve

theorem Effect.Sound.of_phase
    {effect : Effect} (hsound : effect.Sound) {phase : EffectPhase}
    (hlater : ∀ k ∈ phase.index?, ∃ i ∈ effect.phase.index?, i ≤ k) :
    { effect with phase := phase }.Sound where
  nodup := hsound.nodup
  below k hk listener hmem := by
    obtain ⟨i, hi, hle⟩ := hlater k hk
    exact (hsound.below i hi listener hmem).trans_le hle
  live := hsound.live
  cleaned := hsound.cleaned

theorem Effect.reject_eq_some
    {effect next : Effect} (hreject : effect.reject = some next) :
    ∃ phase, next = { effect with phase := phase } ∧
      ∀ k ∈ phase.index?, ∃ i ∈ effect.phase.index?, i ≤ k := by
  unfold Effect.reject at hreject
  split at hreject
  next i attempt hphase =>
    rw [Option.some.injEq] at hreject
    refine ⟨_, hreject.symm, ?_⟩
    intro k hk
    refine ⟨i, by simp [hphase, EffectPhase.index?], ?_⟩
    split at hk
    · rw [enterLoop_index? hk]
      exact Nat.le_succ i
    · simp only [EffectPhase.index?, Option.mem_def, Option.some.injEq] at hk
      exact hk.le
  next => simp at hreject

theorem Effect.timer_eq_some
    {effect next : Effect} (htimer : effect.timer = some next) :
    ∃ phase, next = { effect with phase := phase } ∧
      ∀ k ∈ phase.index?, ∃ i ∈ effect.phase.index?, i ≤ k := by
  unfold Effect.timer at htimer
  split at htimer
  next i attempt hphase =>
    rw [Option.some.injEq] at htimer
    refine ⟨_, htimer.symm, ?_⟩
    intro k hk
    exact ⟨k, by simpa [hphase, EffectPhase.index?] using hk, le_rfl⟩
  next => simp at htimer

theorem Effect.Sound.cleanup_listeners
    {effect : Effect} (hsound : effect.Sound) :
    effect.cleanup.listeners =
      if effect.cancelled then effect.listeners
      else effect.listeners.map Listener.unlisten := by
  unfold Effect.cleanup
  cases hcancelled : effect.cancelled with
  | true => simp [hsound.cleaned hcancelled]
  | false =>
      rw [(hsound.live hcancelled).1, TableUpdate.foldl_modify_range_length]
      rfl

theorem Effect.Sound.cleanup_indices
    {effect : Effect} (hsound : effect.Sound) :
    effect.cleanup.listeners.map Listener.index =
      effect.listeners.map Listener.index := by
  rw [hsound.cleanup_listeners]
  split
  · rfl
  · rw [List.map_map]
    rfl

theorem Effect.Sound.cleanup
    {effect : Effect} (hsound : effect.Sound) : effect.cleanup.Sound where
  nodup := by
    rw [hsound.cleanup_indices]
    exact hsound.nodup
  below i hi listener hmem := by
    have hindex := List.mem_map_of_mem (f := Listener.index) hmem
    rw [hsound.cleanup_indices] at hindex
    obtain ⟨origin, horigin, heq⟩ := List.mem_map.mp hindex
    exact heq ▸ hsound.below i hi origin horigin
  live hlive := by simp [Effect.cleanup] at hlive
  cleaned _ := rfl

/-! ## What one step does to the hook -/

/-- Every effect is sound, and only the current one is not cleaned up. -/
structure Hook.Sound (hook : Hook) : Prop where
  effects : ∀ effect ∈ hook.effects, effect.Sound
  current : ∀ j effect, hook.effects[j]? = some effect →
    effect.cancelled = false → hook.current = some j

/-- The effect of every action on the list of effects. -/
inductive HookStep (hook : Hook) : HookAction → Hook → Prop
  | cleanup {action} : HookStep hook action hook.cleanup
  | start {action subscribeFns retries} :
      HookStep hook action (hook.cleanup.start subscribeFns retries)
  | resolve {j effect next} (hrow : hook.effects[j]? = some effect)
      (hresolve : effect.resolve = some next) :
      HookStep hook (.resolve j)
        { hook with effects := hook.effects.set j next }
  | move {action j effect phase} (hrow : hook.effects[j]? = some effect)
      (hlater : ∀ k ∈ phase.index?, ∃ i ∈ effect.phase.index?, i ≤ k) :
      HookStep hook action
        { hook with
          effects := hook.effects.set j { effect with phase := phase } }

theorem Hook.settle_eq_some
    {hook next : Hook} {j : ℕ} {outcome : Effect → Option Effect}
    (hsettle : hook.settle j outcome = some next) :
    ∃ effect moved, hook.effects[j]? = some effect ∧
      outcome effect = some moved ∧
      next = { hook with effects := hook.effects.set j moved } := by
  unfold Hook.settle at hsettle
  cases hrow : hook.effects[j]? with
  | none => simp [hrow] at hsettle
  | some effect =>
      simp only [hrow] at hsettle
      obtain ⟨moved, hmoved, rfl⟩ := Option.map_eq_some_iff.mp hsettle
      exact ⟨effect, moved, rfl, hmoved, rfl⟩

theorem hookStep_spec
    {hook next : Hook} {action : HookAction}
    (hstep : hookStep hook action = some next) : HookStep hook action next := by
  cases action with
  | render active subscribeFns retries =>
      cases active with
      | true =>
          simp only [hookStep, if_true, Option.some.injEq] at hstep
          exact hstep ▸ .start
      | false =>
          simp only [hookStep, Bool.false_eq_true, if_false,
            Option.some.injEq] at hstep
          exact hstep ▸ .cleanup
  | unmount =>
      simp only [hookStep, Option.some.injEq] at hstep
      exact hstep ▸ .cleanup
  | resolve j =>
      obtain ⟨effect, moved, hrow, hmoved, rfl⟩ := Hook.settle_eq_some hstep
      exact .resolve hrow hmoved
  | reject j =>
      obtain ⟨effect, moved, hrow, hmoved, rfl⟩ := Hook.settle_eq_some hstep
      obtain ⟨phase, rfl, hlater⟩ := Effect.reject_eq_some hmoved
      exact .move hrow hlater
  | timer j =>
      obtain ⟨effect, moved, hrow, hmoved, rfl⟩ := Hook.settle_eq_some hstep
      obtain ⟨phase, rfl, hlater⟩ := Effect.timer_eq_some hmoved
      exact .move hrow hlater

theorem Hook.mount_sound : Hook.mount.Sound := by
  constructor <;> simp [Hook.mount]

theorem Hook.cleanup_row
    {hook : Hook} {j : ℕ} {effect : Effect}
    (hrow : hook.cleanup.effects[j]? = some effect) :
    ∃ before, hook.effects[j]? = some before ∧
      (hook.current = some j ∧ effect = before.cleanup ∨
        hook.current ≠ some j ∧ effect = before) := by
  unfold Hook.cleanup at hrow
  split at hrow
  next hcurrent => exact ⟨effect, hrow, Or.inr ⟨by simp [hcurrent], rfl⟩⟩
  next i hcurrent =>
    rw [List.getElem?_modify] at hrow
    obtain ⟨before, hbefore, heq⟩ := Option.map_eq_some_iff.mp hrow
    refine ⟨before, hbefore, ?_⟩
    by_cases hij : i = j
    · rw [if_pos hij] at heq
      exact Or.inl ⟨by rw [hcurrent, hij], heq.symm⟩
    · rw [if_neg hij] at heq
      exact Or.inr ⟨by simpa [hcurrent] using hij, heq.symm⟩

theorem Hook.Sound.cleanup_cancelled
    {hook : Hook} (hsound : hook.Sound) :
    ∀ effect ∈ hook.cleanup.effects, effect.cancelled = true := by
  intro effect hmem
  obtain ⟨j, hrow⟩ := List.mem_iff_getElem?.mp hmem
  obtain ⟨before, hbefore, ⟨_, rfl⟩ | ⟨hother, rfl⟩⟩ := Hook.cleanup_row hrow
  · rfl
  · by_contra hlive
    exact hother (hsound.current j effect hbefore (by simpa using hlive))

theorem Hook.Sound.cleanup
    {hook : Hook} (hsound : hook.Sound) : hook.cleanup.Sound where
  effects effect hmem := by
    obtain ⟨j, hrow⟩ := List.mem_iff_getElem?.mp hmem
    obtain ⟨before, hbefore, ⟨_, rfl⟩ | ⟨_, rfl⟩⟩ := Hook.cleanup_row hrow
    · exact (hsound.effects before (List.mem_of_getElem? hbefore)).cleanup
    · exact hsound.effects effect (List.mem_of_getElem? hbefore)
  current j effect hrow hlive := by
    have hcancelled := hsound.cleanup_cancelled effect
      (List.mem_of_getElem? hrow)
    rw [hlive] at hcancelled
    contradiction

theorem Hook.Sound.start
    {hook : Hook} (hsound : hook.Sound) (subscribeFns retries : ℕ) :
    (hook.cleanup.start subscribeFns retries).Sound where
  effects effect hmem := by
    rcases List.mem_append.mp hmem with hold | hnew
    · exact hsound.cleanup.effects effect hold
    · rw [List.mem_singleton.mp hnew]
      exact Effect.start_sound subscribeFns retries
  current j effect hrow hlive := by
    rcases TableUpdate.getElem?_append_cases hrow with ⟨rfl, _⟩ | hold
    · rfl
    · have hcancelled := hsound.cleanup_cancelled effect
        (List.mem_of_getElem? hold)
      rw [hlive] at hcancelled
      contradiction

theorem Hook.Sound.set
    {hook : Hook} (hsound : hook.Sound) {j : ℕ} {effect next : Effect}
    (hrow : hook.effects[j]? = some effect) (hnext : next.Sound)
    (hsame : next.cancelled = effect.cancelled) :
    { hook with effects := hook.effects.set j next }.Sound where
  effects := TableUpdate.forall_mem_set hsound.effects hnext
  current k other hget hlive := by
    rcases TableUpdate.getElem?_set_cases hget with ⟨rfl, rfl⟩ | ⟨_, hold⟩
    · exact hsound.current _ effect hrow (hsame ▸ hlive)
    · exact hsound.current k other hold hlive

theorem Effect.resolve_cancelled
    {effect next : Effect} (hresolve : effect.resolve = some next) :
    next.cancelled = effect.cancelled := by
  unfold Effect.resolve at hresolve
  split at hresolve
  · rw [Option.some.injEq] at hresolve
    rw [← hresolve]
  · simp at hresolve

theorem Hook.Sound.step
    {hook next : Hook} {action : HookAction} (hsound : hook.Sound)
    (hstep : hookStep hook action = some next) : next.Sound := by
  cases hookStep_spec hstep with
  | cleanup => exact hsound.cleanup
  | start => exact hsound.start _ _
  | resolve hrow hresolve =>
      exact hsound.set hrow
        ((hsound.effects _ (List.mem_of_getElem? hrow)).resolve hresolve)
        (Effect.resolve_cancelled hresolve)
  | move hrow hlater =>
      exact hsound.set hrow
        ((hsound.effects _ (List.mem_of_getElem? hrow)).of_phase hlater) rfl

/-! ## Runs in which every promise resolves in time -/

theorem Effect.Sound.cleanup_unlistened
    {effect : Effect} (hsound : effect.Sound)
    (hdone : effect.cancelled = true →
      ∀ listener ∈ effect.listeners, listener.unlistened = 1) :
    ∀ listener ∈ effect.cleanup.listeners, listener.unlistened = 1 := by
  rw [hsound.cleanup_listeners]
  cases hcancelled : effect.cancelled with
  | true => exact hdone hcancelled
  | false =>
      intro listener hmem
      obtain ⟨before, hbefore, rfl⟩ := List.mem_map.mp hmem
      rw [Listener.unlisten, (hsound.live hcancelled).2 before hbefore]

theorem Hook.Unlistened.cleanup
    {hook : Hook} (hsound : hook.Sound) (hunlistened : hook.Unlistened) :
    hook.cleanup.Unlistened := by
  intro effect hmem hcancelled
  obtain ⟨j, hrow⟩ := List.mem_iff_getElem?.mp hmem
  obtain ⟨before, hbefore, ⟨_, rfl⟩ | ⟨_, rfl⟩⟩ := Hook.cleanup_row hrow
  · have hold := List.mem_of_getElem? hbefore
    exact (hsound.effects before hold).cleanup_unlistened
      (hunlistened before hold)
  · exact hunlistened effect (List.mem_of_getElem? hbefore) hcancelled

theorem Hook.Unlistened.step
    {hook next : Hook} {action : HookAction} (hsound : hook.Sound)
    (hunlistened : hook.Unlistened) (hguard : ResolvesInTime hook action)
    (hstep : hookStep hook action = some next) : next.Unlistened := by
  cases hookStep_spec hstep with
  | cleanup => exact hunlistened.cleanup hsound
  | start =>
      intro effect hmem hcancelled
      rcases List.mem_append.mp hmem with hold | hnew
      · exact hunlistened.cleanup hsound effect hold hcancelled
      · rw [List.mem_singleton.mp hnew] at hcancelled
        contradiction
  | @resolve j effect moved hrow hresolve =>
      have hlive := hguard effect hrow
      apply TableUpdate.forall_mem_set hunlistened
      intro hcancelled
      rw [Effect.resolve_cancelled hresolve, hlive] at hcancelled
      contradiction
  | @move action j effect phase hrow _ =>
      apply TableUpdate.forall_mem_set hunlistened
      exact hunlistened effect (List.mem_of_getElem? hrow)

theorem Hook.Sound.oneLive
    {hook : Hook} (hsound : hook.Sound) (hunlistened : hook.Unlistened) :
    hook.OneLive := by
  intro j k a b effect other listener twin hj hk ha hb hlive htwin hindex
  have hcurrent (i : ℕ) (owner : Effect) (l : Listener)
      (hrow : hook.effects[i]? = some owner) (hmem : l ∈ owner.listeners)
      (hzero : l.unlistened = 0) : hook.current = some i := by
    apply hsound.current i owner hrow
    by_contra hcancelled
    have hone := hunlistened owner (List.mem_of_getElem? hrow)
      (by simpa using hcancelled) l hmem
    omega
  have hjk : j = k := by
    have hfirst := hcurrent j effect listener hj (List.mem_of_getElem? ha) hlive
    have hsecond := hcurrent k other twin hk (List.mem_of_getElem? hb) htwin
    rw [hfirst, Option.some.injEq] at hsecond
    exact hsecond
  subst hjk
  rw [hj, Option.some.injEq] at hk
  subst hk
  have hnodup := (hsound.effects effect (List.mem_of_getElem? hj)).nodup
  have hlt : a < (effect.listeners.map Listener.index).length := by
    simpa using (List.getElem?_eq_some_iff.mp ha).1
  refine ⟨rfl, (List.getElem?_inj hlt hnodup).mp ?_⟩
  rw [List.getElem?_map, List.getElem?_map, ha, hb]
  simpa using hindex

/-! ## A late promise leaks -/

def Effect.Leaks (effect : Effect) : Prop :=
  effect.cancelled = true ∧
    ∃ listener ∈ effect.listeners, listener.unlistened = 0

theorem Effect.Leaks.cleanup
    {effect : Effect} (hleaks : effect.Leaks) (hsound : effect.Sound) :
    effect.cleanup.Leaks := by
  refine ⟨rfl, ?_⟩
  rw [hsound.cleanup_listeners, hleaks.1, if_pos rfl]
  exact hleaks.2

theorem Effect.leaks_resolve
    {effect next : Effect} (hcancelled : effect.cancelled = true)
    (hresolve : effect.resolve = some next) : next.Leaks := by
  refine ⟨(Effect.resolve_cancelled hresolve).trans hcancelled, ?_⟩
  unfold Effect.resolve at hresolve
  split at hresolve
  next i attempt _ =>
    rw [Option.some.injEq] at hresolve
    subst hresolve
    exact ⟨⟨i, 0⟩, by simp, rfl⟩
  next => simp at hresolve

theorem Hook.cleanup_effects_getElem?
    (hook : Hook) {j : ℕ} {effect : Effect}
    (hrow : hook.effects[j]? = some effect) :
    hook.cleanup.effects[j]? =
      some (if hook.current = some j then effect.cleanup else effect) := by
  unfold Hook.cleanup
  split
  next hcurrent => simp [hcurrent, hrow]
  next i hcurrent =>
    rw [List.getElem?_modify, hrow, hcurrent]
    by_cases hij : i = j <;> simp [hij]

theorem exists_leaks_cleanup
    {hook : Hook} (hsound : hook.Sound)
    (hleak : ∃ effect ∈ hook.effects, effect.Leaks) :
    ∃ effect ∈ hook.cleanup.effects, effect.Leaks := by
  obtain ⟨effect, hmem, hleaks⟩ := hleak
  obtain ⟨j, hrow⟩ := List.mem_iff_getElem?.mp hmem
  refine ⟨_, List.mem_of_getElem? (hook.cleanup_effects_getElem? hrow), ?_⟩
  split
  · exact hleaks.cleanup (hsound.effects effect hmem)
  · exact hleaks

theorem exists_leaks_set
    {hook : Hook} {j : ℕ} {effect next : Effect}
    (hrow : hook.effects[j]? = some effect)
    (hkeep : effect.Leaks → next.Leaks)
    (hleak : ∃ effect ∈ hook.effects, effect.Leaks) :
    ∃ effect ∈ hook.effects.set j next, effect.Leaks := by
  obtain ⟨before, after, hrows, hset⟩ := TableUpdate.exists_split hrow
  obtain ⟨leaky, hmem, hleaks⟩ := hleak
  rw [hset]
  rw [hrows, List.mem_append, List.mem_cons] at hmem
  rcases hmem with hfront | rfl | hback
  · exact ⟨leaky, by simp [hfront], hleaks⟩
  · exact ⟨next, by simp, hkeep hleaks⟩
  · exact ⟨leaky, by simp [hback], hleaks⟩

theorem exists_leaks_step
    {hook next : Hook} {action : HookAction} (hsound : hook.Sound)
    (hleak : ∃ effect ∈ hook.effects, effect.Leaks)
    (hstep : hookStep hook action = some next) :
    ∃ effect ∈ next.effects, effect.Leaks := by
  cases hookStep_spec hstep with
  | cleanup => exact exists_leaks_cleanup hsound hleak
  | start =>
      obtain ⟨effect, hmem, hleaks⟩ := exists_leaks_cleanup hsound hleak
      exact ⟨effect, List.mem_append_left _ hmem, hleaks⟩
  | resolve hrow hresolve =>
      apply exists_leaks_set hrow _ hleak
      exact fun hleaks => Effect.leaks_resolve hleaks.1 hresolve
  | move hrow _ => exact exists_leaks_set hrow (fun hleaks => hleaks) hleak

theorem exists_leaks_of_late
    {hook next : Hook} {action : HookAction}
    (hlate : ¬ ResolvesInTime hook action)
    (hstep : hookStep hook action = some next) :
    ∃ effect ∈ next.effects, effect.Leaks := by
  cases action with
  | resolve j =>
      obtain ⟨effect, moved, hrow, hmoved, rfl⟩ := Hook.settle_eq_some hstep
      have hcancelled : effect.cancelled = true := by
        simpa [ResolvesInTime, hrow] using hlate
      have hlt : j < hook.effects.length :=
        (List.getElem?_eq_some_iff.mp hrow).1
      exact ⟨moved, List.mem_set hlt moved,
        Effect.leaks_resolve hcancelled hmoved⟩
  | render active subscribeFns retries => exact (hlate trivial).elim
  | unmount => exact (hlate trivial).elim
  | reject j => exact (hlate trivial).elim
  | timer j => exact (hlate trivial).elim

/-- In every run from the mount on, the listeners of the cleaned-up effects
were all unlistened exactly once, and at most one listener of a subscription
is live, exactly when no promise resolved after the cleanup of its effect. -/
theorem noLeak_iff_resolvesInTime
    {actions : List HookAction} {final : Hook}
    (hexec : ActionSystem.exec hookStep Hook.mount actions = some final) :
    final.Unlistened ∧ final.OneLive ↔
      ActionSystem.Guarded hookStep ResolvesInTime Hook.mount actions := by
  have hsoundStep :
      ∀ hook action next, Hook.Sound hook →
        hookStep hook action = some next → Hook.Sound next :=
    fun _ _ _ hsound hstep => hsound.step hstep
  constructor
  · rintro ⟨hunlistened, _⟩
    by_contra hbad
    obtain ⟨before, action, after, mid, next, rfl, hbefore, hstep, hafter,
      hlate⟩ := ActionSystem.exists_step_of_not_guarded hexec hbad
    have hmid := ActionSystem.exec_invariant hsoundStep Hook.mount_sound hbefore
    have hkeep :
        ∀ hook action next,
          Hook.Sound hook ∧ (∃ effect ∈ hook.effects, effect.Leaks) →
          hookStep hook action = some next →
          Hook.Sound next ∧ ∃ effect ∈ next.effects, effect.Leaks :=
      fun _ _ _ hinv hmove =>
        ⟨hinv.1.step hmove, exists_leaks_step hinv.1 hinv.2 hmove⟩
    obtain ⟨_, effect, hmem, hcancelled, listener, hlistener, hzero⟩ :=
      ActionSystem.exec_invariant hkeep
        ⟨hmid.step hstep, exists_leaks_of_late hlate hstep⟩ hafter
    have hone := hunlistened effect hmem hcancelled listener hlistener
    omega
  · intro hguard
    have hsound := ActionSystem.exec_invariant hsoundStep Hook.mount_sound hexec
    have hstart : Hook.mount.Unlistened := by simp [Hook.Unlistened, Hook.mount]
    have hunlistened : final.Unlistened :=
      ActionSystem.exec_invariant_over hsoundStep
        (fun _ _ _ hinv hclean hallowed hstep =>
          Hook.Unlistened.step hinv hclean hallowed hstep)
        Hook.mount_sound hstart hguard hexec
    exact ⟨hunlistened, hsound.oneLive hunlistened⟩

/-- Two renders of a page with one subscription, each promise before the next
cleanup, and the unmount. -/
def timelyActions : List HookAction :=
  [.render true 1 3, .reject 0, .timer 0, .resolve 0, .render true 1 3,
    .resolve 1, .unmount]

theorem noLeak_timely :
    ∃ final,
      ActionSystem.exec hookStep Hook.mount timelyActions = some final ∧
        final.Unlistened ∧ final.OneLive :=
  ⟨⟨[⟨1, 3, .done, true, [⟨0, 1⟩], []⟩, ⟨1, 3, .done, true, [⟨0, 1⟩], []⟩],
      none⟩, by decide,
    (@noLeak_iff_resolvesInTime timelyActions _ (by decide)).mpr (by decide)⟩

/-- The page renders again before the promise of its first subscription has
resolved: the listener which then arrives is never unlistened, although its
effect is cleaned up and done, and the subscription has two live listeners. -/
theorem late_promise_leaks :
    ∃ final,
      ActionSystem.exec hookStep Hook.mount
        [.render true 1 3, .render true 1 3, .resolve 0, .resolve 1] =
          some final ∧
      (∃ effect ∈ final.effects, effect.cancelled = true ∧
        effect.phase = .done ∧ effect.listeners = [⟨0, 0⟩]) ∧
      ¬ final.Unlistened ∧ ¬ final.OneLive := by
  refine ⟨⟨[⟨1, 3, .done, true, [⟨0, 0⟩], []⟩,
    ⟨1, 3, .done, false, [⟨0, 0⟩], [0]⟩], some 1⟩, by decide, by decide, ?_, ?_⟩
  · intro hunlistened
    have hone := hunlistened ⟨1, 3, .done, true, [⟨0, 0⟩], []⟩ (by decide) rfl
      ⟨0, 0⟩ (by decide)
    contradiction
  · intro honeLive
    have hsame := honeLive 0 1 0 0 _ _ ⟨0, 0⟩ ⟨0, 0⟩ rfl rfl rfl rfl rfl rfl rfl
    exact absurd hsame.1 (by decide)

end SearchEvery
