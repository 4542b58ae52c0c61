import SearchEvery.ActionSystem
import SearchEvery.TableUpdate
import Mathlib.Data.NNRat.Floor
import Mathlib.Tactic

/-!
# Retried calls whose attempts overlap

A client repeats a command until an answer comes in time or its retries are
used up.  A timeout only ends the waiting: the attempt goes on at the server,
beside the later ones.  The server takes two steps for an attempt, a claim
which it may refuse and the work under the claim.  Where a granted claim bars
all later ones, the attempts together do what one of them does alone.
-/

namespace RetriedCall

variable {Store Value Fault : Type}

/-- A claim is refused without an effect.  The work under a granted claim gives
no answer when it dies. -/
structure Command (Store Value Fault : Type) where
  claim : Store → Except Fault Store
  complete : Store → Option (Except Fault Value) × Store

/-- The command served without interruption. -/
def Command.serve (cmd : Command Store Value Fault) (store : Store) :
    Option (Except Fault Value) × Store :=
  match cmd.claim store with
  | .error fault => (some (.error fault), store)
  | .ok claimed => cmd.complete claimed

inductive Attempt (Value Fault : Type)
  | waiting
  | claimed
  | over (answer : Option (Except Fault Value))
  deriving DecidableEq

/-- The store of the server, the attempts so far and what the call returned.
The client waits for the last attempt. -/
structure Call (Store Value Fault : Type) where
  store : Store
  attempts : List (Attempt Value Fault)
  result : Option (Except Fault Value)

def Call.start (store : Store) : Call Store Value Fault :=
  ⟨store, [.waiting], none⟩

inductive Action
  | serve (i : ℕ)
  | answer
  | expire
  deriving DecidableEq

/-- The client gives up its attempt, and tries again unless the number of
attempts exceeds the retries. -/
def Call.fail (retries : ℚ≥0) (call : Call Store Value Fault) (fault : Fault) :
    Call Store Value Fault :=
  if (call.attempts.length : ℚ≥0) > retries then
    { call with result := some (.error fault) }
  else { call with attempts := call.attempts ++ [.waiting] }

def callStep (cmds : ℕ → Command Store Value Fault) (retries : ℚ≥0)
    (timeout : Fault) (call : Call Store Value Fault) :
    Action → Option (Call Store Value Fault)
  | .serve i =>
      match call.attempts[i]? with
      | some .waiting =>
          match (cmds i).claim call.store with
          | .error fault => some { call with
              attempts := call.attempts.set i (.over (some (.error fault))) }
          | .ok claimed => some { call with
              store := claimed, attempts := call.attempts.set i .claimed }
      | some .claimed =>
          let work := (cmds i).complete call.store
          some { call with
            store := work.2, attempts := call.attempts.set i (.over work.1) }
      | _ => none
  | .answer =>
      match call.result, call.attempts.getLast? with
      | none, some (.over (some (.ok value))) =>
          some { call with result := some (.ok value) }
      | none, some (.over (some (.error fault))) =>
          some (call.fail retries fault)
      | _, _ => none
  | .expire =>
      match call.result with
      | none => some (call.fail retries timeout)
      | some _ => none

/-- A granted claim bars every later one. -/
structure Gate (cmds : ℕ → Command Store Value Fault) (Barred : Store → Prop) :
    Prop where
  granted : ∀ {i store claimed},
    (cmds i).claim store = .ok claimed → Barred claimed
  completed : ∀ {i store}, Barred store → Barred ((cmds i).complete store).2
  refused : ∀ {i store}, Barred store →
    ∃ fault, (cmds i).claim store = .error fault

variable {cmds : ℕ → Command Store Value Fault} {retries : ℚ≥0}
  {timeout : Fault} {init : Store} {call next : Call Store Value Fault}

/-! ## One step -/

inductive CallStep (cmds : ℕ → Command Store Value Fault) (retries : ℚ≥0)
    (timeout : Fault) (call next : Call Store Value Fault) : Prop
  | refuse (i : ℕ) (fault : Fault)
      (hrow : call.attempts[i]? = some .waiting)
      (hclaim : (cmds i).claim call.store = .error fault)
      (hnext : next = { call with
        attempts := call.attempts.set i (.over (some (.error fault))) })
  | grant (i : ℕ) (claimed : Store)
      (hrow : call.attempts[i]? = some .waiting)
      (hclaim : (cmds i).claim call.store = .ok claimed)
      (hnext : next = { call with
        store := claimed, attempts := call.attempts.set i .claimed })
  | complete (i : ℕ) (hrow : call.attempts[i]? = some .claimed)
      (hnext : next = { call with
        store := ((cmds i).complete call.store).2
        attempts := call.attempts.set i
          (.over ((cmds i).complete call.store).1) })
  | succeed (value : Value) (hopen : call.result = none)
      (hlast : call.attempts.getLast? = some (.over (some (.ok value))))
      (hnext : next = { call with result := some (.ok value) })
  | fail (fault : Fault) (hopen : call.result = none)
      (hfault : fault = timeout ∨
        call.attempts.getLast? = some (.over (some (.error fault))))
      (hnext : next = call.fail retries fault)

theorem callStep_cases
    {action : Action} (hstep : callStep cmds retries timeout call action =
      some next) : CallStep cmds retries timeout call next := by
  cases action with
  | serve i =>
      simp only [callStep] at hstep
      split at hstep
      next hrow =>
        split at hstep
        next fault hclaim =>
          exact .refuse i fault hrow hclaim (Option.some.inj hstep).symm
        next claimed hclaim =>
          exact .grant i claimed hrow hclaim (Option.some.inj hstep).symm
      next hrow => exact .complete i hrow (Option.some.inj hstep).symm
      next => contradiction
  | answer =>
      simp only [callStep] at hstep
      split at hstep
      next value hopen hlast =>
        exact .succeed value hopen hlast (Option.some.inj hstep).symm
      next fault hopen hlast =>
        exact .fail fault hopen (Or.inr hlast) (Option.some.inj hstep).symm
      next => contradiction
  | expire =>
      simp only [callStep] at hstep
      split at hstep
      next hopen =>
        exact .fail timeout hopen (Or.inl rfl) (Option.some.inj hstep).symm
      next => contradiction

theorem Call.fail_cases (fault : Fault) :
    (retries < call.attempts.length ∧
      call.fail retries fault = { call with result := some (.error fault) }) ∨
    (call.attempts.length ≤ retries ∧ call.fail retries fault =
      { call with attempts := call.attempts ++ [.waiting] }) := by
  unfold Call.fail
  split
  next hmore => exact Or.inl ⟨hmore, rfl⟩
  next hless => exact Or.inr ⟨not_lt.mp hless, rfl⟩

/-! ## The server -/

/-- The attempt has had no effect: it waits, or its claim was refused in a
store of the kind. -/
def Attempt.Idle (cmd : Command Store Value Fault) (Seen : Store → Prop)
    (attempt : Attempt Value Fault) : Prop :=
  attempt = .waiting ∨ ∃ store fault, Seen store ∧
    cmd.claim store = .error fault ∧ attempt = .over (some (.error fault))

theorem Attempt.Idle.ne_claimed
    {cmd : Command Store Value Fault} {Seen : Store → Prop}
    {attempt : Attempt Value Fault} (hidle : attempt.Idle cmd Seen) :
    attempt ≠ .claimed := by
  rcases hidle with rfl | ⟨_, _, _, _, rfl⟩
  · simp
  · simp

theorem Attempt.Idle.error_of_over
    {cmd : Command Store Value Fault} {Seen : Store → Prop}
    {answer : Option (Except Fault Value)}
    (hidle : (Attempt.over answer).Idle cmd Seen) :
    ∃ store fault, Seen store ∧ cmd.claim store = .error fault ∧
      answer = some (.error fault) := by
  rcases hidle with hwaiting | ⟨store, fault, hseen, hclaim, hover⟩
  · simp at hwaiting
  · rw [Attempt.over.injEq] at hover
    exact ⟨store, fault, hseen, hclaim, hover⟩

/-- The attempts of the kind are idle. -/
def IdleRows (cmds : ℕ → Command Store Value Fault) (Seen : Store → Prop)
    (Kind : ℕ → Prop) (attempts : List (Attempt Value Fault)) : Prop :=
  ∀ j attempt, Kind j → attempts[j]? = some attempt →
    attempt.Idle (cmds j) Seen

section Rows

variable {Seen : Store → Prop} {Kind : ℕ → Prop}
  {attempts : List (Attempt Value Fault)}

theorem IdleRows.set
    (hrows : IdleRows cmds Seen Kind attempts) {i : ℕ}
    {attempt : Attempt Value Fault}
    (hidle : Kind i → attempt.Idle (cmds i) Seen) :
    IdleRows cmds Seen Kind (attempts.set i attempt) := by
  intro j row hkind hrow
  rcases TableUpdate.getElem?_set_cases hrow with ⟨rfl, rfl⟩ | ⟨_, hold⟩
  · exact hidle hkind
  · exact hrows j row hkind hold

theorem IdleRows.append_waiting
    (hrows : IdleRows cmds Seen Kind attempts) :
    IdleRows cmds Seen Kind (attempts ++ [.waiting]) := by
  intro j row hkind hrow
  rcases TableUpdate.getElem?_append_cases hrow with ⟨_, rfl⟩ | hold
  · exact Or.inl rfl
  · exact hrows j row hkind hold

end Rows

/-- What the server has done: nothing, the claim of one attempt, or all that
this attempt does. -/
inductive Progress (cmds : ℕ → Command Store Value Fault) (init store : Store)
    (attempts : List (Attempt Value Fault)) : Prop
  | untouched (hstore : store = init)
      (hrows : IdleRows cmds (· = init) (fun _ => True) attempts)
  | held (i : ℕ) (hclaim : (cmds i).claim init = .ok store)
      (hrow : attempts[i]? = some .claimed)
      (hrows : IdleRows cmds (fun _ => True) (· ≠ i) attempts)
  | done (i : ℕ) (claimed : Store) (hclaim : (cmds i).claim init = .ok claimed)
      (hrow : attempts[i]? = some (.over ((cmds i).complete claimed).1))
      (hstore : store = ((cmds i).complete claimed).2)
      (hrows : IdleRows cmds (fun _ => True) (· ≠ i) attempts)

section Server

variable {store : Store} {attempts : List (Attempt Value Fault)}

theorem Progress.append_waiting
    (hprogress : Progress cmds init store attempts) :
    Progress cmds init store (attempts ++ [.waiting]) := by
  cases hprogress with
  | untouched hstore hrows => exact .untouched hstore hrows.append_waiting
  | held i hclaim hrow hrows =>
      exact .held i hclaim (TableUpdate.getElem?_append_of_eq hrow _)
        hrows.append_waiting
  | done i claimed hclaim hrow hstore hrows =>
      exact .done i claimed hclaim (TableUpdate.getElem?_append_of_eq hrow _)
        hstore hrows.append_waiting

theorem Progress.refuse
    (hprogress : Progress cmds init store attempts) {i : ℕ} {fault : Fault}
    (hwaiting : attempts[i]? = some .waiting)
    (hrefused : (cmds i).claim store = .error fault) :
    Progress cmds init store
      (attempts.set i (.over (some (.error fault)))) := by
  have hother {k : ℕ} {attempt : Attempt Value Fault}
      (hrow : attempts[k]? = some attempt) (hne : attempt ≠ .waiting) :
      (attempts.set i (.over (some (.error fault))))[k]? = some attempt := by
    have hik : i ≠ k := by
      rintro rfl
      rw [hwaiting, Option.some.injEq] at hrow
      exact hne hrow.symm
    rw [List.getElem?_set_ne hik, hrow]
  cases hprogress with
  | untouched hstore hrows =>
      exact .untouched hstore (hrows.set fun _ =>
        Or.inr ⟨store, fault, hstore, hrefused, rfl⟩)
  | held k hclaim hrow hrows =>
      exact .held k hclaim (hother hrow (by simp)) (hrows.set fun _ =>
        Or.inr ⟨store, fault, trivial, hrefused, rfl⟩)
  | done k claimed hclaim hrow hstore hrows =>
      exact .done k claimed hclaim (hother hrow (by simp)) hstore
        (hrows.set fun _ => Or.inr ⟨store, fault, trivial, hrefused, rfl⟩)

/-- A claim is granted only as long as nothing has been done. -/
theorem Progress.grant
    {Barred : Store → Prop} (hgate : Gate cmds Barred)
    (hprogress : Progress cmds init store attempts) {i : ℕ} {claimed : Store}
    (hwaiting : attempts[i]? = some .waiting)
    (hgranted : (cmds i).claim store = .ok claimed) :
    Progress cmds init claimed (attempts.set i .claimed) := by
  have hfree : ¬ Barred store := by
    intro hbarred
    obtain ⟨fault, hfault⟩ := hgate.refused hbarred
    rw [hgranted] at hfault
    contradiction
  cases hprogress with
  | untouched hstore hrows =>
      have hlt : i < attempts.length :=
        (List.getElem?_eq_some_iff.mp hwaiting).1
      refine .held i (hstore ▸ hgranted) (List.getElem?_set_self hlt) ?_
      refine IdleRows.set ?_ fun hne => (hne rfl).elim
      intro j attempt _ hrow
      rcases hrows j attempt trivial hrow with hwait | ⟨seen, fault, hseen⟩
      · exact Or.inl hwait
      · exact Or.inr ⟨seen, fault, trivial, hseen.2⟩
  | held k hclaim _ _ => exact (hfree (hgate.granted hclaim)).elim
  | done k first hclaim _ hstore _ =>
      exact (hfree (hstore ▸ hgate.completed (hgate.granted hclaim))).elim

theorem Progress.complete
    (hprogress : Progress cmds init store attempts) {i : ℕ}
    (hclaimed : attempts[i]? = some .claimed) :
    Progress cmds init ((cmds i).complete store).2
      (attempts.set i (.over ((cmds i).complete store).1)) := by
  have hlt : i < attempts.length := (List.getElem?_eq_some_iff.mp hclaimed).1
  cases hprogress with
  | untouched _ hrows =>
      exact ((hrows i _ trivial hclaimed).ne_claimed rfl).elim
  | held k hclaim _ hrows =>
      have hik : i = k := by
        by_contra hne
        exact (hrows i _ hne hclaimed).ne_claimed rfl
      subst hik
      exact .done i store hclaim (List.getElem?_set_self hlt) rfl
        (hrows.set fun hne => (hne rfl).elim)
  | done k first _ hrow _ hrows =>
      by_cases hik : i = k
      · rw [← hik, hclaimed] at hrow
        simp at hrow
      · exact ((hrows i _ hik hclaimed).ne_claimed rfl).elim

end Server

theorem Progress.step
    {Barred : Store → Prop} (hgate : Gate cmds Barred) {action : Action}
    (hprogress : Progress cmds init call.store call.attempts)
    (hstep : callStep cmds retries timeout call action = some next) :
    Progress cmds init next.store next.attempts := by
  cases callStep_cases hstep with
  | refuse i fault hrow hclaim hnext =>
      rw [hnext]
      exact hprogress.refuse hrow hclaim
  | grant i claimed hrow hclaim hnext =>
      rw [hnext]
      exact hprogress.grant hgate hrow hclaim
  | complete i hrow hnext =>
      rw [hnext]
      exact hprogress.complete hrow
  | succeed value _ _ hnext =>
      rw [hnext]
      exact hprogress
  | fail fault _ _ hnext =>
      rw [hnext]
      rcases @Call.fail_cases _ _ _ retries call fault with
        ⟨_, hfail⟩ | ⟨_, hfail⟩
      · rw [hfail]
        exact hprogress
      · rw [hfail]
        exact hprogress.append_waiting

/-! ## The client -/

/-- What the client has returned comes from its last attempt or its timer. -/
structure Call.Waits (retries : ℚ≥0) (timeout : Fault)
    (call : Call Store Value Fault) : Prop where
  tried : 0 < call.attempts.length
  few : call.attempts.length ≤ ⌊retries⌋₊ + 1
  returned : ∀ value, call.result = some (.ok value) →
    call.attempts.getLast? = some (.over (some (.ok value)))
  failed : ∀ fault, call.result = some (.error fault) →
    call.attempts.length = ⌊retries⌋₊ + 1 ∧ (fault = timeout ∨
      call.attempts.getLast? = some (.over (some (.error fault))))

theorem getLast?_set_of_over
    {attempts : List (Attempt Value Fault)} {i : ℕ}
    {old : Attempt Value Fault} (new : Attempt Value Fault)
    {answer : Option (Except Fault Value)} (hrow : attempts[i]? = some old)
    (hopen : ∀ answer, old ≠ .over answer)
    (hlast : attempts.getLast? = some (.over answer)) :
    (attempts.set i new).getLast? = some (.over answer) := by
  rw [List.getLast?_eq_getElem?] at hlast ⊢
  have hne : i ≠ attempts.length - 1 := by
    rintro rfl
    rw [hlast, Option.some.injEq] at hrow
    exact hopen answer hrow.symm
  rw [List.length_set, List.getElem?_set_ne hne, hlast]

theorem Call.Waits.serve
    (hwaits : call.Waits retries timeout) {i : ℕ}
    {old : Attempt Value Fault} (new : Attempt Value Fault) (store : Store)
    (hrow : call.attempts[i]? = some old)
    (hopen : ∀ answer, old ≠ .over answer) :
    ({ call with store := store, attempts := call.attempts.set i new } :
      Call Store Value Fault).Waits retries timeout where
  tried := by simpa using hwaits.tried
  few := by simpa using hwaits.few
  returned value hresult :=
    getLast?_set_of_over new hrow hopen (hwaits.returned value hresult)
  failed fault hresult := by
    obtain ⟨hlength, hfault⟩ := hwaits.failed fault hresult
    refine ⟨by simpa using hlength, hfault.imp_right fun hlast => ?_⟩
    exact getLast?_set_of_over new hrow hopen hlast

theorem Call.Waits.fail
    (hwaits : call.Waits retries timeout) (hresult : call.result = none)
    {fault : Fault} (hfault : fault = timeout ∨
      call.attempts.getLast? = some (.over (some (.error fault)))) :
    (call.fail retries fault).Waits retries timeout := by
  rcases @Call.fail_cases _ _ _ retries call fault with
    ⟨hmore, hfail⟩ | ⟨hless, hfail⟩
  · rw [hfail]
    refine ⟨hwaits.tried, hwaits.few, by simp, ?_⟩
    intro other hother
    rw [Option.some.injEq, Except.error.injEq] at hother
    have hfloor : ⌊retries⌋₊ < call.attempts.length :=
      Nat.floor_lt' hwaits.tried.ne' |>.mpr hmore
    have hfew := hwaits.few
    exact ⟨by dsimp only; omega, hother ▸ hfault⟩
  · rw [hfail]
    have hfloor : call.attempts.length ≤ ⌊retries⌋₊ := Nat.le_floor hless
    exact ⟨by simp, by simpa using hfloor, by simp [hresult],
      by simp [hresult]⟩

theorem Call.Waits.step
    {action : Action} (hwaits : call.Waits retries timeout)
    (hstep : callStep cmds retries timeout call action = some next) :
    next.Waits retries timeout := by
  cases callStep_cases hstep with
  | refuse i fault hrow _ hnext =>
      rw [hnext]
      exact hwaits.serve _ call.store hrow (by simp)
  | grant i claimed hrow _ hnext =>
      rw [hnext]
      exact hwaits.serve _ claimed hrow (by simp)
  | complete i hrow hnext =>
      rw [hnext]
      exact hwaits.serve _ _ hrow (by simp)
  | succeed value _ hlast hnext =>
      rw [hnext]
      refine ⟨hwaits.tried, hwaits.few, ?_, by simp⟩
      intro other hother
      rw [Option.some.injEq, Except.ok.injEq] at hother
      exact hother ▸ hlast
  | fail fault hresult hfault hnext =>
      rw [hnext]
      exact hwaits.fail hresult hfault

/-! ## Whole calls -/

/-- The server is through with all attempts. -/
def Call.Settled (call : Call Store Value Fault) : Prop :=
  ∀ attempt ∈ call.attempts, ∃ answer, attempt = .over answer

theorem exec_start
    {Barred : Store → Prop} (hgate : Gate cmds Barred)
    {final : Call Store Value Fault} {actions : List Action}
    (hexec : ActionSystem.exec (callStep cmds retries timeout)
      (Call.start init) actions = some final) :
    Progress cmds init final.store final.attempts ∧
      final.Waits retries timeout := by
  have hkeep (call : Call Store Value Fault) (action : Action)
      (next : Call Store Value Fault)
      (hinv : Progress cmds init call.store call.attempts ∧
        call.Waits retries timeout)
      (hstep : callStep cmds retries timeout call action = some next) :
      Progress cmds init next.store next.attempts ∧
        next.Waits retries timeout :=
    ⟨hinv.1.step hgate hstep, hinv.2.step hstep⟩
  refine ActionSystem.exec_invariant hkeep ⟨.untouched rfl ?_, ?_⟩ hexec
  · intro j attempt _ hrow
    have hmem := List.mem_of_getElem? hrow
    exact Or.inl (List.mem_singleton.mp hmem)
  · exact ⟨by simp [Call.start], by simp [Call.start], by simp [Call.start],
      by simp [Call.start]⟩

section Whole

variable {store : Store} {attempts : List (Attempt Value Fault)}

/-- At any time the store is as it was, or one attempt holds its claim, or has
had its whole effect. -/
theorem Progress.store_cases
    (hprogress : Progress cmds init store attempts) :
    store = init ∨ ∃ i < attempts.length, (cmds i).claim init = .ok store ∨
      store = ((cmds i).serve init).2 := by
  cases hprogress with
  | untouched hstore _ => exact Or.inl hstore
  | held i hclaim hrow _ =>
      have hlt := (List.getElem?_eq_some_iff.mp hrow).1
      exact Or.inr ⟨i, hlt, Or.inl hclaim⟩
  | done i claimed hclaim hrow hstore _ =>
      have hlt := (List.getElem?_eq_some_iff.mp hrow).1
      refine Or.inr ⟨i, hlt, Or.inr ?_⟩
      rw [hstore, Command.serve, hclaim]

/-- In the end the store is what one attempt alone would have left. -/
theorem Progress.settled
    (hprogress : Progress cmds init store attempts)
    (htried : 0 < attempts.length)
    (hsettled : ∀ attempt ∈ attempts, ∃ answer, attempt = .over answer) :
    ∃ i < attempts.length, store = ((cmds i).serve init).2 := by
  cases hprogress with
  | untouched hstore hrows =>
      refine ⟨0, htried, ?_⟩
      obtain ⟨answer, hover⟩ := hsettled _ (List.getElem_mem htried)
      have hidle := hrows 0 attempts[0] trivial
        (List.getElem?_eq_getElem htried)
      rw [hover] at hidle
      obtain ⟨seen, fault, hseen, hclaim, _⟩ := hidle.error_of_over
      rw [Command.serve, ← hseen, hclaim, hstore, hseen]
  | held i _ hrow _ =>
      obtain ⟨answer, hover⟩ := hsettled _ (List.mem_of_getElem? hrow)
      simp at hover
  | done i claimed hclaim hrow hstore _ =>
      refine ⟨i, (List.getElem?_eq_some_iff.mp hrow).1, ?_⟩
      rw [hstore, Command.serve, hclaim]

/-- An attempt which is over was refused, or it alone had an effect. -/
theorem Progress.over_cases
    (hprogress : Progress cmds init store attempts) {i : ℕ}
    {answer : Option (Except Fault Value)}
    (hrow : attempts[i]? = some (.over answer)) :
    (∃ seen fault, (cmds i).claim seen = .error fault ∧
      answer = some (.error fault)) ∨
      (cmds i).serve init = (answer, store) := by
  have hidle {Seen : Store → Prop} {Kind : ℕ → Prop}
      (hrows : IdleRows cmds Seen Kind attempts) (hkind : Kind i) :
      ∃ seen fault, (cmds i).claim seen = .error fault ∧
        answer = some (.error fault) := by
    obtain ⟨seen, fault, _, hrefused⟩ := (hrows i _ hkind hrow).error_of_over
    exact ⟨seen, fault, hrefused⟩
  cases hprogress with
  | untouched _ hrows => exact Or.inl (hidle hrows trivial)
  | held k _ hclaimed hrows =>
      by_cases hik : i = k
      · rw [← hik, hrow] at hclaimed
        simp at hclaimed
      · exact Or.inl (hidle hrows hik)
  | done k claimed hclaim hdone hstore hrows =>
      by_cases hik : i = k
      · subst hik
        rw [hrow, Option.some.injEq, Attempt.over.injEq] at hdone
        rw [Command.serve, hclaim, hdone, hstore]
        exact Or.inr rfl
      · exact Or.inl (hidle hrows hik)

end Whole

/-- However the attempts of a call overlap: their number is bounded, the server
ends with what one of them alone would have left, a success is that of the
last attempt alone, and a failure that of the last attempt or of its timer. -/
theorem exec_once
    {Barred : Store → Prop} (hgate : Gate cmds Barred)
    {final : Call Store Value Fault} {actions : List Action}
    (hexec : ActionSystem.exec (callStep cmds retries timeout)
      (Call.start init) actions = some final) :
    final.attempts.length ≤ ⌊retries⌋₊ + 1 ∧
    (final.Settled → ∃ i < final.attempts.length,
      final.store = ((cmds i).serve init).2) ∧
    (∀ value, final.result = some (.ok value) →
      ∃ i, i + 1 = final.attempts.length ∧
        (cmds i).serve init = (some (.ok value), final.store)) ∧
    ∀ fault, final.result = some (.error fault) →
      ∃ i, i + 1 = final.attempts.length ∧ i = ⌊retries⌋₊ ∧
        (fault = timeout ∨ (∃ seen, (cmds i).claim seen = .error fault) ∨
          (cmds i).serve init = (some (.error fault), final.store)) := by
  obtain ⟨hprogress, hwaits⟩ := exec_start hgate hexec
  have htried := hwaits.tried
  have hlast : final.attempts.length - 1 + 1 = final.attempts.length := by
    omega
  refine ⟨hwaits.few, hprogress.settled htried, ?_, ?_⟩
  · intro value hresult
    have hrow := hwaits.returned value hresult
    rw [List.getLast?_eq_getElem?] at hrow
    refine ⟨_, hlast, ?_⟩
    rcases hprogress.over_cases hrow with ⟨_, fault, _, hanswer⟩ | hserve
    · simp at hanswer
    · exact hserve
  · intro fault hresult
    obtain ⟨hlength, hfault⟩ := hwaits.failed fault hresult
    refine ⟨_, hlast, by omega, hfault.imp_right fun hrow => ?_⟩
    rw [List.getLast?_eq_getElem?] at hrow
    refine (hprogress.over_cases hrow).imp_left ?_
    rintro ⟨seen, other, hclaim, hanswer⟩
    rw [Option.some.injEq, Except.error.injEq] at hanswer
    exact ⟨seen, hanswer ▸ hclaim⟩

end RetriedCall
