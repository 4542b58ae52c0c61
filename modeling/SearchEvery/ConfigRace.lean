import SearchEvery.ConfigStore
import Mathlib.Tactic

/-!
# Concurrent configuration calls

The scheduler thread, the commands and the page call `read_config`,
`write_config` and `reset_config` without a lock.  A call is cut at its
file-system calls, so that a reader which finds no file stands between its
test and its write of the defaults, and a reset between its test and its
removal.  The file says which calls in flight can undo a write which has
returned.
-/

namespace SearchEvery

/-- The next file-system call of a configuration call, or its answer. -/
inductive CallPhase
  | resetExists
  | resetRemove
  | readExists
  | readWrite
  | readFile
  | writeFile (cfg : SavedConfig)
  | returned (answer : ConfigAnswer)
  deriving DecidableEq

def ConfigCall.entry : ConfigCall → CallPhase
  | .read => .readExists
  | .write cfg => .writeFile cfg
  | .reset => .resetExists

def loadedAnswer (env : HostEnv) : ConfigFile → ConfigAnswer
  | .stored cfg => .config (env.repair cfg)
  | _ => .failed

def CallPhase.next (env : HostEnv) (file : ConfigFile) :
    CallPhase → Option (ConfigFile × CallPhase)
  | .resetExists =>
      some (file, if file = .missing then .readExists else .resetRemove)
  | .resetRemove => some (.missing, .readExists)
  | .readExists =>
      some (file, if file = .missing then .readWrite else .readFile)
  | .readWrite =>
      some ((writeConfig env env.defaultConfig).2,
        .returned (.config env.defaultConfig))
  | .readFile => some (file, .returned (loadedAnswer env file))
  | .writeFile cfg => some ((writeConfig env cfg).2, .returned .written)
  | .returned _ => none

structure Race where
  file : ConfigFile
  calls : List CallPhase
  deriving DecidableEq

inductive RaceAction
  | start (call : ConfigCall)
  | advance (k : ℕ)
  deriving DecidableEq

def raceStep (env : HostEnv) (s : Race) : RaceAction → Option Race
  | .start call => some ⟨s.file, s.calls ++ [call.entry]⟩
  | .advance k =>
      match s.calls[k]? with
      | none => none
      | some phase =>
          (phase.next env s.file).map fun moved =>
            ⟨moved.1, s.calls.set k moved.2⟩

/-- Nothing is started but reads. -/
def RaceAction.Quiet : RaceAction → Prop
  | .start call => call = .read
  | .advance _ => True

instance (action : RaceAction) : Decidable action.Quiet :=
  match action with
  | .start call => inferInstanceAs (Decidable (call = .read))
  | .advance _ => inferInstanceAs (Decidable True)

/-- Whatever happens without a further write or reset, a read which is started
from here on answers nothing but the normalized configuration, and answers it
when it is left to run. -/
def NoLostWrite (env : HostEnv) (s : Race) (cfg : SavedConfig) : Prop :=
  ∀ actions final, (∀ action ∈ actions, RaceAction.Quiet action) →
    ActionSystem.exec (raceStep env) s actions = some final →
    ∀ k phase, s.calls.length ≤ k → final.calls[k]? = some phase →
      (∀ answer, phase = .returned answer →
        answer = .config (env.normalize cfg)) ∧
      ∃ steps last,
        ActionSystem.exec (raceStep env) final
          (List.replicate steps (.advance k)) = some last ∧
        last.calls[k]? = some (.returned (.config (env.normalize cfg)))

/-- A call in flight which cannot undo the write of `cfg`. -/
def CallPhase.Harmless (env : HostEnv) (cfg : SavedConfig) : CallPhase → Prop
  | .resetExists => False
  | .resetRemove => False
  | .readWrite => env.defaultConfig = env.normalize cfg
  | .writeFile other => env.normalize other = env.normalize cfg
  | _ => True

/-! ## One call alone -/

variable (env : HostEnv)

theorem raceStep_advance_last
    (file : ConfigFile) (calls : List CallPhase) (phase : CallPhase) :
    raceStep env ⟨file, calls ++ [phase]⟩ (.advance calls.length) =
      (phase.next env file).map fun moved =>
        ⟨moved.1, calls ++ [moved.2]⟩ := by
  simp [raceStep]

theorem raceStep_advance_front
    {file : ConfigFile} {calls : List CallPhase} {k : ℕ} {phase : CallPhase}
    (hrow : calls[k]? = some phase) (last : CallPhase) :
    raceStep env ⟨file, calls ++ [last]⟩ (.advance k) =
      (phase.next env file).map fun moved =>
        ⟨moved.1, calls.set k moved.2 ++ [last]⟩ := by
  have hlt : k < calls.length := (List.getElem?_eq_some_iff.mp hrow).1
  have hget := TableUpdate.getElem?_append_of_eq hrow [last]
  simp [raceStep, hget, List.set_append_left _ _ hlt]

theorem exec_advance_of_next
    {s : Race} {k : ℕ} {phase moved : CallPhase} {file : ConfigFile}
    (hrow : s.calls[k]? = some phase)
    (hnext : phase.next env s.file = some (file, moved)) (steps : ℕ) :
    ActionSystem.exec (raceStep env) s
        (List.replicate (steps + 1) (.advance k)) =
      ActionSystem.exec (raceStep env) ⟨file, s.calls.set k moved⟩
        (List.replicate steps (.advance k)) := by
  rw [List.replicate_succ, ActionSystem.exec_cons]
  simp [raceStep, hrow, hnext]

theorem exec_replicate_advance_last
    (file : ConfigFile) (calls : List CallPhase) {phase moved : CallPhase}
    {after : ConfigFile}
    (hnext : phase.next env file = some (after, moved)) (steps : ℕ) :
    ActionSystem.exec (raceStep env) ⟨file, calls ++ [phase]⟩
        (List.replicate (steps + 1) (.advance calls.length)) =
      ActionSystem.exec (raceStep env) ⟨after, calls ++ [moved]⟩
        (List.replicate steps (.advance calls.length)) := by
  rw [exec_advance_of_next env (by simp) hnext]
  simp

theorem read_alone
    (file : ConfigFile) (calls : List CallPhase) :
    ActionSystem.exec (raceStep env) ⟨file, calls ++ [.readExists]⟩
        (List.replicate 2 (.advance calls.length)) =
      some ⟨(readConfig env file).2,
        calls ++ [.returned (readConfig env file).1]⟩ := by
  cases file with
  | missing =>
      rw [exec_replicate_advance_last env _ _ rfl,
        exec_replicate_advance_last env _ _ rfl]
      rfl
  | malformed =>
      rw [exec_replicate_advance_last env _ _ rfl,
        exec_replicate_advance_last env _ _ rfl]
      rfl
  | stored cfg =>
      rw [exec_replicate_advance_last env _ _ rfl,
        exec_replicate_advance_last env _ _ rfl]
      rfl

/-- Left alone, a call does what `configCall` says. -/
theorem race_alone
    (s : Race) (call : ConfigCall) :
    ∃ steps, ActionSystem.exec (raceStep env) s
        (.start call :: List.replicate steps (.advance s.calls.length)) =
      some ⟨(configCall env s.file call).2,
        s.calls ++ [.returned (configCall env s.file call).1]⟩ := by
  obtain ⟨file, calls⟩ := s
  simp only [ActionSystem.exec_cons, raceStep, Option.bind_some]
  cases call with
  | read => exact ⟨2, read_alone env file calls⟩
  | write cfg =>
      refine ⟨1, ?_⟩
      rw [ConfigCall.entry, exec_replicate_advance_last env _ _ rfl]
      rfl
  | reset =>
      by_cases hmissing : file = .missing
      · refine ⟨3, ?_⟩
        rw [ConfigCall.entry, exec_replicate_advance_last env _ _ rfl,
          if_pos hmissing, read_alone, configCall, resetConfig, if_pos hmissing]
      · refine ⟨4, ?_⟩
        rw [ConfigCall.entry, exec_replicate_advance_last env _ _ rfl,
          if_neg hmissing, exec_replicate_advance_last env _ _ rfl, read_alone,
          configCall, resetConfig, if_neg hmissing]

/-! ## Harmless calls keep the written configuration -/

variable {env}

def Keeps (env : HostEnv) (cfg : SavedConfig) (file : ConfigFile) : Prop :=
  ∃ stored, file = .stored stored ∧ env.repair stored = env.normalize cfg

/-- Where a read which was started after the write can stand. -/
def CallPhase.Later (env : HostEnv) (cfg : SavedConfig) : CallPhase → Prop
  | .readExists => True
  | .readFile => True
  | .returned answer => answer = .config (env.normalize cfg)
  | _ => False

structure Race.Kept (env : HostEnv) (cfg : SavedConfig) (count : ℕ)
    (s : Race) : Prop where
  file : Keeps env cfg s.file
  harmless : ∀ phase ∈ s.calls, phase.Harmless env cfg
  later : ∀ k phase, count ≤ k → s.calls[k]? = some phase →
    phase.Later env cfg

variable {cfg : SavedConfig}

theorem keeps_writeConfig
    {written : SavedConfig} (hsame : env.normalize written = env.normalize cfg) :
    Keeps env cfg (writeConfig env written).2 :=
  ⟨env.redirect written, rfl, by rw [env.repair_redirect, hsame]⟩

theorem CallPhase.Harmless.next
    {file after : ConfigFile} {phase moved : CallPhase}
    (hfile : Keeps env cfg file) (hharmless : phase.Harmless env cfg)
    (hnext : phase.next env file = some (after, moved)) :
    Keeps env cfg after ∧ moved.Harmless env cfg ∧
      (phase.Later env cfg → moved.Later env cfg) := by
  obtain ⟨stored, rfl, hstored⟩ := hfile
  cases phase with
  | resetExists => exact hharmless.elim
  | resetRemove => exact hharmless.elim
  | readExists =>
      simp only [CallPhase.next, reduceCtorEq, if_false, Option.some.injEq,
        Prod.mk.injEq] at hnext
      obtain ⟨rfl, rfl⟩ := hnext
      exact ⟨⟨stored, rfl, hstored⟩, trivial, fun _ => trivial⟩
  | readWrite =>
      simp only [CallPhase.next, Option.some.injEq, Prod.mk.injEq] at hnext
      obtain ⟨rfl, rfl⟩ := hnext
      refine ⟨keeps_writeConfig ?_, trivial, fun hlater => hlater.elim⟩
      rw [env.normalize_defaultConfig]
      exact hharmless
  | readFile =>
      simp only [CallPhase.next, Option.some.injEq, Prod.mk.injEq] at hnext
      obtain ⟨rfl, rfl⟩ := hnext
      refine ⟨⟨stored, rfl, hstored⟩, trivial, fun _ => ?_⟩
      rw [CallPhase.Later, loadedAnswer, hstored]
  | writeFile other =>
      simp only [CallPhase.next, Option.some.injEq, Prod.mk.injEq] at hnext
      obtain ⟨rfl, rfl⟩ := hnext
      exact ⟨keeps_writeConfig hharmless, trivial, fun hlater => hlater.elim⟩
  | returned answer => simp [CallPhase.next] at hnext

theorem raceStep_advance_eq_some
    {s next : Race} {k : ℕ}
    (hstep : raceStep env s (.advance k) = some next) :
    ∃ phase file moved, s.calls[k]? = some phase ∧
      phase.next env s.file = some (file, moved) ∧
      next = ⟨file, s.calls.set k moved⟩ := by
  simp only [raceStep] at hstep
  cases hrow : s.calls[k]? with
  | none => simp [hrow] at hstep
  | some phase =>
      simp only [hrow] at hstep
      obtain ⟨⟨file, moved⟩, hnext, rfl⟩ := Option.map_eq_some_iff.mp hstep
      exact ⟨phase, file, moved, rfl, hnext, rfl⟩

theorem Race.Kept.step
    {count : ℕ} {s next : Race} {action : RaceAction}
    (hkept : s.Kept env cfg count) (hquiet : action.Quiet)
    (hstep : raceStep env s action = some next) :
    next.Kept env cfg count := by
  cases action with
  | start call =>
      simp only [RaceAction.Quiet] at hquiet
      simp only [raceStep, hquiet, Option.some.injEq] at hstep
      subst hstep
      refine ⟨hkept.file, ?_, ?_⟩
      · intro phase hmem
        rcases List.mem_append.mp hmem with hold | hnew
        · exact hkept.harmless phase hold
        · rw [List.mem_singleton.mp hnew]
          trivial
      · intro k phase hk hrow
        rcases TableUpdate.getElem?_append_cases hrow with ⟨_, rfl⟩ | hold
        · trivial
        · exact hkept.later k phase hk hold
  | advance k =>
      obtain ⟨phase, file, moved, hrow, hnext, rfl⟩ :=
        raceStep_advance_eq_some hstep
      obtain ⟨hfile, hharmless, hlater⟩ :=
        (hkept.harmless phase (List.mem_of_getElem? hrow)).next hkept.file hnext
      refine ⟨hfile, ?_, ?_⟩
      · exact TableUpdate.forall_mem_set hkept.harmless hharmless
      · intro j other hj hget
        rcases TableUpdate.getElem?_set_cases hget with ⟨rfl, rfl⟩ | ⟨_, hold⟩
        · exact hlater (hkept.later _ phase hj hrow)
        · exact hkept.later j other hj hold

theorem CallPhase.Later.returns
    {s : Race} {k : ℕ} {phase : CallPhase} (hfile : Keeps env cfg s.file)
    (hrow : s.calls[k]? = some phase) (hlater : phase.Later env cfg) :
    ∃ steps last,
      ActionSystem.exec (raceStep env) s
        (List.replicate steps (.advance k)) = some last ∧
      last.calls[k]? = some (.returned (.config (env.normalize cfg))) := by
  have hlt : k < s.calls.length := (List.getElem?_eq_some_iff.mp hrow).1
  obtain ⟨stored, hstored, hrepair⟩ := hfile
  have hanswer : loadedAnswer env s.file = .config (env.normalize cfg) := by
    rw [hstored, loadedAnswer, hrepair]
  cases phase with
  | readExists =>
      have hexists :
          CallPhase.readExists.next env s.file = some (s.file, .readFile) := by
        rw [CallPhase.next, hstored]
        simp
      refine ⟨2, ⟨s.file, (s.calls.set k .readFile).set k
        (.returned (.config (env.normalize cfg)))⟩, ?_, ?_⟩
      · rw [exec_advance_of_next env hrow hexists,
          exec_advance_of_next env (List.getElem?_set_self hlt) rfl, hanswer]
        rfl
      · simp [hlt]
  | readFile =>
      refine ⟨1, ⟨s.file, s.calls.set k
        (.returned (.config (env.normalize cfg)))⟩, ?_, ?_⟩
      · rw [exec_advance_of_next env hrow rfl, hanswer]
        rfl
      · simp [hlt]
  | returned answer =>
      refine ⟨0, s, rfl, ?_⟩
      rw [hrow, show answer = _ from hlater]
  | resetExists => exact hlater.elim
  | resetRemove => exact hlater.elim
  | readWrite => exact hlater.elim
  | writeFile other => exact hlater.elim

theorem Race.Kept.noLostWrite
    {s : Race} (hkept : s.Kept env cfg s.calls.length) :
    NoLostWrite env s cfg := by
  intro actions final hquiet hexec k phase hk hrow
  have hkeep :
      ∀ before action after, Race.Kept env cfg s.calls.length before →
        RaceAction.Quiet action → raceStep env before action = some after →
        Race.Kept env cfg s.calls.length after :=
    fun _ _ _ hinv hallowed hstep => hinv.step hallowed hstep
  have hfinal := ActionSystem.exec_invariant_of_guarded hkeep hkept
    (ActionSystem.guarded_of_forall hquiet) hexec
  have hlater := hfinal.later k phase hk hrow
  refine ⟨?_, hlater.returns hfinal.file hrow⟩
  rintro answer rfl
  exact hlater

/-! ## A harmful call undoes the write -/

theorem NoLostWrite.answer_eq
    {s final : Race} {actions : List RaceAction} {answer : ConfigAnswer}
    (hnoLost : NoLostWrite env s cfg)
    (hquiet : ∀ action ∈ actions, RaceAction.Quiet action)
    (hexec : ActionSystem.exec (raceStep env) s actions = some final)
    (hrow : final.calls[s.calls.length]? = some (.returned answer)) :
    answer = .config (env.normalize cfg) :=
  (hnoLost actions final hquiet hexec _ _ le_rfl hrow).1 answer rfl

theorem NoLostWrite.read
    {s : Race} (hnoLost : NoLostWrite env s cfg) :
    (readConfig env s.file).1 = .config (env.normalize cfg) := by
  obtain ⟨steps, hexec⟩ := race_alone env s .read
  apply hnoLost.answer_eq _ hexec
  · simp [configCall]
  · intro action hmem
    rcases List.mem_cons.mp hmem with rfl | hrest
    · rfl
    · rw [List.eq_of_mem_replicate hrest]
      trivial

theorem NoLostWrite.advance
    {s : Race} {k : ℕ} {phase moved : CallPhase} {file : ConfigFile}
    (hnoLost : NoLostWrite env s cfg) (hrow : s.calls[k]? = some phase)
    (hnext : phase.next env s.file = some (file, moved)) :
    NoLostWrite env ⟨file, s.calls.set k moved⟩ cfg := by
  intro actions final hquiet hexec j other hj hget
  have hstep :
      raceStep env s (.advance k) = some ⟨file, s.calls.set k moved⟩ := by
    simp [raceStep, hrow, hnext]
  apply hnoLost (.advance k :: actions) final
  · exact List.forall_mem_cons.mpr ⟨trivial, hquiet⟩
  · rw [ActionSystem.exec_cons, hstep]
    exact hexec
  · simpa using hj
  · exact hget

theorem NoLostWrite.no_remove
    {s : Race} {k : ℕ} {stored : SavedConfig}
    (hnoLost : NoLostWrite env s cfg) (hfile : s.file = .stored stored) :
    s.calls[k]? ≠ some .resetRemove := by
  intro hrow
  obtain ⟨file, calls⟩ := s
  simp only at hfile hrow
  subst hfile
  have hremoved := @raceStep_advance_front env (.stored stored) calls k
    .resetRemove hrow .readFile
  have hlength :
      (calls.set k .readExists).length = calls.length := List.length_set
  have hfailed := raceStep_advance_last env .missing
    (calls.set k .readExists) .readFile
  rw [hlength] at hfailed
  have hexec :
      ActionSystem.exec (raceStep env) ⟨.stored stored, calls⟩
          [.start .read, .advance calls.length, .advance k,
            .advance calls.length] =
        some ⟨.missing, calls.set k .readExists ++ [.returned .failed]⟩ := by
    rw [ActionSystem.exec_cons, raceStep, Option.bind_some,
      ActionSystem.exec_cons, raceStep_advance_last]
    simp only [ConfigCall.entry, CallPhase.next, reduceCtorEq, if_false,
      Option.map_some, Option.bind_some]
    rw [ActionSystem.exec_cons, hremoved]
    simp only [CallPhase.next, Option.map_some, Option.bind_some]
    rw [ActionSystem.exec_cons, hfailed]
    rfl
  have hanswer : ConfigAnswer.failed = .config (env.normalize cfg) :=
    hnoLost.answer_eq (by simp [RaceAction.Quiet]) hexec (by simp)
  contradiction

theorem NoLostWrite.harmless
    {s : Race} {k : ℕ} {phase : CallPhase} {stored : SavedConfig}
    (hnoLost : NoLostWrite env s cfg) (hfile : s.file = .stored stored)
    (hrow : s.calls[k]? = some phase) : phase.Harmless env cfg := by
  have hlt : k < s.calls.length := (List.getElem?_eq_some_iff.mp hrow).1
  have hwritten (written : SavedConfig)
      (hread : (readConfig env (writeConfig env written).2).1 =
        .config (env.normalize cfg)) :
      env.normalize written = env.normalize cfg := by
    rw [writeConfig, readConfig, env.repair_redirect,
      ConfigAnswer.config.injEq] at hread
    exact hread
  cases phase with
  | resetExists =>
      have hexists :
          CallPhase.resetExists.next env s.file =
            some (s.file, .resetRemove) := by
        rw [CallPhase.next, hfile]
        simp
      exact (hnoLost.advance hrow hexists).no_remove hfile
        (List.getElem?_set_self hlt)
  | resetRemove => exact hnoLost.no_remove hfile hrow
  | readWrite =>
      have hsame := hwritten env.defaultConfig (hnoLost.advance hrow rfl).read
      rwa [env.normalize_defaultConfig] at hsame
  | writeFile other => exact hwritten other (hnoLost.advance hrow rfl).read
  | readExists => trivial
  | readFile => trivial
  | returned answer => trivial

/-- A write which has returned is never undone exactly when, at the moment it
writes the file, every other call in flight is harmless to it. -/
theorem noLostWrite_iff
    {mid after : Race} {w : ℕ} (hwrite : mid.calls[w]? = some (.writeFile cfg))
    (hafter : raceStep env mid (.advance w) = some after) :
    NoLostWrite env after cfg ↔
      ∀ k phase, k ≠ w → mid.calls[k]? = some phase →
        phase.Harmless env cfg := by
  have hlt : w < mid.calls.length := (List.getElem?_eq_some_iff.mp hwrite).1
  simp only [raceStep, hwrite, CallPhase.next, Option.map_some,
    Option.some.injEq] at hafter
  subst hafter
  constructor
  · intro hnoLost k phase hk hrow
    apply hnoLost.harmless rfl
    rw [List.getElem?_set_ne hk.symm]
    exact hrow
  · intro hharmless
    apply Race.Kept.noLostWrite
    refine ⟨keeps_writeConfig rfl, ?_, ?_⟩
    · intro phase hmem
      obtain ⟨k, hget⟩ := List.mem_iff_getElem?.mp hmem
      rcases TableUpdate.getElem?_set_cases hget with ⟨_, rfl⟩ | ⟨hk, hold⟩
      · trivial
      · exact hharmless k phase hk hold
    · intro k phase hk hrow
      rw [List.getElem?_eq_none hk] at hrow
      contradiction

/-! ## Two schedules -/

def userSaved : SavedConfig := ⟨⟨["/d"], ["/tmp"], "/idx", false⟩, "inverted", 80⟩

theorem noLostWrite_before_readers :
    NoLostWrite sampleHost
      ⟨.stored userSaved, [.readFile, .returned .written, .readExists]⟩
      userSaved :=
  (@noLostWrite_iff sampleHost userSaved
    ⟨.missing, [.readFile, .writeFile userSaved, .readExists]⟩ _ 1 rfl
    (by decide)).mpr (by
      intro k phase hk hrow
      match k, hrow with
      | 0, hrow => cases hrow; trivial
      | 2, hrow => cases hrow; trivial)

/-- The scheduler's read finds no file, the user saves, and the read then
writes the defaults over the saved configuration: the next read returns the
defaults. -/
theorem write_lost :
    ∃ final,
      ActionSystem.exec (raceStep sampleHost) ⟨.missing, []⟩
        [.start .read, .advance 0, .start (.write userSaved), .advance 1,
          .advance 0, .start .read, .advance 2, .advance 2] = some final ∧
      final.calls[1]? = some (.returned .written) ∧
      final.calls[2]? =
        some (.returned (.config sampleHost.defaultConfig)) ∧
      sampleHost.defaultConfig ≠ sampleHost.normalize userSaved := by
  refine ⟨⟨.stored sampleHost.defaultConfig,
    [.returned (.config sampleHost.defaultConfig), .returned .written,
      .returned (.config sampleHost.defaultConfig)]⟩, ?_⟩
  decide

end SearchEvery
