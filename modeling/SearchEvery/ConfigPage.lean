import SearchEvery.ConfigBytes
import SearchEvery.ConfigForm
import Mathlib.Tactic

/-!
# Saving the form and starting again

The page edits a form, saves it as a configuration and shows the configuration
which a reset answers, or the one which it reads when it is started again.  What
it shows after a save need not be what was saved: a blank field is repaired, and
a list is read out of its box again.  The file says that this settles after two
rounds, in the form and in the bytes of the file.
-/

namespace SearchEvery

structure ConfigPage where
  form : ConfigForm
  file : Option (List UInt8)

/-- The fields before the first answer, when no variable sets the length of the
paths. -/
def initialForm : ConfigForm :=
  ⟨"indexes/main", "D:/", "\\Windows, \\Program Files, \\AppData", 80, true⟩

/-- An edit, a click, or a new start of the page.  A call to the back end is
made again as long as it fails and there are attempts left. -/
inductive PageEdit
  | edit (form : ConfigForm)
  | restart (attempts : List (Option ReadFault))
  | doSaveConfig (attempts : List (Option SaveFault))
  | doResetConfig (attempts : List (Bool × Option ReadFault))

section Steps

variable (env : HostEnv) (serde : SerdeJson SavedConfig)

/-- The attempts up to the first one which does not fail. -/
def attempted : List ByteCall → Option (List UInt8) →
    ConfigAnswer × Option (List UInt8)
  | [], file => (.failed, file)
  | call :: rest, file =>
      match byteCall env serde file call with
      | (.failed, after) => attempted rest after
      | answered => answered

/-- The form after an answer; a failed call leaves it as it is. -/
def ConfigPage.show (page : ConfigPage) :
    ConfigAnswer × Option (List UInt8) → ConfigPage
  | (.config cfg, file) => ⟨loadForm cfg, file⟩
  | (_, file) => ⟨page.form, file⟩

/-- The page reads the configuration when it starts, over the fields which it
starts with. -/
def configPageStep (page : ConfigPage) : PageEdit → ConfigPage
  | .edit form => { page with form := form }
  | .restart attempts =>
      { page with form := initialForm }.show
        (attempted env serde (attempts.map .read) page.file)
  | .doSaveConfig attempts =>
      { page with file := (attempted env serde
          (attempts.map fun fault => .write fault page.form.toSave)
          page.file).2 }
  | .doResetConfig attempts =>
      page.show (attempted env serde
        (attempts.map fun attempt => .reset attempt.1 attempt.2) page.file)

/-- The form which a new start shows after a save. -/
def HostEnv.reload (form : ConfigForm) : ConfigForm :=
  loadForm (env.normalize form.toSave)

/-- A save and a new start, neither with a fault. -/
def saveAndRestart (page : ConfigPage) : ConfigPage :=
  configPageStep env serde (configPageStep env serde page (.doSaveConfig [none]))
    (.restart [none])

end Steps

variable {env : HostEnv} {serde : SerdeJson SavedConfig}

/-! ## One round -/

/-- Some attempt to read meets no error of its own. -/
theorem attempted_read
    (hserde : serde.Lawful) (cfg : SavedConfig)
    {attempts : List (Option ReadFault)}
    (hread : ∃ fault ∈ attempts, readBlocked fault = false) :
    attempted env serde (attempts.map .read)
        (some (serde.bytes (env.redirect cfg))) =
      (.config (env.normalize cfg), some (serde.bytes (env.redirect cfg))) := by
  induction attempts with
  | nil => simp at hread
  | cons fault rest ih =>
      rw [List.map_cons, attempted, byteCall, readConfigBytes_some,
        loadBytes_bytes hserde, readConfig, env.repair_redirect]
      by_cases hblocked : readBlocked fault = true
      · simp only [hblocked, if_true]
        apply ih
        simpa [hblocked] using hread
      · simp [hblocked]

theorem configPageStep_restart_saved
    (hserde : serde.Lawful) (form : ConfigForm) (cfg : SavedConfig)
    {attempts : List (Option ReadFault)}
    (hread : ∃ fault ∈ attempts, readBlocked fault = false) :
    configPageStep env serde ⟨form, some (serde.bytes (env.redirect cfg))⟩
        (.restart attempts) =
      ⟨loadForm (env.normalize cfg),
        some (serde.bytes (env.redirect cfg))⟩ := by
  rw [configPageStep, attempted_read hserde cfg hread]
  rfl

theorem saveAndRestart_eq
    (hserde : serde.Lawful) (page : ConfigPage) :
    saveAndRestart env serde page =
      ⟨env.reload page.form,
        some (serde.bytes (env.redirect page.form.toSave))⟩ :=
  configPageStep_restart_saved hserde page.form page.form.toSave
    ⟨none, by simp, rfl⟩

theorem isCSVField_of_mem_parseCSV
    {input part : String} (hpart : part ∈ parseCSV input) : IsCSVField part := by
  rw [parseCSV_eq_fields] at hpart
  obtain ⟨chars, hchars, rfl⟩ := List.mem_map.mp hpart
  rw [IsCSVField, String.toList_ofList]
  exact Delimited.isField_of_mem_fields hchars

theorem parseCSV_join_parseCSV
    (input : String) :
    parseCSV (", ".intercalate (parseCSV input)) = parseCSV input :=
  (parseCSV_join_eq_self_iff _).mpr fun _ => isCSVField_of_mem_parseCSV

/-- A list which a load shows is the default, or was read out of its box; what
the box gives then, it gives again after the next round. -/
theorem parseCSV_join_restored
    {input : String} {default parts : List String}
    (hparts : parts = if parseCSV input = [] then default else parseCSV input) :
    parseCSV (", ".intercalate
        (if parseCSV (", ".intercalate parts) = [] then default
          else parseCSV (", ".intercalate parts))) =
      parseCSV (", ".intercalate parts) := by
  by_cases hnil : parseCSV (", ".intercalate parts) = []
  · by_cases hinput : parseCSV input = []
    · rw [if_pos hinput] at hparts
      rw [if_pos hnil, hparts]
    · rw [hparts, if_neg hinput, parseCSV_join_parseCSV] at hnil
      exact (hinput hnil).elim
  · rw [if_neg hnil, parseCSV_join_parseCSV]

theorem toSave_loadForm
    (env : HostEnv) {cfg : SavedConfig} (husable : env.Usable cfg) :
    (loadForm cfg).toSave = { cfg with
      searchMode := "inverted"
      scanRoots := parseCSV (", ".intercalate cfg.scanRoots)
      excludePatterns := parseCSV (", ".intercalate cfg.excludePatterns) } := by
  have hne : cfg.indexDir ≠ "" := by
    intro hempty
    have hdir := husable.indexDir
    rw [hempty, isBlank_empty] at hdir
    contradiction
  simp only [loadForm, ConfigForm.toSave, if_neg hne]

/-- After one round, the next save writes what every later one does. -/
theorem toSave_reload_reload (env : HostEnv) (form : ConfigForm) :
    (env.reload (env.reload form)).toSave = (env.reload form).toSave := by
  have husable := env.normalize_usable form.toSave
  have hround := env.normalize_toSave_loadForm
    (env.normalize_normalize form.toSave) husable.indexDir
  have hlater := toSave_loadForm env
    (env.normalize_usable (env.reload form).toSave)
  rw [HostEnv.reload, hround] at hlater
  have hroots := @parseCSV_join_restored form.roots env.defaultScanRoots
    (env.normalize form.toSave).scanRoots rfl
  have hpatterns := @parseCSV_join_restored form.exclude
    defaultExcludePatterns (env.normalize form.toSave).excludePatterns rfl
  calc (env.reload (env.reload form)).toSave
      = (loadForm (env.normalize (loadForm
          (env.normalize form.toSave)).toSave)).toSave := rfl
    _ = _ := by rw [hround, hlater]
    _ = (env.reload form).toSave := by
        rw [HostEnv.reload, toSave_loadForm env husable]
        dsimp only
        rw [hroots, hpatterns]

/-! ## Two rounds -/

/-- What two rounds leave: the form is what the file is read as, and a save
writes the file again. -/
structure ConfigPage.Settled (env : HostEnv) (serde : SerdeJson SavedConfig)
    (page : ConfigPage) : Prop where
  form : page.form = env.reload page.form
  file : page.file = some (serde.bytes (env.redirect page.form.toSave))

theorem reload_of_toSave_eq
    {form other : ConfigForm} (hsave : form.toSave = other.toSave) :
    env.reload form = env.reload other := by
  rw [HostEnv.reload, HostEnv.reload, hsave]

theorem settled_of_two_rounds
    (hserde : serde.Lawful) (page : ConfigPage) :
    (saveAndRestart env serde (saveAndRestart env serde page)).Settled env
      serde := by
  have hsave := toSave_reload_reload env page.form
  rw [saveAndRestart_eq hserde (saveAndRestart env serde page),
    saveAndRestart_eq hserde page]
  refine ⟨(reload_of_toSave_eq hsave).symm, ?_⟩
  dsimp only
  rw [hsave]

/-- The step is no edit and no reset; a new start has its read answered, and no
write of a save stops on the way. -/
def PageEdit.Quiet : PageEdit → Prop
  | .edit _ | .doResetConfig _ => False
  | .restart attempts => ∃ fault ∈ attempts, readBlocked fault = false
  | .doSaveConfig attempts =>
      ∀ fault ∈ attempts, ∀ written, fault ≠ some (.stopped written)

/-- A configuration saved over itself, in however many attempts. -/
theorem attempted_write_again
    (cfg : SavedConfig) {attempts : List (Option SaveFault)}
    (hwhole : ∀ fault ∈ attempts, ∀ written, fault ≠ some (.stopped written)) :
    (attempted env serde (attempts.map fun fault => .write fault cfg)
        (some (serde.bytes (env.redirect cfg)))).2 =
      some (serde.bytes (env.redirect cfg)) := by
  induction attempts with
  | nil => rfl
  | cons fault rest ih =>
      rw [List.forall_mem_cons] at hwhole
      rw [List.map_cons, attempted, byteCall]
      cases fault with
      | none => rfl
      | some fault =>
          cases fault with
          | noConfigDir => exact ih hwhole.2
          | notOpened => exact ih hwhole.2
          | stopped written => exact (hwhole.1 written rfl).elim

theorem ConfigPage.Settled.step
    (hserde : serde.Lawful) {page : ConfigPage}
    (hsettled : page.Settled env serde) {action : PageEdit}
    (hquiet : action.Quiet) : configPageStep env serde page action = page := by
  obtain ⟨form, file⟩ := page
  have hform : form = env.reload form := hsettled.form
  have hfile : file = some (serde.bytes (env.redirect form.toSave)) :=
    hsettled.file
  cases action with
  | edit other => exact hquiet.elim
  | doResetConfig attempts => exact hquiet.elim
  | restart attempts =>
      have hload := @configPageStep_restart_saved env serde hserde form
        form.toSave attempts hquiet
      rw [← hfile, ← HostEnv.reload, ← hform] at hload
      exact hload
  | doSaveConfig attempts =>
      have hsave := @attempted_write_again env serde form.toSave attempts hquiet
      rw [← hfile] at hsave
      simp only [configPageStep, hsave]

theorem ConfigPage.Settled.run
    (hserde : serde.Lawful) {page : ConfigPage}
    (hsettled : page.Settled env serde) {actions : List PageEdit}
    (hquiet : ∀ action ∈ actions, action.Quiet) :
    actions.foldl (configPageStep env serde) page = page := by
  induction actions with
  | nil => rfl
  | cons action rest ih =>
      rw [List.forall_mem_cons] at hquiet
      rw [List.foldl_cons, hsettled.step hserde hquiet.1]
      exact ih hquiet.2

/-- Whatever the form and the file hold, two rounds of saving and starting again
settle the page: however often it is started and saved from then on, neither the
form nor a byte of the file changes. -/
theorem configPage_settles
    (env : HostEnv) (hserde : serde.Lawful) (page : ConfigPage)
    {actions : List PageEdit} (hquiet : ∀ action ∈ actions, action.Quiet) :
    actions.foldl (configPageStep env serde)
        (saveAndRestart env serde (saveAndRestart env serde page)) =
      saveAndRestart env serde (saveAndRestart env serde page) :=
  (settled_of_two_rounds hserde page).run hserde hquiet

def blankForm : ConfigForm := ⟨"", "", "/tmp", 0, true⟩

/-- A form with blank fields; then a start whose first read fails and whose
second one is answered, and a save which finds the file locked at first. -/
theorem configPage_settles_blank :
    ∃ page : ConfigPage, page.form = blankForm ∧
      [PageEdit.restart [some .notRead, none],
          .doSaveConfig [some .notOpened, none]].foldl
          (configPageStep sampleHost sampleHost.configJson)
          (saveAndRestart sampleHost sampleHost.configJson
            (saveAndRestart sampleHost sampleHost.configJson page)) =
        saveAndRestart sampleHost sampleHost.configJson
          (saveAndRestart sampleHost sampleHost.configJson page) ∧
      sampleHost.reload blankForm =
        ⟨"/home/u/.searchevery/indexs", "/home/u", "/tmp", 80, true⟩ :=
  ⟨⟨blankForm, none⟩, rfl,
    configPage_settles sampleHost sampleHost.configJson_lawful
      ⟨blankForm, none⟩ (by simp [PageEdit.Quiet, readBlocked]),
    by decide +kernel⟩

end SearchEvery
