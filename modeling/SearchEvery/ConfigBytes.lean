import SearchEvery.ConfigJson
import Mathlib.Tactic

/-!
# The bytes of the configuration file

`write_config` truncates the file and writes the JSON text of the configuration
over it; `read_config` and `reset_config` find the directory of the file, look
whether the file is there, and read it.  Each of these steps can fail, and a
write can stop on the way, when the file holds a prefix of the new text.  The
file says what later calls make of what is left.  The printer and the reader of
JSON texts are parameters.
-/

namespace SearchEvery

/-- Where a `write_config` can fail: no configuration directory, a file which
does not open, or a write which stops after so many bytes. -/
inductive SaveFault
  | noConfigDir
  | notOpened
  | stopped (written : ℕ)
  deriving DecidableEq

/-- Where a `read_config` can fail by itself: no configuration directory, a file
which is there and cannot be read, or the write which a missing file leads
to. -/
inductive ReadFault
  | noConfigDir
  | notRead
  | save (fault : SaveFault)
  deriving DecidableEq

section Calls

variable (env : HostEnv) (serde : SerdeJson SavedConfig)

/-- The bytes of a file as the reader takes them. -/
def loadBytes (bytes : List UInt8) : ConfigFile :=
  match serde.load bytes with
  | some cfg => .stored cfg
  | none => .malformed

/-- The file as the calls of the configuration store see it. -/
def fileOf : Option (List UInt8) → ConfigFile
  | none => .missing
  | some bytes => loadBytes serde bytes

def writeConfigBytes (fault : Option SaveFault) (file : Option (List UInt8))
    (cfg : SavedConfig) : ConfigAnswer × Option (List UInt8) :=
  match fault with
  | some .noConfigDir | some .notOpened => (.failed, file)
  | some (.stopped written) =>
      (.failed, some ((serde.bytes (env.redirect cfg)).take written))
  | none => (.written, some (serde.bytes (env.redirect cfg)))

/-- The branch of `read_config` for a file which is not there. -/
def generateDefault (fault : Option SaveFault) :
    ConfigAnswer × Option (List UInt8) :=
  match writeConfigBytes env serde fault none env.defaultConfig with
  | (.written, after) => (.config env.defaultConfig, after)
  | (_, after) => (.failed, after)

def readConfigBytes (fault : Option ReadFault) (file : Option (List UInt8)) :
    ConfigAnswer × Option (List UInt8) :=
  match fault, file with
  | some .noConfigDir, _ => (.failed, file)
  | some .notRead, some _ => (.failed, file)
  | some (.save _), some bytes | none, some bytes =>
      ((readConfig env (loadBytes serde bytes)).1, file)
  | some (.save fault), none => generateDefault env serde (some fault)
  | some .notRead, none | none, none => generateDefault env serde none

/-- `reset_config`; an error of the removal is ignored, and the old file is
read.  Without a configuration directory nothing is removed and the read fails
as well. -/
def resetConfigBytes (removed : Bool) (fault : Option ReadFault)
    (file : Option (List UInt8)) : ConfigAnswer × Option (List UInt8) :=
  readConfigBytes env serde fault (if removed then none else file)

end Calls

/-- The read fails on a file which is there, whatever the file holds. -/
def readBlocked : Option ReadFault → Bool
  | some .noConfigDir | some .notRead => true
  | some (.save _) | none => false

variable {env : HostEnv} {serde : SerdeJson SavedConfig}

theorem readConfigBytes_some
    (fault : Option ReadFault) (bytes : List UInt8) :
    readConfigBytes env serde fault (some bytes) =
      (if readBlocked fault then .failed
        else (readConfig env (loadBytes serde bytes)).1, some bytes) := by
  match fault with
  | some .noConfigDir | some .notRead | some (.save _) | none => rfl

/-! ## Calls without a fault -/

theorem loadBytes_bytes
    (hserde : serde.Lawful) (cfg : SavedConfig) :
    loadBytes serde (serde.bytes cfg) = .stored cfg := by
  rw [loadBytes, hserde.load_bytes]

theorem writeConfigBytes_refines
    (hserde : serde.Lawful) (cfg : SavedConfig) (file : Option (List UInt8)) :
    (writeConfigBytes env serde none file cfg).1 = (writeConfig env cfg).1 ∧
      fileOf serde (writeConfigBytes env serde none file cfg).2 =
        (writeConfig env cfg).2 := by
  simp only [writeConfigBytes, fileOf, writeConfig, loadBytes_bytes hserde,
    and_self]

theorem readConfigBytes_refines
    (hserde : serde.Lawful) (file : Option (List UInt8)) :
    (readConfigBytes env serde none file).1 =
        (readConfig env (fileOf serde file)).1 ∧
      fileOf serde (readConfigBytes env serde none file).2 =
        (readConfig env (fileOf serde file)).2 := by
  cases file with
  | none =>
      simp only [readConfigBytes, generateDefault, writeConfigBytes, fileOf,
        readConfig, writeConfig, loadBytes_bytes hserde, and_self]
  | some bytes =>
      simp only [readConfigBytes, fileOf, true_and]
      unfold loadBytes
      split <;> rfl

/-! ## A write which stops -/

theorem loadBytes_take
    (hserde : serde.Lawful) (cfg : SavedConfig) (n : ℕ) :
    loadBytes serde ((serde.bytes cfg).take n) =
      if n < (serde.bytes cfg).length then .malformed else .stored cfg := by
  rw [loadBytes, hserde.load_take]
  by_cases hcut : n < (serde.bytes cfg).length
  · simp only [if_pos hcut]
  · simp only [if_neg hcut]

theorem readConfigBytes_stored
    {bytes : List UInt8} {cfg : SavedConfig}
    (hload : loadBytes serde bytes = .stored cfg) (fault : Option ReadFault) :
    (readConfigBytes env serde fault (some bytes)).1 =
      if readBlocked fault then .failed else .config (env.normalize cfg) := by
  rw [readConfigBytes_some, hload, readConfig, env.repair_eq_normalize]

theorem readConfigBytes_malformed
    {bytes : List UInt8} (hload : loadBytes serde bytes = .malformed)
    (fault : Option ReadFault) :
    readConfigBytes env serde fault (some bytes) = (.failed, some bytes) := by
  rw [readConfigBytes_some, hload, readConfig, ite_self]

/-- What a read returns which meets no error of its own after a failed save: the
old configuration when the file was not yet truncated, an error when the write
stopped on the way, and the new configuration when nothing was left to write.
A read which meets one fails, before the save as after it. -/
theorem read_after_failed_save
    {bytes : List UInt8} {saved cfg : SavedConfig} {fault : Option SaveFault}
    (hserde : serde.Lawful) (hsaved : loadBytes serde bytes = .stored saved)
    (hfailed : (writeConfigBytes env serde fault (some bytes) cfg).1 = .failed)
    (again : Option ReadFault) :
    (readConfigBytes env serde again (some bytes)).1 =
        (if readBlocked again then .failed
          else .config (env.normalize saved)) ∧
      ((∀ written, fault ≠ some (.stopped written)) →
        (readConfigBytes env serde again
          (writeConfigBytes env serde fault (some bytes) cfg).2).1 =
            if readBlocked again then .failed
            else .config (env.normalize saved)) ∧
      ∀ written, fault = some (.stopped written) →
        (readConfigBytes env serde again
          (writeConfigBytes env serde fault (some bytes) cfg).2).1 =
            if readBlocked again = true ∨
                written < (serde.bytes (env.redirect cfg)).length then .failed
            else .config (env.normalize cfg) := by
  refine ⟨readConfigBytes_stored hsaved again, ?_, ?_⟩
  · intro hearly
    match fault with
    | none => simp [writeConfigBytes] at hfailed
    | some .noConfigDir => exact readConfigBytes_stored hsaved again
    | some .notOpened => exact readConfigBytes_stored hsaved again
    | some (.stopped written) => exact (hearly written rfl).elim
  · rintro written rfl
    rw [writeConfigBytes, readConfigBytes_some, loadBytes_take hserde]
    by_cases hblocked : readBlocked again = true
    · simp [hblocked]
    · by_cases hcut : written < (serde.bytes (env.redirect cfg)).length
      · simp [hblocked, hcut, readConfig]
      · simp [hblocked, hcut, readConfig, env.repair_redirect]

theorem length_bytes_enteredSample :
    20 < (sampleHost.configJson.bytes
      (sampleHost.redirect enteredSample)).length := by
  have hchars : 20 < (sampleHost.configJson.toStringPretty
      (sampleHost.redirect enteredSample)).toList.length := by
    rw [HostEnv.configJson, String.toList_ofList]
    decide +kernel
  exact lt_of_lt_of_le hchars (Utf8.length_le_length_encode _)

/-- The disk is full after twenty bytes. -/
theorem read_after_failed_save_cut :
    (readConfigBytes sampleHost sampleHost.configJson none
      (writeConfigBytes sampleHost sampleHost.configJson (some (.stopped 20))
        (some (sampleHost.configJson.bytes storedSample))
        enteredSample).2).1 = .failed := by
  have hserde := sampleHost.configJson_lawful
  have hread := (@read_after_failed_save sampleHost sampleHost.configJson _ _
    enteredSample (some (.stopped 20)) hserde
    (loadBytes_bytes hserde storedSample) rfl none).2.2 20 rfl
  rwa [if_pos (Or.inr length_bytes_enteredSample)] at hread

/-- The file is truncated and nothing is written: the save fails, and the
configuration which a read returned before is gone. -/
theorem failed_save_loses_config :
    (writeConfigBytes sampleHost sampleHost.configJson (some (.stopped 0))
      (some (sampleHost.configJson.bytes storedSample))
      enteredSample).1 = .failed ∧
    (readConfigBytes sampleHost sampleHost.configJson none
      (some (sampleHost.configJson.bytes storedSample))).1 =
        .config (sampleHost.normalize storedSample) ∧
    (readConfigBytes sampleHost sampleHost.configJson none
      (writeConfigBytes sampleHost sampleHost.configJson (some (.stopped 0))
        (some (sampleHost.configJson.bytes storedSample))
        enteredSample).2).1 = .failed := by
  have hserde := sampleHost.configJson_lawful
  have hload := loadBytes_take hserde (sampleHost.redirect enteredSample) 0
  rw [if_pos (lt_trans (by decide) length_bytes_enteredSample)] at hload
  refine ⟨rfl, ?_, ?_⟩
  · exact readConfigBytes_stored (loadBytes_bytes hserde storedSample) none
  · rw [writeConfigBytes, readConfigBytes_malformed hload]

/-! ## Sequences of calls with faults -/

inductive ByteCall
  | read (fault : Option ReadFault)
  | write (fault : Option SaveFault) (cfg : SavedConfig)
  | reset (removed : Bool) (fault : Option ReadFault)
  deriving DecidableEq

section Sequences

variable (env : HostEnv) (serde : SerdeJson SavedConfig)

def byteCall (file : Option (List UInt8)) :
    ByteCall → ConfigAnswer × Option (List UInt8)
  | .read fault => readConfigBytes env serde fault file
  | .write fault cfg => writeConfigBytes env serde fault file cfg
  | .reset removed fault => resetConfigBytes env serde removed fault file

end Sequences

theorem normalize_of_read
    {file : Option (List UInt8)} {fault : Option ReadFault} {cfg : SavedConfig}
    (hanswer : (readConfigBytes env serde fault file).1 = .config cfg) :
    ∃ loaded, env.normalize loaded = cfg := by
  have hdefault {save : Option SaveFault}
      (hconfig : (generateDefault env serde save).1 = .config cfg) :
      ∃ loaded, env.normalize loaded = cfg := by
    unfold generateDefault at hconfig
    split at hconfig
    · rw [← ConfigAnswer.config.inj hconfig]
      exact env.exists_normalize_eq_defaultConfig
    · simp at hconfig
  cases file with
  | none =>
      match fault with
      | some .noConfigDir => simp [readConfigBytes] at hanswer
      | some .notRead | some (.save _) | none => exact hdefault hanswer
  | some bytes =>
      rw [readConfigBytes_some] at hanswer
      dsimp only at hanswer
      split at hanswer
      · simp at hanswer
      · exact @configCall_config env (loadBytes serde bytes) .read cfg hanswer

theorem byteCall_usable
    {file : Option (List UInt8)} {call : ByteCall} {cfg : SavedConfig}
    (hanswer : (byteCall env serde file call).1 = .config cfg) :
    env.Usable cfg := by
  have hread {other : Option (List UInt8)} {fault : Option ReadFault}
      (hconfig : (readConfigBytes env serde fault other).1 = .config cfg) :
      env.Usable cfg := by
    obtain ⟨loaded, rfl⟩ := normalize_of_read hconfig
    exact env.normalize_usable loaded
  cases call with
  | read fault => exact hread hanswer
  | write fault written =>
      simp only [byteCall, writeConfigBytes] at hanswer
      split at hanswer <;> simp at hanswer
  | reset removed fault => exact hread hanswer

end SearchEvery
