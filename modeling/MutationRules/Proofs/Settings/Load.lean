import MutationRules.Settings.File

/-!
# Loading settings

Loading reads the bytes of a file and does nothing else, so what it gives depends on them
alone: it is what their text says, provided that its literals are admissible.
-/

namespace MutationRules

namespace SettingsFile

/-- What is loaded from a file with some bytes, or from one that cannot be read. -/
def ofBytes (path : String) (bytes? : Option ByteArray) : Except Failure SettingsFile :=
  match bytes?.bind String.fromUTF8? with
  | none => .error (.settingsUnreadable path)
  | some text =>
    match parse? text with
    | none => .error (.settingsMalformed path)
    | some file =>
      match file.settings.validate with
      | .error defect => .error (.taxonomy defect)
      | .ok () => .ok file

/-- Whatever the host, loading is reading. -/
theorem run_load {m : Type → Type} [Monad m] [LawfulMonad m] [Host m] (path : String) :
    (load path : Action m SettingsFile).run =
      ofBytes path <$> (Host.read path : m (Option ByteArray)) := by
  rw [load, readAs, readText, ← bind_pure_comp]
  simp only [bind_assoc, ExceptT.run_bind, ExceptT.run_liftM, map_bind, map_pure, pure_bind]
  refine bind_congr fun bytes? => ?_
  rw [ofBytes]
  cases bytes?.bind String.fromUTF8? with
  | none => exact pure_bind ..
  | some text =>
    cases hparse : parse? text with
    | none => simp [hparse]
    | some file => cases hvalid : file.settings.validate <;> simp [hparse, hvalid]

variable {path : String} {file : SettingsFile} {bytes? : Option ByteArray}

/-- A settings file that is loaded holds accepted settings. -/
theorem validate_of_ofBytes (h : ofBytes path bytes? = .ok file) :
    file.settings.validate = .ok () := by
  rw [ofBytes] at h
  cases htext : bytes?.bind String.fromUTF8? with
  | none => simp [htext] at h
  | some text =>
    cases hparse : parse? text with
    | none => simp [htext, hparse] at h
    | some parsed =>
      cases hvalid : parsed.settings.validate with
      | error defect => simp [htext, hparse, hvalid] at h
      | ok accepted =>
        simp only [htext, hparse, hvalid, Except.ok.injEq] at h
        exact h ▸ hvalid

theorem validate_of_load {before after : Workspace}
    (h : (load path : Action (StateM Workspace) SettingsFile).run.run before = (.ok file, after)) :
    file.settings.validate = .ok () := by
  rw [run_load] at h
  exact validate_of_ofBytes (congrArg Prod.fst h)

/-- A settings file is loaded if its text says something and the settings are accepted. -/
theorem load_eq_ok {w : Workspace} {text : String} {bytes : ByteArray}
    (hread : w.read path = some bytes) (htext : String.fromUTF8? bytes = some text)
    (hparse : parse? text = some file) (hv : file.settings.validate = .ok ()) :
    (load path : Action (StateM Workspace) SettingsFile).run.run w = (.ok file, w) := by
  have hbytes : ofBytes path (some bytes) = .ok file := by
    simp [ofBytes, htext, hparse, hv]
  have hrun : (load path : Action (StateM Workspace) SettingsFile).run.run w =
      (ofBytes path (w.read path), w) := by
    rw [run_load]
    rfl
  rw [hrun, hread, hbytes]

end SettingsFile

end MutationRules
