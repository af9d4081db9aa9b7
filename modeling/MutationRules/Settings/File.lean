import MutationRules.Taxonomy.Basic
import MutationRules.Workspace.Text
import MutationRules.Yaml.Document

/-!
# Settings files

A settings file is a YAML mapping with a version and the lists of literals. What it leaves out has
its default, and what it adds is passed over.
-/

namespace MutationRules

open Yaml (Document Node)

/-- What a settings file says. -/
structure SettingsFile where
  /-- The version that the file declares. -/
  version : String := "1.0"
  /-- The literals. -/
  settings : Settings := {}
  deriving DecidableEq, Repr

namespace SettingsFile

/-- The entries of a mapping that have one of some names, which may not repeat. -/
def fields? (document : Document) (names : List String) (node : Node) :
    Option (List (String × Node)) := do
  let entries ← (← document.entries? node).mapM fun (key, value) =>
    return (← document.text? key, value)
  let known := entries.filter fun (name, _) => names.contains name
  guard (known.map (·.1)).Nodup
  return known

/-- The value of an entry, or what stands for one that is left out. -/
def field? {β : Type} (entries : List (String × Node)) (name : String) (read : Node → Option β)
    (default : β) : Option β :=
  match entries.lookup name with
  | some node => read node
  | none => some default

/-- The texts of a sequence of scalars. -/
def texts? (document : Document) (node : Node) : Option (List String) := do
  (← document.items? node).mapM document.text?

/-- The settings that a node writes. -/
def settings? (document : Document) (node : Node) : Option Settings := do
  let entries ← fields? document
    ["scalar_constants", "shuffle_counters", "case_remove_counters", "callee_names"] node
  let list (name : String) := field? entries name (texts? document)
  let default : Settings := {}
  return {
    scalarConstants := ← list "scalar_constants" default.scalarConstants
    shuffleCounters := ← list "shuffle_counters" default.shuffleCounters
    caseRemovalCounters := ← list "case_remove_counters" default.caseRemovalCounters
    calleeNames := ← list "callee_names" default.calleeNames }

/-- What the text of a settings file says. -/
def parse? (text : String) : Option SettingsFile := do
  let document ← Document.ofString? text
  let entries ← fields? document ["version", "settings"] document.root
  let default : SettingsFile := {}
  return {
    version := ← field? entries "version" document.text? default.version
    settings := ← field? entries "settings" (settings? document) default.settings }

/-- Read a settings file, whose literals must be admissible. -/
def load {m : Type → Type} [Monad m] [Host m] (path : String) : Action m SettingsFile := do
  let file ← readAs path (.settingsUnreadable path) (.settingsMalformed path) parse?
  orStop Failure.taxonomy file.settings.validate
  return file

end SettingsFile

end MutationRules
