import MutationRules.Classification.Selective
import MutationRules.Taxonomy.Error

/-!
# Failures

Why a command stops.
-/

namespace MutationRules

/-- Why a command stops. -/
inductive Failure
  /-- The settings file cannot be read as text. -/
  | settingsUnreadable (path : String)
  /-- The text of the settings file is not of the expected form. -/
  | settingsMalformed (path : String)
  /-- A descriptor or a file of duplicates cannot be read as text. -/
  | fileUnreadable (path : String)
  /-- The text of a descriptor or of a file of duplicates is not of the expected form. -/
  | descriptorMalformed (path : String)
  /-- The configuration cannot be put in its place. -/
  | fileUnwritable (path : String)
  /-- The settings, the taxonomy or its rules are defective. -/
  | taxonomy (defect : TaxonomyError)
  /-- A rule name or a level has no meaning. -/
  | classification (reason : DecodeError)
  /-- A question about a selective set has no answer. -/
  | selection (reason : SelectiveError)
  /-- A mutant is to be given several classes. -/
  | severalClasses
  /-- The rule of a mutant in a descriptor cannot be read. -/
  | mutant (path : String) (reason : DecodeError)
  deriving DecidableEq, Repr

namespace Failure

/-- The failure in words. -/
def message : Failure → String
  | settingsUnreadable path =>
    s!"Configuration error: Failed to read config file '{path}': not a readable text"
  | settingsMalformed path =>
    s!"Configuration error: Failed to parse config file '{path}': not a settings document"
  | fileUnreadable path => s!"Failed to read file '{path}': not a readable text"
  | descriptorMalformed path => s!"Failed to parse descriptor '{path}': not of the expected form"
  | fileUnwritable path => s!"Failed to write '{path}': the file cannot be replaced"
  | taxonomy defect => defect.message
  | classification reason => reason.message
  | selection reason => reason.message
  | severalClasses => "level -1 yields several classes per mutant; use 1..=5"
  | mutant path reason => s!"classifying mutants of {path}: {reason.message}"

end Failure

end MutationRules
