import MutationRules.Operand.Kind
import MutationRules.Text.Blank

/-!
# Settings

The literal texts that replacements are given. A literal is admissible if it can stand as an operand
in a rule name: it is not empty, is not the token of a category, and holds neither a blank nor a
character with a meaning in rule names and expressions.
-/

namespace MutationRules

/-- Characters that give expressions and rule names their structure. -/
def structuralChars : List Char := [',', '(', ')', '$', '!']

/-- Whether a literal can stand as an operand in a rule name. -/
def isAdmissible (literal : String) : Bool :=
  literal != "" && !(Kind.categories.map Kind.token).contains literal &&
    literal.toList.all fun c => !Text.isBlank c && !structuralChars.contains c

/-- The literals that replacements are given. -/
structure Settings where
  /-- Offsets added to a constant. -/
  scalarConstants : List String := ["-1", "1"]
  /-- Counters for shuffled arguments and case targets. -/
  shuffleCounters : List String := ["2"]
  /-- Counters for removed cases. -/
  caseRemovalCounters : List String := ["1"]
  /-- Functions that are called in place of each other. -/
  calleeNames : List String := ["dirname", "basename"]
  deriving DecidableEq, Repr, Inhabited

namespace Settings

/-- Every literal: offsets, shuffle counters, removal counters, callee names. -/
def literals (settings : Settings) : List String :=
  settings.scalarConstants ++ settings.shuffleCounters ++ settings.caseRemovalCounters ++
    settings.calleeNames

/-- The literals that cannot stand in a rule name, repeats kept. -/
def inadmissible (settings : Settings) : List String :=
  settings.literals.filter fun literal => !isAdmissible literal

/-- The default literals are admissible. -/
theorem inadmissible_default : ({} : Settings).inadmissible = [] := by decide

/-- The text of an example settings file, which spells out the defaults. -/
def sampleFile : String :=
  "# Example settings for mutation configuration generation
version: \"1.0\"

settings:
  # C --> C + k for each k
  scalar_constants: [\"-1\", \"1\"]

  # SHUFFLEARGS / SHUFFLECASESDESTS counters
  shuffle_counters: [\"2\"]

  # REMOVECASES counters
  case_remove_counters: [\"1\"]

  # NEWCALLEE replaces each name by every other one
  callee_names: [\"dirname\", \"basename\"]
"

end Settings

end MutationRules
