import MutationRules.RuleSet.Basic

/-!
# Configurations

The text of a rule set: one line per group, with the matched expression, an arrow, and the name and
the replacement of each rule.
-/

namespace MutationRules

namespace Configuration

/-- The comment line that announces a configuration. -/
def header : String := "## Automatically generated mutant conf for MART ##"

/-- A rule in a configuration line. -/
def entry (rule : Rule) : String := " " ++ rule.name ++ ", " ++ rule.replacement.text ++ ";"

/-- The line of a group. -/
def line (group : RuleGroup) : String :=
  group.key.text ++ " -->" ++ String.join (group.rules.map entry)

/-- The text of a rule set, announced by a comment and a blank line if wanted. -/
def render (withHeader : Bool) (set : RuleSet) : String :=
  (if withHeader then header ++ "\n\n" else "") ++
    String.join (set.groups.map fun group => line group ++ "\n")

end Configuration

end MutationRules
