import MutationRules.ClassPath
import MutationRules.Expression

/-!
# Defects of a taxonomy

Why a table of operators is refused, or why its rules cannot be enumerated.
-/

namespace MutationRules

/-- Why a replacement does not suit a matcher that has no operands. -/
inductive ExpansionFault
  /-- Statements are only replaced by operators without operands. -/
  | statementOperands
  /-- A new callee needs the matched and the replacing name, and its format has this many slots. -/
  | calleeSlots (slots : Nat)
  deriving DecidableEq, Repr

namespace ExpansionFault

/-- The reason in words. -/
def message : ExpansionFault → String
  | statementOperands => "statement matchers only take operand-less replacers"
  | calleeSlots slots =>
    "expected matched and replacement callee, format has " ++ slots.repr ++ " slots"

end ExpansionFault

/-- A defect of settings, of a table of operators, or of the rules it gives. -/
inductive TaxonomyError
  /-- An operator is placed under two class paths. -/
  | duplicateClassPath (op : Operator) (first second : ClassPath)
  /-- An operator has no class path. -/
  | missingClassPath (op : Operator)
  /-- An operator is given a format twice. -/
  | duplicateFormat (op : Operator)
  /-- An operator has no format. -/
  | unknownOperator (op : Operator)
  /-- An operator that only replaces is to be matched. -/
  | replaceOnlyMatcher (op : Operator)
  /-- An operator that is only matched is to replace another. -/
  | matchOnlyReplacer (matcher replacer : Operator)
  /-- A rule arises that the table does not allow. -/
  | forbiddenPair (matcher replacer : Operator)
  /-- A matcher without operands has no replacements of its own. -/
  | unhandledNullaryMatcher (op : Operator)
  /-- A matcher without operands meets a replacement that does not suit it. -/
  | invalidExpansion (matcher replacer : Operator) (fault : ExpansionFault)
  /-- A replacement has more operands than can be bound. -/
  | invalidReplacerArity (op : Operator) (arity : Nat)
  /-- Two rules have one name. -/
  | ruleNameCollision (name : String) (first second : Binding)
  /-- Some literals cannot stand in a rule name. -/
  | invalidLiteral (literals : List String)
  deriving DecidableEq, Repr

namespace TaxonomyError

/-- The defect in words. -/
def message : TaxonomyError → String
  | duplicateClassPath op first second =>
    s!"Operator '{op.token}' registered under two class paths: '{first.text}' and '{second.text}'"
  | missingClassPath op => s!"Operator '{op.token}' has no class path"
  | duplicateFormat op => s!"Operator '{op.token}' has more than one operand format"
  | unknownOperator op =>
    s!"Operator '{op.token}' is used in the rule table but has no operand format"
  | replaceOnlyMatcher op => s!"Replace-only operator '{op.token}' used as a matcher"
  | matchOnlyReplacer matcher replacer =>
    s!"Match-only operator '{replacer.token}' listed as replacer of '{matcher.token}'"
  | forbiddenPair matcher replacer =>
    s!"Operator '{replacer.token}' may not replace '{matcher.token}'"
  | unhandledNullaryMatcher op =>
    s!"No expansion defined for operand-less matcher '{op.token}'"
  | invalidExpansion matcher replacer fault =>
    s!"Matcher '{matcher.token}' cannot be replaced by '{replacer.token}': {fault.message}"
  | invalidReplacerArity op arity =>
    s!"Replacer '{op.token}' takes {arity} operands (at most 2 supported)"
  | ruleNameCollision name first second =>
    s!"Rule name '{name}' produced by both '{first.text}' and '{second.text}'"
  | invalidLiteral literals =>
    "Invalid literal(s) in settings: " ++ String.intercalate ", " literals

end TaxonomyError

end MutationRules
