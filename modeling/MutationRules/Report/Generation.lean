import MutationRules.Report.Duration
import MutationRules.RuleSet.Basic
import MutationRules.Text.Style

/-!
# Report of a generation

How many rules were synthesized for how many expressions and operators, and how long it took.
-/

namespace MutationRules

/-- The figures of a generation. -/
structure GenerationReport where
  /-- The number of rules of each matcher that has a group. -/
  perMatcher : OrderedMap Operator Nat
  /-- The number of matched expressions. -/
  keys : Nat
  /-- The time taken. -/
  duration : Duration
  deriving DecidableEq

namespace GenerationReport

open Text

/-- The figures of a rule set. -/
def ofRuleSet (set : RuleSet) (duration : Duration) : GenerationReport where
  perMatcher := set.countsByMatcher
  keys := set.groups.length
  duration := duration

/-- The number of rules. -/
def total (r : GenerationReport) : Nat := r.perMatcher.values.foldr (· + ·) 0

/-- The number of operators with a rule. -/
def matchers (r : GenerationReport) : Nat := r.perMatcher.values.countP (0 < ·)

/-- The operators with the most rules, ties in declaration order. -/
def busiest (r : GenerationReport) (count : Nat) : List (Operator × Nat) :=
  (r.perMatcher.entries.mergeSort fun a b => b.2 ≤ a.2).take count

/-- The number of operators that the report names. -/
def busiestShown : Nat := 5

/-- The report in words; a verbose one lists every operator. -/
def lines (r : GenerationReport) (verbose color : Bool) : List String :=
  let listing := r.perMatcher.entries.map fun (op, count) =>
    "  " ++ padRight 16 op.token ++ " " ++ count.repr
  let busiest := (r.busiest busiestShown).map fun (op, count) =>
    "  • " ++ paint color [.yellow] op.token ++ " " ++
      paint color [.dim] ("(" ++ count.repr ++ ")")
  ["",
    paint color [.bold] "Mutant Configuration Report",
    "".pushn '=' 60] ++
  (if verbose then "" :: listing else []) ++
  ["",
    paint color [.bold] "Summary",
    "".pushn '-' 40,
    "Matchers:          " ++ r.matchers.repr,
    "Rule keys:         " ++ r.keys.repr,
    "Rules:             " ++ paint color [.bold, .green] r.total.repr,
    "Duration:          " ++ r.duration.text] ++
  (if busiest.isEmpty then [] else "" :: paint color [.dim] "Most mutated operators" :: busiest)

end GenerationReport

end MutationRules
