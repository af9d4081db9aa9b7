import MutationRules.Ordered.Map
import MutationRules.RuleName.Basic

/-!
# Rule sets

Rules are grouped by the text of the expression they match. Within a matcher the groups are in the
order of these texts, and within a group the rules keep the order in which they arose.
-/

namespace MutationRules

/-- One replacement for a matched expression. -/
structure Rule where
  /-- The name of the rule. -/
  name : String
  /-- The expression put in place of the matched one. -/
  replacement : Expression
  deriving DecidableEq, Repr

/-- The replacements for one matched expression. -/
structure RuleGroup where
  /-- The matched expression. -/
  key : Expression
  /-- Its replacements. -/
  rules : List Rule
  deriving DecidableEq, Repr

namespace Rule

/-- The rule of a binding. -/
def ofBinding (b : Binding) : Rule := ⟨RuleName.encode b, b.replacement⟩

end Rule

namespace RuleGroup

/-- Group bindings by the text of their keys, in the order of these texts. A group takes the first
key with its text. -/
def collect (bindings : List Binding) : List RuleGroup :=
  let keyed := bindings.map fun b => (b.key.text, b)
  (OrderedSet.ofList (keyed.map Prod.fst)).toList.filterMap fun text =>
    match keyed.filter fun entry => entry.1 = text with
    | [] => none
    | first :: others => some ⟨first.2.key, (first :: others).map fun entry => .ofBinding entry.2⟩

end RuleGroup

/-- The groups of all matchers, in declaration order of the matchers. -/
structure RuleSet where
  /-- The groups. -/
  groups : List RuleGroup
  deriving DecidableEq, Repr

namespace RuleSet

/-- Every rule with the expression it matches, group after group. -/
def rules (set : RuleSet) : List (Expression × Rule) :=
  set.groups.flatMap fun group => group.rules.map fun rule => (group.key, rule)

/-- The number of rules. -/
def ruleCount (set : RuleSet) : Nat :=
  (set.groups.map fun group => group.rules.length).foldr (· + ·) 0

/-- The groups of one matcher. -/
def groupsFor (set : RuleSet) (matcher : Operator) : List RuleGroup :=
  set.groups.filter fun group => group.key.operator = matcher

/-- The first rule with the given name, and the expression it matches. -/
def find? (set : RuleSet) (name : String) : Option (Expression × Rule) :=
  set.rules.find? fun entry => entry.2.name = name

/-- The number of rules of each matcher that has a group. -/
def countsByMatcher (set : RuleSet) : OrderedMap Operator Nat :=
  set.groups.foldl (fun counts group =>
    counts.adjust group.key.operator fun known? => known?.getD 0 + group.rules.length) ∅

@[simp] theorem length_rules (set : RuleSet) : set.rules.length = set.ruleCount := by
  rw [rules, List.length_flatMap, List.sum_eq_foldr, ruleCount]
  simp only [List.length_map]

end RuleSet

end MutationRules
