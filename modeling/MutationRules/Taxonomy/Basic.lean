import MutationRules.Operator.Families
import MutationRules.Ordered.Map
import MutationRules.Settings.Basic
import MutationRules.Taxonomy.Error

/-!
# Taxonomies

A taxonomy describes every operator once, says which operators may replace which, and holds the
literals of the settings as sets. It has exactly one entry per operator, so look-up never fails.
-/

namespace MutationRules

/-- The sides of a rule on which an operator may stand. -/
inductive Role
  | matchOnly | replaceOnly | both
  deriving DecidableEq, Repr

/-- The literals of the settings, as sets of kinds. -/
structure Constants where
  /-- Offsets added to a constant. -/
  scalarConstants : KindSet
  /-- Counters for shuffled arguments and case targets. -/
  shuffleCounters : KindSet
  /-- Counters for removed cases. -/
  caseRemovalCounters : KindSet
  /-- Functions that are called in place of each other. -/
  calleeNames : KindSet
  deriving DecidableEq

namespace Constants

/-- The literal zero. -/
def zero : Kind := .literal "0"

/-- The truth values. -/
def booleans : KindSet := .literals ["0", "1"]

/-- The literals of the settings, without repeats. -/
def ofSettings (settings : Settings) : Constants where
  scalarConstants := .literals settings.scalarConstants
  shuffleCounters := .literals settings.shuffleCounters
  caseRemovalCounters := .literals settings.caseRemovalCounters
  calleeNames := .literals settings.calleeNames

end Constants

namespace Settings

/-- Refuse settings with inadmissible literals, all of which are named. -/
def validate (settings : Settings) : Except TaxonomyError Unit :=
  match settings.inadmissible with
  | [] => .ok ()
  | literals => .error (.invalidLiteral literals)

theorem validate_eq_ok_iff {settings : Settings} :
    settings.validate = .ok () ↔ settings.inadmissible = [] := by
  unfold validate
  split <;> simp_all

/-- The default settings are accepted. -/
theorem validate_default : ({} : Settings).validate = .ok () :=
  validate_eq_ok_iff.2 inadmissible_default

end Settings

/-- What a taxonomy says about one operator. -/
structure OperatorEntry where
  /-- The operator. -/
  operator : Operator
  /-- The kinds that each operand slot admits. -/
  format : Format
  /-- Where in a rule it may stand. -/
  role : Role
  /-- Its class, down to its own mnemonic. -/
  classPath : ClassPath
  deriving DecidableEq

/-- A table of the operators that may replace each matcher. -/
abbrev ReplacementTable := OrderedMap Operator (OrderedSet Operator)

namespace ReplacementTable

/-- The operators that may replace a matcher, in declaration order. -/
def replacers (table : ReplacementTable) (matcher : Operator) : OrderedSet Operator :=
  (table.get? matcher).getD ∅

/-- Whether one operator may replace another. -/
def allows (table : ReplacementTable) (matcher replacer : Operator) : Bool :=
  replacer ∈ table.replacers matcher

/-- The number of pairs in the table. -/
def pairCount (table : ReplacementTable) : Nat :=
  (table.values.map OrderedSet.size).foldr (· + ·) 0

end ReplacementTable

/-- A complete description of the operators. -/
structure Taxonomy where
  /-- One entry per operator. -/
  entries : List OperatorEntry
  /-- The entries are in declaration order and none is missing. -/
  complete : entries.map OperatorEntry.operator = Operator.all
  /-- Who may replace whom. -/
  replacements : ReplacementTable
  /-- Operators whose two operands may be exchanged. -/
  commutative : OrderedSet Operator
  /-- Literals that replacements are given. -/
  constants : Constants
  deriving DecidableEq

namespace Taxonomy

theorem length_entries (t : Taxonomy) : t.entries.length = Operator.all.length := by
  rw [← t.complete, List.length_map]

/-- The entry of an operator. -/
def entry (t : Taxonomy) (op : Operator) : OperatorEntry :=
  t.entries.get ⟨op.index, t.length_entries ▸ op.index_lt⟩

@[simp] theorem operator_entry (t : Taxonomy) (op : Operator) : (t.entry op).operator = op := by
  have h : (t.entries.map OperatorEntry.operator)[op.index]? = some op :=
    t.complete ▸ op.getElem?_all_index
  rw [List.getElem?_map, List.getElem?_eq_getElem (t.length_entries ▸ op.index_lt)] at h
  exact Option.some.inj h

/-- The kinds that each slot of an operator admits. -/
def format (t : Taxonomy) (op : Operator) : Format := (t.entry op).format

/-- The class path of an operator. -/
def classPath (t : Taxonomy) (op : Operator) : ClassPath := (t.entry op).classPath

/-- Where in a rule an operator may stand. -/
def role (t : Taxonomy) (op : Operator) : Role := (t.entry op).role

/-- Whether the two operands of an operator may be exchanged. -/
def isCommutative (t : Taxonomy) (op : Operator) : Bool := op ∈ t.commutative

/-- The operators that the table has an entry for, in declaration order. -/
def matchers (t : Taxonomy) : List Operator := t.replacements.keys

/-- The operators that may replace a matcher, in declaration order. -/
def replacers (t : Taxonomy) (matcher : Operator) : List Operator :=
  (t.replacements.replacers matcher).toList

/-- Whether one operator may replace another. -/
def allows (t : Taxonomy) (matcher replacer : Operator) : Bool :=
  t.replacements.allows matcher replacer

theorem allows_iff {t : Taxonomy} {matcher replacer : Operator} :
    t.allows matcher replacer = true ↔ replacer ∈ t.replacers matcher := by
  simp [allows, replacers, ReplacementTable.allows]

end Taxonomy

end MutationRules
