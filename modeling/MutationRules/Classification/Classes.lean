import MutationRules.RuleName.Decode
import MutationRules.Taxonomy.Basic

/-!
# Classes of rule names

The class of a rule pairs the class paths of its two operators. A granularity says how much of the
paths is kept.
-/

namespace MutationRules

/-- How much detail a classification keeps. -/
inductive Granularity
  /-- Every ancestor of the matched class with every ancestor of the replacing one. -/
  | allAncestors
  /-- The paths without their last two segments. -/
  | category
  /-- The paths without their last segment. -/
  | family
  /-- The whole paths. -/
  | operator
  /-- The whole paths, and a mark where the operands are exchanged. -/
  | operatorSwap
  /-- The rule name itself. -/
  | exact
  deriving DecidableEq, Repr

namespace Granularity

/-- The number of the granularity. -/
def level : Granularity → Int
  | allAncestors => -1
  | category => 1
  | family => 2
  | operator => 3
  | operatorSwap => 4
  | exact => 5

/-- The granularity with a number. -/
def ofLevel (level : Int) : Except DecodeError Granularity :=
  match level with
  | -1 => .ok allAncestors
  | 1 => .ok category
  | 2 => .ok family
  | 3 => .ok operator
  | 4 => .ok operatorSwap
  | 5 => .ok exact
  | _ => .error (.invalidLevel level)

@[simp] theorem ofLevel_level (g : Granularity) : ofLevel g.level = .ok g := by
  cases g <;> rfl

end Granularity

namespace ClassPath

/-- The segment added to the replacing class where the operands are exchanged. -/
def swapMarker : String := "SWAPPED"

/-- A matched class and the class that replaces it. -/
def pairText (matched replacement : ClassPath) : String :=
  matched.text ++ RuleName.sideSeparator.toString ++ replacement.text

end ClassPath

namespace Taxonomy

/-- The classes of a decoded name at a granularity; `name` is its spelling. -/
def classesOf (t : Taxonomy) (name : String) (decoded : RuleName) : Granularity → List String :=
  let matched := t.classPath decoded.matched.operator
  let replacement := t.classPath decoded.replacement.operator
  fun
  | .exact => [name]
  | .operatorSwap =>
    [matched.pairText <|
      if decoded.isSwapped then replacement.child ClassPath.swapMarker else replacement]
  | .operator => [matched.pairText replacement]
  | .family => [(matched.truncated 1).pairText (replacement.truncated 1)]
  | .category => [(matched.truncated 2).pairText (replacement.truncated 2)]
  | .allAncestors => matched.ancestors.flatMap fun m => replacement.ancestors.map m.pairText

/-- The classes of a rule name: one, or for all ancestors one per pair of them, finest first. -/
def classify (t : Taxonomy) (name : String) (g : Granularity) :
    Except DecodeError (List String) := do
  let decoded ← RuleName.decode name
  return t.classesOf name decoded g

/-- The first class of a rule name. -/
def classOf (t : Taxonomy) (name : String) (g : Granularity) : Except DecodeError String := do
  match ← t.classify name g with
  | [] => .error (.invalidLevel g.level)
  | first :: _ => return first

/-- The label of a column that counts mutants of the name's class. -/
def mutantTypeFeature (t : Taxonomy) (name : String) (g : Granularity) :
    Except DecodeError String := do
  let label ← t.classOf name g
  return label ++ "--mutantType" ++ toString g.level

end Taxonomy

namespace RuleName

/-- Whether a text is the mnemonic of statement deletion, or names a rule that deletes. A mnemonic
that stands alone is not read as a rule name. -/
def isStatementDeletion (text : String) : Except DecodeError Bool :=
  match Operator.ofToken? (.ofList (Text.unspaced text.toList)) with
  | some op => .ok (op = .deleteStatement)
  | none => do return (← decode text).replacement.operator = .deleteStatement

end RuleName

end MutationRules
