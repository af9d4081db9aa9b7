import MutationRules.Classification.Classes

/-!
# Selective mutation

A selective set keeps only the mutations of a few kinds, told apart by class. One set is defined;
two more are known by name.
-/

namespace MutationRules

/-- A named set of mutations. -/
inductive SelectiveSet
  /-- Absolute values, arithmetic, connectives, comparisons and unary insertion. -/
  | offutt
  /-- Known by name only. -/
  | re
  /-- Known by name only. -/
  | rs
  deriving DecidableEq, Repr

/-- Why membership in a selective set has no answer. -/
inductive SelectiveError
  /-- No set of that name is defined. -/
  | unsupported (kind : String)
  /-- The rule name cannot be read. -/
  | undecodable (reason : DecodeError)
  deriving DecidableEq, Repr

namespace SelectiveError

/-- The reason in words. -/
def message : SelectiveError → String
  | unsupported kind => s!"Selective mutation kind '{kind}' is not supported"
  | undecodable reason => reason.message

end SelectiveError

namespace SelectiveSet

/-- The name of a set. -/
def name : SelectiveSet → String
  | offutt => "OFFUTT"
  | re => "RE"
  | rs => "RS"

/-- The set with a name, where the letters A to Z may be small. -/
def ofName (text : String) : Except SelectiveError SelectiveSet :=
  match [offutt, re, rs].find? fun set => set.name.toList = text.toList.map Char.toUpper with
  | some set => .ok set
  | none => .error (.unsupported text)

/-- A condition on a class path. -/
inductive Condition
  /-- Every path. -/
  | any
  /-- The last segment. -/
  | leaf (segment : String)
  /-- The segment above the last is one of these. -/
  | family (segments : List String)
  /-- The third segment. -/
  | shape (segment : String)
  deriving DecidableEq, Repr

/-- Whether a path meets a condition; a segment that is missing meets none. -/
def Condition.holds : Condition → ClassPath → Bool
  | .any, _ => true
  | .leaf segment, path => path.leaf == segment
  | .family segments, path =>
    2 ≤ path.depth && (path.segment? (path.depth - 2)).any segments.contains
  | .shape segment, path => path.segment? 2 == some segment

/-- A labelled kind of mutation: a condition on either class. -/
structure Pattern where
  /-- The label. -/
  label : String
  /-- The condition on the matched class. -/
  matched : Condition
  /-- The condition on the replacing class. -/
  replacement : Condition
  deriving DecidableEq, Repr

/-- The kinds of mutation of a set in order of precedence, if the set is defined. -/
def patterns? : SelectiveSet → Option (List Pattern)
  | offutt => some [
    ⟨"ABS", .any, .leaf "ABS"⟩,
    ⟨"AOR", .family ["AO", "BIT"], .family ["AO", "BIT"]⟩,
    ⟨"LCR", .family ["LO"], .family ["LO"]⟩,
    ⟨"ROR", .family ["RO"], .family ["RO"]⟩,
    ⟨"UOI", .shape "VALUE", .shape "UNARY"⟩]
  | re | rs => none

end SelectiveSet

namespace Taxonomy

/-- The label that a selective set gives to a rule, if the rule is a member. -/
def selectiveLabel (t : Taxonomy) (name : String) (set : SelectiveSet) :
    Except SelectiveError (Option String) :=
  match set.patterns? with
  | none => .error (.unsupported set.name)
  | some patterns =>
    match RuleName.decode name with
    | .error reason => .error (.undecodable reason)
    | .ok decoded =>
      let matched := t.classPath decoded.matched.operator
      let replacement := t.classPath decoded.replacement.operator
      let found := patterns.find? fun p =>
        p.matched.holds matched && p.replacement.holds replacement
      .ok (found.map SelectiveSet.Pattern.label)

end Taxonomy

end MutationRules
