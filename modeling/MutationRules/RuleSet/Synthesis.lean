import Std.Data.HashMap
import MutationRules.Operand.Preference
import MutationRules.RuleSet.Basic
import MutationRules.Taxonomy.Basic

/-!
# Synthesis of rules

All rules of a taxonomy. A matcher with operands is bound to each of its replacements in every way
that the formats admit; a matcher without operands has replacements of its own kind. The names of
the rules must differ.
-/

namespace MutationRules

/-- The operands of a matcher, one per slot: of the given kind where one is fixed, of the preferred
kind elsewhere. A slot that admits no kind cannot be bound. -/
def Format.bind (format : Format) (fixed : List (Nat × Kind)) : Option (List Operand) :=
  format.zipIdx.mapM fun (candidates, position) =>
    ((fixed.lookup position).or (candidates.resolve none)).map (.atSlot · position)

/-- The pairs of positions below `count` to which two operands can be bound: by the later position,
then the earlier one, each in order and, unless the operands commute, also exchanged. -/
def slotPairs (commutes : Bool) (count : Nat) : List (Nat × Nat) :=
  (List.range count).flatMap fun later =>
    (List.range later).flatMap fun earlier =>
      (earlier, later) :: if commutes then [] else [(later, earlier)]

namespace Taxonomy

/-- The kind bound at a position of a format that a replacement requires to be of certain kinds. -/
def resolveAt (format : Format) (required : KindSet) (position : Nat) : Option Kind :=
  format[position]?.bind fun candidates => candidates.resolve (some required)

/-- The bindings of a matcher with operands to one of its replacements: as it stands to one without
operands, slot by slot to one with one operand, and to one with two by pairs of slots. -/
def slotBindings (t : Taxonomy) (matcher replacer : Operator) :
    Except TaxonomyError (List Binding) :=
  let format := t.format matcher
  match t.format replacer with
  | [] => .ok <| (format.bind []).toList.map fun key => ⟨⟨matcher, key⟩, ⟨replacer, []⟩⟩
  | [required] => .ok <| (List.range format.length).filterMap fun position => do
    let kind ← resolveAt format required position
    let key ← format.bind [(position, kind)]
    return ⟨⟨matcher, key⟩, ⟨replacer, [.atSlot kind position]⟩⟩
  | [left, right] => .ok <|
    (slotPairs (t.isCommutative replacer) format.length).filterMap fun (l, r) => do
      let leftKind ← resolveAt format left l
      let rightKind ← resolveAt format right r
      let key ← format.bind [(l, leftKind), (r, rightKind)]
      return ⟨⟨matcher, key⟩, ⟨replacer, [.atSlot leftKind l, .atSlot rightKind r]⟩⟩
  | tooMany => .error (.invalidReplacerArity replacer tooMany.length)

/-- The binding of a matcher without operands to a replacement with bare operands. -/
def bareBinding (matcher replacer : Operator) (operands : List Kind) : Binding :=
  ⟨⟨matcher, []⟩, ⟨replacer, operands.map .bare⟩⟩

/-- One binding for each counter. -/
def counterBindings (matcher replacer : Operator) (counters : KindSet) : List Binding :=
  counters.toList.map fun counter => bareBinding matcher replacer [counter]

/-- One binding for each ordered pair of different callees, where the replacement names both. -/
def calleeBindings (t : Taxonomy) : Except TaxonomyError (List Binding) :=
  let callees := t.constants.calleeNames.toList
  match t.format .newCallee with
  | [_, _] => .ok <| callees.flatMap fun matched =>
      (callees.filter (· != matched)).map fun replacing =>
        bareBinding .call .newCallee [matched, replacing]
  | slots => .error (.invalidExpansion .call .newCallee (.calleeSlots slots.length))

/-- The bindings of a statement to an operator without operands. -/
def statementBindings (t : Taxonomy) (matcher replacer : Operator) :
    Except TaxonomyError (List Binding) :=
  match t.format replacer with
  | [] => .ok [bareBinding matcher replacer []]
  | _ => .error (.invalidExpansion matcher replacer .statementOperands)

/-- The increments and decrements among the allowed replacements of a variable. -/
def stepBindings (t : Taxonomy) (matcher : Operator) (kind : Kind) (steps : List Operator) :
    List Binding :=
  ((t.replacers matcher).filter (steps.contains ·)).map fun replacer =>
    bareBinding matcher replacer [kind]

/-- The bindings of a matcher without operands, which depend on what it is: an expression is made
absolute, a constant shifted or zeroed, a variable stepped, an address zeroed, a statement removed,
a call given other arguments or another callee, and a switch other cases. -/
def nullaryBindings (t : Taxonomy) (matcher : Operator) : Except TaxonomyError (List Binding) :=
  let replacers := t.replacers matcher
  let constants := t.constants
  match matcher with
  | .arithExpr => .ok <|
    if t.allows .arithExpr .abs then [bareBinding .arithExpr .abs [.arithExpr]] else []
  | .arithConst => .ok <|
    constants.scalarConstants.toList.map (fun k => bareBinding .arithConst .add [.arithConst, k]) ++
      [bareBinding .arithConst .constantValue [Constants.zero]]
  | .arithVar => .ok <| t.stepBindings .arithVar .arithVar Operator.steps
  | .pointerVar => .ok <| t.stepBindings .pointerVar .pointerVar Operator.pointerSteps
  | .addressExpr => .ok <|
    if t.allows .addressExpr .constantValue then
      [bareBinding .addressExpr .constantValue [Constants.zero]]
    else []
  | .statement | .returnBreakContinue => do
    return (← replacers.mapM (t.statementBindings matcher)).flatten
  | .call => do
    return (← replacers.mapM fun
      | .shuffleArguments =>
        .ok (counterBindings .call .shuffleArguments constants.shuffleCounters)
      | .newCallee => t.calleeBindings
      | _ => .ok []).flatten
  | .switch => .ok <| replacers.flatMap fun
      | .shuffleCaseTargets =>
        counterBindings .switch .shuffleCaseTargets constants.shuffleCounters
      | .removeCases => counterBindings .switch .removeCases constants.caseRemovalCounters
      | _ => []
  | op => .error (.unhandledNullaryMatcher op)

/-- The operators whose bindings `nullaryBindings` knows. -/
def nullaryMatchers : List Operator := [
  .arithExpr, .arithConst, .arithVar, .addressExpr, .pointerVar, .statement, .returnBreakContinue,
  .call, .switch]

/-- The bindings of a matcher in the order in which they arise. -/
def bindings (t : Taxonomy) (matcher : Operator) : Except TaxonomyError (List Binding) :=
  match t.format matcher with
  | [] => t.nullaryBindings matcher
  | _ => do return (← (t.replacers matcher).mapM (t.slotBindings matcher)).flatten

/-- The first binding whose pair of operators the table does not allow. -/
def forbidden? (t : Taxonomy) (bindings : List Binding) : Option Binding :=
  bindings.find? fun b => !t.allows b.key.operator b.replacement.operator

/-- The groups of rules for one matcher. -/
def synthesizeMatcher (t : Taxonomy) (matcher : Operator) :
    Except TaxonomyError (List RuleGroup) := do
  let bindings ← t.bindings matcher
  match t.forbidden? bindings with
  | some b => .error (.forbiddenPair b.key.operator b.replacement.operator)
  | none => return RuleGroup.collect bindings

end Taxonomy

namespace RuleSet

/-- The first rule whose name an earlier one has, with the last such earlier rule; `seen` holds the
rules before. -/
def collisionAmong? (seen : Std.HashMap String Binding) :
    List (Expression × Rule) → Option TaxonomyError
  | [] => none
  | (key, rule) :: rest =>
    let binding : Binding := ⟨key, rule.replacement⟩
    match seen[rule.name]? with
    | some first => some (.ruleNameCollision rule.name first binding)
    | none => collisionAmong? (seen.insert rule.name binding) rest

/-- The first rule whose name an earlier one has. -/
def collision? (set : RuleSet) : Option TaxonomyError := collisionAmong? ∅ set.rules

end RuleSet

namespace Taxonomy

/-- The rule set of a taxonomy. -/
def synthesize (t : Taxonomy) : Except TaxonomyError RuleSet := do
  let groups ← t.matchers.mapM t.synthesizeMatcher
  let set : RuleSet := ⟨groups.flatten⟩
  match set.collision? with
  | some defect => .error defect
  | none => return set

end Taxonomy

end MutationRules
