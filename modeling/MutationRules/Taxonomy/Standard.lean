import MutationRules.Taxonomy.Draft

/-!
# The standard taxonomy

The declarations of the operators of imperative programs with pointers. Settings contribute literals
to the formats of constant, callee and counter replacements, and to nothing else.
-/

namespace MutationRules.Standard

open Operator

/-- The operand formats. -/
def formats (constants : Constants) : List Declaration :=
  let binary : Format := [.arithmetic, .arithmetic]
  let offset : Format := [.pointer, .arithmetic]
  let scalar : KindSet := .single .arithVar
  let address : KindSet := .single .pointerVar
  [arithmetic, bitwise, comparisons, connectives].map (.format · binary) ++
  [.format [.assign] [scalar, .arithmetic]] ++
  [pointerArithmetic, pointerComparisons, derefArithmetic, arithmeticDeref].map
    (.format · offset) ++
  [.format unary [.arithmetic],
    .format [.abs] [.arithmetic],
    .format steps [scalar],
    .format pointerSteps [address],
    .format derefSteps [address],
    .format stepsDeref [address]] ++
  matchOnlyFamilies.map (.format · []) ++
  [.format [.deleteStatement, .trapStatement] [],
    .format [.keepOperand] [KindSet.arithmetic.union KindSet.pointer],
    .format [.constantValue]
      [(constants.scalarConstants.union (KindSet.single Constants.zero)).union Constants.booleans],
    -- the matched callee, then the one that replaces it
    .format [.newCallee] [constants.calleeNames, constants.calleeNames],
    .format [.shuffleArguments, .shuffleCaseTargets] [constants.shuffleCounters],
    .format [.removeCases] [constants.caseRemovalCounters]]

/-- The places in a rule where operators may stand. -/
def roles : List Declaration :=
  matchOnlyFamilies.map (.role · .matchOnly) ++ [.role replaceOnly .replaceOnly]

/-- The class paths. -/
def classes : List Declaration :=
  let expression := "EXPRESSION-MUTATION"
  let statement := "STATEMENT-MUTATION"
  [.family arithmeticValues [expression, "SCALAR", "VALUE", "VAL"],
    .family pointerValues [expression, "POINTER", "VALUE", "VAL"],
    .family arithmetic [expression, "SCALAR", "BINARY", "AO"],
    .family bitwise [expression, "SCALAR", "BINARY", "BIT"],
    .family comparisons [expression, "SCALAR", "BINARY", "RO"],
    .family connectives [expression, "SCALAR", "BINARY", "LO"],
    .family [.assign] [expression, "SCALAR", "BINARY", "ASSIGN"],
    .family unary [expression, "SCALAR", "UNARY", "UO"],
    .family [.abs] [expression, "SCALAR", "UNARY", "UO"],
    .family steps [expression, "SCALAR", "UNARY", "INCDEC"],
    .family pointerArithmetic [expression, "POINTER", "BINARY", "AO"],
    .family pointerComparisons [expression, "POINTER", "BINARY", "RO"],
    .family pointerSteps [expression, "POINTER", "UNARY", "INCDEC"],
    .family derefArithmetic [expression, "DEREF", "BINARY", "DEREF-AO"],
    .family arithmeticDeref [expression, "DEREF", "BINARY", "AO-DEREF"],
    .family derefSteps [expression, "DEREF", "UNARY", "DEREF-INCDEC"],
    .family stepsDeref [expression, "DEREF", "UNARY", "INCDEC-DEREF"],
    .family [.keepOperand] [expression, "ANY", "UNARY", "OPERAND"],
    .family [.constantValue] [expression, "ANY", "CONSTANT", "CONSTVAL"],
    .family statements [statement, "STATEMENT", "SITE"],
    .family [.deleteStatement] [statement, "STATEMENT", "DELETION"],
    .family [.trapStatement] [statement, "STATEMENT", "TRAP"],
    .family [.call] [statement, "CALL", "SITE"],
    .family [.newCallee] [statement, "CALL", "CALLEE"],
    .family [.shuffleArguments] [statement, "CALL", "ARGS"],
    .family [.switch] [statement, "SWITCH", "SITE"],
    .family [.shuffleCaseTargets, .removeCases] [statement, "SWITCH", "CASES"]]

/-- The operators whose operands may be exchanged. -/
def commutative : List Declaration :=
  [.commutative [.add, .mul, .bitAnd, .bitOr, .bitXor],
    .commutative [.eq, .ne, .pointerEq, .pointerNe],
    .commutative connectives,
    .commutative pointerArithmetic] ++
  [derefArithmetic, arithmeticDeref, derefSteps, stepsDeref].map .commutative

/-- Who may replace whom. -/
def replacements : List Declaration :=
  let removals : List Operator := [.deleteStatement, .trapStatement]
  let onNumbers := arithmetic ++ bitwise ++ comparisons ++ [.assign] ++ unary ++ steps
  let forNumbers := onNumbers ++ removals ++ [.keepOperand, .constantValue, .abs]
  let onPointers := pointerArithmetic ++ pointerSteps
  let forPointers := removals ++ [.keepOperand]
  [.replace onNumbers forNumbers [],
    .replace onPointers (onPointers ++ forPointers) [],
    .replace pointerComparisons (pointerComparisons ++ forPointers) [],
    .replace connectives (connectives ++ removals ++ [.keepOperand, .constantValue]) [],
    .replace [.arithExpr] forNumbers (.keepOperand :: steps),
    .replace [.arithVar] forNumbers [.keepOperand],
    .replace [.arithConst] forNumbers (.keepOperand :: steps),
    .replace [.addressExpr] (onPointers ++ removals ++ [.constantValue]) pointerSteps,
    .replace [.pointerVar] (onPointers ++ removals) [],
    .replace statements removals [],
    .replace [.call] (removals ++ [.newCallee, .shuffleArguments]) [],
    .replace [.switch] (removals ++ [.shuffleCaseTargets, .removeCases]) [],
    .replace (arithmeticDeref ++ stepsDeref) (derefArithmetic ++ derefSteps ++ removals) [],
    .replace (derefArithmetic ++ derefSteps) (arithmeticDeref ++ stepsDeref ++ removals) []]

/-- The declarations of the standard taxonomy. -/
def declarations (constants : Constants) : List Declaration :=
  formats constants ++ roles ++ classes ++ commutative ++ replacements

end MutationRules.Standard

namespace MutationRules.Taxonomy

/-- The standard taxonomy with the literals of the given settings. -/
def standard (settings : Settings) : Except TaxonomyError Taxonomy :=
  ofDeclarations settings (Standard.declarations (.ofSettings settings))

end MutationRules.Taxonomy
