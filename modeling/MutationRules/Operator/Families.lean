import MutationRules.Operator.Basic
import MutationRules.Operand.Kind

/-!
# Families of operators

The families in which operators are declared, and the kind that a value operator stands for.
-/

namespace MutationRules.Operator

/-- Arithmetic values. -/
def arithmeticValues : List Operator := [.arithExpr, .arithVar, .arithConst]

/-- Pointer values. -/
def pointerValues : List Operator := [.pointerVar, .addressExpr]

/-- Statements. -/
def statements : List Operator := [.statement, .returnBreakContinue]

/-- Binary arithmetic. -/
def arithmetic : List Operator := [.add, .sub, .mul, .div, .mod]

/-- Bitwise arithmetic and shifts. -/
def bitwise : List Operator := [.bitAnd, .bitOr, .bitXor, .bitShl, .bitShr]

/-- Comparisons of numbers. -/
def comparisons : List Operator := [.eq, .ne, .lt, .gt, .le, .ge]

/-- Arithmetic on one number. -/
def unary : List Operator := [.bitNot, .neg]

/-- Increments and decrements of a variable. -/
def steps : List Operator := [.leftInc, .leftDec, .rightInc, .rightDec]

/-- Arithmetic on a pointer and a number. -/
def pointerArithmetic : List Operator := [.pointerAdd, .pointerSub]

/-- Comparisons of pointers. -/
def pointerComparisons : List Operator :=
  [.pointerEq, .pointerNe, .pointerLt, .pointerGt, .pointerLe, .pointerGe]

/-- Increments and decrements of a pointer. -/
def pointerSteps : List Operator :=
  [.pointerLeftInc, .pointerLeftDec, .pointerRightInc, .pointerRightDec]

/-- Logical connectives. -/
def connectives : List Operator := [.and, .or]

/-- Arithmetic on the value a pointer refers to. -/
def derefArithmetic : List Operator := [.derefAdd, .derefSub]

/-- The value referred to after arithmetic on the pointer. -/
def arithmeticDeref : List Operator := [.addDeref, .subDeref]

/-- Increments and decrements of the value a pointer refers to. -/
def derefSteps : List Operator := [.derefLeftInc, .derefRightInc, .derefLeftDec, .derefRightDec]

/-- The value referred to by an incremented or decremented pointer. -/
def stepsDeref : List Operator := [.leftIncDeref, .rightIncDeref, .leftDecDeref, .rightDecDeref]

/-- Families of operators that are matched and never put in place of another. -/
def matchOnlyFamilies : List (List Operator) :=
  [arithmeticValues, pointerValues, statements, [.call, .switch]]

/-- Operators that are put in place of others and never matched. -/
def replaceOnly : List Operator := [
  .abs, .deleteStatement, .trapStatement, .keepOperand, .constantValue, .newCallee,
  .shuffleArguments, .shuffleCaseTargets, .removeCases]

/-- The kind of operand that a value operator matches. -/
def valueKind? : Operator → Option Kind
  | .arithExpr => some .arithExpr
  | .arithVar => some .arithVar
  | .arithConst => some .arithConst
  | .pointerVar => some .pointerVar
  | .addressExpr => some .addressExpr
  | _ => none

end MutationRules.Operator
