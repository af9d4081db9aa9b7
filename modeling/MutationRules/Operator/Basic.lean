/-!
# Mutation operators

The closed vocabulary of operators, each with its mnemonic. Declaration order is the order of every
table and listing, so `Operator` is ordered by its place in `Operator.all`; a mnemonic names one
operator (`ofToken?_token`).
-/

namespace MutationRules

/-- An operator that a mutation matches in a program, puts in its place, or both. -/
inductive Operator
  -- Values that are only matched
  | arithExpr | arithVar | arithConst | pointerVar | addressExpr
  -- Statements and structures that are only matched
  | statement | returnBreakContinue | call | switch
  -- Only ever a replacement
  | deleteStatement | trapStatement | keepOperand | constantValue | newCallee | shuffleArguments
  | shuffleCaseTargets | removeCases | abs
  -- Arithmetic
  | add | sub | mul | div | mod | bitAnd | bitOr | bitXor | bitShl | bitShr | eq | ne | lt | gt
  | le | ge | assign | bitNot | neg | leftInc | leftDec | rightInc | rightDec
  -- Pointers
  | pointerAdd | pointerSub | pointerEq | pointerNe | pointerLt | pointerGt | pointerLe
  | pointerGe | pointerLeftInc | pointerLeftDec | pointerRightInc | pointerRightDec
  -- Logic
  | and | or
  -- Dereferenced pointers: `(*p) + k` against `*(p + k)`
  | derefAdd | derefSub | addDeref | subDeref | derefLeftInc | derefRightInc | derefLeftDec
  | derefRightDec | leftIncDeref | rightIncDeref | leftDecDeref | rightDecDeref
  deriving DecidableEq, Repr

namespace Operator

/-- Every operator, in declaration order. -/
def all : List Operator := [
  .arithExpr, .arithVar, .arithConst, .pointerVar, .addressExpr, .statement,
  .returnBreakContinue, .call, .switch, .deleteStatement, .trapStatement, .keepOperand,
  .constantValue, .newCallee, .shuffleArguments, .shuffleCaseTargets, .removeCases, .abs, .add,
  .sub, .mul, .div, .mod, .bitAnd, .bitOr, .bitXor, .bitShl, .bitShr, .eq, .ne, .lt, .gt, .le,
  .ge, .assign, .bitNot, .neg, .leftInc, .leftDec, .rightInc, .rightDec, .pointerAdd,
  .pointerSub, .pointerEq, .pointerNe, .pointerLt, .pointerGt, .pointerLe, .pointerGe,
  .pointerLeftInc, .pointerLeftDec, .pointerRightInc, .pointerRightDec, .and, .or, .derefAdd,
  .derefSub, .addDeref, .subDeref, .derefLeftInc, .derefRightInc, .derefLeftDec, .derefRightDec,
  .leftIncDeref, .rightIncDeref, .leftDecDeref, .rightDecDeref]

/-- The mnemonic that stands for the operator in every text. -/
def token : Operator → String
  | .arithExpr => "@"
  | .arithVar => "V"
  | .arithConst => "C"
  | .pointerVar => "P"
  | .addressExpr => "A"
  | .statement => "STMT"
  | .returnBreakContinue => "RETURN_BREAK_CONTINUE"
  | .call => "CALL"
  | .switch => "SWITCH"
  | .deleteStatement => "DELSTMT"
  | .trapStatement => "TRAPSTMT"
  | .keepOperand => "OPERAND"
  | .constantValue => "CONSTVAL"
  | .newCallee => "NEWCALLEE"
  | .shuffleArguments => "SHUFFLEARGS"
  | .shuffleCaseTargets => "SHUFFLECASESDESTS"
  | .removeCases => "REMOVECASES"
  | .abs => "ABS"
  | .add => "ADD"
  | .sub => "SUB"
  | .mul => "MUL"
  | .div => "DIV"
  | .mod => "MOD"
  | .bitAnd => "BITAND"
  | .bitOr => "BITOR"
  | .bitXor => "BITXOR"
  | .bitShl => "BITSHL"
  | .bitShr => "BITSHR"
  | .eq => "EQ"
  | .ne => "NEQ"
  | .lt => "LT"
  | .gt => "GT"
  | .le => "LE"
  | .ge => "GE"
  | .assign => "ASSIGN"
  | .bitNot => "BITNOT"
  | .neg => "NEG"
  | .leftInc => "LEFTINC"
  | .leftDec => "LEFTDEC"
  | .rightInc => "RIGHTINC"
  | .rightDec => "RIGHTDEC"
  | .pointerAdd => "PADD"
  | .pointerSub => "PSUB"
  | .pointerEq => "PEQ"
  | .pointerNe => "PNEQ"
  | .pointerLt => "PLT"
  | .pointerGt => "PGT"
  | .pointerLe => "PLE"
  | .pointerGe => "PGE"
  | .pointerLeftInc => "PLEFTINC"
  | .pointerLeftDec => "PLEFTDEC"
  | .pointerRightInc => "PRIGHTINC"
  | .pointerRightDec => "PRIGHTDEC"
  | .and => "AND"
  | .or => "OR"
  | .derefAdd => "PDEREF_ADD"
  | .derefSub => "PDEREF_SUB"
  | .addDeref => "PADD_DEREF"
  | .subDeref => "PSUB_DEREF"
  | .derefLeftInc => "PDEREF_LEFTINC"
  | .derefRightInc => "PDEREF_RIGHTINC"
  | .derefLeftDec => "PDEREF_LEFTDEC"
  | .derefRightDec => "PDEREF_RIGHTDEC"
  | .leftIncDeref => "PLEFTINC_DEREF"
  | .rightIncDeref => "PRIGHTINC_DEREF"
  | .leftDecDeref => "PLEFTDEC_DEREF"
  | .rightDecDeref => "PRIGHTDEC_DEREF"

/-- The operator's place in `all`. -/
def index (op : Operator) : Nat := op.ctorIdx

@[simp] theorem getElem?_all_index (op : Operator) : all[op.index]? = some op := by
  cases op <;> rfl

theorem index_injective {a b : Operator} (h : a.index = b.index) : a = b := by
  exact Option.some.inj ((getElem?_all_index a).symm.trans (h ▸ getElem?_all_index b))

@[simp] theorem mem_all (op : Operator) : op ∈ all := List.mem_of_getElem? (getElem?_all_index op)

theorem index_lt (op : Operator) : op.index < all.length :=
  (List.getElem?_eq_some_iff.1 (getElem?_all_index op)).1

/-- Operators are ordered by declaration. -/
instance : Ord Operator := ⟨compareOn index⟩

instance : Std.TransOrd Operator := inferInstanceAs (Std.TransCmp (compareOn index))

instance : Std.LawfulEqOrd Operator where
  compare_self := Std.ReflCmp.compare_self
  eq_of_compare {a b} h :=
    index_injective (Std.LawfulEqCmp.eq_of_compare (show compare a.index b.index = .eq from h))

theorem increasing_all : all.Pairwise (fun a b => compare a b = .lt) := by decide

/-- The operator with the given mnemonic. -/
def ofToken? (text : String) : Option Operator := all.find? (·.token == text)

@[simp] theorem ofToken?_token (op : Operator) : ofToken? op.token = some op := by
  cases op <;> rfl

theorem token_injective {a b : Operator} (h : a.token = b.token) : a = b :=
  Option.some.inj ((ofToken?_token a).symm.trans (h ▸ ofToken?_token b))

theorem ofToken?_eq_some_iff {text : String} {op : Operator} :
    ofToken? text = some op ↔ op.token = text := by
  constructor
  · intro h
    simpa using List.find?_some h
  · rintro rfl
    exact ofToken?_token op

end Operator

end MutationRules
