import MutationRules.Expression
import MutationRules.Text.Blank

/-!
# Rule names

The name of a rule is its matched expression, an exclamation mark and its replacement, where blanks
are left out and each comma and parenthesis becomes a dollar sign: `ADD(@1, @2)` replaced by
`SUB(@2, @1)` is named `ADD$@1$@2$!SUB$@2$@1$`.
-/

namespace MutationRules

namespace RuleName

/-- Divides the matched side of a name from the replacement. -/
def sideSeparator : Char := '!'

/-- Divides the operator and the operands of a side. -/
def operandSeparator : Char := '$'

/-- The characters of an expression that a name writes as operand separators. -/
def punctuation : List Char := [',', '(', ')']

/-- How an expression is written in a name. -/
def encodeSide (expression : List Char) : List Char :=
  (Text.unspaced expression).map fun c => if c ∈ punctuation then operandSeparator else c

@[simp] theorem encodeSide_append (a b : List Char) :
    encodeSide (a ++ b) = encodeSide a ++ encodeSide b := by
  simp [encodeSide]

/-- The name of the rule that replaces one expression by another. -/
def encode (b : Binding) : String :=
  .ofList (encodeSide b.key.text.toList ++ sideSeparator :: encodeSide b.replacement.text.toList)

/-- One side of a name: an operator and the texts of its operands. -/
structure Side where
  /-- The operator. -/
  operator : Operator
  /-- The texts of the operands in order. -/
  operands : List String
  deriving DecidableEq, Repr

end RuleName

/-- A rule name taken apart. -/
structure RuleName where
  /-- What the rule matches. -/
  matched : RuleName.Side
  /-- What the rule puts in its place. -/
  replacement : RuleName.Side
  deriving DecidableEq, Repr

namespace RuleName

/-- Whether two different matched operands reappear in the replacement in the other order. -/
def isSwapped (name : RuleName) : Bool :=
  match name.matched.operands, name.replacement.operands with
  | [m₁, m₂], [r₁, r₂] => m₁ != m₂ && r₁ == m₂ && r₂ == m₁
  | _, _ => false

end RuleName

end MutationRules
