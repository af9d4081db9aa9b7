import MutationRules.Operator.Basic
import MutationRules.Operand.Basic

/-!
# Expressions

An operator applied to operands: what a rule matches, and what it puts in its place.
-/

namespace MutationRules

/-- An operator with its operands in order. -/
structure Expression where
  /-- The operator. -/
  operator : Operator
  /-- Its operands. -/
  operands : List Operand
  deriving DecidableEq, Repr

namespace Expression

/-- The token alone, or followed by the operands in parentheses. -/
def text (e : Expression) : String :=
  match e.operands with
  | [] => e.operator.token
  | operands =>
    e.operator.token ++ "(" ++ String.intercalate ", " (operands.map Operand.text) ++ ")"

end Expression

/-- A matched expression together with one that may take its place. -/
structure Binding where
  /-- The expression that is matched, each operand tagged with its slot. -/
  key : Expression
  /-- The expression put in its place. -/
  replacement : Expression
  deriving DecidableEq, Repr

namespace Binding

/-- The two expressions with an arrow between. -/
def text (b : Binding) : String := b.key.text ++ " --> " ++ b.replacement.text

end Binding

end MutationRules
