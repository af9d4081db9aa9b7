import MutationRules.Taxonomy.Basic
import MutationRules.Text.Style

/-!
# List of the operators

Every operator of a taxonomy with its role, its arity and its class.
-/

namespace MutationRules

namespace Role

/-- The word for a role. -/
def word : Role → String
  | matchOnly => "match"
  | replaceOnly => "replace"
  | both => "both"

/-- The styles of the word in a list. -/
def styles : Role → List Text.Style
  | matchOnly => [.cyan]
  | replaceOnly => [.magenta]
  | both => []

end Role

namespace Taxonomy

open Text

/-- The operators in words, two lines for each. -/
def operatorLines (t : Taxonomy) (color : Bool) : List String :=
  [paint color [.bold] "Operators", "".pushn '=' 60] ++
  t.entries.flatMap fun e =>
    [padRight 16 e.operator.token ++ " " ++ paint color e.role.styles (padRight 8 e.role.word) ++
        " arity " ++ e.format.length.repr ++
        (if t.isCommutative e.operator then paint color [.dim] " commutative" else ""),
      "        " ++ paint color [.dim] e.classPath.text]

end Taxonomy

end MutationRules
