import MutationRules.Configuration.Basic
import MutationRules.Workspace.Text

/-!
# Configuration files
-/

namespace MutationRules.Configuration

/-- Put the configuration of a rule set in the place of a file. -/
def write {m : Type → Type} [Monad m] [Host m] (withHeader : Bool) (set : RuleSet) (path : String) :
    Action m Unit := do
  if !(← (Host.replace path (render withHeader set) : m Bool)) then throw (.fileUnwritable path)

end MutationRules.Configuration
