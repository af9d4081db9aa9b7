import MutationRules.Descriptor.Basic
import MutationRules.Workspace.Text

/-!
# Descriptor files
-/

namespace MutationRules

variable {m : Type → Type} [Monad m] [Host m]

/-- Read a descriptor from a file. -/
def Descriptor.load (path : String) : Action m Descriptor :=
  readAs path (.fileUnreadable path) (.descriptorMalformed path) Descriptor.parse?

/-- Read duplicates from a file. -/
def Duplicates.load (path : String) : Action m Duplicates :=
  readAs path (.fileUnreadable path) (.descriptorMalformed path) Duplicates.parse?

end MutationRules
