import MutationRules.Failure
import MutationRules.Workspace.Basic

/-!
# Text files

Files are read as UTF-8 text.
-/

namespace MutationRules

/-- An action that uses files and may stop. -/
abbrev Action (m : Type → Type) := ExceptT Failure m

/-- Go on with a result, or stop with the failure that stands for its fault. -/
def orStop {m : Type → Type} [Monad m] {ε α : Type} (failure : ε → Failure) (result : Except ε α) :
    Action m α :=
  ExceptT.mk (pure (result.mapError failure))

@[simp] theorem orStop_ok {m : Type → Type} [Monad m] {ε α : Type} (failure : ε → Failure)
    (a : α) : (orStop failure (.ok a) : Action m α) = pure a := rfl

@[simp] theorem orStop_error {m : Type → Type} [Monad m] {ε α : Type} (failure : ε → Failure)
    (e : ε) : (orStop failure (.error e) : Action m α) = throw (failure e) := rfl

/-- The text of a file, unless it cannot be read or is not UTF-8. -/
def readText {m : Type → Type} [Monad m] [Host m] (path : String) : m (Option String) := do
  return (← Host.read path).bind String.fromUTF8?

/-- The text of a file, of which the rest is read by `parse?`. -/
def readAs {m : Type → Type} [Monad m] [Host m] {β : Type} (path : String)
    (unreadable malformed : Failure) (parse? : String → Option β) : Action m β := do
  match ← (readText path : m (Option String)) with
  | none => throw unreadable
  | some text =>
    match parse? text with
    | none => throw malformed
    | some value => return value

end MutationRules
