import MutationRules.CommandLine.Run

/-!
# The program

The files of the machine as a host, and the entry point.
-/

open MutationRules

/-- Whether an action succeeds. -/
def completes (action : IO Unit) : IO Bool := do
  try
    action
    return true
  catch _ => return false

/-- The machine is a host. A draft has a name that no other file of its directory has. -/
instance : Host IO where
  read path := do
    try return some (← IO.FS.readBinFile path)
    catch _ => return none
  startDraft directory := do
    for _ in [0:Workspace.draftAttempts] do
      let draft := Workspace.draftPath directory (← IO.monoNanosNow)
      try
        let _ ← IO.FS.Handle.mk draft .writeNew
        return some draft
      catch
        | .alreadyExists .. => continue
        | _ => return none
    return none
  fillDraft draft content := completes (IO.FS.writeFile draft content)
  settleDraft draft path := completes (IO.FS.rename draft path)
  dropDraft draft := do let _ ← completes (IO.FS.removeFile draft)
  now := IO.monoNanosNow

/-- Whether a setting of the environment is on, if it is there. -/
def isOn (name : String) : IO (Option Bool) := return (← IO.getEnv name).map (· ≠ "0")

/-- Whether to print in colour: as the environment asks, otherwise on a terminal. -/
def wantsColor : IO Bool := do
  if (← isOn "CLICOLOR_FORCE") = some true then return true
  if (← isOn "NO_COLOR").isSome then return false
  return (← isOn "CLICOLOR").getD true && (← (← IO.getStdout).isTty)

def main (arguments : List String) : IO UInt32 := do
  let outcome ← (CommandLine.run (← wantsColor) arguments : IO CommandLine.Outcome)
  (← IO.getStdout).putStr outcome.output
  (← IO.getStderr).putStr outcome.complaint
  return outcome.code.toUInt32
