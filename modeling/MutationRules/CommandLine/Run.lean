import MutationRules.CommandLine.Command
import MutationRules.Configuration.File
import MutationRules.Descriptor.File
import MutationRules.Json.Writer
import MutationRules.Report.Classification
import MutationRules.Report.Generation
import MutationRules.Report.Operators
import MutationRules.RuleSet.Synthesis
import MutationRules.Settings.File
import MutationRules.Taxonomy.Standard

/-!
# Running commands

What each command does with files, what it prints, and how a run ends. A run needs only a host.
-/

namespace MutationRules

/-- A host keeps its files when a text is collected beside it. -/
instance {m : Type → Type} [Monad m] [Host m] {σ : Type} : Host (StateT σ m) where
  read path := StateT.lift (Host.read path)
  startDraft directory := StateT.lift (Host.startDraft directory)
  fillDraft draft content := StateT.lift (Host.fillDraft draft content)
  settleDraft draft path := StateT.lift (Host.settleDraft draft path)
  dropDraft draft := StateT.lift (Host.dropDraft draft)
  now := StateT.lift Host.now

namespace CommandLine

open Text (paint unlines)

/-- A command that prints and may stop. -/
abbrev Session (m : Type → Type) := Action (StateT String m)

variable {m : Type → Type} [Monad m] [Host m]

/-- Print a text. -/
def print (text : String) : Session m Unit := modify (· ++ text)

/-- The settings of a file, or the default ones. -/
def chooseSettings (color : Bool) (settings? : Option String) : Session m Settings := do
  match settings? with
  | none => return {}
  | some path =>
    print (unlines [paint color [.dim] "Loading settings..."])
    return (← SettingsFile.load path).settings

/-- Write a configuration and report on it. -/
def generate (color verbose : Bool) (output : String) (settings? : Option String)
    (withHeader : Bool) : Session m Unit := do
  let settings ← chooseSettings color settings?
  let started ← (Host.now : StateT String m Nat)
  let set ← orStop Failure.taxonomy ((Taxonomy.standard settings).bind Taxonomy.synthesize)
  Configuration.write withHeader set output
  let ended ← (Host.now : StateT String m Nat)
  let report := GenerationReport.ofRuleSet set ⟨ended - started⟩
  print (unlines (report.lines verbose color))
  print (unlines ["", paint color [.bold, .green] "✓" ++ " Written to " ++ output])

/-- Print the classes of a rule name, and whether it is a member of a selective set. -/
def classify (color : Bool) (rule : String) (level : Int) (selective? : Option String) :
    Session m Unit := do
  let taxonomy ← orStop Failure.taxonomy (Taxonomy.standard {})
  let granularity ← orStop Failure.classification (Granularity.ofLevel level)
  print (unlines (← orStop Failure.classification (taxonomy.classify rule granularity)))
  match selective? with
  | none => return
  | some kind =>
    let set ← orStop Failure.selection (SelectiveSet.ofName kind)
    match ← orStop Failure.selection (taxonomy.selectiveLabel rule set) with
    | some label =>
      print (unlines [paint color [.green] "✓" ++ " " ++ set.name ++ " (" ++ label ++ ")"])
    | none => print (unlines [paint color [.red] "✗" ++ " not in " ++ set.name])

/-- Print the classes of the mutants of a descriptor or a report on them. -/
def classifyMutants (color : Bool) (descriptor : String) (duplicates? : Option String) (level : Int)
    (asJson : Bool) : Session m Unit := do
  let granularity ← orStop Failure.classification (Granularity.ofLevel level)
  if granularity = .allAncestors then throw .severalClasses
  let records ← Descriptor.load descriptor
  let duplicates ← match duplicates? with
    | some path => Duplicates.load path
    | none => pure ∅
  let taxonomy ← orStop Failure.taxonomy (Taxonomy.standard {})
  let classes ← orStop (Failure.mutant descriptor)
    (taxonomy.classifyMutants records (records.candidates duplicates) granularity)
  if asJson then
    print (unlines [(Json.Value.array (classes.map MutantClass.toValue)).pretty ""])
  else print (unlines ((ClassificationReport.ofClasses classes level).lines color))

/-- Do what an invocation asks for. -/
def perform (color : Bool) (invocation : Invocation) : Session m Unit :=
  match invocation.command with
  | .generate output settings? withHeader =>
    generate color invocation.verbose output settings? withHeader
  | .classify rule level selective? => classify color rule level selective?
  | .mutants descriptor duplicates? level asJson =>
    classifyMutants color descriptor duplicates? level asJson
  | .operators => do
    let taxonomy ← orStop Failure.taxonomy (Taxonomy.standard {})
    print (unlines (taxonomy.operatorLines color))
  | .sample => print Settings.sampleFile

/-- How a run ends. -/
structure Outcome where
  /-- Zero after a success, one after a failure, two after a misuse. -/
  code : UInt8
  /-- What is printed. -/
  output : String
  /-- What is printed as an error. -/
  complaint : String
  deriving DecidableEq, Repr

/-- The name and version of the program. -/
def versionLine : String := "mutation-config-rust 0.1.0"

/-- How the program is used. -/
def usage : String := unlines [
  "Usage: mutation-config-rust [-v] <COMMAND>",
  "",
  "Commands:",
  "  generate [-o <FILE>] [-c <SETTINGS>] [--no-header]       Generate the configuration file",
  "  classify <RULE> [-l <LEVEL>] [-s <SET>]                  Classify a single rule name",
  "  mutants <INFOS> [-d <DUPLICATES>] [-l <LEVEL>] [--json]  Classify the mutants of a descriptor",
  "  operators                                                List the registered operators",
  "  example                                                  Show example settings file"]

/-- Run the program with some arguments. -/
def run (color : Bool) (arguments : List String) : m Outcome := do
  match Invocation.ofArguments arguments with
  | .error .misuse => return ⟨2, "", usage⟩
  | .error .help => return ⟨0, usage, ""⟩
  | .error .version => return ⟨0, unlines [versionLine], ""⟩
  | .ok invocation =>
    match ← ((perform color invocation : Session m Unit).run).run "" with
    | (.ok (), output) => return ⟨0, output, ""⟩
    | (.error failure, output) =>
      return ⟨1, output, unlines [paint color [.bold, .red] "Error" ++ ": " ++ failure.message]⟩

end CommandLine

end MutationRules
