import MutationRules.CommandLine.Option

/-!
# Commands

What the arguments of the program ask for.
-/

namespace MutationRules.CommandLine

/-- What the program can do. -/
inductive Command
  /-- Write the configuration to a file, with literals from a settings file if one is named. -/
  | generate (output : String) (settings? : Option String) (withHeader : Bool)
  /-- Print the classes of a rule name, and its membership in a selective set if one is named. -/
  | classify (rule : String) (level : Int) (selective? : Option String)
  /-- Classify the mutants of a descriptor less the duplicates that a file lists. -/
  | mutants (descriptor : String) (duplicates? : Option String) (level : Int) (asJson : Bool)
  /-- List the operators. -/
  | operators
  /-- Print an example settings file. -/
  | sample
  deriving DecidableEq, Repr

/-- A command and how much it reports. -/
structure Invocation where
  /-- The command. -/
  command : Command
  /-- Whether it reports more. -/
  verbose : Bool
  deriving DecidableEq, Repr

/-- The first words of the commands. -/
inductive Verb
  | generate | classify | mutants | operators | sample
  deriving DecidableEq, Repr

namespace Verb

/-- Every first word. -/
def all : List Verb := [generate, classify, mutants, operators, sample]

/-- The spelling of a first word. -/
def word : Verb → String
  | generate => "generate"
  | classify => "classify"
  | mutants => "mutants"
  | operators => "operators"
  | sample => "example"

/-- The word that asks for an explanation of a command. -/
def helpWord : String := "help"

/-- What may follow a first word. -/
def grammar : Verb → Grammar
  | generate => ⟨[.noHeader, .verbose, .help], [.output, .settings], [], false⟩
  | classify => ⟨[.verbose, .help], [.level, .selective], [.text], true⟩
  | mutants => ⟨[.json, .verbose, .help], [.duplicates, .level], [.path], false⟩
  | operators | sample => ⟨[.verbose, .help], [], [], false⟩

/-- The level of a command that names none. -/
def defaultLevel : Int := 3

/-- The file of a configuration that is not named. -/
def defaultOutput : String := "mconf.txt"

/-- The command that some words after a first word complete. -/
def command? (verb : Verb) (given : Given) : Option Command :=
  let level := ((given.value? .level).bind integer?).getD defaultLevel
  match verb, given.operands with
  | generate, _ =>
    some (.generate ((given.value? .output).getD defaultOutput) (given.value? .settings)
      (!given.has .noHeader))
  | classify, [rule] => some (.classify rule level (given.value? .selective))
  | mutants, [descriptor] =>
    some (.mutants descriptor (given.value? .duplicates) level (given.has .json))
  | classify, _ | mutants, _ => none
  | operators, _ => some .operators
  | sample, _ => some .sample

end Verb

namespace Invocation

/-- What may stand before the first word of a command. -/
def grammar : Grammar := ⟨[.verbose, .help, .version], [], [], false⟩

/-- The invocation that the arguments describe after some options. Two hyphens alone leave no place
for a command. -/
def ofWords (before : Given) : List String → Except Halt Invocation
  | [] => .error .misuse
  | "--" :: _ => .error .misuse
  | word :: rest =>
    if word = Verb.helpWord then
      match rest with
      | [] => .error .help
      | [topic] =>
        .error (if (Verb.helpWord :: Verb.all.map Verb.word).contains topic then .help else .misuse)
      | _ => .error .misuse
    else match Verb.all.find? (·.word = word) with
      | some verb => do
        let given ← verb.grammar.read {} none rest
        match verb.command? given with
        | some command => return ⟨command, before.has .verbose || given.has .verbose⟩
        | none => .error .misuse
      | none => do ofWords (← grammar.read before none [word]) rest

/-- The invocation that the arguments describe. -/
def ofArguments (arguments : List String) : Except Halt Invocation := ofWords {} arguments

end Invocation

end MutationRules.CommandLine
