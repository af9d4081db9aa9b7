/-!
# Options

The words after a command. An option begins with a hyphen; one with a value takes it from the same
word or from the next one. Words that are no options are operands, and so is all that follows two
hyphens alone.
-/

namespace MutationRules.CommandLine

/-- Why the words do not lead to a command. -/
inductive Halt
  /-- They are not as expected. -/
  | misuse
  /-- They ask for an explanation. -/
  | help
  /-- They ask for the version. -/
  | version
  deriving DecidableEq, Repr

/-- An option without a value. -/
inductive Switch
  | verbose | help | version | noHeader | json
  deriving DecidableEq, Repr

namespace Switch

/-- The letter after a single hyphen. -/
def letter? : Switch → Option Char
  | verbose => some 'v'
  | help => some 'h'
  | version => some 'V'
  | noHeader | json => none

/-- The word after two hyphens. -/
def word : Switch → String
  | verbose => "verbose"
  | help => "help"
  | version => "version"
  | noHeader => "no-header"
  | json => "json"

end Switch

/-- What a value must be. -/
inductive ValueKind
  /-- Any text. -/
  | text
  /-- A path, which is not empty. -/
  | path
  /-- An integer of 32 bits. -/
  | integer
  deriving DecidableEq, Repr

/-- The integer of 32 bits that a text writes, with an optional sign. -/
def integer? (text : String) : Option Int := do
  let (sign, digits) := match text.toList with
    | '-' :: digits => ((-1 : Int), digits)
    | '+' :: digits => (1, digits)
    | digits => (1, digits)
  guard (digits ≠ [] ∧ digits.all Char.isDigit)
  let value := sign * digits.foldl (fun n c => n * 10 + (c.toNat - '0'.toNat)) 0
  guard (-0x80000000 ≤ value ∧ value < 0x80000000)
  return value

/-- Whether a value is of a kind. -/
def ValueKind.accepts : ValueKind → String → Bool
  | text, _ => true
  | path, value => value ≠ ""
  | integer, value => (integer? value).isSome

/-- An option with a value. -/
inductive Parameter
  | output | settings | level | selective | duplicates
  deriving DecidableEq, Repr

namespace Parameter

/-- The letter after a single hyphen. -/
def letter : Parameter → Char
  | output => 'o'
  | settings => 'c'
  | level => 'l'
  | selective => 's'
  | duplicates => 'd'

/-- The word after two hyphens. -/
def word : Parameter → String
  | output => "output"
  | settings => "config"
  | level => "level"
  | selective => "selective"
  | duplicates => "duplicates"

/-- What its value must be. -/
def kind : Parameter → ValueKind
  | output | settings | duplicates => .path
  | level => .integer
  | selective => .text

end Parameter

/-- What may follow a command. -/
structure Grammar where
  /-- The options without a value. -/
  switches : List Switch
  /-- The options with a value. -/
  parameters : List Parameter
  /-- The operands. -/
  operands : List ValueKind
  /-- Whether the next word may be an integer with a minus sign where one is expected. -/
  signedValues : Bool
  deriving DecidableEq, Repr

/-- The words that have been read. -/
structure Given where
  /-- The options without a value. -/
  switches : List Switch := []
  /-- The options with a value. -/
  values : List (Parameter × String) := []
  /-- The operands. -/
  operands : List String := []
  deriving DecidableEq, Repr

namespace Given

/-- Add an option without a value. No option repeats. -/
def addSwitch (given : Given) (switch : Switch) : Except Halt Given :=
  match switch with
  | .help => .error .help
  | .version => .error .version
  | switch =>
    if given.switches.contains switch then .error .misuse
    else .ok { given with switches := switch :: given.switches }

/-- Add an option with a value. No option repeats. -/
def addValue (given : Given) (parameter : Parameter) (value : String) : Except Halt Given :=
  if (given.values.map (·.1)).contains parameter || !parameter.kind.accepts value then
    .error .misuse
  else .ok { given with values := (parameter, value) :: given.values }

/-- Add the next operand. -/
def addOperand (given : Given) (kinds : List ValueKind) (value : String) : Except Halt Given :=
  if kinds[given.operands.length]?.any (·.accepts value) then
    .ok { given with operands := given.operands ++ [value] }
  else .error .misuse

/-- The value of an option. -/
def value? (given : Given) (parameter : Parameter) : Option String := given.values.lookup parameter

/-- Whether an option is given. -/
def has (given : Given) (switch : Switch) : Bool := given.switches.contains switch

end Given

namespace Grammar

/-- Read the letters after a single hyphen. An option with a value takes the rest of the word, after
an equals sign or at once; if there is none it is given back. -/
def readLetters (g : Grammar) (given : Given) : List Char → Except Halt (Given × Option Parameter)
  | [] => .ok (given, none)
  | c :: rest =>
    match g.switches.find? (·.letter? = some c), g.parameters.find? (·.letter = c) with
    | some switch, _ => do g.readLetters (← given.addSwitch switch) rest
    | none, some parameter =>
      match rest with
      | [] => .ok (given, some parameter)
      | '=' :: value => do return (← given.addValue parameter (String.ofList value), none)
      | value => do return (← given.addValue parameter (String.ofList value), none)
    | none, none => .error .misuse

/-- Read what follows two hyphens: a word, and for an option with a value an equals sign and the
value, unless that is the next word. -/
def readWord (g : Grammar) (given : Given) (text : List Char) :
    Except Halt (Given × Option Parameter) :=
  let word := String.ofList (text.takeWhile (· ≠ '='))
  let value := text.dropWhile (· ≠ '=')
  match g.switches.find? (·.word = word), g.parameters.find? (·.word = word), value with
  | some switch, _, [] => do return (← given.addSwitch switch, none)
  | none, some parameter, [] => .ok (given, some parameter)
  | none, some parameter, _ :: value => do
    return (← given.addValue parameter (String.ofList value), none)
  | _, _, _ => .error .misuse

/-- Read words, the first of which may be the value of an option. -/
def read (g : Grammar) (given : Given) : Option Parameter → List String → Except Halt Given
  | none, [] => .ok given
  | some _, [] => .error .misuse
  | awaiting, word :: rest =>
    match word.toList, awaiting with
    | ['-', '-'], none => rest.foldlM (·.addOperand g.operands ·) given
    | '-' :: '-' :: text, none => do
      let (given, awaiting) ← g.readWord given text
      g.read given awaiting rest
    | '-' :: c :: letters, none => do
      let (given, awaiting) ← g.readLetters given (c :: letters)
      g.read given awaiting rest
    | '-' :: _ :: _, some parameter => do
      if !g.signedValues || parameter.kind ≠ .integer then .error .misuse
      g.read (← given.addValue parameter word) none rest
    | _, some parameter => do g.read (← given.addValue parameter word) none rest
    | _, none => do g.read (← given.addOperand g.operands word) none rest

end Grammar

end MutationRules.CommandLine
