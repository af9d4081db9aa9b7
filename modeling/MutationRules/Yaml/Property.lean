import MutationRules.Text.Hexadecimal
import MutationRules.Yaml.Line

/-!
# Names, tags and directives

The words that say something about a node or a document. Each reader takes the characters after the
indicator and gives what follows the word in its line.
-/

namespace MutationRules.Yaml

/-- The characters of names. -/
def isNameChar (c : Char) : Bool := c.isAlphanum || c = '-' || c = '_'

/-- Whether the name of an anchor may end before some characters. -/
def endsName (rest : List Char) : Bool :=
  endsWord rest || rest.head?.any "?:,]\x7d%@`".toList.contains

/-- The name of an anchor. -/
def name? (rest : List Char) : Option (String × List Char) :=
  let name := rest.takeWhile isNameChar
  let after := rest.dropWhile isNameChar
  if name ≠ [] ∧ endsName after then some (String.ofList name, after) else none

/-- The characters of the address that a tag stands for. -/
def isAddressChar (c : Char) : Bool := isNameChar c || ";/?:@&=+$.%!~*'()".toList.contains c

/-- The characters of an address that is written in full. -/
def isFullAddressChar (c : Char) : Bool := isAddressChar c || c = ',' || c = '[' || c = ']'

/-- The number of further bytes of a character whose first byte is given. -/
def continuation? (byte : Nat) : Option Nat :=
  if byte < 0x80 then some 0
  else if 0xC0 ≤ byte ∧ byte < 0xE0 then some 1
  else if 0xE0 ≤ byte ∧ byte < 0xF0 then some 2
  else if 0xF0 ≤ byte ∧ byte < 0xF8 then some 3
  else none

/-- Whether the escaped bytes of an address write characters. `due` counts the bytes that the
character just begun lacks. -/
def escapesValid : Nat → List Char → Bool
  | due, [] => due = 0
  | due, '%' :: high :: low :: rest =>
    match Text.hexNumber? [high, low], due with
    | none, _ => false
    | some byte, 0 => (continuation? byte).any (escapesValid · rest)
    | some byte, due + 1 => 0x80 ≤ byte && byte < 0xC0 && escapesValid due rest
  | due, c :: rest => due = 0 && c ≠ '%' && escapesValid 0 rest

/-- An address of the given characters, of which `before` came already: what follows it. -/
def afterAddress? (allowed : Char → Bool) (before : List Char) (rest : List Char) :
    Option (List Char) :=
  let address := rest.takeWhile allowed
  if (before ++ address ≠ []) ∧ escapesValid 0 address then some (rest.dropWhile allowed) else none

/-- The handle at the beginning of a tag, whose exclamation mark has been read. -/
def handle (rest : List Char) : List Char × List Char :=
  let name := rest.takeWhile isNameChar
  match rest.dropWhile isNameChar with
  | '!' :: after => ('!' :: name ++ ['!'], after)
  | after => ('!' :: name, after)

/-- The handle that a tag uses, if any. -/
def tag? (inFlow : Bool) (rest : List Char) : Option (Option (List Char) × List Char) := do
  let (used, after) ← match rest with
    | '<' :: rest => do
      match ← afterAddress? isFullAddressChar [] rest with
      | '>' :: after => some (none, after)
      | _ => none
    | rest =>
      let (shorthand, after) := handle rest
      if shorthand.length ≠ 1 ∧ shorthand.getLast? = some '!' then
        (some shorthand, ·) <$> afterAddress? isAddressChar [] after
      else (some ['!'], ·) <$> afterAddress? isAddressChar shorthand after
  guard (endsWord after ∨ inFlow ∧ after.head? = some ',')
  return (used, after)

/-- What a directive says. -/
inductive Directive
  /-- The version of the language that the document is written in. -/
  | version (major minor : Nat)
  /-- The meaning of a handle. -/
  | handle (handle : List Char)
  deriving DecidableEq, Repr

/-- A number of at most nine digits. -/
def versionPart? (rest : List Char) : Option (Nat × List Char) :=
  let digits := rest.takeWhile Char.isDigit
  if digits ≠ [] ∧ digits.length ≤ 9 then
    some (digits.foldl (fun n c => n * 10 + (c.toNat - '0'.toNat)) 0, rest.dropWhile Char.isDigit)
  else none

/-- The version that a directive gives, and what follows it. -/
def versionDirective? (rest : List Char) : Option (Directive × List Char) := do
  let (major, after) ← versionPart? rest
  match after with
  | '.' :: after =>
    let (minor, after) ← versionPart? after
    return (.version major minor, after)
  | _ => none

/-- The handle to which a directive gives a meaning, and what follows that meaning. -/
def handleDirective? : List Char → Option (Directive × List Char)
  | '!' :: rest => do
    let (meant, after) := handle rest
    guard (meant.getLast? = some '!' ∧ after.head?.any isSeparator)
    let after ← afterAddress? isFullAddressChar [] (after.dropWhile isSeparator)
    guard (endsWord after)
    return (.handle meant, after)
  | _ => none

/-- The directive that stands in a line after its indicator. -/
def Directive.ofLine? (rest : List Char) : Option Directive := do
  let after := rest.dropWhile isNameChar
  guard (endsWord after)
  let read ← match String.ofList (rest.takeWhile isNameChar) with
    | "YAML" => some versionDirective?
    | "TAG" => some handleDirective?
    | _ => none
  let (directive, after) ← read (after.dropWhile isSeparator)
  let after := after.dropWhile isSeparator
  guard (after.isEmpty ∨ after.head? = some '#')
  return directive

end MutationRules.Yaml
