import MutationRules.Json.Value

/-!
# Writing JSON

Values are written on one line, or one item and one member to a line with two blanks for each level.
A double is written with the fewest digits that read back, and never like an integer.
-/

namespace MutationRules.Json

/-- A hexadecimal digit. -/
def hexDigit (n : Nat) : Char := Char.ofNat (if n < 10 then '0'.toNat + n else 'a'.toNat + (n - 10))

/-- A character inside a string literal. -/
def escape (c : Char) : List Char :=
  match c with
  | '"' => ['\\', '"']
  | '\\' => ['\\', '\\']
  | '\x08' => ['\\', 'b']
  | '\x0c' => ['\\', 'f']
  | '\n' => ['\\', 'n']
  | '\r' => ['\\', 'r']
  | '\t' => ['\\', 't']
  | c =>
    if c.toNat < 0x20 then ['\\', 'u', '0', '0', hexDigit (c.toNat / 16), hexDigit (c.toNat % 16)]
    else [c]

/-- A text as a string literal. -/
def quoted (text : String) : String :=
  "\"" ++ String.ofList (text.toList.flatMap escape) ++ "\""

/-- A decimal: positional from 0.00001 up to sixteen digits before the point, otherwise with one
digit before the point and an exponent. -/
def decimalText (d : Binary64.Decimal) : String :=
  let digits := d.digits.repr
  let count := digits.length
  let point : Int := d.exponent + count
  if d.digits = 0 then "0.0"
  else if 0 ≤ d.exponent ∧ point ≤ 16 then digits.pushn '0' d.exponent.toNat ++ ".0"
  else if 0 < point ∧ point ≤ 16 then
    (digits.take point.toNat).toString ++ "." ++ (digits.drop point.toNat).toString
  else if -5 < point ∧ point ≤ 0 then "0.".pushn '0' point.natAbs ++ digits
  else
    let fraction := (digits.drop 1).toString
    (digits.take 1).toString ++ (if fraction = "" then "" else "." ++ fraction) ++ "e" ++
      toString (point - 1)

namespace Number

/-- The text of a number. -/
def text : Number → String
  | integer value => toString value
  | double negative magnitude =>
    (if negative then "-" else "") ++ decimalText magnitude.shortest

end Number

namespace Value

mutual

/-- The value on one line. -/
def compact : Value → String
  | .null => "null"
  | .bool value => if value then "true" else "false"
  | .number value => value.text
  | .string text => quoted text
  | .array items => "[" ++ String.intercalate "," (compactItems items) ++ "]"
  | .object members => "\x7b" ++ String.intercalate "," (compactMembers members) ++ "\x7d"

/-- Items on one line each. -/
def compactItems : List Value → List String
  | [] => []
  | item :: rest => compact item :: compactItems rest

/-- Members on one line each. -/
def compactMembers : List (String × Value) → List String
  | [] => []
  | (key, value) :: rest => (quoted key ++ ":" ++ compact value) :: compactMembers rest

end

/-- Lines between brackets, or the brackets alone if there are none. -/
def block (indent opening closing : String) (lines : List String) : String :=
  if lines.isEmpty then opening ++ closing
  else
    let inner := indent ++ "  "
    opening ++ "\n" ++ inner ++ String.intercalate (",\n" ++ inner) lines ++ "\n" ++ indent ++
      closing

mutual

/-- The value on several lines, of which all but the first begin with `indent`. -/
def pretty (indent : String) : Value → String
  | .array items => block indent "[" "]" (prettyItems (indent ++ "  ") items)
  | .object members => block indent "\x7b" "\x7d" (prettyMembers (indent ++ "  ") members)
  | value => compact value

/-- Items on several lines each. -/
def prettyItems (indent : String) : List Value → List String
  | [] => []
  | item :: rest => pretty indent item :: prettyItems indent rest

/-- Members on several lines each. -/
def prettyMembers (indent : String) : List (String × Value) → List String
  | [] => []
  | (key, value) :: rest =>
    (quoted key ++ ": " ++ pretty indent value) :: prettyMembers indent rest

end

end Value

end MutationRules.Json
