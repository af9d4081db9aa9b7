import MutationRules.Text.Hexadecimal
import MutationRules.Yaml.Scalar.Plain

/-!
# Scalars in quotes

Blanks around a line break are not part of a quoted scalar, and its line breaks fold. Between double
quotes a backslash begins an escape; at the end of a line it takes the line break away.
-/

namespace MutationRules.Yaml

/-- How the part of a quoted scalar in one line ends. -/
inductive QuotedEnd
  /-- The closing quote stands before the given characters. -/
  | closed (rest : List Char)
  /-- The line ends. -/
  | broken
  /-- The line ends after a backslash. -/
  | joined

/-- The part of a scalar in single quotes that stands in one line; a doubled quote is a quote. `gap`
holds the blanks just before the place. -/
def singleQuoted (gap : List Char) : List Char → List Char × QuotedEnd
  | [] => ([], .broken)
  | '\'' :: '\'' :: rest =>
    let (piece, stop) := singleQuoted [] rest
    (gap ++ '\'' :: piece, stop)
  | '\'' :: rest => (gap, .closed rest)
  | c :: rest =>
    if isSeparator c then singleQuoted (gap ++ [c]) rest
    else
      let (piece, stop) := singleQuoted [] rest
      (gap ++ c :: piece, stop)

/-- The character for which a letter stands after a backslash. -/
def escaped? : Char → Option Char
  | '0' => some '\x00'
  | 'a' => some '\x07'
  | 'b' => some '\x08'
  | 't' | '\t' => some '\t'
  | 'n' => some '\n'
  | 'v' => some '\x0b'
  | 'f' => some '\x0c'
  | 'r' => some '\r'
  | 'e' => some '\x1b'
  | 'N' => some '\u0085'
  | '_' => some '\u00a0'
  | 'L' => some '\u2028'
  | 'P' => some '\u2029'
  | c => if c = ' ' ∨ c = '"' ∨ c = '/' ∨ c = '\\' then some c else none

/-- The number of hexadecimal digits after a letter that begins a numeric escape. -/
def escapeWidth? : Char → Option Nat
  | 'x' => some 2
  | 'u' => some 4
  | 'U' => some 8
  | _ => none

/-- The character that some hexadecimal digits write, if there are enough of them. -/
def numbered? (width : Nat) (digits : List Char) : Option Char := do
  let number ← Text.hexNumber? digits
  if digits.length = width ∧ number.isValidChar then some (Char.ofNat number) else none

/-- The part of a scalar in double quotes that stands in one line. `gap` holds the blanks just
before the place. -/
def doubleQuoted? (gap : List Char) : List Char → Option (List Char × QuotedEnd)
  | [] => some ([], .broken)
  | ['\\'] => some (gap, .joined)
  | '\\' :: mark :: rest =>
    match escapeWidth? mark with
    | some width => do
      let char ← numbered? width (rest.take width)
      let (piece, stop) ← doubleQuoted? [] (rest.drop width)
      return (gap ++ char :: piece, stop)
    | none => do
      let char ← escaped? mark
      let (piece, stop) ← doubleQuoted? [] rest
      return (gap ++ char :: piece, stop)
  | '"' :: rest => some (gap, .closed rest)
  | c :: rest =>
    if isSeparator c then doubleQuoted? (gap ++ [c]) rest
    else do
      let (piece, stop) ← doubleQuoted? [] rest
      return (gap ++ c :: piece, stop)
termination_by text => text.length

/-- The quoted scalar whose opening quote stands just before a place, and the place after it. No
line of it may begin with the mark of a document. -/
def quoted? (isDouble : Bool) (c : Cursor) : Option (List Char × Cursor) := do
  let (piece, stop) ← if isDouble then doubleQuoted? [] c.rest else some (singleQuoted [] c.rest)
  match stop, h : c.more with
  | .closed rest, _ => return (piece, { c with rest })
  | _, [] => none
  | stop, line :: more =>
    match hc : toContent 0 (c.number + 1) [] line more with
    | none => none
    | some (breaks, next) =>
      if next.atIndicator then none
      have : next.more.length < c.more.length := by
        have := length_of_toContent hc
        simp [h]
        omega
      let (text, after) ← quoted? isDouble next
      let join := match stop with
        | .joined => breaks
        | _ => fold c.ending breaks
      return (piece ++ join ++ text, after)
termination_by c.more.length

end MutationRules.Yaml
