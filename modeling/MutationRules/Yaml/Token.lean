import MutationRules.Yaml.Property
import MutationRules.Yaml.Scalar.Block
import MutationRules.Yaml.Scalar.Quoted

/-!
# YAML tokens

A text as a list of tokens, in which the indentation of block collections has become brackets.
Whether a scalar is a key shows only at the colon after it, so the place of every possible key is
kept until then.
-/

namespace MutationRules.Yaml

/-- A token. -/
inductive Token
  | directive (directive : Directive)
  | documentStart | documentEnd
  | blockSequence | blockMapping | blockEnd
  | flowSequence | flowSequenceEnd | flowMapping | flowMappingEnd
  | blockEntry | flowEntry | key | value
  | alias (name : String)
  | anchor (name : String)
  /-- A tag with the handle that it uses, if any. -/
  | tag (handle : Option (List Char))
  /-- A scalar, and whether it stands without quotes in a line. -/
  | scalar (plain : Bool) (text : String)
  deriving DecidableEq, Repr

/-- A place at which a key may have begun. -/
structure Candidate where
  /-- Whether it stands where only a key may stand. -/
  required : Bool
  /-- The number of tokens before it. -/
  index : Nat
  /-- The number of its line. -/
  line : Nat
  /-- Its column. -/
  column : Nat
  /-- The bytes from it to the end of its line. -/
  bytesLeft : Nat
  deriving DecidableEq, Repr

/-- Whether a key that began there may end at a place: in the same line, at most 1024 bytes on. -/
def Candidate.isFresh (candidate : Candidate) (c : Cursor) : Bool :=
  candidate.line = c.number && candidate.bytesLeft ≤ c.bytesLeft + 1024

/-- A text that has been read in part. -/
structure Reading where
  /-- The place that has been reached. -/
  cursor : Cursor
  /-- The tokens, last first. -/
  tokens : List Token
  /-- The first column in the block collections that are open, zero without any. -/
  margin : Nat
  /-- The same for the block collections around the innermost one. -/
  outer : List Nat
  /-- Whether a key may begin here. -/
  keyAllowed : Bool
  /-- The possible key in the innermost collection. -/
  candidate : Option Candidate
  /-- The possible keys around the flow collections that are open. -/
  around : List (Option Candidate)

namespace Reading

/-- Whether a flow collection is open. -/
def inFlow (r : Reading) : Bool := !r.around.isEmpty

/-- Add a token. -/
def push (r : Reading) (token : Token) : Reading := { r with tokens := token :: r.tokens }

/-- Move over some characters of the line. -/
def skip (r : Reading) (count : Nat) : Reading := { r with cursor := r.cursor.drop count }

/-- Insert tokens before the one with an index. -/
def insert (r : Reading) (index : Nat) (tokens : List Token) : Reading :=
  let later := r.tokens.length - index
  { r with tokens := r.tokens.take later ++ tokens.reverse ++ r.tokens.drop later }

/-- Close the block collections that stand to the right of a limit. -/
def unroll (r : Reading) (limit : Nat) : Reading :=
  if r.inFlow then r
  else
    let closed := ((r.margin :: r.outer).takeWhile (limit < ·)).length
    let left := (r.margin :: r.outer).drop closed
    { r with
      margin := left.headD 0
      outer := left.tail
      tokens := List.replicate closed .blockEnd ++ r.tokens }

/-- The token that opens a block collection at a column, unless one is open there. -/
def opening (r : Reading) (column : Nat) (token : Token) : List Token :=
  if !r.inFlow && r.margin ≤ column then [token] else []

/-- Enter the block collection at a column. -/
def roll (r : Reading) (column : Nat) : Reading :=
  if !r.inFlow && r.margin ≤ column then
    { r with margin := column + 1, outer := r.margin :: r.outer }
  else r

/-- Give up the possible key, which must not be a required one. -/
def dismiss? (r : Reading) : Option Reading :=
  if r.candidate.any (·.required) then none else some { r with candidate := none }

/-- Note that a key may begin here. -/
def offer? (r : Reading) : Option Reading :=
  if r.keyAllowed then do
    let column := r.cursor.column
    let candidate : Candidate :=
      ⟨!r.inFlow && r.margin = column + 1, r.tokens.length, r.cursor.number, column,
        r.cursor.bytesLeft⟩
    return { ← r.dismiss? with candidate := some candidate }
  else some r

/-- Give up the possible key if it has become too long, which a required one must not be. -/
def dropStale? (r : Reading) : Option Reading :=
  if r.candidate.all (·.isFresh r.cursor) then some r else r.dismiss?

/-- The rest of a line after blanks and a comment. -/
def afterGap (tabs : Bool) (rest : List Char) : List Char :=
  let rest := rest.dropWhile fun c => c = ' ' || tabs && c = '\t'
  if rest.head? = some '#' then [] else rest

/-- Move to the next token. The mark of the byte order may begin a line, and a key may begin after a
line break. -/
def skipGap (inFlow keyAllowed : Bool) (number width : Nat) (rest ending : List Char) :
    List Line → Bool × Cursor
  | [] => (keyAllowed, ⟨number, width, content keyAllowed rest, ending, []⟩)
  | line :: more =>
    match content keyAllowed rest with
    | [] =>
      skipGap inFlow (keyAllowed || !inFlow) (number + 1) line.text.length line.text line.ending
        more
    | rest => (keyAllowed, ⟨number, width, rest, ending, line :: more⟩)
where
  /-- The rest of the line from the next token on. -/
  content (keyAllowed : Bool) (rest : List Char) : List Char :=
    let atMark := rest.length = width ∧ rest.head? = some byteOrderMark
    afterGap (inFlow || !keyAllowed) (if atMark then rest.tail else rest)

/-- The reading at the next token or at the end. -/
def toToken (r : Reading) : Reading :=
  let c := r.cursor
  let (keyAllowed, cursor) := skipGap r.inFlow r.keyAllowed c.number c.width c.rest c.ending c.more
  { r with keyAllowed, cursor }

/-- Read a token between documents, which closes all block collections, given with the place after
it. -/
def document? (r : Reading) (token : Token) (stop : Cursor) : Option Reading := do
  let r ← (r.unroll 0).dismiss?
  return { r.push token with cursor := stop, keyAllowed := false }

/-- Read the beginning of a flow collection. -/
def openFlow? (r : Reading) (token : Token) : Option Reading := do
  let r ← r.offer?
  return { (r.push token).skip 1 with
    candidate := none, around := r.candidate :: r.around, keyAllowed := true }

/-- Read the end of a flow collection. -/
def closeFlow? (r : Reading) (token : Token) : Option Reading := do
  let r ← r.dismiss?
  return { (r.push token).skip 1 with
    candidate := r.around.head?.join, around := r.around.tail, keyAllowed := false }

/-- Read an indicator that outside flow collections opens a block collection where a key may
begin. -/
def indicator? (r : Reading) (collection token : Token) : Option Reading := do
  guard (r.inFlow ∨ r.keyAllowed)
  let column := r.cursor.column
  let r ← ((r.insert r.tokens.length (r.opening column collection)).roll column).dismiss?
  return (r.push token).skip 1

/-- Read the colon before a value. -/
def value? (r : Reading) : Option Reading :=
  match r.candidate with
  | some key =>
    let r := (r.insert key.index (r.opening key.column .blockMapping ++ [.key])).roll key.column
    some { (r.push .value).skip 1 with candidate := none, keyAllowed := false }
  | none => do
    let r ← r.indicator? .blockMapping .value
    return { r with keyAllowed := !r.inFlow }

/-- Read a token that may be a key or stand before one, given with the place after it. -/
def content? (r : Reading) (token : Token) (stop : Cursor) (keyAllowed : Bool) :
    Option Reading := do
  return { (← r.offer?).push token with cursor := stop, keyAllowed }

/-- Whether a plain scalar may begin at a place. -/
def startsPlain (inFlow : Bool) : List Char → Bool
  | [] => false
  | c :: rest =>
    !(isSeparator c || "-?:,[]\x7b\x7d#&*!|>'\"%@`".toList.contains c) ||
      (c = '-' && !rest.head?.any isSeparator) ||
      (!inFlow && (c = '?' || c = ':') && !endsWord rest)

/-- Read the next token, which begins here. -/
def read? (r : Reading) : Option Reading :=
  let c := r.cursor
  let next := c.drop 1
  if c.column = 0 ∧ c.rest.head? = some '%' then do
    r.document? (.directive (← Directive.ofLine? next.rest)) c.nextLine
  else if c.hasIndicator '-' then r.document? .documentStart (c.drop 3)
  else if c.hasIndicator '.' then r.document? .documentEnd (c.drop 3)
  else match c.rest with
    | [] => none
    | '[' :: _ => r.openFlow? .flowSequence
    | '\x7b' :: _ => r.openFlow? .flowMapping
    | ']' :: _ => r.closeFlow? .flowSequenceEnd
    | '\x7d' :: _ => r.closeFlow? .flowMappingEnd
    | ',' :: _ => do
      return { ((← r.dismiss?).push .flowEntry).skip 1 with keyAllowed := true }
    | '*' :: rest => do
      let (name, rest) ← name? rest
      r.content? (.alias name) { c with rest } false
    | '&' :: rest => do
      let (name, rest) ← name? rest
      r.content? (.anchor name) { c with rest } false
    | '!' :: rest => do
      let (used, rest) ← tag? r.inFlow rest
      r.content? (.tag used) { c with rest } false
    | '\'' :: _ => do
      let (text, stop) ← quoted? false next
      r.content? (.scalar false (String.ofList text)) stop false
    | '"' :: _ => do
      let (text, stop) ← quoted? true next
      r.content? (.scalar false (String.ofList text)) stop false
    | char :: rest =>
      if char = '-' ∧ endsWord rest then do
        return { ← r.indicator? .blockSequence .blockEntry with keyAllowed := true }
      else if char = '?' ∧ (r.inFlow ∨ endsWord rest) then do
        return { ← r.indicator? .blockMapping .key with keyAllowed := !r.inFlow }
      else if char = ':' ∧ (r.inFlow ∨ endsWord rest) then r.value?
      else if (char = '|' ∨ char = '>') ∧ ¬ r.inFlow then do
        let (text, stop) ← block? (char = '>') r.margin next
        return { (← r.dismiss?).push (.scalar false (String.ofList text)) with
          cursor := stop, keyAllowed := true }
      else if startsPlain r.inFlow c.rest then do
        let scalar ← Plain.ofCursor? r.inFlow r.margin c
        r.content? (.scalar true (String.ofList scalar.text)) scalar.stop scalar.atLineStart
      else none

/-- Read the remaining tokens, of which there are fewer than `fuel`. -/
def finish? : Nat → Reading → Option (List Token)
  | 0, _ => none
  | fuel + 1, r => do
    let r ← r.toToken.dropStale?
    if r.cursor.isEnd then
      return (← (r.unroll 0).dismiss?).tokens.reverse
    finish? fuel (← (r.unroll (r.cursor.column + 1)).read?)

end Reading

/-- The tokens of a text. -/
def Token.ofChars? (text : List Char) : Option (List Token) := do
  guard (text.all isAllowed)
  Reading.finish? (text.length + 1) ⟨Cursor.ofText text, [], 0, [], true, none, []⟩

end MutationRules.Yaml
