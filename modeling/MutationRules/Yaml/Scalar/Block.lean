import MutationRules.Yaml.Line

/-!
# Block scalars

The lines of a block scalar stand under its indentation, which is written in its header or taken
from its first line. A literal one keeps its line breaks, a folded one joins neighbouring lines with
a blank.
-/

namespace MutationRules.Yaml

/-- What becomes of the line breaks at the end of a block scalar. -/
inductive Chomping
  /-- None is kept. -/
  | strip
  /-- The first is kept. -/
  | clip
  /-- All are kept. -/
  | keep
  deriving DecidableEq, Repr

/-- The header of a block scalar. -/
structure BlockHeader where
  /-- What becomes of the last line breaks. -/
  chomping : Option Chomping
  /-- The indentation that is written. -/
  increment : Option Nat
  deriving DecidableEq, Repr

namespace BlockHeader

/-- The chomping that a character stands for. -/
def chomping? : Char → Option Chomping
  | '-' => some .strip
  | '+' => some .keep
  | _ => none

/-- Whether only blanks and a comment follow. -/
def endsLine (rest : List Char) : Bool :=
  let rest := rest.dropWhile isSeparator
  rest.isEmpty || rest.head? = some '#'

/-- The header that begins with what has been read. Each part stands at most once, and the
indentation is not zero. -/
def read? (header : BlockHeader) : List Char → Option BlockHeader
  | [] => some header
  | c :: rest =>
    if header.chomping = none ∧ (chomping? c).isSome then
      read? { header with chomping := chomping? c } rest
    else if header.increment = none ∧ c.isDigit then
      if c = '0' then none
      else read? { header with increment := some (c.toNat - '0'.toNat) } rest
    else if endsLine (c :: rest) then some header
    else none

end BlockHeader

/-- The first line that holds something under the indentation, which is open for the first line of a
scalar: the line breaks before it, the greatest number of blanks seen, and the place after the
blanks of the indentation. -/
def toIndented? (indent : Option Nat) (number : Nat) (breaks : List Char) (widest : Nat)
    (line : Line) (more : List Line) : Option (List Char × Nat × Cursor) :=
  let blanks := (line.text.takeWhile (· = ' ')).length
  let count := indent.elim blanks (min blanks)
  let rest := line.text.drop count
  let widest := max widest count
  if rest.head? = some '\t' ∧ indent.all (count < ·) then none
  else match rest, more with
    | [], next :: more =>
      toIndented? indent (number + 1) (breaks ++ line.ending) widest next more
    | rest, more => some (breaks, widest, { Cursor.atLine number line more with rest })

theorem length_of_toIndented? {indent : Option Nat} {number widest width : Nat}
    {breaks found : List Char} {line : Line} {more : List Line} {c : Cursor}
    (h : toIndented? indent number breaks widest line more = some (found, width, c)) :
    c.more.length ≤ more.length := by
  fun_induction toIndented? indent number breaks widest line more with
  | case1 => simp at h
  | case2 => rename_i ih; exact Nat.le_succ_of_le (ih h)
  | case3 =>
    simp only [Option.some.injEq, Prod.mk.injEq] at h
    simp [← h.2.2, Cursor.atLine]

/-- The lines of a block scalar that have been read. -/
structure BlockLines where
  /-- Their text without the last line breaks. -/
  text : List Char
  /-- The line break after the last one. -/
  ending : List Char
  /-- The line breaks after that. -/
  others : List Char
  /-- The place after them. -/
  stop : Cursor

/-- What stands for the line break before a line. -/
def blockJoin (folded : Bool) (ending others : List Char) (nextToBlank : Bool) : List Char :=
  if folded ∧ ending = ['\n'] ∧ ¬ nextToBlank then if others = [] then [' '] else others
  else ending ++ others

/-- The lines of a block scalar from a place on. `ending` and `others` are the line breaks before
it, and `afterBlank` says whether the line before them begins with a blank. -/
def BlockLines.ofCursor? (folded : Bool) (indent : Nat) (ending others : List Char)
    (afterBlank : Bool) (c : Cursor) : Option BlockLines :=
  if c.column = indent ∧ ¬ c.isEnd then
    let startsBlank := c.rest.head?.any isSeparator
    let text := blockJoin folded ending others (afterBlank || startsBlank) ++ c.rest
    match h : c.more with
    | [] => some ⟨text, [], [], c.drop c.rest.length⟩
    | line :: more =>
      match hi : toIndented? (some indent) (c.number + 1) [] 0 line more with
      | none => none
      | some (breaks, _, next) =>
        have : next.more.length < c.more.length := by
          have := length_of_toIndented? hi
          simp [h]
          omega
        (ofCursor? folded indent c.ending breaks startsBlank next).map
          fun tail => { tail with text := text ++ tail.text }
  else some ⟨[], ending, others, c⟩
termination_by c.more.length

/-- The text of a block scalar. -/
def BlockLines.chomp (lines : BlockLines) : Chomping → List Char
  | .strip => lines.text
  | .clip => lines.text ++ lines.ending
  | .keep => lines.text ++ lines.ending ++ lines.others

/-- The block scalar whose indicator stands just before a place, and the place after it. Its lines
must reach the margin. -/
def block? (folded : Bool) (margin : Nat) (c : Cursor) : Option (List Char × Cursor) := do
  let header ← BlockHeader.read? ⟨none, none⟩ c.rest
  match c.more with
  | [] => return ([], c.drop c.rest.length)
  | line :: more =>
    let written := header.increment.map (margin - 1 + ·)
    let (breaks, widest, next) ← toIndented? written (c.number + 1) [] 0 line more
    let indent := written.getD (max widest (max margin 1))
    let lines ← BlockLines.ofCursor? folded indent [] breaks false next
    return (lines.chomp (header.chomping.getD .clip), lines.stop)

end MutationRules.Yaml
