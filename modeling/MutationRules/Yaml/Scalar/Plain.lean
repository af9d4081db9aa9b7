import MutationRules.Yaml.Line

/-!
# Scalars without quotes

A plain scalar runs on over lines that stand far enough to the right. Blanks at the end of a line
are not part of it, and the line breaks between two lines fold.
-/

namespace MutationRules.Yaml

/-- What stands for a line break and the further ones after it: a lone line feed is a blank, and the
first of several line feeds is dropped. -/
def fold (first others : List Char) : List Char :=
  if first = ['\n'] then if others = [] then [' '] else others else first ++ others

/-- The characters that structure flow collections. -/
def isFlowIndicator (c : Char) : Bool := ",[]\x7b\x7d".toList.contains c

/-- Whether a plain scalar ends before a character that stands before others. -/
def endsPlain (inFlow : Bool) (c : Char) (rest : List Char) : Bool :=
  c = ':' && endsWord rest || inFlow && isFlowIndicator c

/-- Whether a colon stands where a flow collection allows none. -/
def isStrayColon (inFlow : Bool) (c : Char) (rest : List Char) : Bool :=
  inFlow && c = ':' && rest.head?.any fun next => next = '?' || isFlowIndicator next

/-- The part of a plain scalar that stands in one line, and what follows it there. `gap` holds the
blanks just before the place, and `fresh` says that a comment could begin there. -/
def plainPiece? (inFlow fresh : Bool) (gap : List Char) :
    List Char → Option (List Char × List Char)
  | [] => some ([], [])
  | c :: rest =>
    if isSeparator c then plainPiece? inFlow true (gap ++ [c]) rest
    else if fresh && c = '#' || endsPlain inFlow c rest then some ([], c :: rest)
    else if isStrayColon inFlow c rest then none
    else do
      let (piece, after) ← plainPiece? inFlow false [] rest
      return (gap ++ c :: piece, after)

/-- A scalar that has been read. -/
structure Plain where
  /-- Its characters. -/
  text : List Char
  /-- Whether only blanks stand between the last line break and its end. -/
  atLineStart : Bool
  /-- The place after it. -/
  stop : Cursor

/-- Whether a plain scalar ends at the first place of a line that is not blank. -/
def Cursor.endsScalar (c : Cursor) (inFlow : Bool) (margin : Nat) : Bool :=
  c.isEnd || !inFlow && c.column < margin || c.atIndicator

/-- The plain scalar that begins at a place. Outside flow collections its further lines must reach
the margin. -/
def Plain.ofCursor? (inFlow : Bool) (margin : Nat) (c : Cursor) : Option Plain := do
  let (piece, rest) ← plainPiece? inFlow true [] c.rest
  match rest, h : c.more with
  | [], line :: more =>
    match hc : toContent margin (c.number + 1) [] line more with
    | none => none
    | some (breaks, next) =>
      if next.endsScalar inFlow margin then return ⟨piece, true, next⟩
      have : next.more.length < c.more.length := by
        have := length_of_toContent hc
        simp [h]
        omega
      let tail ← Plain.ofCursor? inFlow margin next
      if tail.text = [] then return ⟨piece, true, next⟩
      return { tail with text := piece ++ fold c.ending breaks ++ tail.text }
  | rest, _ => return ⟨piece, false, { c with rest }⟩
termination_by c.more.length

end MutationRules.Yaml
