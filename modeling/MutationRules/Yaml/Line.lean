/-!
# Lines of a YAML text

A text is a sequence of lines, each with the line break after it. A cursor stands somewhere in a
line and sees the rest of it and the lines after it.
-/

namespace MutationRules.Yaml

/-- The characters that a text may hold. -/
def isAllowed (c : Char) : Bool :=
  let n := c.toNat
  n = 0x9 || n = 0xA || n = 0xD || (0x20 ≤ n && n ≤ 0x7E) || n = 0x85 || (0xA0 ≤ n && n ≤ 0xFFFD) ||
    0x10000 ≤ n

/-- The mark that may stand at the beginning of a line. -/
def byteOrderMark : Char := '\ufeff'

/-- What a line break means in a text, for the characters that break lines. -/
def lineBreak? (c : Char) : Option (List Char) :=
  if c = '\n' ∨ c = '\r' ∨ c = '\u0085' then some ['\n']
  else if c = '\u2028' ∨ c = '\u2029' then some [c]
  else none

/-- Blanks and tabs. -/
def isSeparator (c : Char) : Bool := c = ' ' || c = '\t'

/-- Whether a word ends here: at the end of the line or before a blank. -/
def endsWord : List Char → Bool
  | [] => true
  | c :: _ => isSeparator c

/-- A line and the meaning of the break after it, which the last line lacks. -/
structure Line where
  /-- The characters. -/
  text : List Char
  /-- The meaning of its break. -/
  ending : List Char
  deriving DecidableEq, Repr

/-- The first line of a text, of which `done` comes before, last first, and the other lines. -/
def splitLines (done : List Char) : List Char → Line × List Line
  | [] => (⟨done.reverse, []⟩, [])
  | '\r' :: '\n' :: rest =>
    let (next, more) := splitLines [] rest
    (⟨done.reverse, ['\n']⟩, next :: more)
  | c :: rest =>
    match lineBreak? c with
    | some ending =>
      let (next, more) := splitLines [] rest
      (⟨done.reverse, ending⟩, next :: more)
    | none => splitLines (c :: done) rest

/-- A place in a text. -/
structure Cursor where
  /-- The number of the line. -/
  number : Nat
  /-- The length of the whole line. -/
  width : Nat
  /-- The rest of the line. -/
  rest : List Char
  /-- The meaning of the break after the line. -/
  ending : List Char
  /-- The lines after it. -/
  more : List Line
  deriving DecidableEq, Repr

namespace Cursor

/-- The beginning of a line. -/
def atLine (number : Nat) (line : Line) (more : List Line) : Cursor :=
  ⟨number, line.text.length, line.text, line.ending, more⟩

/-- The beginning of a text. -/
def ofText (text : List Char) : Cursor :=
  let (line, more) := splitLines [] text
  atLine 0 line more

/-- The number of characters before the place in its line. -/
def column (c : Cursor) : Nat := c.width - c.rest.length

/-- The bytes that the rest of the line takes up in UTF-8. -/
def bytesLeft (c : Cursor) : Nat := c.rest.foldl (fun n char => n + char.utf8Size) 0

/-- Whether nothing follows. -/
def isEnd (c : Cursor) : Bool := c.rest.isEmpty && c.more.isEmpty

/-- The place after some characters of the line. -/
def drop (c : Cursor) (count : Nat) : Cursor := { c with rest := c.rest.drop count }

/-- The beginning of the next line, or the end of the last one. -/
def nextLine (c : Cursor) : Cursor :=
  match c.more with
  | [] => c.drop c.rest.length
  | line :: more => atLine (c.number + 1) line more

/-- Whether three characters at the beginning of a line stand alone. -/
def hasIndicator (c : Cursor) (char : Char) : Bool :=
  c.column = 0 && c.rest.take 3 = [char, char, char] && endsWord (c.rest.drop 3)

/-- Whether the place marks the beginning or the end of a document. -/
def atIndicator (c : Cursor) : Bool := c.hasIndicator '-' || c.hasIndicator '.'

end Cursor

/-- Whether the blanks at the beginning of a line hold a tab in the first `tabLimit` columns. -/
def Line.hasTab (line : Line) (tabLimit : Nat) : Bool :=
  ((line.text.takeWhile isSeparator).take tabLimit).contains '\t'

/-- The first place that is not blank from the beginning of a line on, or the end of the text, and
the line breaks before it. A tab in the first `tabLimit` columns is refused. -/
def toContent (tabLimit : Nat) (number : Nat) (breaks : List Char) (line : Line) :
    List Line → Option (List Char × Cursor)
  | [] =>
    if line.hasTab tabLimit then none
    else
      some (breaks, { Cursor.atLine number line [] with rest := line.text.dropWhile isSeparator })
  | next :: more =>
    if line.hasTab tabLimit then none
    else if line.text.all isSeparator then
      toContent tabLimit (number + 1) (breaks ++ line.ending) next more
    else some (breaks,
      { Cursor.atLine number line (next :: more) with rest := line.text.dropWhile isSeparator })

theorem length_of_toContent {tabLimit number : Nat} {breaks found : List Char} {line : Line}
    {more : List Line} {c : Cursor}
    (h : toContent tabLimit number breaks line more = some (found, c)) :
    c.more.length ≤ more.length := by
  induction more generalizing number breaks line with
  | nil =>
    unfold toContent at h
    split at h
    · simp at h
    · simp only [Option.some.injEq, Prod.mk.injEq] at h
      simp [← h.2, Cursor.atLine]
  | cons next more ih =>
    unfold toContent at h
    split at h
    · simp at h
    · split at h
      · exact Nat.le_succ_of_le (ih h)
      · simp only [Option.some.injEq, Prod.mk.injEq] at h
        simp [← h.2, Cursor.atLine]

end MutationRules.Yaml
