/-!
# Styled and padded text

Terminal styles, which are written only where colour is wanted, and fields of a fixed width.
-/

namespace MutationRules.Text

/-- A terminal style. -/
inductive Style
  | bold | dim | red | green | yellow | magenta | cyan
  deriving DecidableEq, Repr

namespace Style

/-- The number of the style in an escape sequence. -/
def code : Style → Nat
  | bold => 1
  | dim => 2
  | red => 31
  | green => 32
  | yellow => 33
  | magenta => 35
  | cyan => 36

end Style

/-- A text in the given styles if colour is wanted. -/
def paint (color : Bool) (styles : List Style) (text : String) : String :=
  if color && !styles.isEmpty then
    "\x1b[" ++ String.intercalate ";" (styles.map fun style => style.code.repr) ++ "m" ++ text ++
      "\x1b[0m"
  else text

/-- A text followed by blanks up to a width. -/
def padRight (width : Nat) (text : String) : String := text.pushn ' ' (width - text.length)

/-- A text after blanks up to a width. -/
def padLeft (width : Nat) (text : String) : String := "".pushn ' ' (width - text.length) ++ text

/-- Lines with an end of line after each. -/
def unlines (lines : List String) : String := String.join (lines.map (· ++ "\n"))

end MutationRules.Text
