/-!
# Blank characters

The characters with the Unicode property White_Space. Rule names are read without them, and no
literal may hold one.
-/

namespace MutationRules.Text

/-- The first and last code points of each run of White_Space characters. -/
def blankRanges : List (Nat × Nat) := [
  (0x9, 0xD), (0x20, 0x20), (0x85, 0x85), (0xA0, 0xA0), (0x1680, 0x1680), (0x2000, 0x200A),
  (0x2028, 0x2029), (0x202F, 0x202F), (0x205F, 0x205F), (0x3000, 0x3000)]

/-- Whether a character has the property White_Space. -/
def isBlank (c : Char) : Bool :=
  blankRanges.any fun range => range.1 ≤ c.toNat && c.toNat ≤ range.2

/-- A text without its blanks. -/
def unspaced (text : List Char) : List Char := text.filter fun c => !isBlank c

@[simp] theorem unspaced_append (a b : List Char) : unspaced (a ++ b) = unspaced a ++ unspaced b :=
  List.filter_append ..

end MutationRules.Text
