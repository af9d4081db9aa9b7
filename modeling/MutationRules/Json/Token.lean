import MutationRules.Json.Number
import MutationRules.Text.Hexadecimal

/-!
# JSON tokens

A JSON text as a list of tokens. Strings lose their quotes and escapes here; an escaped pair of
surrogates becomes one character and a lone one is refused.
-/

namespace MutationRules.Json

/-- A token. -/
inductive Token
  | openArray | closeArray | openObject | closeObject | colon | comma
  /-- A value that is a single token. -/
  | atom (value : Value)
  deriving Repr

namespace Token

/-- The characters that may stand between tokens. -/
def isSpace (c : Char) : Bool := c = ' ' || c = '\n' || c = '\t' || c = '\r'

/-- The character that stands after a backslash for another. -/
def escaped? : Char → Option Char
  | '"' => some '"'
  | '\\' => some '\\'
  | '/' => some '/'
  | 'b' => some '\x08'
  | 'f' => some '\x0c'
  | 'n' => some '\n'
  | 'r' => some '\r'
  | 't' => some '\t'
  | _ => none

/-- The character of an escaped unit that is no surrogate. -/
def plainUnit? (unit : Nat) : Option Char :=
  if 0xD800 ≤ unit ∧ unit < 0xE000 then none else some (Char.ofNat unit)

/-- The character of an escaped pair of surrogates. -/
def surrogatePair? (high low : Nat) : Option Char :=
  if 0xD800 ≤ high ∧ high < 0xDC00 ∧ 0xDC00 ≤ low ∧ low < 0xE000 then
    some (Char.ofNat (0x10000 + (high - 0xD800) * 0x400 + (low - 0xDC00)))
  else none

/-- The character of an escaped unit, and what follows it; a pair of surrogates takes two. -/
def unicodeEscape? (a b c d : Char) (rest : List Char) : Option (Char × List Char) := do
  let unit ← Text.hexNumber? [a, b, c, d]
  match plainUnit? unit, rest with
  | some char, rest => some (char, rest)
  | none, '\\' :: 'u' :: e :: f :: g :: h :: rest =>
    (surrogatePair? unit (← Text.hexNumber? [e, f, g, h])).map (·, rest)
  | none, _ => none

theorem length_of_unicodeEscape? {a b c d char : Char} {text rest : List Char}
    (h : unicodeEscape? a b c d text = some (char, rest)) : rest.length ≤ text.length := by
  unfold unicodeEscape? at h
  cases hu : Text.hexNumber? [a, b, c, d] with
  | none => simp [hu] at h
  | some unit =>
    simp only [hu, Option.bind_eq_bind, Option.bind_some] at h
    split at h
    · simp_all
    · simp only [Option.bind_eq_some_iff, Option.map_eq_some_iff] at h
      obtain ⟨_, _, _, _, h⟩ := h
      simp only [Prod.mk.injEq] at h
      simp [← h.2]
      omega
    · simp at h

/-- The rest of a string after `done`, up to its closing quote, and what follows. -/
def stringBody (done : List Char) : List Char → Option (String × List Char)
  | [] => none
  | '"' :: rest => some (String.ofList done.reverse, rest)
  | '\\' :: 'u' :: a :: b :: c :: d :: rest =>
    match h : unicodeEscape? a b c d rest with
    | some (char, rest') =>
      have := length_of_unicodeEscape? h
      stringBody (char :: done) rest'
    | none => none
  | '\\' :: mark :: rest =>
    match escaped? mark with
    | some char => stringBody (char :: done) rest
    | none => none
  | char :: rest => if char.toNat < 0x20 then none else stringBody (char :: done) rest
termination_by text => text.length

theorem length_of_stringBody {done text rest : List Char} {s : String}
    (h : stringBody done text = some (s, rest)) : rest.length < text.length := by
  fun_induction stringBody done text with
  | case1 => simp at h
  | case2 => simp_all
  | case3 _ _ _ _ _ _ _ _ _ _ ih => have := ih h; simp; omega
  | case4 => simp at h
  | case5 _ _ _ _ _ _ ih => have := ih h; simp; omega
  | case6 => simp at h
  | case7 => simp at h
  | case8 _ _ _ _ _ _ _ ih => have := ih h; simp; omega

/-- The literal with a name. -/
def word? (letters : List Char) : Option Value :=
  match String.ofList letters with
  | "null" => some .null
  | "true" => some (.bool true)
  | "false" => some (.bool false)
  | _ => none

/-- The characters of which numbers are made. -/
def isNumberChar (c : Char) : Bool :=
  c.isDigit || c = '-' || c = '+' || c = '.' || c = 'e' || c = 'E'

/-- The tokens of a text. -/
def ofChars? : List Char → Option (List Token)
  | [] => some []
  | '[' :: rest => (ofChars? rest).map (.openArray :: ·)
  | ']' :: rest => (ofChars? rest).map (.closeArray :: ·)
  | '\x7b' :: rest => (ofChars? rest).map (.openObject :: ·)
  | '\x7d' :: rest => (ofChars? rest).map (.closeObject :: ·)
  | ':' :: rest => (ofChars? rest).map (.colon :: ·)
  | ',' :: rest => (ofChars? rest).map (.comma :: ·)
  | '"' :: rest =>
    match h : stringBody [] rest with
    | none => none
    | some (text, after) =>
      have := length_of_stringBody h
      (ofChars? after).map (.atom (.string text) :: ·)
  | c :: rest =>
    if isSpace c then ofChars? rest
    else if c = '-' ∨ c.isDigit then do
      let number ← Number.ofChars? (c :: rest.takeWhile isNumberChar)
      let tokens ← ofChars? (rest.dropWhile isNumberChar)
      return .atom (.number number) :: tokens
    else do
      let value ← word? (c :: rest.takeWhile Char.isAlpha)
      let tokens ← ofChars? (rest.dropWhile Char.isAlpha)
      return .atom value :: tokens
termination_by text => text.length
decreasing_by
  all_goals simp only [List.length_cons]
  all_goals first
    | omega
    | exact Nat.lt_succ_of_le (List.dropWhile_suffix _).length_le

end Token

end MutationRules.Json
