import MutationRules.Json.Value

/-!
# Numbers in JSON text

An integer is exact if it fits sixty-four bits, signed below zero and unsigned above. Any other
number becomes a double by a fixed procedure: the digits that fit an unsigned word are scaled by a
rounded power of ten. A number beyond the range of doubles is refused.
-/

namespace MutationRules.Json.Number

/-- The greatest unsigned word. -/
def maxWord : Nat := 0xFFFFFFFFFFFFFFFF

/-- The greatest exponent that is computed with. -/
def maxExponent : Nat := 0x7FFFFFFF

/-- The digits of a text and what follows them. -/
def digits (text : List Char) : List Nat × List Char :=
  ((text.takeWhile Char.isDigit).map fun c => c.toNat - '0'.toNat, text.dropWhile Char.isDigit)

/-- Append digits to a number while it stays within a limit; also the number of digits left over. -/
def accumulate (limit : Nat) (number : Nat) : List Nat → Nat × Nat
  | [] => (number, 0)
  | d :: rest =>
    if limit < number * 10 + d then (number, rest.length + 1)
    else accumulate limit (number * 10 + d) rest

/-- `significand · 10 ^ -shift`, by one division for each 308 powers of ten. -/
def scaleDown (value : Binary64) (shift : Nat) : Binary64 :=
  if shift ≤ 308 then value.div (.powerOfTen shift)
  else if value = .zero then value
  else scaleDown (value.div (.powerOfTen 308)) (shift - 308)
termination_by shift

/-- The double for `significand · 10 ^ exponent`, unless it is out of range. -/
def scaled? (significand : Nat) (exponent : Int) : Option Binary64 :=
  let value := Binary64.ofNat significand
  if exponent < 0 then some (scaleDown value exponent.natAbs)
  else if exponent.natAbs ≤ 308 then
    let product := value.mul (.powerOfTen exponent.natAbs)
    if product.isFinite then some product else none
  else if significand = 0 then some value
  else none

/-- The magnitude of the least signed integer of a word. -/
def minMagnitude : Nat := 0x8000000000000000

/-- The value of an integer without fraction and exponent. -/
def ofInteger (negative : Bool) (significand : Nat) : Number :=
  if !negative then .integer significand
  else if significand = 0 ∨ minMagnitude < significand then .double true (.ofNat significand)
  else .integer (-significand)

/-- Read the exponent of a number, if one follows, and finish the number. -/
def readExponent (negative : Bool) (significand : Nat) (shift : Int) (text : List Char) :
    Option Number :=
  match text with
  | [] => (scaled? significand shift).map (.double negative)
  | mark :: rest =>
    if mark ≠ 'e' ∧ mark ≠ 'E' then none
    else
      let (down, rest) := match rest with
        | '-' :: rest => (true, rest)
        | '+' :: rest => (false, rest)
        | rest => (false, rest)
      match digits rest with
      | ([], _) => none
      | (_, _ :: _) => none
      | (ds, []) =>
        match accumulate maxExponent 0 ds with
        | (exponent, 0) =>
          (scaled? significand (if down then shift - exponent else shift + exponent)).map
            (.double negative)
        | _ => if significand ≠ 0 ∧ !down then none else some (.double negative .zero)

/-- Read a number without its sign. -/
def readUnsigned (negative : Bool) (text : List Char) : Option Number :=
  match digits text with
  | ([], _) => none
  | (0 :: _ :: _, _) => none
  | (whole, rest) =>
    let (significand, excess) := accumulate maxWord 0 whole
    match rest with
    | [] =>
      if excess = 0 then some (ofInteger negative significand)
      else (scaled? significand excess).map (.double negative)
    | '.' :: rest =>
      match digits rest with
      | ([], _) => none
      | (fraction, rest) =>
        let (significand, dropped) := accumulate maxWord significand fraction
        readExponent negative significand (excess + dropped - fraction.length) rest
    | rest => readExponent negative significand excess rest

/-- Read a number. -/
def ofChars? (text : List Char) : Option Number :=
  match text with
  | '-' :: rest => readUnsigned true rest
  | rest => readUnsigned false rest

end MutationRules.Json.Number
